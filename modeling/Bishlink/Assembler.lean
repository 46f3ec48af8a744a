import Bishlink.Fec
import Bishlink.Packet
import Bishlink.Subscription
import Mathlib.Data.List.GetD

/-!
# Frame assemblers

`frame_assembler_t`, the slots in which a connection collects the symbols of incoming
objects, and the steps `on_receive_datagram_frame` performs on one slot. The buffers and
the mask of a slot are a `SymbolStore`: its fields say how long the arrays are, so a step
that touches them can only go wrong through an index or a copy length, and these are
checked (`Checked`).
-/

namespace Bishlink

open ByteCodec Checked

/-! ## Buffers and mask -/

/-- `buffers` and `received_mask` of a slot with their capacities. A slot that was never
assigned has no buffers at all. -/
structure SymbolStore where
  capacitySymbols : ℕ
  capacitySymbolSize : ℕ
  buffers : List Bytes
  receivedMask : List Bool
  length_buffers : buffers.length = capacitySymbols
  length_of_mem_buffers : ∀ b ∈ buffers, b.length = capacitySymbolSize
  length_receivedMask : receivedMask.length = capacitySymbols
deriving DecidableEq

namespace SymbolStore

/-- `buffers == NULL`. -/
def null : SymbolStore := ⟨0, 0, [], [], rfl, by simp, rfl⟩

/-- Freshly `calloc`ed arrays. -/
def alloc (n size : ℕ) : SymbolStore where
  capacitySymbols := n
  capacitySymbolSize := size
  buffers := List.replicate n (List.replicate size 0)
  receivedMask := List.replicate n false
  length_buffers := by simp
  length_of_mem_buffers := by
    intro b hb
    rw [List.eq_of_mem_replicate hb, List.length_replicate]
  length_receivedMask := by simp

/-- Keep the arrays when they are there and large enough, else replace them. -/
def ensure (st : SymbolStore) (totalSymbols symbolSize : ℕ) : SymbolStore :=
  if st.buffers = [] ∨ st.capacitySymbols < totalSymbols ∨ st.capacitySymbolSize < symbolSize then
    alloc (if 256 < totalSymbols then totalSymbols else 256)
      (if 1250 < symbolSize then symbolSize else 1250)
  else st

/-- `memset(received_mask, 0, ..)`. -/
def clearMask (st : SymbolStore) : SymbolStore :=
  { st with
    receivedMask := List.replicate st.capacitySymbols false
    length_receivedMask := by simp }

/-- Overwrite the start of buffers in place; `symbols i` is what goes into buffer `i`. -/
def overwrite (st : SymbolStore) (symbols : ℕ → Option Bytes) : SymbolStore :=
  { st with
    buffers := st.buffers.mapIdx fun i b =>
      match symbols i with
      | none => b
      | some s => writeAt b 0 (s.take b.length)
    length_buffers := by rw [List.length_mapIdx, st.length_buffers]
    length_of_mem_buffers := by
      intro b hb
      obtain ⟨i, hi, rfl⟩ := List.mem_mapIdx.mp hb
      have hlen := st.length_of_mem_buffers _ (List.getElem_mem hi)
      split
      · exact hlen
      · rw [length_writeAt (by simp)]
        exact hlen }

/-- Set the mark of symbol `i`. -/
def mark (st : SymbolStore) (i : ℕ) : SymbolStore :=
  { st with
    receivedMask := st.receivedMask.set i true
    length_receivedMask := by rw [List.length_set, st.length_receivedMask] }

/-- `received_mask[i]`. -/
def received (st : SymbolStore) (i : ℕ) : Bool := st.receivedMask.getD i false

/-- `buffers[i]`. -/
def buffer (st : SymbolStore) (i : ℕ) : Bytes := st.buffers.getD i []

/-! Reading a store after the operations on it. -/

theorem length_buffer {st : SymbolStore} {i : ℕ} (h : i < st.capacitySymbols) :
    (st.buffer i).length = st.capacitySymbolSize := by
  have hi : i < st.buffers.length := by rw [st.length_buffers]; exact h
  rw [buffer, List.getD_eq_getElem _ _ hi]
  exact st.length_of_mem_buffers _ (List.getElem_mem hi)

theorem received_of_le {st : SymbolStore} {i : ℕ} (h : st.capacitySymbols ≤ i) :
    st.received i = false := by
  rw [received, List.getD_eq_default]
  rw [st.length_receivedMask]
  exact h

@[simp] theorem received_clearMask (st : SymbolStore) (i : ℕ) :
    st.clearMask.received i = false := by
  simp [received, clearMask, List.getD_eq_getElem?_getD, List.getElem?_replicate]
  split <;> rfl

@[simp] theorem capacitySymbols_overwrite (st : SymbolStore) (f : ℕ → Option Bytes) :
    (st.overwrite f).capacitySymbols = st.capacitySymbols := rfl

@[simp] theorem capacitySymbolSize_overwrite (st : SymbolStore) (f : ℕ → Option Bytes) :
    (st.overwrite f).capacitySymbolSize = st.capacitySymbolSize := rfl

@[simp] theorem received_overwrite (st : SymbolStore) (f : ℕ → Option Bytes) (i : ℕ) :
    (st.overwrite f).received i = st.received i := rfl

/-- A buffer after `overwrite`: untouched, or with the new symbol at its start. -/
theorem buffer_overwrite {st : SymbolStore} {i : ℕ} (h : i < st.capacitySymbols)
    (f : ℕ → Option Bytes) :
    (st.overwrite f).buffer i =
      match f i with
      | none => st.buffer i
      | some s => writeAt (st.buffer i) 0 (s.take st.capacitySymbolSize) := by
  have hi : i < st.buffers.length := by rw [st.length_buffers]; exact h
  have hlen := st.length_of_mem_buffers _ (List.getElem_mem hi)
  rw [buffer, overwrite, List.getD_eq_getElem _ _ (by rw [List.length_mapIdx]; exact hi),
    List.getElem_mapIdx, buffer, List.getD_eq_getElem _ _ hi, hlen]

@[simp] theorem buffer_mark (st : SymbolStore) (i j : ℕ) : (st.mark i).buffer j = st.buffer j := rfl

theorem received_mark {st : SymbolStore} {i : ℕ} (h : i < st.capacitySymbols) (j : ℕ) :
    (st.mark i).received j = (if j = i then true else st.received j) := by
  have hi : i < st.receivedMask.length := by rw [st.length_receivedMask]; exact h
  rw [received, mark, List.getD_eq_getElem?_getD, List.getElem?_set, received,
    List.getD_eq_getElem?_getD]
  by_cases hij : i = j
  · rw [if_pos hij, if_pos hi, if_pos hij.symm, Option.getD_some]
  · rw [if_neg hij, if_neg (fun h => hij h.symm)]

/-- After `ensure` the arrays are large enough. -/
theorem le_capacitySymbols_ensure (st : SymbolStore) (n size : ℕ) :
    n ≤ (st.ensure n size).capacitySymbols := by
  rw [ensure]
  split
  · rw [alloc]; dsimp only; split <;> omega
  · omega

theorem le_capacitySymbolSize_ensure (st : SymbolStore) (n size : ℕ) :
    size ≤ (st.ensure n size).capacitySymbolSize := by
  rw [ensure]
  split
  · rw [alloc]; dsimp only; split <;> omega
  · omega

end SymbolStore

/-! ## Slots -/

/-- `frame_assembler_t`. The mask is never shorter than the total of the slot: it is
allocated for the total the slot was assigned with. -/
structure FrameAssembler where
  trackId : UInt8
  groupId : UInt32
  objectId : UInt32
  totalSymbols : ℕ
  dataSymbols : ℕ
  symbolSize : ℕ
  originalSize : ℕ
  receivedCount : ℕ
  store : SymbolStore
  decoded : Bool
  priority : UInt8
  nackSent : Bool
  totalSymbols_le : totalSymbols ≤ store.capacitySymbols
deriving DecidableEq

namespace FrameAssembler

/-- A zeroed slot. -/
def zero : FrameAssembler :=
  ⟨0, 0, 0, 0, 0, 0, 0, 0, SymbolStore.null, false, 0, false, le_refl _⟩

/-- The lookup test: the slot is in use and belongs to the object of the header. -/
def holds (a : FrameAssembler) (trackId : UInt8) (groupId objectId : UInt32) : Bool :=
  decide (0 < a.totalSymbols) && a.trackId == trackId && a.groupId == groupId &&
    a.objectId == objectId

/-- Reassign a slot to the object of a header. -/
def assign (a : FrameAssembler) (h : FecPacketHeader) : FrameAssembler where
  trackId := h.trackId
  groupId := h.groupId
  objectId := h.objectId
  totalSymbols := h.totalSymbols.toNat
  dataSymbols := h.dataSymbols.toNat
  symbolSize := h.symbolSize.toNat
  originalSize := h.originalSize.toNat
  receivedCount := 0
  -- the mask is cleared, the buffers keep the bytes of the object before
  store := (a.store.ensure h.totalSymbols.toNat h.symbolSize.toNat).clearMask
  decoded := false
  priority := h.priority
  nackSent := false
  totalSymbols_le := SymbolStore.le_capacitySymbols_ensure _ _ _

/-- Store the symbol of a datagram unless it is there already. -/
def storeSymbol (a : FrameAssembler) (index size : ℕ) (symbol : Bytes) :
    Except Fault FrameAssembler := do
  checkIndex index a.store.capacitySymbols
  -- a symbol that comes again is not counted again
  if a.store.received index then .ok a
  else do
    checkCopy size a.store.capacitySymbolSize
    .ok { a with
      store := (a.store.overwrite fun i =>
        if i = index then some (symbol.take size) else none).mark index
      receivedCount := a.receivedCount + 1
      totalSymbols_le := a.totalSymbols_le }

/-- The indices a NACK names: the symbols of the slot that have not arrived. -/
def missingIndices (a : FrameAssembler) : List ℕ :=
  (List.range a.totalSymbols).filter fun i => !a.store.received i

/-- The NACK decision on a DATA track: once half of the data symbols are there, the
missing symbols are requested, one time for each object. -/
def requestMissing (a : FrameAssembler) (type : MoqTrackType) :
    Except Fault (FrameAssembler × Option (List ℕ)) :=
  if type = MOQ_TRACK_DATA ∧ a.decoded = false ∧ a.nackSent = false ∧
      (a.dataSymbols + 1) / 2 ≤ a.receivedCount then do
    checkIndices a.totalSymbols a.store.capacitySymbols
    checkIndices a.missingIndices.length a.store.capacitySymbols
    if a.missingIndices = [] then .ok (a, none)
    else .ok ({ a with nackSent := true, totalSymbols_le := a.totalSymbols_le },
      some a.missingIndices)
  else .ok (a, none)

end FrameAssembler

/-- The loop that looks for a missing data symbol among the `n` marks from `i` on. -/
def gotAllData (mask : List Bool) : (i n : ℕ) → Except Fault Bool
  | _, 0 => .ok true
  | i, n + 1 => do
    checkIndex i mask.length
    if mask.getD i false then gotAllData mask (i + 1) n else .ok false

/-- `size_t parity_symbols = total_symbols - data_symbols`: a negative difference wraps. -/
def paritySymbols (totalSymbols dataSymbols : ℕ) : ℕ :=
  if dataSymbols ≤ totalSymbols then totalSymbols - dataSymbols
  else 2 ^ 64 - (dataSymbols - totalSymbols)

/-- `bool missing[256]`, filled for the symbols below the total. -/
def missingMask (st : SymbolStore) (totalSymbols : ℕ) : List Bool :=
  (List.range 256).map fun i => decide (i < totalSymbols) && !st.received i

/-- The erasure code the receiver picks. -/
def receiverFecType (type : MoqTrackType) (totalSymbols : ℕ) : FecType :=
  if type = MOQ_TRACK_DATA ∧ 255 < totalSymbols then .FEC_RAPTORQ else .FEC_REED_SOLOMON

/-- The decoding branch, entered with a data symbol missing: what `fec_decode` writes into
each buffer, or `none` when the object cannot be completed yet. -/
def recoverSymbols (lib : FecLib) (cache : FecCache) (now : ℕ) (type : MoqTrackType)
    (st : SymbolStore) (totalSymbols dataSymbols symbolSize : ℕ) :
    Except Fault (Option (ℕ → Option Bytes) × FecCache) :=
  if 0 < paritySymbols totalSymbols dataSymbols then
    let r := getCachedFec lib cache now ⟨receiverFecType type totalSymbols, dataSymbols,
      paritySymbols totalSymbols dataSymbols, symbolSize⟩
    match r.1 with
    -- no context: nothing is decoded, and nothing is reported
    | none => .ok (none, r.2)
    | some fec => do
      -- the loop runs to the total, over an array of 256
      checkIndices totalSymbols 256
      checkIndices totalSymbols st.capacitySymbols
      let symbols ← fecDecode lib fec st.buffers (missingMask st totalSymbols)
      .ok (symbols, r.2)
  else .ok (none, cache)

/-- The loop that copies the data symbols into `full_data`. -/
def copyObject (buffers : List Bytes) (symbolSize : ℕ) :
    (i n bytesLeft : ℕ) → (fullData : Bytes) → Except Fault Bytes
  | _, 0, _, fullData => .ok fullData
  | i, n + 1, bytesLeft, fullData =>
    let chunk := if bytesLeft < symbolSize then bytesLeft else symbolSize
    if 0 < chunk then do
      checkIndex i buffers.length
      checkCopy chunk (buffers.getD i []).length
      checkCopy (i * symbolSize + chunk) fullData.length
      copyObject buffers symbolSize (i + 1) n (bytesLeft - chunk)
        (writeAt fullData (i * symbolSize) ((buffers.getD i []).take chunk))
    else copyObject buffers symbolSize (i + 1) n bytesLeft fullData

/-! ## The ring of slots -/

/-- `ASSEMBLER_CACHE_SIZE`. -/
def ASSEMBLER_CACHE_SIZE : ℕ := 16

/-- `conn->assemblers` and `conn->assembler_index`. -/
structure AssemblerCache where
  slots : List FrameAssembler
  index : ℕ
  length_slots : slots.length = ASSEMBLER_CACHE_SIZE
  index_lt : index < ASSEMBLER_CACHE_SIZE
deriving DecidableEq

namespace AssemblerCache

def empty : AssemblerCache where
  slots := List.replicate ASSEMBLER_CACHE_SIZE FrameAssembler.zero
  index := 0
  length_slots := by simp
  index_lt := by decide

/-- `assemblers[i]`. -/
def slot (c : AssemblerCache) (i : ℕ) : FrameAssembler := c.slots.getD i FrameAssembler.zero

/-- The slot that holds the object of the header. -/
def find (c : AssemblerCache) (h : FecPacketHeader) : Option ℕ :=
  c.slots.findIdx? (·.holds h.trackId h.groupId h.objectId)

/-- Write slot `i` back. -/
def set (c : AssemblerCache) (i : ℕ) (a : FrameAssembler) : AssemblerCache :=
  { c with slots := c.slots.set i a, length_slots := by rw [List.length_set, c.length_slots] }

/-- Assign the slot at `assembler_index` to a new object and step the index around the ring. -/
def evict (c : AssemblerCache) (h : FecPacketHeader) : AssemblerCache where
  slots := c.slots.set c.index ((c.slot c.index).assign h)
  index := (c.index + 1) % ASSEMBLER_CACHE_SIZE
  length_slots := by rw [List.length_set, c.length_slots]
  index_lt := Nat.mod_lt _ (by decide)

end AssemblerCache

end Bishlink
