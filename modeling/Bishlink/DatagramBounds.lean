import Bishlink.Contexts
import Bishlink.Reassembly

/-!
# Which datagrams stay in range

`Fits` says of a slot and a header, before the step, that the handler will stay in its arrays
and will not compute a negative number of parity symbols. It is exact (`slotStep_fits`), and so
is `DatagramFits` for whole runs of the system (`datagrams_inRange`).
-/

namespace Bishlink

open ByteCodec Checked

/-! ## The decoder -/

/-- The decoder gets as far as the blocks: the Reed-Solomon code always does, RaptorQ when there
are symbols to restore and enough repair symbols. -/
def DecoderTouches (type : MoqTrackType) (st : SymbolStore) (total data : ℕ) : Prop :=
  receiverFecType type total = .FEC_REED_SOLOMON ∨
    (droppedEsi data (missingMask st total) ≠ [] ∧
      (droppedEsi data (missingMask st total)).length ≤
        (repairEsi data (total - data) (missingMask st total)).length)

/-- The decoding branch fits: no more data symbols than symbols, and where there is parity and a
context, room for the marks in `missing[256]` and for the symbols in the buffers. -/
def DecoderFits (lib : FecLib) (type : MoqTrackType) (st : SymbolStore)
    (total data size : ℕ) : Prop :=
  data < total → lib.creates (receiverFecParams type total data size) = true →
    total ≤ 256 ∧ total ≤ st.capacitySymbols ∧
      (DecoderTouches type st total data → size ≤ st.capacitySymbolSize)

theorem paritySymbols_of_le {total data : ℕ} (h : data ≤ total) :
    paritySymbols total data = total - data := if_pos h

theorem length_missingMask (st : SymbolStore) (total : ℕ) :
    (missingMask st total).length = 256 := by
  simp [missingMask]

theorem mem_droppedEsi {d i : ℕ} {missing : List Bool} :
    i ∈ droppedEsi d missing ↔ i < d ∧ missing.getD i false = true := by
  rw [droppedEsi, List.mem_filter, List.mem_range]

/-- A repair row is a present parity symbol. -/
theorem mem_repairEsi {d p row : ℕ} {missing : List Bool} :
    row ∈ repairEsi d p missing ↔ d ≤ row ∧ row < d + p ∧ missing.getD row false = false := by
  rw [repairEsi, List.mem_filter, List.mem_map, Bool.not_eq_true', ← and_assoc]
  refine and_congr_left fun _ => ⟨?_, ?_⟩
  · rintro ⟨i, hi, rfl⟩
    have hlt := List.mem_range.mp hi
    omega
  · rintro ⟨hle, hlt⟩
    exact ⟨row - d, List.mem_range.mpr (by omega), by omega⟩

theorem nodup_droppedEsi (d : ℕ) (missing : List Bool) : (droppedEsi d missing).Nodup :=
  List.nodup_range.filter _

theorem nodup_repairEsi (d p : ℕ) (missing : List Bool) : (repairEsi d p missing).Nodup := by
  apply List.Nodup.filter
  apply List.nodup_range.map
  intro i j hij
  exact Nat.add_left_cancel hij

/-- Blocks of a store are in range below the capacity. -/
theorem checkBlocks_buffers {st : SymbolStore} (size : ℕ) {is : List ℕ}
    (his : ∀ i ∈ is, i < st.capacitySymbols) (hne : is ≠ []) :
    checkBlocks size st.buffers is = .ok () ↔ size ≤ st.capacitySymbolSize := by
  rw [checkBlocks_eq_ok]
  constructor
  · intro h
    obtain ⟨i, hi⟩ := List.exists_mem_of_ne_nil is hne
    have hlen := (h i hi).2
    rwa [← SymbolStore.buffer, SymbolStore.length_buffer (his i hi)] at hlen
  · intro h i hi
    rw [st.length_buffers, ← SymbolStore.buffer, SymbolStore.length_buffer (his i hi)]
    exact ⟨his i hi, h⟩

/-- Reading the mask `missing` below the total. -/
theorem getD_missingMask {st : SymbolStore} {total i : ℕ} (hi : i < 256) :
    (missingMask st total).getD i false = (decide (i < total) && !st.received i) := by
  rw [List.getD_eq_getElem _ _ (by rw [length_missingMask]; exact hi)]
  simp [missingMask]

/-- `fec_decode` stays in range. -/
theorem fecDecode_fits {lib : FecLib} {type : MoqTrackType} {st : SymbolStore}
    {total data size : ℕ} (hparity : data < total) (hmask : total ≤ 256)
    (hcap : total ≤ st.capacitySymbols) :
    (∃ s, fecDecode lib ⟨0, receiverFecParams type total data size⟩ st.buffers
        (missingMask st total) = .ok s) ↔
      (DecoderTouches type st total data → size ≤ st.capacitySymbolSize) := by
  have hp : paritySymbols total data = total - data := paritySymbols_of_le (by omega)
  have htotal : data + (total - data) = total := by omega
  rw [DecoderTouches]
  cases hcode : receiverFecType type total with
  | FEC_REED_SOLOMON =>
    have hmod : total % 2 ^ 64 = total := Nat.mod_eq_of_lt (by omega)
    simp only [fecDecode, receiverFecParams, hcode, hp, htotal, hmod, bind_eq_ok,
      checkIndices_eq_ok, length_missingMask, hmask, exists_const, true_and, true_or,
      forall_const]
    -- the decoder is given all blocks
    have hrange : ∀ i ∈ List.range total, i < st.capacitySymbols := by
      intro i hi
      have hlt := List.mem_range.mp hi
      omega
    rw [← checkBlocks_buffers size hrange (by simp; omega)]
    constructor
    · rintro ⟨s, u, hs, -⟩
      exact hs
    · intro hs
      cases lib.reedSolomonDecode data (total - data) size
          ((st.buffers.take total).map (·.take size)) ((missingMask st total).take total) with
      | none => exact ⟨_, (), hs, rfl⟩
      | some out => exact ⟨_, (), hs, rfl⟩
  | FEC_RAPTORQ =>
    simp only [fecDecode, receiverFecParams, hcode, hp, htotal, bind_eq_ok,
      checkIndices_eq_ok, length_missingMask, hmask, exists_const, true_and, reduceCtorEq,
      false_or]
    by_cases hfew : (repairEsi data (total - data) (missingMask st total)).length <
        (droppedEsi data (missingMask st total)).length
    · rw [if_pos hfew]
      exact iff_of_true ⟨_, rfl⟩ fun h => absurd h.2 (by omega)
    rw [if_neg hfew]
    by_cases hnone : droppedEsi data (missingMask st total) = []
    · rw [if_pos hnone]
      exact iff_of_true ⟨_, rfl⟩ fun h => absurd hnone h.1
    rw [if_neg hnone]
    -- a data symbol is missing, so there is a block to read
    have hdata : 0 < data := by
      obtain ⟨i, hi⟩ := List.exists_mem_of_ne_nil _ hnone
      have hlt := (mem_droppedEsi.mp hi).1
      omega
    have hrange : ∀ i ∈ List.range data ++ ((droppedEsi data (missingMask st total)).zip
        (repairEsi data (total - data) (missingMask st total))).map Prod.snd,
        i < st.capacitySymbols := by
      intro i hi
      rcases List.mem_append.mp hi with hi | hi
      · have hlt := List.mem_range.mp hi
        omega
      · obtain ⟨⟨k, row⟩, hpair, rfl⟩ := List.mem_map.mp hi
        have hrow := (mem_repairEsi.mp (List.of_mem_zip hpair).2).2.1
        dsimp only
        omega
    have hne : List.range data ++ ((droppedEsi data (missingMask st total)).zip
        (repairEsi data (total - data) (missingMask st total))).map Prod.snd ≠ [] := by
      intro h
      have hnil := (List.append_eq_nil_iff.mp h).1
      rw [List.range_eq_nil] at hnil
      omega
    have hblocks := checkBlocks_buffers size hrange hne
    constructor
    · rintro ⟨s, hs⟩ -
      obtain ⟨u, hu, -⟩ := bind_eq_ok.mp hs
      exact hblocks.mp hu
    · intro h
      have hsize := hblocks.mpr (h ⟨hnone, by omega⟩)
      rw [hsize, ok_bind]
      split
      · exact ⟨_, rfl⟩
      · exact ⟨_, rfl⟩

/-- The decoding branch stays in range. -/
theorem recovered_fits {lib : FecLib} {type : MoqTrackType} {st : SymbolStore}
    {total data size : ℕ} (hle : data ≤ total) :
    (∃ s, recovered lib type st total data size = .ok s) ↔
      DecoderFits lib type st total data size := by
  rw [recovered, DecoderFits, paritySymbols_of_le hle]
  by_cases hparity : data < total
  · by_cases hcreates : lib.creates (receiverFecParams type total data size) = true
    · rw [if_pos ⟨by omega, hcreates⟩]
      simp only [bind_eq_ok, checkIndices_eq_ok, exists_const, exists_and_left, hparity,
        hcreates, true_implies]
      refine and_congr_right fun hmask => and_congr_right fun hcap => ?_
      exact fecDecode_fits hparity hmask hcap
    · rw [if_neg fun h => hcreates h.2]
      exact iff_of_true ⟨_, rfl⟩ fun _ h => absurd h hcreates
  · rw [if_neg fun h => hparity (by omega)]
    exact iff_of_true ⟨_, rfl⟩ fun h => absurd h hparity

/-- When the decoder restores something that was missing, the symbols fit the buffers. -/
theorem size_le_of_recovered {lib : FecLib} {type : MoqTrackType} {st : SymbolStore}
    {total data size : ℕ} {symbols : ℕ → Option Bytes} (hle : data ≤ total)
    (h : recovered lib type st total data size = .ok (some symbols))
    (hlacks : ∃ j < data, st.received j = false) :
    data < total ∧ total ≤ st.capacitySymbols ∧ size ≤ st.capacitySymbolSize := by
  obtain ⟨j, hj, hfree⟩ := hlacks
  have hfits := recovered_fits hle |>.mp ⟨_, h⟩
  rw [recovered, paritySymbols_of_le hle] at h
  split at h
  · rename_i hbranch
    have hparity : data < total := by omega
    obtain ⟨hmask, hcap, htouch⟩ := hfits hparity hbranch.2
    refine ⟨hparity, hcap, htouch ?_⟩
    rw [DecoderTouches]
    cases hcode : receiverFecType type total with
    | FEC_REED_SOLOMON => exact Or.inl rfl
    | FEC_RAPTORQ =>
      have hdropped : j ∈ droppedEsi data (missingMask st total) := by
        rw [mem_droppedEsi, getD_missingMask (by omega), hfree]
        simpa using ⟨hj, by omega⟩
      refine Or.inr ⟨List.ne_nil_of_mem hdropped, ?_⟩
      obtain ⟨-, -, h⟩ := bind_eq_ok.mp h
      obtain ⟨-, -, h⟩ := bind_eq_ok.mp h
      simp only [fecDecode, receiverFecParams, hcode, paritySymbols_of_le hle] at h
      obtain ⟨-, -, h⟩ := bind_eq_ok.mp h
      by_contra hfew
      rw [if_pos (by omega)] at h
      simp at h
  · simp at h

/-! ## Completing -/

/-- The copy out of the buffers stays in range. -/
theorem copyObject_fits (st : SymbolStore) (size original : ℕ) (junk : ℕ → UInt8) {n : ℕ}
    (hcap : n ≤ st.capacitySymbols) :
    (∃ out, copyObject st.buffers size 0 n original ((List.range original).map junk) = .ok out) ↔
      n = 0 ∨ min original size ≤ st.capacitySymbolSize := by
  simp only [copyObject_eq, exists_and_left, exists_eq, and_true]
  have hlen : ∀ k < n, k < st.buffers.length ∧
      (st.buffers.getD k []).length = st.capacitySymbolSize := by
    intro k hk
    have hk' : k < st.capacitySymbols := by omega
    exact ⟨by rw [st.length_buffers]; exact hk', SymbolStore.length_buffer hk'⟩
  constructor
  · intro h
    rcases Nat.eq_zero_or_pos n with hn | hn
    · exact Or.inl hn
    · refine Or.inr ?_
      have hfirst := h 0 hn
      rw [(hlen 0 hn).2, chunkLength, Nat.zero_mul] at hfirst
      omega
  · rintro (rfl | hsize) k hk hpos
    · omega
    · refine ⟨(hlen k hk).1, ?_⟩
      rw [(hlen k hk).2, chunkLength]
      omega

/-- Completing fits. Either too few symbols are there, or all data symbols are and the object
can be copied, or the loop over the marks finds a data symbol that is not there, and the
decoding branch fits. -/
def CompletionFits (lib : FecLib) (type : MoqTrackType) (st : SymbolStore) (count : ℕ)
    (h : FecPacketHeader) : Prop :=
  count < h.dataSymbols.toNat ∨
  ((∀ j < h.dataSymbols.toNat, st.received j = true) ∧
    (h.dataSymbols.toNat = 0 ∨
      min h.originalSize.toNat h.symbolSize.toNat ≤ st.capacitySymbolSize)) ∨
  ((∃ j < h.dataSymbols.toNat, j < st.capacitySymbols ∧ st.received j = false) ∧
    h.dataSymbols.toNat ≤ h.totalSymbols.toNat ∧
    DecoderFits lib type st h.totalSymbols.toNat h.dataSymbols.toNat h.symbolSize.toNat)

/-- The handler gets to the subtraction `total_symbols - data_symbols`. -/
def ComputesParity (st : SymbolStore) (count : ℕ) (h : FecPacketHeader) : Prop :=
  h.dataSymbols.toNat ≤ count ∧ gotAllData st.receivedMask 0 h.dataSymbols.toNat = .ok false

/-- Completing stays in range, and subtracts no larger number. -/
theorem completion_fits (lib : FecLib) (junk : ℕ → UInt8) (type : MoqTrackType)
    (a : FrameAssembler) (h : FecPacketHeader) :
    ((∃ d, completion lib junk type a h = .ok d) ∧
      (ComputesParity a.store a.receivedCount h → h.dataSymbols.toNat ≤ h.totalSymbols.toNat)) ↔
      CompletionFits lib type a.store a.receivedCount h := by
  rw [completion, CompletionFits, ComputesParity]
  by_cases hcount : a.receivedCount < h.dataSymbols.toNat
  · rw [if_pos hcount]
    exact iff_of_true ⟨⟨_, rfl⟩, fun hreach => by omega⟩ (Or.inl hcount)
  rw [if_neg hcount]
  -- the scan ends with an answer, or runs past the marks
  have htrue : gotAllData a.store.receivedMask 0 h.dataSymbols.toNat = .ok true ↔
      ∀ j < h.dataSymbols.toNat, a.store.received j = true := by
    rw [gotAllData_true]
    simp [SymbolStore.received]
  have hfalse : gotAllData a.store.receivedMask 0 h.dataSymbols.toNat = .ok false ↔
      ∃ j < h.dataSymbols.toNat, j < a.store.capacitySymbols ∧ a.store.received j = false := by
    rw [gotAllData_false, a.store.length_receivedMask]
    simp [SymbolStore.received]
  simp only [hcount, false_or, ← htrue, ← hfalse, Nat.le_of_not_lt hcount, true_and]
  rw [obtained]
  cases hscan : gotAllData a.store.receivedMask 0 h.dataSymbols.toNat with
  | error e =>
    refine iff_of_false ?_ (by simp)
    rintro ⟨⟨d, hd⟩, -⟩
    simp [bind, Except.bind] at hd
  | ok gotAll =>
    cases gotAll with
    | true =>
      have hcap : h.dataSymbols.toNat ≤ a.store.capacitySymbols := by
        by_contra hlt
        have hmark := htrue.mp hscan a.store.capacitySymbols (by omega)
        rw [SymbolStore.received_of_le (Nat.le_refl _)] at hmark
        simp at hmark
      -- all data symbols are there: only the copy can go wrong
      have hcopy := copyObject_fits (a.store.overwrite fun _ => none) h.symbolSize.toNat
        h.originalSize.toNat junk hcap
      simp only [ok_bind, if_true, bind_eq_ok, Except.ok.injEq, reduceCtorEq, false_implies,
        and_true, true_and, false_and, or_false]
      rw [SymbolStore.capacitySymbolSize_overwrite] at hcopy
      rw [← hcopy]
      constructor
      · rintro ⟨d, out, hout, -⟩
        exact ⟨out, hout⟩
      · rintro ⟨out, hout⟩
        exact ⟨_, out, hout, rfl⟩
    | false =>
      obtain ⟨j, hj, -, hfree⟩ := hfalse.mp hscan
      simp only [ok_bind, Bool.false_eq_true, if_false, Except.ok.injEq, false_and, false_or,
        true_implies, true_and]
      rw [and_comm]
      refine and_congr_right fun hle => ?_
      rw [← recovered_fits hle]
      constructor
      · rintro ⟨d, hd⟩
        obtain ⟨s, hs, -⟩ := bind_eq_ok.mp hd
        exact ⟨s, hs⟩
      · rintro ⟨s, hs⟩
        rw [hs, ok_bind]
        cases s with
        | none => exact ⟨_, rfl⟩
        | some symbols =>
          -- what the decoder has read is at least as long as what is copied
          obtain ⟨hparity, hcap, hsize⟩ := size_le_of_recovered hle hs ⟨j, hj, hfree⟩
          have hdata : h.dataSymbols.toNat ≤ (a.store.overwrite symbols).capacitySymbols := by
            rw [SymbolStore.capacitySymbols_overwrite]
            omega
          obtain ⟨out, hout⟩ := (copyObject_fits (a.store.overwrite symbols) h.symbolSize.toNat
            h.originalSize.toNat junk hdata).mpr (Or.inr (by
              rw [SymbolStore.capacitySymbolSize_overwrite]
              omega))
          dsimp only
          rw [hout]
          exact ⟨_, rfl⟩

/-! ## The slot -/

/-- The symbol count of a slot once the symbol of an index is there. -/
def FrameAssembler.countWith (a : FrameAssembler) (index : ℕ) : ℕ :=
  if a.store.received index then a.receivedCount else a.receivedCount + 1

/-- A datagram with this header fits the slot of its object. Either it is ignored, or the slot
has a buffer for its symbol, which is large enough if the symbol is new, and completing fits
once its mark is set. -/
def Fits (lib : FecLib) (type : MoqTrackType) (a : FrameAssembler) (h : FecPacketHeader) : Prop :=
  a.decoded = true ∨ h.totalSymbols ≤ h.symbolIndex ∨
  (h.symbolIndex.toNat < a.store.capacitySymbols ∧
    (a.store.received h.symbolIndex.toNat = false →
      h.symbolSize.toNat ≤ a.store.capacitySymbolSize) ∧
    CompletionFits lib type (a.store.mark h.symbolIndex.toNat) (a.countWith h.symbolIndex.toNat) h)

/-- The handler gets to the subtraction, with this slot. -/
def SlotComputesParity (a : FrameAssembler) (h : FecPacketHeader) : Prop :=
  a.decoded = false ∧ h.symbolIndex < h.totalSymbols ∧
    ComputesParity (a.store.mark h.symbolIndex.toNat) (a.countWith h.symbolIndex.toNat) h

/-- Fitting depends on the capacities and the marks alone. -/
theorem completionFits_congr {lib : FecLib} {type : MoqTrackType} {st st' : SymbolStore}
    {h : FecPacketHeader} (hcap : st.capacitySymbols = st'.capacitySymbols)
    (hsize : st.capacitySymbolSize = st'.capacitySymbolSize)
    (hmask : st.receivedMask = st'.receivedMask) (count : ℕ) :
    CompletionFits lib type st count h ↔ CompletionFits lib type st' count h := by
  have hreceived : ∀ j, st.received j = st'.received j := fun j => by
    rw [SymbolStore.received, hmask, SymbolStore.received]
  have hmissing : ∀ total, missingMask st total = missingMask st' total := fun total => by
    simp only [missingMask, hreceived]
  simp only [CompletionFits, DecoderFits, DecoderTouches, hcap, hsize, hreceived, hmissing]

/-- A slot with the symbol of a datagram in it has the mark and the count of that symbol. -/
theorem FrameAssembler.withSymbol_marks (a : FrameAssembler) {index : ℕ} (size : ℕ)
    (symbol : Bytes) (hindex : index < a.store.capacitySymbols) :
    (a.withSymbol index size symbol).store.capacitySymbols =
        (a.store.mark index).capacitySymbols ∧
      (a.withSymbol index size symbol).store.capacitySymbolSize =
        (a.store.mark index).capacitySymbolSize ∧
      (a.withSymbol index size symbol).store.receivedMask = (a.store.mark index).receivedMask ∧
      (a.withSymbol index size symbol).receivedCount = a.countWith index := by
  rw [withSymbol, countWith]
  by_cases hreceived : a.store.received index = true
  · rw [if_pos hreceived, if_pos hreceived]
    refine ⟨rfl, rfl, ?_, rfl⟩
    have hlen : index < a.store.receivedMask.length := by
      rw [a.store.length_receivedMask]
      exact hindex
    rw [SymbolStore.received, List.getD_eq_getElem _ _ hlen] at hreceived
    show a.store.receivedMask = a.store.receivedMask.set index true
    rw [← hreceived, List.set_getElem_self]
  · rw [if_neg hreceived, if_neg hreceived]
    exact ⟨rfl, rfl, rfl, rfl⟩

/-- A symbol stays in range in the slot, and the handler subtracts no larger number, exactly
when it fits. -/
theorem slotStep_fits (lib : FecLib) (junk : ℕ → UInt8) (type : MoqTrackType)
    (a : FrameAssembler) (h : FecPacketHeader) (symbol : Bytes) :
    ((∃ r, slotStep lib junk type a h symbol = .ok r) ∧
      (SlotComputesParity a h → h.dataSymbols.toNat ≤ h.totalSymbols.toNat)) ↔
      Fits lib type a h := by
  rw [slotStep, Fits, SlotComputesParity]
  by_cases hignored : a.decoded = true ∨ h.totalSymbols ≤ h.symbolIndex
  · rw [if_pos hignored, ← or_assoc]
    refine iff_of_true ⟨⟨_, rfl⟩, ?_⟩ (Or.inl hignored)
    rintro ⟨hlive, hindex, -⟩
    rcases hignored with hdecoded | hle
    · rw [hlive] at hdecoded
      simp at hdecoded
    · exact absurd hle (UInt16.not_le.mpr hindex)
  rw [if_neg hignored, ← or_assoc, or_iff_right hignored]
  obtain ⟨hlive, hindex⟩ := not_or.mp hignored
  simp only [Bool.not_eq_true] at hlive
  rw [UInt16.not_le] at hindex
  simp only [hlive, hindex, true_and, bind_eq_ok, FrameAssembler.storeSymbol_eq_ok]
  -- the mark is looked at first, the room only for a symbol that is new
  by_cases hcap : h.symbolIndex.toNat < a.store.capacitySymbols
  swap
  · refine iff_of_false ?_ fun hfits => hcap hfits.1
    rintro ⟨⟨r, stored, ⟨hlt, -⟩, -⟩, -⟩
    exact hcap hlt
  by_cases hroom : a.store.received h.symbolIndex.toNat = false →
      h.symbolSize.toNat ≤ a.store.capacitySymbolSize
  swap
  · refine iff_of_false ?_ fun hfits => hroom hfits.2.1
    rintro ⟨⟨r, stored, ⟨-, hsize, -⟩, -⟩, -⟩
    exact hroom hsize
  obtain ⟨hcapEq, hsizeEq, hmaskEq, hcountEq⟩ :=
    a.withSymbol_marks h.symbolSize.toNat symbol hcap
  have hcompletion := completion_fits lib junk type
    ((a.withSymbol h.symbolIndex.toNat h.symbolSize.toNat symbol).afterRequest type) h
  rw [FrameAssembler.store_afterRequest, FrameAssembler.receivedCount_afterRequest,
    completionFits_congr hcapEq hsizeEq hmaskEq, ComputesParity, hmaskEq, hcountEq] at hcompletion
  simp only [hcap, true_and]
  rw [← hcompletion, ComputesParity]
  constructor
  · rintro ⟨⟨r, stored, ⟨hsize, rfl⟩, d, hd, -⟩, hparity⟩
    exact ⟨hsize, ⟨d, hd⟩, hparity⟩
  · rintro ⟨hsize, ⟨d, hd⟩, hparity⟩
    exact ⟨⟨_, _, ⟨hsize, rfl⟩, d, hd, rfl⟩, hparity⟩

/-! ## The handler -/

/-- The slot of the header's object, after it was given one if it had none. -/
def AssemblerCache.slotFor (s : AssemblerCache) (h : FecPacketHeader) : FrameAssembler :=
  (s.locate h).1.slot (s.locate h).2

/-- A datagram fits: if it brings a symbol, that symbol fits the slot of its object. -/
def DatagramFits (lib : FecLib) (io : ReceiveIO) (t : Transport) (c : Conn) (payload : Bytes) :
    Prop :=
  ∀ track h, symbolOf t c io payload = some (track, h) →
    Fits lib track.type (c.assemblers.slotFor h) h

/-- The handler stays in range: it runs to its end, which it does not when an index is at or past
the end of an array or a copy is longer than a buffer, and `total_symbols - data_symbols` does
not underflow where it is computed. -/
structure InRange (lib : FecLib) (io : ReceiveIO) (t : Transport) (c : Conn) (payload : Bytes) :
    Prop where
  noFault : ∃ r, onReceiveDatagramFrame lib io t c payload = .ok r
  noUnderflow : ∀ track h, symbolOf t c io payload = some (track, h) →
    SlotComputesParity (c.assemblers.slotFor h) h →
      h.dataSymbols.toNat ≤ h.totalSymbols.toNat

/-- The handler stays in range exactly for the datagrams that fit. -/
theorem inRange_iff {lib : FecLib} {io : ReceiveIO} {t : Transport} {c : Conn} {payload : Bytes}
    (hsound : t.fecCache.Sound lib) :
    InRange lib io t c payload ↔ DatagramFits lib io t c payload := by
  cases hsym : symbolOf t c io payload with
  | none =>
    obtain ⟨t', o, hok, -⟩ := onReceiveDatagramFrame_of_none hsym lib
    refine iff_of_true ⟨⟨_, hok c.assemblers io.junk⟩, ?_⟩ ?_
    · intro track h hsome
      rw [hsym] at hsome
      simp at hsome
    · intro track h hsome
      rw [hsym] at hsome
      simp at hsome
  | some p =>
    obtain ⟨track, h⟩ := p
    obtain ⟨cache', -, hassemble⟩ := assemble_eq hsound io track.type c.assemblers h
      (payload.drop FecPacketHeader.size)
    have hfits : DatagramFits lib io t c payload ↔
        Fits lib track.type (c.assemblers.slotFor h) h := by
      constructor
      · exact fun hall => hall track h hsym
      · intro hfit track' h' hsome
        rw [hsym, Option.some.injEq, Prod.mk.injEq] at hsome
        obtain ⟨rfl, rfl⟩ := hsome
        exact hfit
    have hstep := slotStep_fits lib io.junk track.type (c.assemblers.slotFor h) h
      (payload.drop FecPacketHeader.size)
    rw [hfits, ← hstep]
    constructor
    · rintro ⟨⟨r, hr⟩, hparity⟩
      rw [onReceiveDatagramFrame_of_some hsym, hassemble] at hr
      obtain ⟨q, hq, -⟩ := bind_eq_ok.mp hr
      obtain ⟨ring, hring, -⟩ := bind_eq_ok.mp hq
      obtain ⟨d, hd, -⟩ := bind_eq_ok.mp hring
      exact ⟨⟨d, hd⟩, hparity track h hsym⟩
    · rintro ⟨⟨d, hd⟩, hparity⟩
      refine ⟨?_, ?_⟩
      · rw [AssemblerCache.slotFor] at hd
        rw [onReceiveDatagramFrame_of_some hsym, hassemble, ringStep, hd,
          ok_bind, ok_bind, ok_bind]
        exact ⟨_, rfl⟩
      · intro track' h' hsome
        rw [hsym, Option.some.injEq, Prod.mk.injEq] at hsome
        obtain ⟨rfl, rfl⟩ := hsome
        exact hparity

/-! ## Whole runs -/

/-- A label stays in range: a datagram of a connection does. -/
def Label.InRange (lib : FecLib) (s : System) : Label → Prop
  | .conn ptr (.datagram io payload) =>
    ∀ c, s.transport.findConn ptr = some c → Bishlink.InRange lib io s.transport c payload
  | _ => True

/-- A datagram of a label fits the slots of its connection. -/
def Label.Fits (lib : FecLib) (s : System) : Label → Prop
  | .conn ptr (.datagram io payload) =>
    ∀ c, s.transport.findConn ptr = some c → DatagramFits lib io s.transport c payload
  | _ => True

/-- A run of the system stays in range exactly when all its datagrams fit. -/
theorem datagrams_inRange (lib : FecLib) (isServer : Bool) (links : List SockAddr)
    (maxUdpPayloadSize : ℕ) (labels : List Label) :
    Runs.Along (step lib) (Label.InRange lib) (System.init isServer links maxUdpPayloadSize)
        labels ↔
      Runs.Along (step lib) (Label.Fits lib) (System.init isServer links maxUdpPayloadSize)
        labels := by
  refine Runs.along_congr (I := fun s => s.transport.fecCache.Sound lib)
    (fun s l s' o hsound hstep => sound_step hsound hstep) (fun s l hsound => ?_)
    (FecCache.sound_empty lib)
  cases l with
  | conn ptr l =>
    cases l with
    | datagram io payload =>
      exact forall_congr' fun c => forall_congr' fun _ => inRange_iff hsound
    | _ => exact Iff.rfl
  | _ => exact Iff.rfl

/-- What a datagram reads from the outside when clocks stand still and memory is zero. -/
def ReceiveIO.still : ReceiveIO := ⟨0, 0, MoqTrackId.zero, MoqTrackId.zero, fun _ => 0⟩

/-- A library whose RaptorQ contexts can be created. -/
def FecLib.raptorqOnly : FecLib := { FecLib.unavailable with raptorqAlloc := fun _ _ _ => true }

/-- The second of 300 symbols of a DATA object with one data symbol. -/
def longHeader : FecPacketHeader := ⟨MOQ_TRACK_DATA, 0, 0, 1, 1, 1, 300, 1, 1, 1, 0, 0⟩

/-- One datagram is enough: the handler fills `missing[256]` for 300 symbols. -/
theorem datagram_past_missing :
    ¬Runs.Along (step FecLib.raptorqOnly) (Label.InRange FecLib.raptorqOnly)
      (System.init false [] 1280)
      [.connect 1, .conn 1 (.datagram ReceiveIO.still (longHeader.encode ++ [7]))] := by
  rintro ⟨-, hrest⟩
  have hrange := (hrest _ _ rfl).1 (Conn.zero 1) rfl
  have hfits := (inRange_iff (FecCache.sound_empty _)).mp hrange
    { MoqTrackId.zero with type := MOQ_TRACK_DATA } longHeader (by decide)
  rcases hfits with hdecoded | hindex | ⟨-, -, hcount | ⟨hall, -⟩ | ⟨-, -, hdecoder⟩⟩
  · exact absurd hdecoded (by decide)
  · exact absurd hindex (by decide)
  · exact absurd hcount (by decide)
  · exact absurd (hall 0 (by decide)) (by decide)
  · exact absurd (hdecoder (by decide) rfl).1 (by decide)

end Bishlink
