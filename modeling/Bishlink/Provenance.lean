import Bishlink.AtMostOnce
import Bishlink.DatagramBounds

/-!
# Where the bytes of an object come from

The buffers of a slot are reused from object to object and the memory an object is copied into is
new and not cleared. `WrittenBytes` keeps, beside the ring, how much of each buffer was written
since its slot was assigned, and `Sourced` says of a symbol that the handler reads no further than
that. Along runs whose symbols are sourced, the handler does the same whatever else is in the memory
(`objects_from_received`).

* `SameWritten`: two slots, or two rings, that agree but for bytes nobody wrote;
* `slotStep_alike`: a sourced symbol does the same to both.
-/

namespace Bishlink

open ByteCodec Checked Runs

/-! ## Buffers that agree where they were written -/

/-- The same arrays, but for the bytes in the buffers. -/
structure SymbolStore.SameShape (st st' : SymbolStore) : Prop where
  capacitySymbols : st.capacitySymbols = st'.capacitySymbols
  capacitySymbolSize : st.capacitySymbolSize = st'.capacitySymbolSize
  receivedMask : st.receivedMask = st'.receivedMask

/-- The same bytes at the start of each buffer, `w i` of them in buffer `i`. -/
def SymbolStore.SameBytes (w : ℕ → ℕ) (st st' : SymbolStore) : Prop :=
  ∀ i, (st.buffer i).take (w i) = (st'.buffer i).take (w i)

namespace SymbolStore.SameShape

variable {st st' : SymbolStore}

theorem refl (st : SymbolStore) : SameShape st st := ⟨rfl, rfl, rfl⟩

theorem received (h : SameShape st st') (i : ℕ) : st.received i = st'.received i := by
  unfold SymbolStore.received
  rw [h.receivedMask]

theorem missingMask (h : SameShape st st') (total : ℕ) :
    Bishlink.missingMask st total = Bishlink.missingMask st' total := by
  unfold Bishlink.missingMask
  simp only [h.received]

theorem length_buffers (h : SameShape st st') : st.buffers.length = st'.buffers.length := by
  rw [st.length_buffers, st'.length_buffers, h.capacitySymbols]

theorem length_buffer (h : SameShape st st') (i : ℕ) :
    (st.buffer i).length = (st'.buffer i).length := by
  by_cases hi : i < st.capacitySymbols
  · rw [SymbolStore.length_buffer hi, SymbolStore.length_buffer (h.capacitySymbols ▸ hi),
      h.capacitySymbolSize]
  · unfold buffer
    rw [List.getD_eq_default _ _ (by rw [st.length_buffers]; omega),
      List.getD_eq_default _ _ (by rw [st'.length_buffers, ← h.capacitySymbols]; omega)]

theorem mark (h : SameShape st st') (i : ℕ) : SameShape (st.mark i) (st'.mark i) :=
  ⟨h.capacitySymbols, h.capacitySymbolSize, congrArg (·.set i true) h.receivedMask⟩

theorem overwrite (h : SameShape st st') (f f' : ℕ → Option Bytes) :
    SameShape (st.overwrite f) (st'.overwrite f') :=
  ⟨h.capacitySymbols, h.capacitySymbolSize, h.receivedMask⟩

/-- A slot that is assigned: the arrays are kept in both, or new in both. -/
theorem reassign (h : SameShape st st') (n size : ℕ) :
    SameShape (st.ensure n size).clearMask (st'.ensure n size).clearMask := by
  have hnew : (st.buffers = [] ∨ st.capacitySymbols < n ∨ st.capacitySymbolSize < size) ↔
      (st'.buffers = [] ∨ st'.capacitySymbols < n ∨ st'.capacitySymbolSize < size) := by
    rw [← List.length_eq_zero_iff, ← List.length_eq_zero_iff, h.length_buffers,
      h.capacitySymbols, h.capacitySymbolSize]
  unfold ensure
  by_cases halloc : st'.buffers = [] ∨ st'.capacitySymbols < n ∨ st'.capacitySymbolSize < size
  · rw [if_pos halloc, if_pos (hnew.mpr halloc)]
    exact refl _
  · rw [if_neg halloc, if_neg (mt hnew.mp halloc)]
    exact ⟨h.capacitySymbols, h.capacitySymbolSize,
      congrArg (List.replicate · false) h.capacitySymbols⟩

end SymbolStore.SameShape

/-! ## Slots -/

/-- Two slots that agree but for the bytes of their buffers past the `w i` that were written. A
slot whose object is complete is not read any more. -/
structure FrameAssembler.SameWritten (w : ℕ → ℕ) (a a' : FrameAssembler) : Prop where
  trackId : a.trackId = a'.trackId
  groupId : a.groupId = a'.groupId
  objectId : a.objectId = a'.objectId
  totalSymbols : a.totalSymbols = a'.totalSymbols
  dataSymbols : a.dataSymbols = a'.dataSymbols
  symbolSize : a.symbolSize = a'.symbolSize
  originalSize : a.originalSize = a'.originalSize
  receivedCount : a.receivedCount = a'.receivedCount
  shape : a.store.SameShape a'.store
  decoded : a.decoded = a'.decoded
  priority : a.priority = a'.priority
  nackSent : a.nackSent = a'.nackSent
  bytes : a.decoded = false → a.store.SameBytes w a'.store

/-- How much of each buffer is written once the symbol of a datagram is stored. -/
def FrameAssembler.writtenSymbol (a : FrameAssembler) (index size : ℕ) (w : ℕ → ℕ) : ℕ → ℕ :=
  if a.store.received index then w else Function.update w index (max (w index) size)

namespace FrameAssembler.SameWritten

variable {w : ℕ → ℕ} {a a' : FrameAssembler}

theorem refl (w : ℕ → ℕ) (a : FrameAssembler) : SameWritten w a a :=
  ⟨rfl, rfl, rfl, rfl, rfl, rfl, rfl, rfl, .refl _, rfl, rfl, rfl, fun _ _ => rfl⟩

theorem holds (h : SameWritten w a a') (trackId : UInt8) (groupId objectId : UInt32) :
    a.holds trackId groupId objectId = a'.holds trackId groupId objectId := by
  unfold FrameAssembler.holds
  rw [h.totalSymbols, h.trackId, h.groupId, h.objectId]

/-- Nothing of an assigned slot is written. -/
theorem assign (h : SameWritten w a a') (hdr : FecPacketHeader) :
    SameWritten (fun _ => 0) (a.assign hdr) (a'.assign hdr) :=
  ⟨rfl, rfl, rfl, rfl, rfl, rfl, rfl, rfl, h.shape.reassign _ _, rfl, rfl, rfl,
    fun _ _ => rfl⟩

theorem missingIndices (h : SameWritten w a a') : a.missingIndices = a'.missingIndices := by
  unfold FrameAssembler.missingIndices
  rw [h.totalSymbols]
  simp only [h.shape.received]

theorem requests (h : SameWritten w a a') (type : MoqTrackType) :
    a.requests type = a'.requests type := by
  unfold FrameAssembler.requests
  rw [h.missingIndices, h.decoded, h.nackSent, h.dataSymbols, h.receivedCount]

theorem afterRequest (h : SameWritten w a a') (type : MoqTrackType) :
    SameWritten w (a.afterRequest type) (a'.afterRequest type) := by
  have hsent : (a.nackSent || (a.requests type).isSome) =
      (a'.nackSent || (a'.requests type).isSome) := by
    rw [h.nackSent, h.requests]
  exact ⟨h.trackId, h.groupId, h.objectId, h.totalSymbols, h.dataSymbols, h.symbolSize,
    h.originalSize, h.receivedCount, h.shape, h.decoded, h.priority, hsent, h.bytes⟩

/-- A symbol is written over the start of its buffer in both. -/
theorem withSymbol (h : SameWritten w a a') {index size : ℕ} (symbol : Bytes)
    (hindex : index < a.store.capacitySymbols) (hlength : size ≤ symbol.length)
    (hsize : a.store.received index = false → size ≤ a.store.capacitySymbolSize) :
    SameWritten (a.writtenSymbol index size w) (a.withSymbol index size symbol)
      (a'.withSymbol index size symbol) := by
  unfold FrameAssembler.writtenSymbol FrameAssembler.withSymbol
  rw [← h.shape.received]
  -- a symbol that was there before is not written again
  by_cases hreceived : a.store.received index = true
  · rw [if_pos hreceived, if_pos hreceived, if_pos hreceived]
    exact h
  rw [if_neg hreceived, if_neg hreceived, if_neg hreceived]
  refine ⟨h.trackId, h.groupId, h.objectId, h.totalSymbols, h.dataSymbols, h.symbolSize,
    h.originalSize, congrArg (· + 1) h.receivedCount, (h.shape.overwrite _ _).mark _, h.decoded,
    h.priority, h.nackSent, ?_⟩
  intro hdecoded i
  rw [SymbolStore.buffer_mark, SymbolStore.buffer_mark]
  by_cases hi : i < a.store.capacitySymbols
  · have hi' : i < a'.store.capacitySymbols := h.shape.capacitySymbols ▸ hi
    rw [SymbolStore.buffer_overwrite hi, SymbolStore.buffer_overwrite hi']
    by_cases heq : i = index
    · subst heq
      have hfits := hsize (by simpa using hreceived)
      have hlen : ((symbol.take size).take a.store.capacitySymbolSize).length = size := by
        rw [List.length_take, List.length_take]
        omega
      have hbuffer : (a.store.buffer i).length = a.store.capacitySymbolSize :=
        SymbolStore.length_buffer hi
      rw [Function.update_self, if_pos rfl, ← h.shape.capacitySymbolSize]
      dsimp only
      have hwrite := take_writeAt_congr ((symbol.take size).take a.store.capacitySymbolSize)
        (by omega)
        (h.shape.length_buffer i) (h.bytes hdecoded i)
      rwa [hlen] at hwrite
    · rw [Function.update_of_ne heq, if_neg heq]
      exact h.bytes hdecoded i
  -- past the last buffer nothing is read
  · have hout : ∀ st : SymbolStore, st.capacitySymbols ≤ i → st.buffer i = [] := by
      intro st hst
      unfold SymbolStore.buffer
      rw [List.getD_eq_default _ _ (by rw [st.length_buffers]; exact hst)]
    rw [hout _ (by rw [SymbolStore.capacitySymbols_overwrite]; omega),
      hout _ (by rw [SymbolStore.capacitySymbols_overwrite, ← h.shape.capacitySymbols]; omega)]

end FrameAssembler.SameWritten

/-! ## The decoder -/

/-- The library does not read a shard that is marked missing: whatever is in those, it restores
the same data shards. -/
def FecLib.IgnoresMissing (lib : FecLib) : Prop :=
  ∀ d p size shards shards' marks, shards.length = shards'.length →
    (∀ i, marks.getD i false = false → shards[i]? = shards'[i]?) →
    Option.Rel (fun out out' => ∀ i < d, out[i]? = out'[i]?)
      (lib.reedSolomonDecode d p size shards marks) (lib.reedSolomonDecode d p size shards' marks)

/-- The decoder reads buffer `k`: the Reed-Solomon code every symbol that is not missing, RaptorQ,
when there are enough repair symbols, the data symbols and the repair symbols that it uses. -/
def DecoderReads (type : MoqTrackType) (st : SymbolStore) (total data k : ℕ) : Prop :=
  let missing := missingMask st total
  let dropped := droppedEsi data missing
  let repair := repairEsi data (total - data) missing
  match receiverFecType type total with
  | .FEC_REED_SOLOMON => k < total ∧ missing.getD k false = false
  | .FEC_RAPTORQ => dropped.length ≤ repair.length ∧
      ((k < data ∧ k ∉ dropped) ∨ k ∈ (dropped.zip repair).map Prod.snd)

/-- The buffers agree on the chunks of an object with `n` data symbols. -/
def SameChunks (n original size : ℕ) (st st' : SymbolStore) : Prop :=
  ∀ k < n, (st.buffer k).take (chunkLength original size k) =
    (st'.buffer k).take (chunkLength original size k)

theorem chunkLength_le (original size k : ℕ) : chunkLength original size k ≤ size :=
  Nat.min_le_right _ _

theorem checkBlocks_congr {st st' : SymbolStore} (h : st.SameShape st') (size : ℕ)
    (is : List ℕ) : checkBlocks size st.buffers is = checkBlocks size st'.buffers is := by
  induction is with
  | nil => rfl
  | cons i is ih =>
    rw [checkBlocks, checkBlocks, ih, h.length_buffers]
    have hlen := h.length_buffer i
    unfold SymbolStore.buffer at hlen
    rw [hlen]

theorem take_eq_of_le {l l' : Bytes} {m n : ℕ} (h : l.take n = l'.take n) (hm : m ≤ n) :
    l.take m = l'.take m := by
  have htake := congrArg (List.take m) h
  rwa [List.take_take, List.take_take, Nat.min_eq_left hm] at htake

/-- A restored symbol is read back the same from both buffers. -/
theorem take_buffer_restored {st st' : SymbolStore} (hshape : st.SameShape st')
    {f f' : ℕ → Option Bytes} {k n : ℕ} {b : Bytes} (hk : k < st.capacitySymbols)
    (hf : f k = some b) (hf' : f' k = some b) (hn : n ≤ b.length) :
    ((st.overwrite f).buffer k).take n = ((st'.overwrite f').buffer k).take n := by
  have hk' : k < st'.capacitySymbols := hshape.capacitySymbols ▸ hk
  rw [SymbolStore.buffer_overwrite hk, SymbolStore.buffer_overwrite hk', hf, hf']
  dsimp only
  rw [← SymbolStore.length_buffer hk, ← SymbolStore.length_buffer hk', take_writeAt_take b hn,
    take_writeAt_take b hn, hshape.length_buffer]

/-- A buffer that is not restored is read as far as it was written. -/
theorem take_buffer_kept {st st' : SymbolStore} (hshape : st.SameShape st') {w : ℕ → ℕ}
    (hbytes : st.SameBytes w st') {f f' : ℕ → Option Bytes} {k n : ℕ}
    (hk : k < st.capacitySymbols) (hf : f k = none) (hf' : f' k = none) (hn : n ≤ w k) :
    ((st.overwrite f).buffer k).take n = ((st'.overwrite f').buffer k).take n := by
  have hk' : k < st'.capacitySymbols := hshape.capacitySymbols ▸ hk
  rw [SymbolStore.buffer_overwrite hk, SymbolStore.buffer_overwrite hk', hf, hf']
  exact take_eq_of_le (hbytes k) hn

section Decoder

variable {lib : FecLib} {type : MoqTrackType} {st st' : SymbolStore} {w : ℕ → ℕ}
  {total data size : ℕ}

/-- The Reed-Solomon code restores the same from both stores. -/
theorem reedSolomon_alike (hlib : lib.IgnoresMissing) (hshape : st.SameShape st')
    (hbytes : st.SameBytes w st') (hle : data ≤ total) (hcap : total ≤ st.capacitySymbols)
    (hreads : ∀ k < total, (missingMask st total).getD k false = false → size ≤ w k)
    (original : ℕ) :
    Option.Rel (fun out out' : List Bytes => SameChunks data original size
        (st.overwrite fun i => out[i]?) (st'.overwrite fun i => out'[i]?))
      (lib.reedSolomonDecode data (total - data) size
        ((st.buffers.take total).map (·.take size)) ((missingMask st total).take total))
      (lib.reedSolomonDecode data (total - data) size
        ((st'.buffers.take total).map (·.take size)) ((missingMask st total).take total)) := by
  have hlength : ((st.buffers.take total).map (·.take size)).length = total := by
    rw [List.length_map, List.length_take, st.length_buffers]
    omega
  have hlength' : ((st'.buffers.take total).map (·.take size)).length = total := by
    rw [List.length_map, List.length_take, st'.length_buffers, ← hshape.capacitySymbols]
    omega
  have hshard : ∀ (s : SymbolStore) (i : ℕ), i < total → i < s.capacitySymbols →
      ((s.buffers.take total).map (·.take size))[i]? = some ((s.buffer i).take size) := by
    intro s i hi hcap
    have hlt : i < s.buffers.length := by rw [s.length_buffers]; exact hcap
    rw [List.getElem?_map, List.getElem?_take_of_lt hi, List.getElem?_eq_getElem hlt,
      SymbolStore.buffer, List.getD_eq_getElem _ _ hlt, Option.map_some]
  -- what is not missing was written, and the decoder ignores the rest
  have hsame := hlib data (total - data) size _ _ ((missingMask st total).take total)
    (hlength.trans hlength'.symm) ?_
  · cases hout : lib.reedSolomonDecode data (total - data) size
        ((st.buffers.take total).map (·.take size)) ((missingMask st total).take total) with
    | none =>
      rw [hout] at hsame
      generalize lib.reedSolomonDecode data (total - data) size
        ((st'.buffers.take total).map (·.take size)) ((missingMask st total).take total) = r at *
      cases hsame
      exact .none
    | some out =>
      have hlen := lib.length_reedSolomonDecode _ _ _ _ _ _ hout
      have hblock := lib.length_of_mem_reedSolomonDecode _ _ _ _ _ _ hout
      rw [hout] at hsame
      generalize lib.reedSolomonDecode data (total - data) size
        ((st'.buffers.take total).map (·.take size)) ((missingMask st total).take total) = r at *
      cases hsame with
      | @some _ out' hsame =>
        refine .some fun k hk => ?_
        have hlt : k < out.length := by rw [hlen, hlength]; omega
        have hget : out[k]? = some out[k] := List.getElem?_eq_getElem hlt
        refine take_buffer_restored hshape (by omega) hget ((hsame k hk).symm.trans hget) ?_
        rw [hblock _ (List.getElem_mem hlt)]
        exact chunkLength_le _ _ _
  · intro i hmark
    by_cases hi : i < total
    · rw [List.getD_eq_getElem?_getD, List.getElem?_take_of_lt hi,
        ← List.getD_eq_getElem?_getD] at hmark
      rw [hshard st i hi (by omega), hshard st' i hi (by rw [← hshape.capacitySymbols]; omega),
        take_eq_of_le (hbytes i) (hreads i hi hmark)]
    · rw [List.getElem?_eq_none (by omega), List.getElem?_eq_none (by omega)]

/-- The rows of the RaptorQ decoder are the same for both stores. -/
theorem raptorqRows_congr (hbytes : st.SameBytes w st') {subs : List (ℕ × ℕ)}
    (hkept : ∀ i < data, i ∉ subs.map Prod.fst → size ≤ w i)
    (hused : ∀ s ∈ subs, size ≤ w s.2) :
    raptorqRows data size st.buffers subs = raptorqRows data size st'.buffers subs := by
  unfold raptorqRows
  apply List.map_congr_left
  intro i hi
  have hbuffer : ∀ k, size ≤ w k →
      (st.buffers.getD k []).take size = (st'.buffers.getD k []).take size :=
    fun k hk => take_eq_of_le (hbytes k) hk
  cases hfind : subs.find? (fun s => s.1 == i) with
  | none =>
    refine hbuffer i (hkept i (List.mem_range.mp hi) fun hmem => ?_)
    obtain ⟨s, hs, hfst⟩ := List.mem_map.mp hmem
    exact absurd (List.find?_eq_none.mp hfind s hs) (by simpa using hfst)
  | some s => exact hbuffer s.2 (hused s (List.mem_of_find?_eq_some hfind))

/-- `fec_decode` fails on both stores, or restores the same. -/
theorem fecDecode_alike (hlib : lib.IgnoresMissing) (hshape : st.SameShape st')
    (hbytes : st.SameBytes w st') (hle : data ≤ total) (hmask : total ≤ 256)
    (hcap : total ≤ st.capacitySymbols)
    (hreads : ∀ k, DecoderReads type st total data k → size ≤ w k) (original : ℕ) :
    Checked.Rel (Option.Rel fun f f' =>
        SameChunks data original size (st.overwrite f) (st'.overwrite f'))
      (fecDecode lib ⟨0, receiverFecParams type total data size⟩ st.buffers
        (missingMask st total))
      (fecDecode lib ⟨0, receiverFecParams type total data size⟩ st'.buffers
        (missingMask st total)) := by
  have hp : paritySymbols total data = total - data := paritySymbols_of_le hle
  have htotal : data + (total - data) = total := by omega
  have hmod : total % 2 ^ 64 = total := Nat.mod_eq_of_lt (by omega)
  cases hcode : receiverFecType type total with
  | FEC_REED_SOLOMON =>
    have hreads' : ∀ k < total, (missingMask st total).getD k false = false → size ≤ w k := by
      intro k hk hmark
      refine hreads k ?_
      unfold DecoderReads
      simp only [hcode]
      exact ⟨hk, hmark⟩
    simp only [fecDecode, receiverFecParams, hcode, hp, htotal, hmod]
    rw [checkBlocks_congr hshape]
    refine .bind (.refl (fun _ => rfl) _) fun _ _ (_ : _ = _) => ?_
    refine .bind (.refl (fun _ => rfl) _) fun _ _ (_ : _ = _) => ?_
    have hout := reedSolomon_alike hlib hshape hbytes hle hcap hreads' original
    generalize lib.reedSolomonDecode data (total - data) size
      ((st.buffers.take total).map (·.take size)) ((missingMask st total).take total) = r at *
    generalize lib.reedSolomonDecode data (total - data) size
      ((st'.buffers.take total).map (·.take size)) ((missingMask st total).take total) = r' at *
    cases hout with
    | none => exact .ok .none
    | some hsame => exact .ok (.some hsame)
  | FEC_RAPTORQ =>
    simp only [DecoderReads, hcode] at hreads
    simp only [fecDecode, receiverFecParams, hcode, hp, htotal]
    refine .bind (.refl (fun _ => rfl) _) fun _ _ (_ : _ = _) => ?_
    generalize hdropped : droppedEsi data (missingMask st total) = dropped at *
    generalize repairEsi data (total - data) (missingMask st total) = repair at *
    by_cases hfew : repair.length < dropped.length
    · rw [if_pos hfew, if_pos hfew]
      exact .ok .none
    rw [if_neg hfew, if_neg hfew]
    have hpairs : (dropped.zip repair).map Prod.fst = dropped :=
      List.map_fst_zip (by omega)
    have hkept : ∀ k < data, k ∉ dropped → size ≤ w k := fun k hk hnot =>
      hreads k ⟨by omega, Or.inl ⟨hk, hnot⟩⟩
    -- a data symbol is restored if it is missing, and was written if it is not
    have hchunks : ∀ f : ℕ → Option Bytes,
        (∀ k, k ∈ dropped → ∃ b, f k = some b ∧ b.length = size) → (∀ k, k ∉ dropped → f k = none) →
          SameChunks data original size (st.overwrite f) (st'.overwrite f) := by
      intro f hmissing hothers k hk
      by_cases hdrop : k ∈ dropped
      · obtain ⟨b, hb, hlen⟩ := hmissing k hdrop
        exact take_buffer_restored hshape (by omega) hb hb (hlen ▸ chunkLength_le _ _ _)
      · exact take_buffer_kept hshape hbytes (by omega) (hothers k hdrop) (hothers k hdrop)
          ((chunkLength_le _ _ _).trans (hkept k hk hdrop))
    by_cases hnone : dropped = []
    · rw [if_pos hnone, if_pos hnone]
      refine .ok (.some (hchunks _ ?_ fun _ _ => rfl))
      intro k hk
      rw [hnone] at hk
      exact absurd hk List.not_mem_nil
    rw [if_neg hnone, if_neg hnone, checkBlocks_congr hshape]
    refine .bind (.refl (fun _ => rfl) _) fun _ _ (_ : _ = _) => ?_
    rw [raptorqRows_congr hbytes (by rw [hpairs]; exact hkept) fun s hs =>
      hreads s.2 ⟨by omega, Or.inr (List.mem_map_of_mem hs)⟩]
    cases hmix : lib.nanorq data size (dropped.zip repair)
        (raptorqRows data size st'.buffers (dropped.zip repair)) with
    | none => exact .ok .none
    | some mix =>
      refine .ok (.some (hchunks _ ?_ ?_))
      · intro k hk
        exact ⟨mix k, if_pos hk, lib.length_nanorq _ _ _ _ _ hmix k⟩
      · intro k hk
        exact if_neg hk

end Decoder

/-! ## Completing -/

/-- The handler, with the symbol of a datagram in the slot, reads only what was written since the
slot was assigned, and fills the whole object. -/
structure ReadsWritten (lib : FecLib) (type : MoqTrackType) (w : ℕ → ℕ) (st : SymbolStore)
    (h : FecPacketHeader) : Prop where
  /-- with all data symbols there: the chunks that are copied -/
  copied : (∀ j < h.dataSymbols.toNat, st.received j = true) →
    ∀ k < h.dataSymbols.toNat, chunkLength h.originalSize.toNat h.symbolSize.toNat k ≤ w k
  /-- with a data symbol missing: the symbols the decoder reads -/
  decoded : (∃ j < h.dataSymbols.toNat, st.received j = false) →
    0 < paritySymbols h.totalSymbols.toNat h.dataSymbols.toNat →
    lib.creates (receiverFecParams type h.totalSymbols.toNat h.dataSymbols.toNat
      h.symbolSize.toNat) = true →
    h.dataSymbols.toNat ≤ h.totalSymbols.toNat ∧
      ∀ k, DecoderReads type st h.totalSymbols.toNat h.dataSymbols.toNat k →
        h.symbolSize.toNat ≤ w k
  /-- where the symbols are there or can be restored: they hold as many bytes as the object -/
  filled : (∃ symbols, obtained lib type st h = .ok (some symbols)) →
    h.originalSize.toNat ≤ h.dataSymbols.toNat * h.symbolSize.toNat

theorem copiedObject_congr {st st' : SymbolStore} {n original size : ℕ}
    (hchunks : SameChunks n original size st st') (hfilled : original ≤ n * size)
    (junk junk' : ℕ → UInt8) :
    copiedObject st.buffers size n original junk =
      copiedObject st'.buffers size n original junk' := by
  unfold copiedObject
  apply List.map_congr_left
  intro p hp
  have hp' : p < original := List.mem_range.mp hp
  have hpos : 0 < size := Nat.pos_of_mul_pos_left (by omega : 0 < n * size)
  have hk : p / size < n := Nat.div_lt_of_lt_mul (by rw [Nat.mul_comm]; omega)
  have hmod : p % size < chunkLength original size (p / size) := by
    have hlt := Nat.mod_lt p hpos
    have hsplit := Nat.div_add_mod p size
    rw [Nat.mul_comm] at hsplit
    rw [chunkLength]
    omega
  rw [if_pos (by omega), if_pos (by omega)]
  have hbyte := congrArg (·[p % size]?) (hchunks _ hk)
  simp only [List.getElem?_take, if_pos hmod] at hbyte
  unfold SymbolStore.buffer at hbyte
  rw [List.getD_eq_getElem?_getD (l := st.buffers.getD (p / size) []), hbyte,
    ← List.getD_eq_getElem?_getD]

/-- The copy stays in range for both stores or for none, and the objects are the same. -/
theorem copyObject_alike {st st' : SymbolStore} (hshape : st.SameShape st') {n original size : ℕ}
    (hchunks : SameChunks n original size st st') (hfilled : original ≤ n * size)
    (junk junk' : ℕ → UInt8) :
    Checked.Rel (· = ·)
      (copyObject st.buffers size 0 n original ((List.range original).map junk))
      (copyObject st'.buffers size 0 n original ((List.range original).map junk')) := by
  refine Rel.of_iff fun out => ?_
  rw [copyObject_eq, copyObject_eq, copiedObject_congr hchunks hfilled junk junk',
    hshape.length_buffers]
  have hlen := hshape.length_buffer
  unfold SymbolStore.buffer at hlen
  simp only [hlen]

section Steps

variable {lib : FecLib} {type : MoqTrackType} {w : ℕ → ℕ}

/-- The symbols are there, or are restored, in both stores. -/
theorem obtained_alike (hlib : lib.IgnoresMissing) {st st' : SymbolStore}
    (hshape : st.SameShape st') (hbytes : st.SameBytes w st') {h : FecPacketHeader}
    (hreads : ReadsWritten lib type w st h) :
    Checked.Rel (Option.Rel fun f f' => SameChunks h.dataSymbols.toNat h.originalSize.toNat
        h.symbolSize.toNat (st.overwrite f) (st'.overwrite f'))
      (obtained lib type st h) (obtained lib type st' h) := by
  unfold obtained
  rw [← hshape.receivedMask]
  cases hscan : gotAllData st.receivedMask 0 h.dataSymbols.toNat with
  | error e => exact .error
  | ok gotAll =>
    rw [ok_bind, ok_bind]
    cases gotAll with
    | true =>
      rw [if_pos rfl, if_pos rfl]
      -- all data symbols are there, and they are copied out as they are
      have hall : ∀ j < h.dataSymbols.toNat, st.received j = true := fun j hj =>
        gotAllData_true.mp hscan j (Nat.zero_le j) (by omega)
      refine .ok (.some fun k hk => ?_)
      have hcap : k < st.capacitySymbols := by
        by_contra hcap
        have hmark := hall k hk
        rw [SymbolStore.received_of_le (by omega)] at hmark
        exact Bool.false_ne_true hmark
      exact take_buffer_kept hshape hbytes hcap rfl rfl (hreads.copied hall k hk)
    | false =>
      rw [if_neg Bool.false_ne_true, if_neg Bool.false_ne_true]
      -- a data symbol is missing; both slots fail the same checks
      obtain ⟨j, -, hj, -, hfree⟩ := gotAllData_false.mp hscan
      unfold recovered
      by_cases hguard : 0 < paritySymbols h.totalSymbols.toNat h.dataSymbols.toNat ∧
          lib.creates (receiverFecParams type h.totalSymbols.toNat h.dataSymbols.toNat
            h.symbolSize.toNat) = true
      · rw [if_pos hguard, if_pos hguard, ← hshape.capacitySymbols, ← hshape.missingMask]
        obtain ⟨hle, hread⟩ := hreads.decoded ⟨j, by omega, hfree⟩ hguard.1 hguard.2
        by_cases hmask : h.totalSymbols.toNat ≤ 256
        · by_cases hcap : h.totalSymbols.toNat ≤ st.capacitySymbols
          · rw [checkIndices, if_pos hmask, checkIndices, if_pos hcap, ok_bind, ok_bind]
            exact fecDecode_alike hlib hshape hbytes hle hmask hcap hread _
          · rw [checkIndices, if_pos hmask, checkIndices, if_neg hcap]
            exact .error
        · rw [checkIndices, if_neg hmask]
          exact .error
      · rw [if_neg hguard, if_neg hguard]
        exact .ok .none

/-- The object is completed in both slots, with the same bytes. -/
theorem completion_alike (hlib : lib.IgnoresMissing) {a a' : FrameAssembler}
    (hsame : a.SameWritten w a') (hopen : a.decoded = false) {h : FecPacketHeader}
    (hreads : h.dataSymbols.toNat ≤ a.receivedCount → ReadsWritten lib type w a.store h)
    (junk junk' : ℕ → UInt8) :
    Checked.Rel (fun d d' => d.map Prod.snd = d'.map Prod.snd)
      (completion lib junk type a h) (completion lib junk' type a' h) := by
  unfold completion
  rw [← hsame.receivedCount]
  by_cases hcount : a.receivedCount < h.dataSymbols.toNat
  · rw [if_pos hcount, if_pos hcount]
    exact .ok rfl
  rw [if_neg hcount, if_neg hcount]
  have hread := hreads (by omega)
  have hobtained := obtained_alike hlib hsame.shape (hsame.bytes hopen) hread
  have hfilled := hread.filled
  generalize obtained lib type a.store h = x at *
  generalize obtained lib type a'.store h = x' at *
  cases hobtained with
  | error => exact .error
  | ok hfound =>
    cases hfound with
    | none => exact .ok rfl
    | some hchunks =>
      rw [ok_bind, ok_bind]
      refine .bind (copyObject_alike (hsame.shape.overwrite _ _) hchunks (hfilled ⟨_, rfl⟩)
        junk junk') fun out out' (heq : out = out') => ?_
      rw [heq]
      exact .ok rfl

/-- How much of each buffer of its slot is written once a symbol was handled. -/
def FrameAssembler.writtenBy (a : FrameAssembler) (h : FecPacketHeader) (w : ℕ → ℕ) : ℕ → ℕ :=
  if a.decoded = true ∨ h.totalSymbols ≤ h.symbolIndex then w
  else a.writtenSymbol h.symbolIndex.toNat h.symbolSize.toNat w

/-- The symbol is stored, and then the handler reads only what was written. -/
def Sourced (lib : FecLib) (type : MoqTrackType) (w : ℕ → ℕ) (a : FrameAssembler)
    (h : FecPacketHeader) (symbol : Bytes) : Prop :=
  let stored := a.withSymbol h.symbolIndex.toNat h.symbolSize.toNat symbol
  a.decoded = false → h.symbolIndex < h.totalSymbols →
    h.dataSymbols.toNat ≤ stored.receivedCount →
      ReadsWritten lib type (a.writtenBy h w) stored.store h

/-- A sourced symbol does the same to two slots that agree but for what nobody wrote. -/
theorem slotStep_alike (hlib : lib.IgnoresMissing) {a a' : FrameAssembler}
    (hsame : a.SameWritten w a') {h : FecPacketHeader} {symbol : Bytes}
    (hlength : h.symbolSize.toNat ≤ symbol.length) (hsourced : Sourced lib type w a h symbol)
    (junk junk' : ℕ → UInt8) :
    Checked.Rel (fun r r' => r.nack = r'.nack ∧ r.fullData = r'.fullData ∧
        r.slot.SameWritten (a.writtenBy h w) r'.slot)
      (slotStep lib junk type a h symbol) (slotStep lib junk' type a' h symbol) := by
  unfold slotStep
  rw [← hsame.decoded]
  by_cases hquiet : a.decoded = true ∨ h.totalSymbols ≤ h.symbolIndex
  · rw [if_pos hquiet, if_pos hquiet]
    refine .ok ⟨rfl, rfl, ?_⟩
    unfold FrameAssembler.writtenBy
    rw [if_pos hquiet]
    exact hsame
  rw [if_neg hquiet, if_neg hquiet]
  obtain ⟨hopen, hindex⟩ := not_or.mp hquiet
  rw [Bool.not_eq_true] at hopen
  rw [UInt16.not_le] at hindex
  unfold Sourced at hsourced
  have hwritten : a.writtenBy h w =
      a.writtenSymbol h.symbolIndex.toNat h.symbolSize.toNat w := if_neg hquiet
  -- the checks of `storeSymbol` look at capacities and marks only, which are the same
  by_cases hfits : h.symbolIndex.toNat < a.store.capacitySymbols ∧
      (a.store.received h.symbolIndex.toNat = false →
        h.symbolSize.toNat ≤ a.store.capacitySymbolSize)
  · have hfits' : h.symbolIndex.toNat < a'.store.capacitySymbols ∧
        (a'.store.received h.symbolIndex.toNat = false →
          h.symbolSize.toNat ≤ a'.store.capacitySymbolSize) := by
      rwa [← hsame.shape.capacitySymbols, ← hsame.shape.received,
        ← hsame.shape.capacitySymbolSize]
    rw [FrameAssembler.storeSymbol_eq_ok.mpr ⟨hfits.1, hfits.2, rfl⟩,
      FrameAssembler.storeSymbol_eq_ok.mpr ⟨hfits'.1, hfits'.2, rfl⟩, ok_bind, ok_bind]
    have hstored := hsame.withSymbol symbol hfits.1 hlength hfits.2
    rw [← hwritten] at hstored
    have hkeeps : (a.withSymbol h.symbolIndex.toNat h.symbolSize.toNat symbol).decoded =
        a.decoded := by
      unfold FrameAssembler.withSymbol
      split <;> rfl
    have hread := hsourced hopen hindex
    generalize a.withSymbol h.symbolIndex.toNat h.symbolSize.toNat symbol = b at *
    generalize a'.withSymbol h.symbolIndex.toNat h.symbolSize.toNat symbol = b' at *
    have hafter := hstored.afterRequest type
    refine .bind (completion_alike hlib hafter (hkeeps.trans hopen) hread junk junk') ?_
    intro d d' hd
    refine .ok ?_
    cases d with
    | none =>
      cases d' with
      | none => exact ⟨hstored.requests type, rfl, hafter⟩
      | some _ => exact absurd hd (by simp)
    | some d =>
      cases d' with
      | none => exact absurd hd (by simp)
      | some d' =>
        -- a slot that is done is never read again, so its bytes may differ
        refine ⟨hstored.requests type, hd, ?_⟩
        exact ⟨hafter.trackId, hafter.groupId, hafter.objectId, hafter.totalSymbols,
          hafter.dataSymbols, hafter.symbolSize, hafter.originalSize, hafter.receivedCount,
          hafter.shape.overwrite _ _, rfl, hafter.priority, hafter.nackSent,
          fun hfalse => absurd hfalse (by simp [FrameAssembler.received])⟩
  · have hfault : ∀ (b : FrameAssembler), ¬(h.symbolIndex.toNat < b.store.capacitySymbols ∧
        (b.store.received h.symbolIndex.toNat = false →
          h.symbolSize.toNat ≤ b.store.capacitySymbolSize)) →
        ∃ e, b.storeSymbol h.symbolIndex.toNat h.symbolSize.toNat symbol = .error e := by
      intro b hb
      cases hstore : b.storeSymbol h.symbolIndex.toNat h.symbolSize.toNat symbol with
      | error e => exact ⟨e, rfl⟩
      | ok b' =>
        have hok := FrameAssembler.storeSymbol_eq_ok.mp hstore
        exact absurd ⟨hok.1, hok.2.1⟩ hb
    obtain ⟨e, he⟩ := hfault a hfits
    obtain ⟨e', he'⟩ := hfault a' (by
      rwa [← hsame.shape.capacitySymbols, ← hsame.shape.received,
        ← hsame.shape.capacitySymbolSize])
    rw [he, he']
    exact .error

end Steps

/-! ## Rings -/

/-- For each slot and each of its buffers, how many bytes at the start of the buffer were written
since the slot was assigned. -/
abbrev WrittenBytes := ℕ → ℕ → ℕ

/-- Two rings that agree but for the bytes that nobody wrote. -/
structure AssemblerCache.SameWritten (w : WrittenBytes) (s s' : AssemblerCache) : Prop where
  index : s.index = s'.index
  slot : ∀ i, (s.slot i).SameWritten (w i) (s'.slot i)

namespace AssemblerCache

theorem SameWritten.refl (w : WrittenBytes) (s : AssemblerCache) : SameWritten w s s :=
  ⟨rfl, fun _ => .refl _ _⟩

/-- What is written in the slot of the header's object, or in the slot it is given. -/
def writtenFor (s : AssemblerCache) (w : WrittenBytes) (h : FecPacketHeader) : ℕ → ℕ :=
  match s.find h with
  | some i => w i
  | none => fun _ => 0

/-- What is written in each slot after a symbol. -/
def writtenBy (s : AssemblerCache) (w : WrittenBytes) (h : FecPacketHeader) : WrittenBytes :=
  Function.update w (s.locate h).2 ((s.slotFor h).writtenBy h (s.writtenFor w h))

variable {w : WrittenBytes} {s s' : AssemblerCache}

theorem SameWritten.find (hsame : s.SameWritten w s') (h : FecPacketHeader) :
    s.find h = s'.find h := by
  have htests : s.slots.map (·.holds h.trackId h.groupId h.objectId) =
      s'.slots.map (·.holds h.trackId h.groupId h.objectId) := by
    apply List.ext_getElem?
    intro i
    rw [List.getElem?_map, List.getElem?_map]
    by_cases hi : i < ASSEMBLER_CACHE_SIZE
    · rw [getElem?_slots hi, getElem?_slots hi, Option.map_some, Option.map_some,
        (hsame.slot i).holds]
    · rw [List.getElem?_eq_none (by rw [s.length_slots]; omega),
        List.getElem?_eq_none (by rw [s'.length_slots]; omega)]
  have hfind := congrArg (List.findIdx? id) htests
  rwa [List.findIdx?_map, List.findIdx?_map] at hfind

theorem locate_lt (s : AssemblerCache) (h : FecPacketHeader) :
    (s.locate h).2 < ASSEMBLER_CACHE_SIZE := by
  unfold locate
  cases hfind : s.find h with
  | none => exact s.index_lt
  | some i => exact (find_eq_some hfind).1

/-- The same slot is found, or assigned. -/
theorem SameWritten.locate (hsame : s.SameWritten w s') (h : FecPacketHeader) :
    (s.locate h).2 = (s'.locate h).2 ∧ (s.locate h).1.index = (s'.locate h).1.index ∧
      (s.slotFor h).SameWritten (s.writtenFor w h) (s'.slotFor h) ∧
      ∀ j, j ≠ (s.locate h).2 →
        ((s.locate h).1.slot j).SameWritten (w j) ((s'.locate h).1.slot j) := by
  unfold slotFor AssemblerCache.locate writtenFor
  rw [← hsame.find]
  cases s.find h with
  | some i => exact ⟨rfl, hsame.index, hsame.slot i, fun j _ => hsame.slot j⟩
  | none =>
    refine ⟨hsame.index, congrArg (fun i => (i + 1) % ASSEMBLER_CACHE_SIZE) hsame.index, ?_, ?_⟩
    · show ((s.evict h).slot s.index).SameWritten _ ((s'.evict h).slot s'.index)
      rw [slot_evict_self, slot_evict_self, ← hsame.index]
      exact (hsame.slot s.index).assign h
    · intro j hj
      show ((s.evict h).slot j).SameWritten _ ((s'.evict h).slot j)
      rw [slot_evict_of_ne hj, slot_evict_of_ne (hsame.index ▸ hj)]
      exact hsame.slot j

/-- The same object loses its slot. -/
theorem SameWritten.evicted (hsame : s.SameWritten w s') (h : FecPacketHeader) :
    Option.Rel (fun old old' => old.SameWritten (w s.index) old') (s.evicted h)
      (s'.evicted h) := by
  unfold AssemblerCache.evicted
  rw [← hsame.find]
  cases s.find h with
  | some i => exact .none
  | none =>
    have hslot := hsame.slot s.index
    dsimp only
    rw [← hsame.index, ← hslot.totalSymbols, ← hslot.decoded]
    by_cases hlost : 0 < (s.slot s.index).totalSymbols ∧ (s.slot s.index).decoded = false
    · rw [if_pos hlost, if_pos hlost]
      exact .some hslot
    · rw [if_neg hlost, if_neg hlost]
      exact .none

end AssemblerCache

/-! ## Arrivals -/

section Arrivals

variable {lib : FecLib}

/-- The handler, and beside the ring what was written. -/
def arriveWritten (lib : FecLib) (s : AssemblerCache × WrittenBytes) (a : Arrival lib) :
    Option ((AssemblerCache × WrittenBytes) × List Effect) :=
  (arrive lib s.1 a).map fun r =>
    ((r.1, match a.symbol? with
      | none => s.2
      | some (_, h) => s.1.writtenBy s.2 h), r.2)

/-- The same call, but for the memory under `full_data`. -/
def Arrival.SameButJunk (a a' : Arrival lib) : Prop := ∃ junk, a' = a.withJunk junk

/-- The symbol of an arrival, if it brings one, is sourced. -/
def Arrival.Sourced (s : AssemblerCache × WrittenBytes) (a : Arrival lib) : Prop :=
  ∀ track h, a.symbol? = some (track, h) →
    Bishlink.Sourced lib track.type (s.1.writtenFor s.2 h) (s.1.slotFor h) h a.bytes

/-- A sourced arrival does the same to two rings that agree but for what nobody wrote. -/
theorem arrive_alike (hlib : lib.IgnoresMissing) {w : WrittenBytes} {s s' : AssemblerCache}
    (hsame : s.SameWritten w s') {a a' : Arrival lib} (hjunk : a.SameButJunk a')
    (hsourced : a.Sourced (s, w)) :
    Option.Rel (fun r r' => r.1.1.SameWritten r.1.2 r'.1 ∧ r.2 = r'.2)
      (arriveWritten lib (s, w) a) (arrive lib s' a') := by
  obtain ⟨junk, rfl⟩ := hjunk
  unfold arriveWritten
  cases hsym : a.symbol? with
  | none =>
    obtain ⟨o, -, harrive⟩ := arrive_withJunk_of_none hsym
    have hown : arrive lib s a = some (s, o) := harrive s a.io.junk
    rw [hown, harrive s' junk, Option.map_some]
    exact .some ⟨hsame, rfl⟩
  | some x =>
    obtain ⟨track, h⟩ := x
    have hsym' : (a.withJunk junk).symbol? = some (track, h) := hsym
    have hbytes : (a.withJunk junk).bytes = a.bytes := rfl
    have hnew : (a.withJunk junk).io.junk = junk := rfl
    rw [arrive_of_some hsym, arrive_of_some hsym', hbytes, hnew]
    obtain ⟨hindex, hring, hslot, hothers⟩ := hsame.locate h
    have hlength : h.symbolSize.toNat ≤ a.bytes.length := (symbolOf_limits hsym).2.2
    have hstep := slotStep_alike hlib hslot hlength (hsourced track h hsym) a.io.junk junk
    -- the step of the ring is the step of one slot, put back
    have heval : ∀ (s : AssemblerCache) (junk : ℕ → UInt8),
        ringStep lib junk track.type s h a.bytes =
          (slotStep lib junk track.type (s.slotFor h) h a.bytes >>= fun r =>
            .ok ((s.locate h).1.set (s.locate h).2 r.slot, r)) := fun _ _ => rfl
    rw [heval, heval]
    generalize slotStep lib a.io.junk track.type (s.slotFor h) h a.bytes = x at *
    generalize slotStep lib junk track.type (s'.slotFor h) h a.bytes = x' at *
    cases hstep with
    | error => exact .none
    | @ok r r' hr =>
      obtain ⟨hnack, hfull, hwritten⟩ := hr
      refine .some ⟨⟨hring, fun j => ?_⟩, ?_⟩
      · show (((s.locate h).1.set (s.locate h).2 r.slot).slot j).SameWritten _
          (((s'.locate h).1.set (s'.locate h).2 r'.slot).slot j)
        rw [← hindex]
        by_cases hj : j = (s.locate h).2
        · subst hj
          rw [AssemblerCache.slot_set_self (s.locate_lt h),
            AssemblerCache.slot_set_self (s.locate_lt h)]
          show r.slot.SameWritten (s.writtenBy w h (s.locate h).2) r'.slot
          rw [AssemblerCache.writtenBy, Function.update_self]
          exact hwritten
        · rw [AssemblerCache.slot_set_of_ne hj, AssemblerCache.slot_set_of_ne hj]
          show ((s.locate h).1.slot j).SameWritten (s.writtenBy w h j) ((s'.locate h).1.slot j)
          rw [AssemblerCache.writtenBy, Function.update_of_ne hj]
          exact hothers j hj
      · show a.effects s track h r = a.effects s' track h r'
        -- the event for the evicted object names no byte of its buffers
        have hlost := hsame.evicted h
        unfold Arrival.effects
        rw [hnack, hfull, hwritten.priority]
        generalize s.evicted h = old at *
        generalize s'.evicted h = old' at *
        cases hlost with
        | none => rfl
        | some hold =>
          dsimp only
          unfold objectLost
          rw [hold.trackId, hold.groupId, hold.objectId]

/-- OBJECT events come from what was received. While the symbols are sourced, the handler does
the same for two rings that agree but for the bytes nobody wrote since their slot was assigned,
and with any new memory. -/
theorem objects_from_received (hlib : lib.IgnoresMissing) {w : WrittenBytes} {s s' : AssemblerCache}
    (hsame : s.SameWritten w s') {as as' : List (Arrival lib)}
    (hjunk : List.Forall₂ Arrival.SameButJunk as as')
    (hsourced : Along (arriveWritten lib) Arrival.Sourced (s, w) as) :
    (run (arrive lib) s as).map Prod.snd = (run (arrive lib) s' as').map Prod.snd := by
  have hghost : (run (arriveWritten lib) (s, w) as).map Prod.snd =
      (run (arrive lib) s as).map Prod.snd := by
    refine run_alike (L := Eq) (R := fun r s => r.1 = s) (G := fun _ _ => True) ?_
      (List.forall₂_eq_eq_eq ▸ rfl) rfl ?_
    · rintro ⟨s, w⟩ _ a _ rfl rfl -
      unfold arriveWritten
      cases arrive lib s a with
      | none => exact .none
      | some r => exact .some ⟨rfl, rfl⟩
    · exact along_of_forall (fun _ _ => trivial) _ _
  rw [← hghost]
  exact run_alike (R := fun r s' => r.1.SameWritten r.2 s') (L := Arrival.SameButJunk)
    (fun r _ _ _ hsame hjunk hsourced => arrive_alike hlib hsame hjunk hsourced) hjunk hsame
    hsourced

/-! ## New memory -/

/-- Past its symbols an object is what the new memory held. -/
theorem completion_past_symbols {junk : ℕ → UInt8} {type : MoqTrackType} {a : FrameAssembler}
    {h : FecPacketHeader} {symbols : ℕ → Option Bytes} {fullData : Bytes}
    (hd : completion lib junk type a h = .ok (some (symbols, fullData))) {p : ℕ}
    (hpast : h.dataSymbols.toNat * h.symbolSize.toNat ≤ p) (hp : p < h.originalSize.toNat) :
    fullData[p]? = some (junk p) := by
  unfold completion at hd
  split at hd
  · simp at hd
  obtain ⟨found, -, hd⟩ := bind_eq_ok.mp hd
  cases found with
  | none => simp at hd
  | some found =>
    obtain ⟨out, hout, hd⟩ := bind_eq_ok.mp hd
    simp only [Except.ok.injEq, Option.some.injEq, Prod.mk.injEq] at hd
    rw [← hd.2, (copyObject_eq.mp hout).2, copiedObject, List.getElem?_map,
      List.getElem?_range hp, Option.map_some, if_neg (by omega)]

theorem ringStep_past_symbols {junk : ℕ → UInt8} {type : MoqTrackType} {s s' : AssemblerCache}
    {h : FecPacketHeader} {symbol fullData : Bytes} {r : Received}
    (hring : ringStep lib junk type s h symbol = .ok (s', r)) (hfull : r.fullData = some fullData)
    {p : ℕ} (hpast : h.dataSymbols.toNat * h.symbolSize.toNat ≤ p)
    (hp : p < h.originalSize.toNat) : fullData[p]? = some (junk p) := by
  obtain ⟨r', hslot, heq⟩ := bind_eq_ok.mp hring
  rw [Except.ok.injEq, Prod.mk.injEq] at heq
  obtain ⟨-, rfl⟩ := heq
  unfold slotStep at hslot
  split at hslot
  · rw [Except.ok.injEq] at hslot
    rw [← hslot] at hfull
    exact absurd hfull (by simp)
  · obtain ⟨stored, -, hrest⟩ := bind_eq_ok.mp hslot
    obtain ⟨d, hd, hr⟩ := bind_eq_ok.mp hrest
    rw [Except.ok.injEq] at hr
    rw [← hr] at hfull
    cases d with
    | none => exact absurd hfull (by simp [FrameAssembler.received])
    | some d =>
      simp only [FrameAssembler.received, Option.some.injEq] at hfull
      exact hfull ▸ completion_past_symbols hd hpast hp

/-- The only symbol of an object of `size` bytes, of which it brings one. -/
def lastByteHeader (size : UInt32) : FecPacketHeader :=
  ⟨MOQ_TRACK_TEXT, 0, 0, 0, 0, 0, 1, 1, 1, size, 0, 0⟩

/-- It arrives while the new memory holds `x`. -/
def lastByteArrival (size : UInt32) (x : UInt8) : Arrival FecLib.unavailable where
  transport := Transport.init false [] 1280
  conn := Conn.zero 1
  io := ⟨0, 0, MoqTrackId.zero, MoqTrackId.zero, fun _ => x⟩
  payload := (lastByteHeader size).encode ++ [7]
  sound := FecCache.sound_empty _

theorem symbol?_lastByteArrival (size : UInt32) (x : UInt8) :
    (lastByteArrival size x).symbol? =
      some (⟨MOQ_TRACK_TEXT, 0, TrackName.empty⟩, lastByteHeader size) := by
  have hdecode : FecPacketHeader.decode (lastByteArrival size x).payload = lastByteHeader size :=
    FecPacketHeader.decode_encode _ _
  have hlen : (lastByteArrival size x).payload.length = FecPacketHeader.size + 1 := by
    show ((lastByteHeader size).encode ++ [7]).length = _
    rw [List.length_append, FecPacketHeader.length_encode]
    rfl
  have hfirst : (lastByteArrival size x).payload.getD 0 0 = MOQ_TRACK_TEXT := rfl
  have hfound : findSubscriptionByAlias (lastByteArrival size x).conn.subscriptions MOQ_TRACK_TEXT
      (lastByteArrival size x).io.uninitTrack = some ⟨MOQ_TRACK_TEXT, 0, TrackName.empty⟩ := rfl
  rw [Arrival.symbol?, symbolOf, if_neg fun h => Bool.false_ne_true h.1, hfirst, hlen,
    hfound, if_neg (by decide)]
  dsimp only
  rw [hdecode, if_neg]
  show ¬((16384 : UInt16) < 1 ∨ (4096 : UInt16) < 1 ∨
    FecPacketHeader.size + 1 < FecPacketHeader.size + 1)
  decide

/-- Nothing is read but the byte that came, whatever was in the slot. -/
theorem sourced_lastByteArrival {s : AssemblerCache}
    (hnew : some (lastByteHeader 1).slotKey ∉ s.keyRing.keys) (w : WrittenBytes) (x : UInt8) :
    (lastByteArrival 1 x).Sourced (s, w) := by
  intro track h hsym hopen hindex hcount
  rw [symbol?_lastByteArrival, Option.some.injEq, Prod.mk.injEq] at hsym
  obtain ⟨-, rfl⟩ := hsym
  have hfind : s.find (lastByteHeader 1) = none := AssemblerCache.find_eq_none.mpr hnew
  have hslot : s.slotFor (lastByteHeader 1) = (s.slot s.index).assign (lastByteHeader 1) := by
    rw [AssemblerCache.slotFor, AssemblerCache.locate, hfind, AssemblerCache.slot_evict_self]
  have hnone : s.writtenFor w (lastByteHeader 1) = fun _ => 0 := by
    rw [AssemblerCache.writtenFor, hfind]
  rw [hslot, hnone]
  generalize s.slot s.index = a
  have hfree : (a.assign (lastByteHeader 1)).store.received 0 = false :=
    SymbolStore.received_clearMask _ _
  have hlive : ¬((a.assign (lastByteHeader 1)).decoded = true ∨
      (lastByteHeader 1).totalSymbols ≤ (lastByteHeader 1).symbolIndex) := by
    rintro (hdecoded | hle)
    · exact Bool.false_ne_true hdecoded
    · exact absurd hle (by decide)
  have hwritten :
      (a.assign (lastByteHeader 1)).writtenBy (lastByteHeader 1) (fun _ => 0) 0 = 1 := by
    rw [FrameAssembler.writtenBy, if_neg hlive, FrameAssembler.writtenSymbol]
    show (if (a.assign (lastByteHeader 1)).store.received 0 = true then _
      else Function.update _ 0 _) 0 = 1
    rw [hfree, if_neg Bool.false_ne_true, Function.update_self]
    rfl
  have hmarked : ((a.assign (lastByteHeader 1)).withSymbol 0 1
      (lastByteArrival 1 x).bytes).store.received 0 = true := by
    have hcap := (a.assign (lastByteHeader 1)).totalSymbols_le
    have htotal : (a.assign (lastByteHeader 1)).totalSymbols = 1 := rfl
    rw [FrameAssembler.withSymbol, hfree, if_neg Bool.false_ne_true]
    show (SymbolStore.mark _ 0).received 0 = true
    rw [SymbolStore.received_mark, if_pos rfl]
    rw [SymbolStore.capacitySymbols_overwrite]
    omega
  have hone : (lastByteHeader 1).dataSymbols.toNat = 1 := rfl
  refine ⟨fun _ k hk => ?_, ?_, fun _ => Nat.le_refl _⟩
  · have hk0 : k = 0 := by omega
    rw [hk0, hwritten]
    exact chunkLength_le _ _ _
  · rintro ⟨j, hj, hlacks⟩
    have hj0 : j = 0 := by omega
    subst hj0
    exact absurd (hmarked.symm.trans hlacks) (by decide)

/-- A slot that waits for the second symbol of object 1, and whose buffers hold `x`. -/
def staleSlot (x : UInt8) : FrameAssembler where
  trackId := MOQ_TRACK_TEXT
  groupId := 0
  objectId := 1
  totalSymbols := 2
  dataSymbols := 2
  symbolSize := 2
  originalSize := 4
  receivedCount := 1
  store := ⟨2, 2, [[x, x], [x, x]], [true, false], rfl, by simp, rfl⟩
  decoded := false
  priority := 0
  nackSent := false
  totalSymbols_le := le_refl 2

/-- The ring with that slot next. -/
def staleRing (x : UInt8) : AssemblerCache := AssemblerCache.empty.set 0 (staleSlot x)

/-- Two such rings agree on what was written, when that is nothing. -/
theorem sameWritten_staleRing (x x' : UInt8) :
    (staleRing x).SameWritten (fun _ _ => 0) (staleRing x') := by
  refine ⟨rfl, fun i => ?_⟩
  unfold staleRing
  by_cases hi : i = 0
  · rw [hi, AssemblerCache.slot_set_self (by decide), AssemblerCache.slot_set_self (by decide)]
    exact ⟨rfl, rfl, rfl, rfl, rfl, rfl, rfl, rfl, ⟨rfl, rfl, rfl⟩, rfl, rfl, rfl, fun _ _ => rfl⟩
  · rw [AssemblerCache.slot_set_of_ne hi, AssemblerCache.slot_set_of_ne hi]
    exact .refl _ _

/-- The datagram of another object takes the slot, whose buffers hold other bytes in each ring. -/
theorem objects_from_received_lastByte : staleRing 1 ≠ staleRing 2 ∧
    (run (arrive FecLib.unavailable) (staleRing 1) [lastByteArrival 1 0]).map Prod.snd =
      (run (arrive FecLib.unavailable) (staleRing 2) [lastByteArrival 1 1]).map Prod.snd := by
  refine ⟨by decide, objects_from_received ?_ (sameWritten_staleRing 1 2)
    (.cons ⟨fun _ => 1, rfl⟩ .nil) ⟨sourced_lastByteArrival (by decide) _ 0, fun _ _ _ => trivial⟩⟩
  intro d p size shards shards' marks _ _
  exact .none

/-- The object is delivered with a byte of new memory. -/
theorem objectsOf_lastByteArrival (x : UInt8) :
    ∃ s o obj, run (arrive FecLib.unavailable) AssemblerCache.empty [lastByteArrival 2 x] =
      some (s, o) ∧ objectsOf o = [obj] ∧ obj.data[1]? = some x := by
  obtain ⟨s, r, hring, hfull⟩ := ringStep_single FecLib.unavailable
    (lastByteArrival 2 x).io.junk (MoqTrackId.mk MOQ_TRACK_TEXT 0 TrackName.empty).type
    (s := AssemblerCache.empty) (h := lastByteHeader 2) (lastByteArrival 2 x).bytes (by decide)
    rfl rfl rfl
  obtain ⟨fullData, hdata⟩ := Option.ne_none_iff_exists'.mp hfull
  have harrive := arrive_of_some (symbol?_lastByteArrival 2 x) AssemblerCache.empty
  simp only [hring] at harrive
  have hobjects := (lastByteArrival 2 x).objectsOf_effects AssemblerCache.empty
    ⟨MOQ_TRACK_TEXT, 0, TrackName.empty⟩ (lastByteHeader 2) r
  rw [hdata] at hobjects
  refine ⟨s, _, _, run_cons.mpr ⟨s, _, [], harrive, rfl, (List.append_nil _).symm⟩, hobjects, ?_⟩
  exact ringStep_past_symbols hring hdata (p := 1) (by decide) (by decide)

/-- Two runs over the same datagrams from the same ring, and two objects. -/
theorem new_memory_delivered :
    ¬∀ lib : FecLib, lib.IgnoresMissing → ∀ (w : WrittenBytes) (s s' : AssemblerCache),
      s.SameWritten w s' → ∀ as as' : List (Arrival lib),
        List.Forall₂ Arrival.SameButJunk as as' →
          (run (arrive lib) s as).map (fun r => objectsOf r.2) =
            (run (arrive lib) s' as').map (fun r => objectsOf r.2) := by
  intro hall
  have heq := hall FecLib.unavailable (fun _ _ _ _ _ _ _ _ => .none) (fun _ _ => 0) _ _
    (.refl _ AssemblerCache.empty) [lastByteArrival 2 0] [lastByteArrival 2 1]
    (.cons ⟨fun _ => 1, rfl⟩ .nil)
  obtain ⟨s, o, obj, hrun, hobj, hbyte⟩ := objectsOf_lastByteArrival 0
  obtain ⟨s', o', obj', hrun', hobj', hbyte'⟩ := objectsOf_lastByteArrival 1
  rw [hrun, hrun', Option.map_some, Option.map_some, hobj, hobj', Option.some.injEq,
    List.singleton_inj] at heq
  rw [heq, hbyte'] at hbyte
  exact absurd hbyte (by decide)

end Arrivals

end Bishlink
