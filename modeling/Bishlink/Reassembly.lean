import Bishlink.Datagram

/-!
# The parts of the datagram handler

What each part of `on_receive_datagram_frame` needs in order to stay in its arrays, and what it
then computes: one lemma for each part, so that no later proof has to unfold them.

* `symbolOf`: the symbol a datagram brings, if it reaches the slots at all;
* `storeSymbol_eq_ok`, `requestMissing_eq_ok`: the steps on a slot;
* `gotAllData_true`, `gotAllData_false`: the loop over the marks;
* `copyObject_eq_ok`: the loop that copies the object out, byte by byte.
-/

namespace Bishlink

open ByteCodec Checked

/-! ## The front of the handler -/

/-- The track and the header of a datagram that reaches the slots. -/
def symbolOf (t : Transport) (c : Conn) (io : ReceiveIO) (payload : Bytes) :
    Option (MoqTrackId × FecPacketHeader) :=
  if t.isServer ∧ ¬c.authenticated then none
  else if payload.getD 0 0 = MOQ_TRACK_TELEMETRY ∨ payload.length < FecPacketHeader.size then none
  else
    match findSubscriptionByAlias c.subscriptions (payload.getD 0 0) io.uninitTrack with
    | none => none
    | some track =>
      let h := FecPacketHeader.decode payload
      if 16384 < h.totalSymbols ∨ 4096 < h.symbolSize ∨
          payload.length < FecPacketHeader.size + h.symbolSize.toNat then none
      else some (track, h)

/-- A datagram that reaches the slots keeps the limits of the handler and brings the whole
symbol. -/
theorem symbolOf_limits {t : Transport} {c : Conn} {io : ReceiveIO} {payload : Bytes}
    {track : MoqTrackId} {h : FecPacketHeader}
    (hsym : symbolOf t c io payload = some (track, h)) :
    h.totalSymbols.toNat ≤ 16384 ∧ h.symbolSize.toNat ≤ 4096 ∧
      h.symbolSize.toNat ≤ (payload.drop FecPacketHeader.size).length := by
  rw [symbolOf] at hsym
  split at hsym
  · simp at hsym
  split at hsym
  · simp at hsym
  split at hsym
  · simp at hsym
  dsimp only at hsym
  split at hsym
  · simp at hsym
  · rename_i hlimits
    simp only [Option.some.injEq, Prod.mk.injEq] at hsym
    obtain ⟨-, rfl⟩ := hsym
    obtain ⟨htotal, hrest⟩ := not_or.mp hlimits
    obtain ⟨hsize, hlen⟩ := not_or.mp hrest
    rw [UInt16.not_lt, UInt16.le_iff_toNat_le] at htotal hsize
    rw [List.length_drop]
    refine ⟨htotal, hsize, ?_⟩
    omega

/-- The header is the one in the payload, and its track what the alias stands for. -/
theorem symbolOf_header {t : Transport} {c : Conn} {io : ReceiveIO} {payload : Bytes}
    {track : MoqTrackId} {h : FecPacketHeader}
    (hsym : symbolOf t c io payload = some (track, h)) :
    h = FecPacketHeader.decode payload ∧
      findSubscriptionByAlias c.subscriptions (payload.getD 0 0) io.uninitTrack = some track := by
  rw [symbolOf] at hsym
  split at hsym
  · simp at hsym
  split at hsym
  · simp at hsym
  split at hsym
  · simp at hsym
  · next found hfind =>
    dsimp only at hsym
    split at hsym
    · simp at hsym
    · simp only [Option.some.injEq, Prod.mk.injEq] at hsym
      obtain ⟨rfl, rfl⟩ := hsym
      exact ⟨rfl, hfind⟩

/-- The objects that effects hand to the application. -/
def objectsOf (o : List Effect) : List MoqObject :=
  o.filterMap fun e =>
    match e with
    | .event _ (.object _ obj) => some obj
    | _ => none

theorem objectsOf_append (o o' : List Effect) : objectsOf (o ++ o') = objectsOf o ++ objectsOf o' :=
  List.filterMap_append

/-- The events among effects. -/
def eventsOf (o : List Effect) : List TransportEvent :=
  o.filterMap fun e =>
    match e with
    | .event _ ev => some ev
    | _ => none

/-- Objects are handed on in events. -/
theorem objectsOf_eq (o : List Effect) :
    objectsOf o = (eventsOf o).filterMap fun ev =>
      match ev with
      | .object _ obj => some obj
      | _ => none := by
  unfold objectsOf eventsOf
  rw [List.filterMap_filterMap]
  refine List.filterMap_congr fun e _ => ?_
  cases e with
  | event conn ev => cases ev <;> rfl
  | _ => rfl

/-- The effects of the handler for a symbol that reached a slot. -/
def receivedEffects (io : ReceiveIO) (c : Conn) (track : MoqTrackId) (h : FecPacketHeader)
    (r : AssembleResult) : List Effect :=
  .datagram c.ptr h.pathId.toNat (telemetryReply io h).encode :: assembleEffects io c track h r

/-- A datagram without a symbol leaves the connection and the contexts alone, raises no event,
and does the same whatever is in the slots and in new memory. -/
theorem onReceiveDatagramFrame_of_none {t : Transport} {c : Conn} {io : ReceiveIO}
    {payload : Bytes} (h : symbolOf t c io payload = none) (lib : FecLib) :
    ∃ t' o, (∀ s junk, onReceiveDatagramFrame lib { io with junk := junk } t
        { c with assemblers := s } payload = .ok (t', { c with assemblers := s }, o)) ∧
      t'.fecCache = t.fecCache ∧ eventsOf o = [] := by
  unfold onReceiveDatagramFrame
  rw [symbolOf] at h
  dsimp only
  -- every branch returns before the slots are looked at
  by_cases hgate : t.isServer = true ∧ ¬c.authenticated = true
  · simp only [if_pos hgate]
    exact ⟨t, [], fun _ _ => rfl, rfl, rfl⟩
  rw [if_neg hgate] at h
  simp only [if_neg hgate]
  cases payload with
  | nil => exact ⟨t, [], fun _ _ => rfl, rfl, rfl⟩
  | cons trackId rest =>
    have hhead : (trackId :: rest).getD 0 0 = trackId := rfl
    rw [hhead] at h
    dsimp only
    by_cases htelemetry : trackId = MOQ_TRACK_TELEMETRY
    · simp only [if_pos htelemetry]
      exact ⟨_, [], fun _ _ => rfl, rfl, rfl⟩
    simp only [if_neg htelemetry]
    by_cases hsize : (trackId :: rest).length < FecPacketHeader.size
    · simp only [if_pos hsize]
      exact ⟨t, [], fun _ _ => rfl, rfl, rfl⟩
    simp only [if_neg hsize]
    rw [if_neg (not_or.mpr ⟨htelemetry, hsize⟩)] at h
    cases hfind : findSubscriptionByAlias c.subscriptions trackId io.uninitTrack with
    | none => exact ⟨t, [], fun _ _ => rfl, rfl, rfl⟩
    | some track =>
      rw [hfind] at h
      dsimp only at h ⊢
      split at h
      · rename_i hlimits
        rw [← or_assoc] at hlimits
        let hdr := FecPacketHeader.decode (trackId :: rest)
        let reply := Effect.datagram c.ptr hdr.pathId.toNat (telemetryReply io hdr).encode
        by_cases hlarge : 16384 < (FecPacketHeader.decode (trackId :: rest)).totalSymbols ∨
            4096 < (FecPacketHeader.decode (trackId :: rest)).symbolSize
        · simp only [if_pos hlarge]
          exact ⟨t, [reply], fun _ _ => rfl, rfl, rfl⟩
        · simp only [if_neg hlarge, if_pos (hlimits.resolve_left hlarge)]
          exact ⟨t, [reply], fun _ _ => rfl, rfl, rfl⟩
      · simp at h

/-- A datagram with a symbol goes through `assemble`. -/
theorem onReceiveDatagramFrame_of_some {t : Transport} {c : Conn} {io : ReceiveIO}
    {payload : Bytes} {track : MoqTrackId} {h : FecPacketHeader}
    (hsym : symbolOf t c io payload = some (track, h)) (lib : FecLib) :
    onReceiveDatagramFrame lib io t c payload =
      (assemble lib t.fecCache io track.type c.assemblers h
        (payload.drop FecPacketHeader.size) >>= fun r =>
          .ok ({ t with fecCache := r.fecCache }, { c with assemblers := r.cache },
            receivedEffects io c track h r)) := by
  unfold onReceiveDatagramFrame
  rw [symbolOf] at hsym
  split at hsym
  · simp at hsym
  rename_i hgate
  rw [if_neg hgate]
  split at hsym
  · simp at hsym
  rename_i hfront
  obtain ⟨htelemetry, hsize⟩ := not_or.mp hfront
  cases payload with
  | nil => exact absurd (show ([] : Bytes).length < FecPacketHeader.size by decide) hsize
  | cons trackId rest =>
    have hhead : (trackId :: rest).getD 0 0 = trackId := rfl
    rw [hhead] at htelemetry hsym
    dsimp only
    rw [if_neg htelemetry, if_neg hsize]
    cases hfind : findSubscriptionByAlias c.subscriptions trackId io.uninitTrack with
    | none => simp [hfind] at hsym
    | some track' =>
      rw [hfind] at hsym
      dsimp only at hsym ⊢
      split at hsym
      · simp at hsym
      · rename_i hlimits
        rw [← or_assoc] at hlimits
        obtain ⟨hlarge, hshort⟩ := not_or.mp hlimits
        simp only [Option.some.injEq, Prod.mk.injEq] at hsym
        obtain ⟨rfl, rfl⟩ := hsym
        rw [if_neg hlarge, if_neg hshort]
        rfl

/-! ## Steps on a slot -/

/-- A slot with the symbol of a datagram in it. -/
def FrameAssembler.withSymbol (a : FrameAssembler) (index size : ℕ) (symbol : Bytes) :
    FrameAssembler :=
  if a.store.received index then a
  else
    { a with
      store := (a.store.overwrite fun i =>
        if i = index then some (symbol.take size) else none).mark index
      receivedCount := a.receivedCount + 1
      totalSymbols_le := a.totalSymbols_le }

@[simp] theorem FrameAssembler.decoded_withSymbol (a : FrameAssembler) (index size : ℕ)
    (symbol : Bytes) : (a.withSymbol index size symbol).decoded = a.decoded := by
  unfold withSymbol
  split <;> rfl

/-- Storing a symbol stays in range when the slot has a buffer for the index, which a new symbol
must fit. -/
theorem FrameAssembler.storeSymbol_eq_ok {a a' : FrameAssembler} {index size : ℕ}
    {symbol : Bytes} :
    a.storeSymbol index size symbol = .ok a' ↔
      index < a.store.capacitySymbols ∧
        (a.store.received index = false → size ≤ a.store.capacitySymbolSize) ∧
        a' = a.withSymbol index size symbol := by
  rw [storeSymbol, bind_eq_ok]
  simp only [checkIndex_eq_ok, exists_const, withSymbol]
  by_cases hreceived : a.store.received index = true
  · rw [if_pos hreceived, if_pos hreceived]
    simp [hreceived, eq_comm]
  · rw [if_neg hreceived, if_neg hreceived, bind_eq_ok]
    simp only [checkCopy_eq_ok, exists_const, Except.ok.injEq]
    simp [hreceived, eq_comm]

/-- The indices a NACK names after a symbol, if one is sent. -/
def FrameAssembler.requests (a : FrameAssembler) (type : MoqTrackType) : Option (List ℕ) :=
  if (type = MOQ_TRACK_DATA ∧ a.decoded = false ∧ a.nackSent = false ∧
      (a.dataSymbols + 1) / 2 ≤ a.receivedCount) ∧ a.missingIndices ≠ [] then
    some a.missingIndices
  else none

/-- The slot after the NACK. -/
def FrameAssembler.afterRequest (a : FrameAssembler) (type : MoqTrackType) : FrameAssembler :=
  { a with
    nackSent := a.nackSent || (a.requests type).isSome
    totalSymbols_le := a.totalSymbols_le }

/-- The loop over the marks stays in range: the mask is as long as the total of the slot. -/
theorem FrameAssembler.requestMissing_eq (a : FrameAssembler) (type : MoqTrackType) :
    a.requestMissing type = .ok (a.afterRequest type, a.requests type) := by
  have hcap := a.totalSymbols_le
  have hlen : a.missingIndices.length ≤ a.totalSymbols := by
    have hfilter := List.length_filter_le (fun i => !a.store.received i) (List.range a.totalSymbols)
    rwa [List.length_range] at hfilter
  have hquiet : a.requests type = none → a.afterRequest type = a := by
    intro h
    rw [afterRequest, h]
    simp
  rw [requestMissing]
  split
  · rename_i hasks
    have hcheck : checkIndices a.totalSymbols a.store.capacitySymbols = .ok () :=
      checkIndices_eq_ok.mpr hcap
    have hcheck' : checkIndices a.missingIndices.length a.store.capacitySymbols = .ok () :=
      checkIndices_eq_ok.mpr (by omega)
    rw [hcheck, hcheck']
    show (if a.missingIndices = [] then _ else _) = _
    split
    · rename_i hnone
      have hreq : a.requests type = none := if_neg fun h => h.2 hnone
      rw [hquiet hreq, hreq]
    · rename_i hsome
      have hreq : a.requests type = some a.missingIndices := if_pos ⟨hasks, hsome⟩
      rw [afterRequest, hreq]
      simp
  · rename_i hasks
    have hreq : a.requests type = none := if_neg fun h => hasks h.1
    rw [hquiet hreq, hreq]

@[simp] theorem FrameAssembler.store_afterRequest (a : FrameAssembler) (type : MoqTrackType) :
    (a.afterRequest type).store = a.store := rfl

@[simp] theorem FrameAssembler.receivedCount_afterRequest (a : FrameAssembler)
    (type : MoqTrackType) : (a.afterRequest type).receivedCount = a.receivedCount := rfl

/-! ## The loop over the marks -/

/-- All data symbols are marked. -/
theorem gotAllData_true {mask : List Bool} {i n : ℕ} :
    gotAllData mask i n = .ok true ↔ ∀ j, i ≤ j → j < i + n → mask.getD j false = true := by
  induction n generalizing i with
  | zero =>
    simp only [gotAllData, true_iff]
    intro j hij hj
    omega
  | succ n ih =>
    rw [gotAllData, bind_eq_ok]
    simp only [checkIndex_eq_ok, exists_const]
    constructor
    · rintro ⟨hi, h⟩ j hij hj
      by_cases hmark : mask.getD i false = true
      · rw [if_pos hmark] at h
        rcases Nat.eq_or_lt_of_le hij with rfl | hlt
        · exact hmark
        · exact ih.mp h j hlt (by omega)
      · rw [if_neg hmark] at h
        simp at h
    · intro h
      have hmark := h i (Nat.le_refl i) (by omega)
      refine ⟨?_, ?_⟩
      · by_contra hi
        rw [List.getD_eq_default _ _ (by omega)] at hmark
        simp at hmark
      · rw [if_pos hmark]
        exact ih.mpr fun j hij hj => h j (by omega) (by omega)

/-- The loop finds a data symbol that is not marked before it leaves the mask. -/
theorem gotAllData_false {mask : List Bool} {i n : ℕ} :
    gotAllData mask i n = .ok false ↔
      ∃ j, i ≤ j ∧ j < i + n ∧ j < mask.length ∧ mask.getD j false = false := by
  induction n generalizing i with
  | zero =>
    simp only [gotAllData, Except.ok.injEq, Bool.true_eq_false, false_iff]
    rintro ⟨j, hij, hj, -⟩
    omega
  | succ n ih =>
    rw [gotAllData, bind_eq_ok]
    simp only [checkIndex_eq_ok, exists_const]
    constructor
    · rintro ⟨hi, h⟩
      by_cases hmark : mask.getD i false = true
      · rw [if_pos hmark] at h
        obtain ⟨j, hij, hj, hlen, hfree⟩ := ih.mp h
        exact ⟨j, by omega, by omega, hlen, hfree⟩
      · exact ⟨i, Nat.le_refl i, by omega, hi, by simpa using hmark⟩
    · rintro ⟨j, hij, hj, hlen, hfree⟩
      refine ⟨by omega, ?_⟩
      by_cases hmark : mask.getD i false = true
      · rw [if_pos hmark]
        have hne : i ≠ j := by
          rintro rfl
          rw [hmark] at hfree
          simp at hfree
        exact ih.mpr ⟨j, by omega, by omega, hlen, hfree⟩
      · rw [if_neg hmark]

/-! ## The loop that copies -/

/-- The length of chunk `k` of an object of `len` bytes. -/
def chunkLength (len size k : ℕ) : ℕ := min (len - k * size) size

/-- After an empty chunk there are only empty chunks. -/
theorem chunkLength_eq_zero_of_le {len size i k : ℕ} (hik : i ≤ k)
    (h : chunkLength len size i = 0) :
    chunkLength len size k = 0 := by
  rw [chunkLength] at h ⊢
  have hmul : i * size ≤ k * size := Nat.mul_le_mul_right size hik
  omega

/-- The loop stays in range when every chunk that is not empty lies in its buffer; it then
overwrites the object byte by byte, as far as there are data symbols. -/
theorem copyObject_eq_ok {buffers : List Bytes} {size i n left : ℕ} {full out : Bytes}
    (hleft : left = full.length - i * size) :
    copyObject buffers size i n left full = .ok out ↔
      (∀ k, i ≤ k → k < i + n → 0 < chunkLength full.length size k →
        k < buffers.length ∧ chunkLength full.length size k ≤ (buffers.getD k []).length) ∧
      ∀ p, out[p]? =
        if i * size ≤ p ∧ p < (i + n) * size ∧ p < full.length then
          (buffers.getD (p / size) [])[p % size]?
        else full[p]? := by
  -- by the number of symbols that are left; `left` follows from the index
  induction n generalizing i left full with
  | zero =>
    rw [copyObject, Except.ok.injEq]
    constructor
    · rintro rfl
      refine ⟨fun k hik hk => by omega, fun p => ?_⟩
      rw [if_neg (by rw [Nat.add_zero]; omega)]
    · rintro ⟨-, hout⟩
      refine List.ext_getElem? fun p => ?_
      rw [hout p, if_neg (by rw [Nat.add_zero]; omega)]
  | succ n ih =>
    have hchunk : (if left < size then left else size) = chunkLength full.length size i := by
      rw [chunkLength, ← hleft]
      split <;> omega
    have hsucc : (i + 1) * size = i * size + size := Nat.succ_mul i size
    have hend : i + (n + 1) = i + 1 + n := by omega
    have hmono : (i + 1) * size ≤ (i + 1 + n) * size :=
      Nat.mul_le_mul_right size (Nat.le_add_right _ n)
    rw [copyObject]
    simp only [hchunk]
    by_cases hpos : 0 < chunkLength full.length size i
    · rw [if_pos hpos, bind_eq_ok]
      have hfits : i * size + chunkLength full.length size i ≤ full.length := by
        rw [chunkLength] at hpos ⊢
        omega
      simp only [bind_eq_ok, checkIndex_eq_ok, checkCopy_eq_ok, exists_const, hfits, true_and]
      rw [hend]
      by_cases hbuf : i < buffers.length ∧
          chunkLength full.length size i ≤ (buffers.getD i []).length
      · obtain ⟨hi, hle⟩ := hbuf
        simp only [hi, hle, true_and]
        have htake : ((buffers.getD i []).take (chunkLength full.length size i)).length =
            chunkLength full.length size i := List.length_take_of_le hle
        have hlen : (writeAt full (i * size)
            ((buffers.getD i []).take (chunkLength full.length size i))).length = full.length :=
          length_writeAt (by rw [htake]; exact hfits)
        rw [ih (by rw [hlen]; rw [chunkLength] at hpos ⊢; omega), hlen]
        refine and_congr ?_ (forall_congr' fun p => ?_)
        · constructor
          · intro h k hik hk hkpos
            rcases Nat.eq_or_lt_of_le hik with rfl | hlt
            · exact ⟨hi, hle⟩
            · exact h k hlt hk hkpos
          · exact fun h k hik hk hkpos => h k (by omega) hk hkpos
        · rw [getElem?_writeAt (by rw [htake]; exact hfits), htake]
          have hmax : chunkLength full.length size i ≤ size := Nat.min_le_right _ _
          by_cases hin : i * size ≤ p ∧ p < i * size + chunkLength full.length size i
          · have hdiv : p / size = i := Nat.div_eq_of_lt_le hin.1 (by omega)
            have hmod : p % size = p - i * size := by
              rw [Nat.mod_eq_sub, hdiv, Nat.mul_comm]
            rw [if_neg (by omega), if_pos hin, if_pos ⟨hin.1, by omega, by omega⟩, hdiv, hmod,
              List.getElem?_take_of_lt (by omega)]
          · rw [if_neg hin]
            have hcond : ((i + 1) * size ≤ p ∧ p < (i + 1 + n) * size ∧ p < full.length) ↔
                (i * size ≤ p ∧ p < (i + 1 + n) * size ∧ p < full.length) := by
              rw [chunkLength] at hin
              omega
            simp only [hcond]
      · constructor
        · rintro ⟨hi, hle, -⟩
          exact absurd ⟨hi, hle⟩ hbuf
        · rintro ⟨h, -⟩
          exact absurd (h i (Nat.le_refl i) (by omega) hpos) hbuf
    -- the object has ended: the rest of the symbols copy nothing
    · rw [if_neg hpos]
      have hzero : chunkLength full.length size i = 0 := by omega
      rw [ih (by rw [chunkLength] at hzero; omega), hend]
      have hnone : ∀ k, i ≤ k → ¬0 < chunkLength full.length size k := fun k hik => by
        rw [chunkLength_eq_zero_of_le hik hzero]
        omega
      rw [chunkLength] at hzero
      refine and_congr ?_ (forall_congr' fun p => ?_)
      · exact ⟨fun _ k hik _ hk => absurd hk (hnone k hik),
          fun _ k hik _ hk => absurd hk (hnone k (by omega))⟩
      · have hcond : ((i + 1) * size ≤ p ∧ p < (i + 1 + n) * size ∧ p < full.length) ↔
            (i * size ≤ p ∧ p < (i + 1 + n) * size ∧ p < full.length) := by
          omega
        simp only [hcond]

/-- The object as the loop leaves it: the bytes of the data symbols, and past them what the new
memory held. -/
def copiedObject (buffers : List Bytes) (size n original : ℕ) (junk : ℕ → UInt8) : Bytes :=
  (List.range original).map fun p =>
    if p < n * size then (buffers.getD (p / size) []).getD (p % size) 0 else junk p

/-- The whole loop: every chunk lies in its buffer, and the object is `copiedObject`. -/
theorem copyObject_eq {buffers : List Bytes} {size n original : ℕ} {junk : ℕ → UInt8}
    {out : Bytes} :
    copyObject buffers size 0 n original ((List.range original).map junk) = .ok out ↔
      (∀ k < n, 0 < chunkLength original size k →
        k < buffers.length ∧ chunkLength original size k ≤ (buffers.getD k []).length) ∧
      out = copiedObject buffers size n original junk := by
  have hlen : ((List.range original).map junk).length = original := by simp
  rw [copyObject_eq_ok (by rw [hlen]; omega), hlen]
  simp only [Nat.zero_le, Nat.zero_add, Nat.zero_mul, true_and, true_implies]
  refine and_congr_right fun hfits => ?_
  have hbyte : ∀ p, (copiedObject buffers size n original junk)[p]? =
      if p < n * size ∧ p < original then (buffers.getD (p / size) [])[p % size]?
      else ((List.range original).map junk)[p]? := by
    intro p
    rw [copiedObject, List.getElem?_map, List.getElem?_map]
    by_cases hp : p < original
    · rw [List.getElem?_range hp]
      by_cases hcopied : p < n * size
      · have hpos : 0 < size := Nat.pos_of_mul_pos_left (by omega : 0 < n * size)
        have hk : p / size < n := Nat.div_lt_of_lt_mul (by rwa [Nat.mul_comm] at hcopied)
        have hmod := Nat.mod_lt p hpos
        have hdiv : size * (p / size) + p % size = p := Nat.div_add_mod p size
        have hchunk : p % size < chunkLength original size (p / size) := by
          rw [chunkLength, Nat.mul_comm]
          omega
        have hbuf := (hfits (p / size) hk (by omega)).2
        rw [if_pos ⟨hcopied, hp⟩, Option.map_some, if_pos hcopied,
          List.getD_eq_getElem _ _ (by omega), List.getElem?_eq_getElem (by omega)]
      · rw [if_neg fun h => hcopied h.1, Option.map_some, if_neg hcopied]
        rfl
    · rw [List.getElem?_eq_none (by simpa using hp), if_neg fun h => hp h.2]
      rfl
  constructor
  · intro h
    exact List.ext_getElem? fun p => by rw [h p, hbyte p]
  · rintro rfl p
    exact hbyte p

/-! ## Without the cache of contexts

What a symbol does to its slot does not depend on what the cache of contexts holds: only on
which contexts can be created. -/

theorem fecDecode_params (lib : FecLib) (f : FecT) (blocks : List Bytes) (missing : List Bool) :
    fecDecode lib f blocks missing = fecDecode lib ⟨0, f.params⟩ blocks missing := rfl

/-- The parameters of the context the receiver asks for. -/
def receiverFecParams (type : MoqTrackType) (total data size : ℕ) : FecParams :=
  ⟨receiverFecType type total, data, paritySymbols total data, size⟩

/-- What the decoder writes into the buffers. -/
def recovered (lib : FecLib) (type : MoqTrackType) (st : SymbolStore) (total data size : ℕ) :
    Except Fault (Option (ℕ → Option Bytes)) :=
  if 0 < paritySymbols total data ∧ lib.creates (receiverFecParams type total data size) then do
    checkIndices total 256
    checkIndices total st.capacitySymbols
    fecDecode lib ⟨0, receiverFecParams type total data size⟩ st.buffers (missingMask st total)
  else .ok none

theorem recoverSymbols_eq {lib : FecLib} {cache : FecCache} (hsound : cache.Sound lib) (now : ℕ)
    (type : MoqTrackType) (st : SymbolStore) (total data size : ℕ) :
    ∃ cache', cache'.Sound lib ∧ recoverSymbols lib cache now type st total data size =
      (recovered lib type st total data size >>= fun s => .ok (s, cache')) := by
  have hparams := getCachedFec_params hsound now (receiverFecParams type total data size)
  have hsound' := sound_getCachedFec hsound now (receiverFecParams type total data size)
  rw [recoverSymbols, recovered]
  by_cases hparity : 0 < paritySymbols total data
  · rw [if_pos hparity]
    dsimp only
    rw [← receiverFecParams]
    generalize receiverFecParams type total data size = p at hparams hsound' ⊢
    generalize getCachedFec lib cache now p = r at hparams hsound' ⊢
    refine ⟨r.2, hsound', ?_⟩
    by_cases hcreates : lib.creates p = true
    · rw [if_pos hcreates] at hparams
      obtain ⟨fec, hfec, rfl⟩ := Option.map_eq_some_iff.mp hparams
      rw [hfec, if_pos ⟨hparity, hcreates⟩]
      dsimp only
      rw [fecDecode_params]
      simp only [bind_assoc]
    · rw [if_neg hcreates, Option.map_eq_none_iff] at hparams
      rw [hparams, if_neg fun h => hcreates h.2]
      rfl
  · refine ⟨cache, hsound, ?_⟩
    rw [if_neg hparity, if_neg fun h => hparity h.1]
    rfl

/-- What is written into the buffers before the object is copied out of them. -/
def obtained (lib : FecLib) (type : MoqTrackType) (st : SymbolStore) (h : FecPacketHeader) :
    Except Fault (Option (ℕ → Option Bytes)) := do
  let gotAll ← gotAllData st.receivedMask 0 h.dataSymbols.toNat
  if gotAll then .ok (some fun _ => none)
  else recovered lib type st h.totalSymbols.toNat h.dataSymbols.toNat h.symbolSize.toNat

theorem obtainSymbols_eq {lib : FecLib} {cache : FecCache} (hsound : cache.Sound lib)
    (io : ReceiveIO) (type : MoqTrackType) (st : SymbolStore) (h : FecPacketHeader) :
    ∃ cache', cache'.Sound lib ∧ obtainSymbols lib cache io type st h =
      (obtained lib type st h >>= fun s => .ok (s, cache')) := by
  obtain ⟨cache', hsound', hrecover⟩ := recoverSymbols_eq hsound io.fecTimeNs type st
    h.totalSymbols.toNat h.dataSymbols.toNat h.symbolSize.toNat
  rw [obtainSymbols, obtained, hrecover]
  generalize recovered lib type st h.totalSymbols.toNat h.dataSymbols.toNat
    h.symbolSize.toNat = r
  cases gotAllData st.receivedMask 0 h.dataSymbols.toNat with
  | error e => exact ⟨cache, hsound, rfl⟩
  | ok gotAll =>
    cases gotAll with
    | true => exact ⟨cache, hsound, rfl⟩
    | false => exact ⟨cache', hsound', rfl⟩

/-- The object once enough symbols are there: what was restored, and its bytes. -/
def completion (lib : FecLib) (junk : ℕ → UInt8) (type : MoqTrackType) (a : FrameAssembler)
    (h : FecPacketHeader) : Except Fault (Option ((ℕ → Option Bytes) × Bytes)) :=
  if a.receivedCount < h.dataSymbols.toNat then .ok none
  else do
    let s ← obtained lib type a.store h
    match s with
    | none => .ok none
    | some symbols => do
      let fullData ← copyObject (a.store.overwrite symbols).buffers h.symbolSize.toNat 0
        h.dataSymbols.toNat h.originalSize.toNat ((List.range h.originalSize.toNat).map junk)
      .ok (some (symbols, fullData))

/-- What completes the object, and the object that is copied then. -/
theorem completion_some {lib : FecLib} {junk : ℕ → UInt8} {type : MoqTrackType}
    {a : FrameAssembler} {h : FecPacketHeader} {symbols : ℕ → Option Bytes} {fullData : Bytes}
    (hcompletion : completion lib junk type a h = .ok (some (symbols, fullData))) :
    obtained lib type a.store h = .ok (some symbols) ∧
      fullData = copiedObject (a.store.overwrite symbols).buffers h.symbolSize.toNat
        h.dataSymbols.toNat h.originalSize.toNat junk := by
  unfold completion at hcompletion
  split at hcompletion
  · simp at hcompletion
  obtain ⟨found, hfound, hcompletion⟩ := bind_eq_ok.mp hcompletion
  cases found with
  | none => simp at hcompletion
  | some found =>
    obtain ⟨out, hout, heq⟩ := bind_eq_ok.mp hcompletion
    simp only [Except.ok.injEq, Option.some.injEq, Prod.mk.injEq] at heq
    obtain ⟨rfl, rfl⟩ := heq
    exact ⟨hfound, (copyObject_eq.mp hout).2⟩

/-- A slot with all data symbols completes its object. -/
theorem completion_of_received (lib : FecLib) (junk : ℕ → UInt8) (type : MoqTrackType)
    {a : FrameAssembler} {h : FecPacketHeader} (hcount : h.dataSymbols.toNat ≤ a.receivedCount)
    (hall : ∀ j < h.dataSymbols.toNat, a.store.received j = true)
    (hcap : h.dataSymbols.toNat ≤ a.store.capacitySymbols)
    (hsize : h.symbolSize.toNat ≤ a.store.capacitySymbolSize) :
    ∃ d, completion lib junk type a h = .ok (some d) := by
  have hobtained : obtained lib type a.store h = .ok (some fun _ => none) := by
    have hmarks : gotAllData a.store.receivedMask 0 h.dataSymbols.toNat = .ok true :=
      gotAllData_true.mpr fun j _ hj => hall j (by omega)
    rw [obtained, hmarks]
    rfl
  have hcopy : copyObject (a.store.overwrite fun _ => none).buffers h.symbolSize.toNat 0
      h.dataSymbols.toNat h.originalSize.toNat ((List.range h.originalSize.toNat).map junk) =
        .ok (copiedObject (a.store.overwrite fun _ => none).buffers h.symbolSize.toNat
          h.dataSymbols.toNat h.originalSize.toNat junk) := by
    rw [copyObject_eq]
    refine ⟨?_, rfl⟩
    intro k hk _
    have hlt : k < a.store.capacitySymbols := by omega
    have hbuffer : ((a.store.overwrite fun _ => none).buffer k).length =
        a.store.capacitySymbolSize := SymbolStore.length_buffer hlt
    rw [SymbolStore.buffer] at hbuffer
    rw [SymbolStore.length_buffers, hbuffer, chunkLength]
    exact ⟨hlt, (Nat.min_le_right _ _).trans hsize⟩
  refine ⟨(fun _ => none, copiedObject (a.store.overwrite fun _ => none).buffers
    h.symbolSize.toNat h.dataSymbols.toNat h.originalSize.toNat junk), ?_⟩
  rw [completion, if_neg (by omega), hobtained]
  show (copyObject _ _ _ _ _ _ >>= _) = _
  rw [hcopy]
  rfl

/-- A symbol's effect on its slot. -/
structure Received where
  slot : FrameAssembler
  nack : Option (List ℕ)
  fullData : Option Bytes

/-- The slot after the object was or was not completed. -/
def FrameAssembler.received (a : FrameAssembler) (nack : Option (List ℕ)) :
    Option ((ℕ → Option Bytes) × Bytes) → Received
  | none => ⟨a, nack, none⟩
  | some (symbols, fullData) =>
    ⟨{ a with
        store := a.store.overwrite symbols
        decoded := true
        totalSymbols_le := a.totalSymbols_le }, nack, some fullData⟩

theorem completeObject_eq {lib : FecLib} {cache : FecCache} (hsound : cache.Sound lib)
    (io : ReceiveIO) (type : MoqTrackType) (a : FrameAssembler) (h : FecPacketHeader) :
    ∃ cache', cache'.Sound lib ∧ completeObject lib cache io type a h =
      (completion lib io.junk type a h >>= fun d =>
        .ok ⟨(a.received none d).slot, none, (a.received none d).fullData, cache'⟩) := by
  rw [completeObject, completion]
  by_cases hcount : a.receivedCount < h.dataSymbols.toNat
  · exact ⟨cache, hsound, by rw [if_pos hcount, if_pos hcount]; rfl⟩
  obtain ⟨cache', hsound', hobtain⟩ := obtainSymbols_eq hsound io type a.store h
  refine ⟨cache', hsound', ?_⟩
  rw [if_neg hcount, if_neg hcount, hobtain]
  cases obtained lib type a.store h with
  | error e => rfl
  | ok s =>
    cases s with
    | none => rfl
    | some symbols =>
      show (copyObject _ _ _ _ _ _ >>= _) = ((copyObject _ _ _ _ _ _ >>= _) >>= _)
      cases copyObject (a.store.overwrite symbols).buffers h.symbolSize.toNat 0
        h.dataSymbols.toNat h.originalSize.toNat
          ((List.range h.originalSize.toNat).map io.junk) with
      | error e => rfl
      | ok fullData => rfl

/-- What a symbol does to the slot of its object. -/
def slotStep (lib : FecLib) (junk : ℕ → UInt8) (type : MoqTrackType) (a : FrameAssembler)
    (h : FecPacketHeader) (symbol : Bytes) : Except Fault Received :=
  if a.decoded = true ∨ h.totalSymbols ≤ h.symbolIndex then .ok ⟨a, none, none⟩
  else do
    let stored ← a.storeSymbol h.symbolIndex.toNat h.symbolSize.toNat symbol
    let d ← completion lib junk type (stored.afterRequest type) h
    .ok ((stored.afterRequest type).received (stored.requests type) d)

theorem receiveSymbol_eq {lib : FecLib} {cache : FecCache} (hsound : cache.Sound lib)
    (io : ReceiveIO) (type : MoqTrackType) (a : FrameAssembler) (h : FecPacketHeader)
    (symbol : Bytes) :
    ∃ cache', cache'.Sound lib ∧ receiveSymbol lib cache io type a h symbol =
      (slotStep lib io.junk type a h symbol >>= fun r =>
        .ok ⟨r.slot, r.nack, r.fullData, cache'⟩) := by
  rw [receiveSymbol, slotStep]
  by_cases hdecoded : a.decoded = true
  · exact ⟨cache, hsound, by rw [if_pos hdecoded, if_pos (Or.inl hdecoded)]; rfl⟩
  rw [if_neg hdecoded]
  by_cases hindex : h.totalSymbols ≤ h.symbolIndex
  · exact ⟨cache, hsound, by rw [if_pos hindex, if_pos (Or.inr hindex)]; rfl⟩
  rw [if_neg hindex, if_neg (not_or.mpr ⟨hdecoded, hindex⟩)]
  cases a.storeSymbol h.symbolIndex.toNat h.symbolSize.toNat symbol with
  | error e => exact ⟨cache, hsound, rfl⟩
  | ok stored =>
    obtain ⟨cache', hsound', hcomplete⟩ :=
      completeObject_eq hsound io type (stored.afterRequest type) h
    refine ⟨cache', hsound', ?_⟩
    show (stored.requestMissing type >>= _) = _
    rw [stored.requestMissing_eq]
    show (completeObject lib cache io type (stored.afterRequest type) h >>= _) = _
    rw [hcomplete]
    show _ = ((completion lib io.junk type (stored.afterRequest type) h >>= _) >>= _)
    cases completion lib io.junk type (stored.afterRequest type) h with
    | error e => rfl
    | ok d => cases d <;> rfl

/-- What a symbol does to the ring of slots. -/
def ringStep (lib : FecLib) (junk : ℕ → UInt8) (type : MoqTrackType) (s : AssemblerCache)
    (h : FecPacketHeader) (symbol : Bytes) : Except Fault (AssemblerCache × Received) := do
  let located := s.locate h
  let r ← slotStep lib junk type (located.1.slot located.2) h symbol
  .ok (located.1.set located.2 r.slot, r)

theorem ringStep_ok {lib : FecLib} {junk : ℕ → UInt8} {type : MoqTrackType} {s : AssemblerCache}
    {h : FecPacketHeader} {symbol : Bytes} {r : Received}
    (hslot : slotStep lib junk type ((s.locate h).1.slot (s.locate h).2) h symbol = .ok r) :
    ringStep lib junk type s h symbol = .ok ((s.locate h).1.set (s.locate h).2 r.slot, r) := by
  unfold ringStep
  dsimp only
  rw [hslot]
  rfl

theorem assemble_eq {lib : FecLib} {cache : FecCache} (hsound : cache.Sound lib)
    (io : ReceiveIO) (type : MoqTrackType) (s : AssemblerCache) (h : FecPacketHeader)
    (symbol : Bytes) :
    ∃ cache', cache'.Sound lib ∧ assemble lib cache io type s h symbol =
      (ringStep lib io.junk type s h symbol >>= fun r =>
        .ok ⟨r.1, s.evicted h, r.2.slot.priority, r.2.nack, r.2.fullData, cache'⟩) := by
  obtain ⟨cache', hsound', hreceive⟩ :=
    receiveSymbol_eq hsound io type ((s.locate h).1.slot (s.locate h).2) h symbol
  refine ⟨cache', hsound', ?_⟩
  rw [assemble, ringStep, hreceive]
  cases slotStep lib io.junk type ((s.locate h).1.slot (s.locate h).2) h symbol <;> rfl

end Bishlink
