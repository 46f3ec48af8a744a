import Bishlink.Codes
import Bishlink.Collecting

/-!
# Objects that are recovered

With as many symbols as an object has data symbols the receiver can hand it on, whichever they are.
It does so up to 255 symbols, and for one more on a DATA track; past that only when no data symbol
is missing (`object_recovered_iff`): no Reed-Solomon context exists, and the marks of RaptorQ go
into `bool missing[256]`.
-/

namespace Bishlink

open ByteCodec Checked Runs

/-! ## The decoder -/

/-- A list without repetition has as many members as the set of them. -/
theorem length_eq_card {l : List ℕ} {s : Finset ℕ} (hnodup : l.Nodup) (h : ∀ i, i ∈ l ↔ i ∈ s) :
    l.length = s.card := by
  rw [← List.toFinset_card_of_nodup hnodup]
  congr 1
  ext i
  rw [List.mem_toFinset, h]

section Decoder

variable {lib : FecLib} {st : SymbolStore} {arrived : Finset ℕ} {total data size : ℕ}

theorem getD_missingMask_arrived (hreceived : ∀ j, st.received j = true ↔ j ∈ arrived)
    (htotal : total ≤ 256) {i : ℕ} (hi : i < total) :
    (missingMask st total).getD i false = true ↔ i ∉ arrived := by
  rw [getD_missingMask (by omega), decide_eq_true hi, Bool.true_and, ← hreceived,
    Bool.not_eq_true', Bool.not_eq_true]

/-- The symbols that arrived are the ones that are not marked missing. -/
theorem count_missingMask (hreceived : ∀ j, st.received j = true ↔ j ∈ arrived)
    (hlt : ∀ j ∈ arrived, j < total) (htotal : total ≤ 256) :
    ((missingMask st total).take total).count false = arrived.card := by
  have hmask : (missingMask st total).take total =
      (List.range total).map fun i => decide (i < total) && !st.received i := by
    unfold missingMask
    rw [← List.map_take, List.take_range, Nat.min_eq_left htotal]
  rw [hmask, List.count, List.countP_map, List.countP_eq_length_filter]
  refine length_eq_card (List.nodup_range.filter _) fun i => ?_
  rw [List.mem_filter, List.mem_range, ← hreceived]
  constructor
  · rintro ⟨hi, h⟩
    simpa [hi] using h
  · intro h
    exact ⟨hlt i ((hreceived i).mp h), by simp [h]⟩

/-- There are as many repair symbols as missing ones, when there are as many symbols as data
symbols. -/
theorem length_droppedEsi_le (hreceived : ∀ j, st.received j = true ↔ j ∈ arrived)
    (hlt : ∀ j ∈ arrived, j < total) (htotal : total ≤ 256) (hle : data ≤ total)
    (hcount : data ≤ arrived.card) :
    (droppedEsi data (missingMask st total)).length ≤
      (repairEsi data (total - data) (missingMask st total)).length := by
  have hmark := fun {i : ℕ} => getD_missingMask_arrived (i := i) hreceived htotal
  have hdropped : (droppedEsi data (missingMask st total)).length =
      (Finset.range data \ arrived).card := by
    refine length_eq_card (nodup_droppedEsi _ _) fun i => ?_
    rw [mem_droppedEsi, Finset.mem_sdiff, Finset.mem_range]
    exact and_congr_right fun hi => hmark (by omega)
  have hrepair : (repairEsi data (total - data) (missingMask st total)).length =
      (arrived \ Finset.range data).card := by
    refine length_eq_card (nodup_repairEsi _ _ _) fun i => ?_
    rw [mem_repairEsi, Finset.mem_sdiff, Finset.mem_range, ← Bool.not_eq_true]
    constructor
    · rintro ⟨hge, hsum, hmissing⟩
      rw [hmark (by omega), not_not] at hmissing
      exact ⟨hmissing, by omega⟩
    · rintro ⟨hi, hge⟩
      have hlast := hlt i hi
      refine ⟨by omega, by omega, ?_⟩
      rw [hmark hlast, not_not]
      exact hi
  rw [hdropped, hrepair]
  have hd := Finset.card_sdiff_add_card_inter (Finset.range data) arrived
  have ha := Finset.card_sdiff_add_card_inter arrived (Finset.range data)
  rw [Finset.inter_comm, Finset.card_range] at hd
  omega

/-- Reed-Solomon restores an object of up to 255 symbols. -/
theorem fecDecode_reedSolomon (hlib : Recovers lib)
    (hreceived : ∀ j, st.received j = true ↔ j ∈ arrived) (hlt : ∀ j ∈ arrived, j < total)
    (hle : data ≤ total) (hcount : data ≤ arrived.card) (htotal : total ≤ 255)
    (hcap : total ≤ st.capacitySymbols) (hsize : size ≤ st.capacitySymbolSize) :
    ∃ symbols, fecDecode lib ⟨0, ⟨.FEC_REED_SOLOMON, data, total - data, size⟩⟩ st.buffers
      (missingMask st total) = .ok (some symbols) := by
  have hsum : data + (total - data) = total := by omega
  have hmod : total % 2 ^ 64 = total := Nat.mod_eq_of_lt (by omega)
  have hmask : checkIndices total (missingMask st total).length = .ok () := by
    rw [checkIndices_eq_ok, length_missingMask]
    omega
  have hblocks : checkBlocks size st.buffers (List.range total) = .ok () := by
    refine checkBlocks_eq_ok.mpr fun i hi => ?_
    have hi := List.mem_range.mp hi
    rw [st.length_buffers, ← SymbolStore.buffer, SymbolStore.length_buffer (by omega)]
    exact ⟨by omega, hsize⟩
  obtain ⟨out, hout⟩ := hlib.reedSolomonDecode data (total - data) size
    ((st.buffers.take total).map (·.take size)) ((missingMask st total).take total) (by omega)
    (by rw [List.length_map, List.length_take, st.length_buffers]; omega)
    (fun b hb => by
      obtain ⟨buf, hbuf, rfl⟩ := List.mem_map.mp hb
      have hlength := st.length_of_mem_buffers buf (List.mem_of_mem_take hbuf)
      rw [List.length_take, Nat.min_eq_left (by omega)])
    (by rw [List.length_take, length_missingMask]; omega)
    (by rw [count_missingMask hreceived hlt (by omega)]; exact hcount)
  unfold fecDecode
  dsimp only
  rw [hsum, hmod, hmask, hblocks, hout]
  exact ⟨_, rfl⟩

/-- The pairs that `fec_decode` makes: each missing data symbol with a repair symbol of its own. -/
theorem substitutes_pairs {d p : ℕ} {missing : List Bool} (hdropped : droppedEsi d missing ≠ [])
    (hfew : (droppedEsi d missing).length ≤ (repairEsi d p missing).length) :
    Substitutes d p ((droppedEsi d missing).zip (repairEsi d p missing)) where
  nonempty := by
    have hpos := List.length_pos_iff.mpr hdropped
    refine List.ne_nil_of_length_pos ?_
    rw [List.length_zip]
    omega
  dropped := by
    rw [List.map_fst_zip hfew]
    exact nodup_droppedEsi d missing
  repair := by
    rw [List.zip_eq_zip_take_min, Nat.min_eq_left hfew, List.take_length,
      List.map_snd_zip (by rw [List.length_take]; omega)]
    exact (List.take_sublist _ _).nodup (nodup_repairEsi d p missing)
  dropped_lt _ hs := (mem_droppedEsi.mp (List.of_mem_zip hs).1).1
  repair_ge _ hs := (mem_repairEsi.mp (List.of_mem_zip hs).2).1
  repair_lt _ hs := (mem_repairEsi.mp (List.of_mem_zip hs).2).2.1

/-- Each row of the matrix is a whole symbol. -/
theorem length_raptorqRows {d : ℕ} {subs : List (ℕ × ℕ)} (hd : d ≤ st.capacitySymbols)
    (hsize : size ≤ st.capacitySymbolSize) (hsubs : ∀ s ∈ subs, s.2 < st.capacitySymbols) :
    ∀ b ∈ raptorqRows d size st.buffers subs, b.length = size := by
  have hlength : ∀ i < st.capacitySymbols, ((st.buffers.getD i []).take size).length = size := by
    intro i hi
    rw [List.length_take, ← SymbolStore.buffer, SymbolStore.length_buffer hi]
    omega
  intro b hb
  obtain ⟨i, hi, rfl⟩ := List.mem_map.mp hb
  have hi := List.mem_range.mp hi
  cases hfind : subs.find? (fun s => s.1 == i) with
  | none => exact hlength i (by omega)
  | some s => exact hlength s.2 (hsubs s (List.mem_of_find?_eq_some hfind))

/-- RaptorQ restores an object of up to 256 symbols. -/
theorem fecDecode_raptorq (hlib : Recovers lib)
    (hreceived : ∀ j, st.received j = true ↔ j ∈ arrived) (hlt : ∀ j ∈ arrived, j < total)
    (hle : data ≤ total) (hcount : data ≤ arrived.card) (hlacks : ∃ j < data, j ∉ arrived)
    (htotal : total ≤ 256) (hcap : total ≤ st.capacitySymbols)
    (hsize : size ≤ st.capacitySymbolSize) :
    ∃ symbols, fecDecode lib ⟨0, ⟨.FEC_RAPTORQ, data, total - data, size⟩⟩ st.buffers
      (missingMask st total) = .ok (some symbols) := by
  have hmask : checkIndices (data + (total - data)) (missingMask st total).length = .ok () := by
    rw [checkIndices_eq_ok, length_missingMask]
    omega
  have hfew := length_droppedEsi_le hreceived hlt htotal hle hcount
  have hdropped : droppedEsi data (missingMask st total) ≠ [] := by
    obtain ⟨j, hj, hmissing⟩ := hlacks
    refine List.ne_nil_of_mem (mem_droppedEsi.mpr ⟨hj, ?_⟩)
    exact (getD_missingMask_arrived hreceived htotal (by omega)).mpr hmissing
  have hblocks : checkBlocks size st.buffers (List.range data ++
      ((droppedEsi data (missingMask st total)).zip
        (repairEsi data (total - data) (missingMask st total))).map Prod.snd) = .ok () := by
    obtain ⟨j, hj, -⟩ := hlacks
    refine (checkBlocks_buffers size (fun i hi => ?_) ?_).mpr hsize
    · rcases List.mem_append.mp hi with hi | hi
      · have hi := List.mem_range.mp hi
        omega
      · obtain ⟨⟨k, row⟩, hpair, rfl⟩ := List.mem_map.mp hi
        have hrow := (mem_repairEsi.mp (List.of_mem_zip hpair).2).2.1
        dsimp only
        omega
    · exact List.append_ne_nil_of_left_ne_nil (List.ne_nil_of_mem (List.mem_range.mpr hj)) _
  have hsubs := substitutes_pairs hdropped hfew
  obtain ⟨mix, hmix⟩ := hlib.nanorq data (total - data) size _
    (raptorqRows data size st.buffers ((droppedEsi data (missingMask st total)).zip
      (repairEsi data (total - data) (missingMask st total)))) (by omega) hsubs
    (by rw [raptorqRows, List.length_map, List.length_range])
    (length_raptorqRows (by omega) hsize fun s hs => by have := hsubs.repair_lt s hs; omega)
  unfold fecDecode
  dsimp only
  rw [hmask, ok_bind, if_neg (by omega), if_neg hdropped, hblocks, ok_bind, hmix]
  exact ⟨_, rfl⟩

/-- What the decoder restores from enough symbols: up to 255 of them Reed-Solomon, and 256
RaptorQ. -/
theorem recovered_iff (hlib : Recovers lib) (type : MoqTrackType)
    (hreceived : ∀ j, st.received j = true ↔ j ∈ arrived) (hlt : ∀ j ∈ arrived, j < total)
    (hle : data ≤ total) (hcount : data ≤ arrived.card) (hlacks : ∃ j < data, j ∉ arrived)
    (hcap : total ≤ st.capacitySymbols) (hsize : size ≤ st.capacitySymbolSize)
    (hsmall : size ≤ 4096) :
    (∃ symbols, recovered lib type st total data size = .ok (some symbols)) ↔
      total ≤ 255 ∨ (type = MOQ_TRACK_DATA ∧ total = 256) := by
  -- a data symbol is missing, so at least one of those that are there is parity
  have hparity : data < total := by
    obtain ⟨j, hj, hmissing⟩ := hlacks
    have hsub : arrived ⊆ (Finset.range total).erase j := fun i hi =>
      Finset.mem_erase.mpr ⟨fun heq => hmissing (heq ▸ hi), Finset.mem_range.mpr (hlt i hi)⟩
    have hcard := Finset.card_le_card hsub
    rw [Finset.card_erase_of_mem (Finset.mem_range.mpr (by omega)), Finset.card_range] at hcard
    omega
  have hdata : 0 < data := by
    obtain ⟨j, hj, -⟩ := hlacks
    omega
  unfold recovered receiverFecParams
  rw [paritySymbols_of_le hle]
  by_cases hraptorq : type = MOQ_TRACK_DATA ∧ 255 < total
  · rw [show receiverFecType type total = .FEC_RAPTORQ from if_pos hraptorq]
    by_cases htotal : total ≤ 256
    · rw [if_pos ⟨by omega,
        hlib.raptorq data (total - data) size hdata (by omega) (by omega) hsmall⟩,
        (checkIndices_eq_ok (u := ())).mpr htotal, (checkIndices_eq_ok (u := ())).mpr hcap]
      refine iff_of_true ?_ (Or.inr ⟨hraptorq.1, by omega⟩)
      exact fecDecode_raptorq hlib hreceived hlt hle hcount hlacks htotal hcap hsize
    · -- the marks do not fit
      refine iff_of_false ?_ (by omega)
      rintro ⟨symbols, hsymbols⟩
      split at hsymbols
      · obtain ⟨u, hu, -⟩ := bind_eq_ok.mp hsymbols
        exact htotal (checkIndices_eq_ok.mp hu)
      · exact absurd hsymbols (by simp)
  · rw [show receiverFecType type total = .FEC_REED_SOLOMON from if_neg hraptorq]
    have hnew : lib.creates ⟨.FEC_REED_SOLOMON, data, total - data, size⟩ = true ↔ total ≤ 255 := by
      have hexists := hlib.reedSolomon data (total - data) size hdata (by omega) hsmall
      rw [Nat.add_sub_cancel' hle] at hexists
      exact hexists
    by_cases htotal : total ≤ 255
    · rw [if_pos ⟨by omega, hnew.mpr htotal⟩,
        (checkIndices_eq_ok (u := ())).mpr (by omega : total ≤ 256),
        (checkIndices_eq_ok (u := ())).mpr hcap]
      refine iff_of_true ?_ (Or.inl htotal)
      exact fecDecode_reedSolomon hlib hreceived hlt hle hcount htotal hcap hsize
    -- no context can be created
    · rw [if_neg fun h => htotal (hnew.mp h.2)]
      refine iff_of_false ?_ ?_
      · rintro ⟨symbols, hsymbols⟩
        exact absurd hsymbols (by simp)
      · rintro (hle' | ⟨htype, heq⟩)
        · exact htotal hle'
        · exact hraptorq ⟨htype, by omega⟩

end Decoder

/-! ## The slot of the object -/

/-- The objects that the receiver can complete with any symbols, as many as there are data
symbols. -/
def CodeServes (type : MoqTrackType) (total : ℕ) : Prop :=
  total ≤ 255 ∨ (type = MOQ_TRACK_DATA ∧ total = 256)

namespace Holds

variable {pub lib : FecLib} {p : Sharding pub} {arrived : Finset ℕ} {a : FrameAssembler} {s : ℕ}
  {h : FecPacketHeader}

/-- With just enough symbols the object is complete when the code serves it, or none of them is
parity. -/
theorem completion_iff (hlib : Recovers lib) (hholds : Holds p arrived a)
    (hsmall : p.shards.symbolSize ≤ 4096) (hheader : p.HeaderOf s h)
    (hcount : arrived.card = p.shards.dataSymbols) (junk : ℕ → UInt8)
    (type : MoqTrackType) :
    (∃ d, completion lib junk type a h = .ok (some d)) ↔
      CodeServes type p.shards.totalSymbols ∨ arrived = Finset.range p.shards.dataSymbols := by
  by_cases hall : ∀ j < p.shards.dataSymbols, j ∈ arrived
  · refine iff_of_true (hholds.completion_all hheader hall junk type) (Or.inr ?_)
    have hsub : Finset.range p.shards.dataSymbols ⊆ arrived := fun j hj =>
      hall j (Finset.mem_range.mp hj)
    exact (Finset.eq_of_subset_of_card_le hsub (by rw [Finset.card_range, hcount])).symm
  · have hlacks : ∃ j < p.shards.dataSymbols, j ∉ arrived := by
      rw [not_forall] at hall
      obtain ⟨j, hj⟩ := hall
      rw [Classical.not_imp] at hj
      exact ⟨j, hj⟩
    rw [hholds.completion_decoded hheader (le_of_eq hcount.symm) hlacks,
      recovered_iff hlib type hholds.received hholds.arrived_lt p.dataSymbols_le
        (le_of_eq hcount.symm) hlacks hholds.capacity hholds.symbolSize_le hsmall]
    refine (or_iff_left ?_).symm
    rintro rfl
    obtain ⟨j, hj, hmissing⟩ := hlacks
    exact hmissing (Finset.mem_range.mpr hj)

/-- The object is not complete with fewer symbols than data symbols. -/
theorem slotStep_few (hholds : Holds p arrived a) (hopen : a.decoded = false)
    (hheader : p.HeaderOf s h) (hs : s < p.shards.totalSymbols)
    (hfew : (insert s arrived).card < p.shards.dataSymbols) (junk : ℕ → UInt8)
    (type : MoqTrackType) :
    ∃ r, slotStep lib junk type a h (p.shards.symbol s) = .ok r ∧ r.fullData = none ∧
      r.slot.decoded = false ∧ Holds p (insert s arrived) r.slot := by
  have hnext := (hholds.withSymbol hs (p.length_symbol hs).ge).afterRequest type
  rw [hholds.slotStep_eq hopen hheader hs, hnext.completion_few hheader hfew]
  exact ⟨_, rfl, rfl, (FrameAssembler.decoded_withSymbol _ _ _ _).trans hopen, hnext⟩

/-- With just as many, it is complete when the code serves it or none of them is parity. -/
theorem slotStep_enough (hlib : Recovers lib) (hholds : Holds p arrived a)
    (hsmall : p.shards.symbolSize ≤ 4096) (hopen : a.decoded = false) (hheader : p.HeaderOf s h)
    (hs : s < p.shards.totalSymbols) (hcount : (insert s arrived).card = p.shards.dataSymbols)
    (junk : ℕ → UInt8) (type : MoqTrackType) :
    (∃ r, slotStep lib junk type a h (p.shards.symbol s) = .ok r ∧ r.fullData ≠ none) ↔
      CodeServes type p.shards.totalSymbols ∨
        insert s arrived = Finset.range p.shards.dataSymbols := by
  have hnext := (hholds.withSymbol hs (p.length_symbol hs).ge).afterRequest type
  rw [← hnext.completion_iff hlib hsmall hheader hcount junk type,
    hholds.slotStep_eq hopen hheader hs]
  constructor
  · rintro ⟨r, hr, hdata⟩
    obtain ⟨d, hd, heq⟩ := bind_eq_ok.mp hr
    cases d with
    | none =>
      rw [← Except.ok.inj heq] at hdata
      exact absurd rfl hdata
    | some d => exact ⟨d, hd⟩
  · rintro ⟨d, hd⟩
    rw [hd]
    exact ⟨_, rfl, Option.some_ne_none _⟩

/-- A datagram that does not complete the object leaves its symbol in the slot. -/
theorem slotStep_none (hholds : Holds p arrived a) (hopen : a.decoded = false)
    (hheader : p.HeaderOf s h) (hs : s < p.shards.totalSymbols) {junk : ℕ → UInt8}
    {type : MoqTrackType} {r : Received}
    (hstep : slotStep lib junk type a h (p.shards.symbol s) = .ok r) (hnone : r.fullData = none) :
    r.slot.decoded = false ∧ Holds p (insert s arrived) r.slot := by
  have hnext := (hholds.withSymbol hs (p.length_symbol hs).ge).afterRequest type
  rw [hholds.slotStep_eq hopen hheader hs] at hstep
  obtain ⟨d, -, hr⟩ := bind_eq_ok.mp hstep
  rw [Except.ok.injEq] at hr
  cases d with
  | none =>
    rw [← hr]
    exact ⟨(FrameAssembler.decoded_withSymbol _ _ _ _).trans hopen, hnext⟩
  | some d =>
    rw [← hr] at hnone
    exact absurd hnone (Option.some_ne_none _)

end Holds

/-! ## The ring -/

/-- The ring holds the symbols of the object that arrived: none as yet, or all of them in its
slot. -/
inductive Collected {pub : FecLib} (p : Sharding pub) : Finset ℕ → AssemblerCache → Prop where
  | absent {s : AssemblerCache} (hnew : some p.slotKey ∉ s.keyRing.keys) : Collected p ∅ s
  | slot {arrived : Finset ℕ} {s : AssemblerCache} (i : ℕ)
      (hcollects : Collects p.slotKey s i false) (hholds : Holds p arrived (s.slot i)) :
      Collected p arrived s

/-- Writing the slot back with its object. -/
theorem Collects.set {k : SlotKey} {s : AssemblerCache} {i : ℕ} {decoded : Bool}
    (h : Collects k s i decoded) {a : FrameAssembler} (hkey : a.slotKey? = (s.slot i).slotKey?) :
    Collects k (s.set i a) i a.decoded := by
  have hring := AssemblerCache.keyRing_set h.lt hkey
  refine ⟨h.lt, ?_, ?_, ?_⟩
  · rw [hring]
    exact h.key
  · rw [hring]
    exact h.only
  · rw [AssemblerCache.slot_set_self h.lt]

namespace Collected

variable {pub lib : FecLib} {p : Sharding pub} {arrived : Finset ℕ} {s s' : AssemblerCache} {t : ℕ}
  {h : FecPacketHeader} {junk : ℕ → UInt8} {type : MoqTrackType} {r : Received}

/-- The slot that a datagram of the object goes to. -/
theorem locate (hcollected : Collected p arrived s) (hheader : p.HeaderOf t h) :
    Collects p.slotKey (s.locate h).1 (s.locate h).2 false ∧
      Holds p arrived ((s.locate h).1.slot (s.locate h).2) := by
  cases hcollected with
  | absent hnew =>
    rw [← hheader.slotKey] at hnew
    have hlocate : s.locate h = (s.evict h, s.index) := by
      rw [AssemblerCache.locate, AssemblerCache.find_eq_none.mpr hnew]
    rw [hlocate]
    dsimp only
    rw [AssemblerCache.slot_evict_self, ← hheader.slotKey]
    refine ⟨collects_new hnew (AssemblerCache.keyRing_evict s h) ?_ false ?_,
      Holds.assign hheader _⟩
    · have hpos : 0 < p.shards.dataSymbols := p.dataSymbols_pos
      have hle := p.dataSymbols_le
      rw [hheader.totalSymbols]
      exact decide_eq_true (by omega)
    · rw [AssemblerCache.slot_evict_self]
      rfl
  | slot i hcollects hholds =>
    have hmem : some h.slotKey ∈ s.keyRing.keys := by
      rw [hheader.slotKey]
      exact List.mem_of_getElem? hcollects.key
    cases hfind : s.find h with
    | none => exact absurd hmem (AssemblerCache.find_eq_none.mp hfind)
    | some j =>
      obtain ⟨hj, hkey⟩ := AssemblerCache.find_eq_some hfind
      have heq : j = i := by
        refine hcollects.only j ?_
        rw [AssemblerCache.getElem?_keys hj, hkey, hheader.slotKey]
      have hlocate : s.locate h = (s, i) := by rw [AssemblerCache.locate, hfind, heq]
      rw [hlocate]
      exact ⟨hcollects, hholds⟩

/-- A datagram that does not complete the object. -/
theorem step_none (hcollected : Collected p arrived s) (hheader : p.HeaderOf t h)
    (ht : t < p.shards.totalSymbols)
    (hstep : ringStep lib junk type s h (p.shards.symbol t) = .ok (s', r))
    (hnone : r.fullData = none) : Collected p (insert t arrived) s' := by
  obtain ⟨hcollects, hholds⟩ := hcollected.locate hheader
  obtain ⟨r', hr, heq⟩ := bind_eq_ok.mp hstep
  rw [Except.ok.injEq, Prod.mk.injEq] at heq
  obtain ⟨rfl, rfl⟩ := heq
  obtain ⟨hopen, hnext⟩ := hholds.slotStep_none hcollects.decoded_eq hheader ht hr hnone
  have hset := hcollects.set (slotStep_spec hr).1
  rw [hopen] at hset
  refine .slot _ hset ?_
  rw [AssemblerCache.slot_set_self hcollects.lt]
  exact hnext

/-- Too few symbols do not complete it. -/
theorem step_few (hcollected : Collected p arrived s) (hheader : p.HeaderOf t h)
    (ht : t < p.shards.totalSymbols) (hfew : (insert t arrived).card < p.shards.dataSymbols)
    (junk : ℕ → UInt8) (type : MoqTrackType) :
    ∃ s' r, ringStep lib junk type s h (p.shards.symbol t) = .ok (s', r) ∧ r.fullData = none := by
  obtain ⟨hcollects, hholds⟩ := hcollected.locate hheader
  obtain ⟨r, hr, hnone, -⟩ :=
    hholds.slotStep_few hcollects.decoded_eq hheader ht hfew junk type
  exact ⟨_, r, ringStep_ok hr, hnone⟩

/-- Enough of them do when the code serves the object, or none of them is parity. -/
theorem step_enough (hlib : Recovers lib) (hcollected : Collected p arrived s)
    (hsmall : p.shards.symbolSize ≤ 4096) (hheader : p.HeaderOf t h)
    (ht : t < p.shards.totalSymbols)
    (hcount : (insert t arrived).card = p.shards.dataSymbols) :
    (∃ s' r, ringStep lib junk type s h (p.shards.symbol t) = .ok (s', r) ∧ r.fullData ≠ none) ↔
      CodeServes type p.shards.totalSymbols ∨
        insert t arrived = Finset.range p.shards.dataSymbols := by
  obtain ⟨hcollects, hholds⟩ := hcollected.locate hheader
  rw [← hholds.slotStep_enough hlib hsmall hcollects.decoded_eq hheader ht hcount junk type]
  constructor
  · rintro ⟨s', r, hstep, hfull⟩
    obtain ⟨r', hr, heq⟩ := bind_eq_ok.mp hstep
    rw [Except.ok.injEq, Prod.mk.injEq] at heq
    rw [← heq.2] at hfull
    exact ⟨r', hr, hfull⟩
  · rintro ⟨r, hr, hfull⟩
    exact ⟨_, r, ringStep_ok hr, hfull⟩

/-- A datagram of another object that does not take the slot. -/
theorem step_other (hcollected : Collected p arrived s) (hother : h.slotKey ≠ p.slotKey)
    (hkept : s.find h = none → (s.slot s.index).slotKey? ≠ some p.slotKey) {symbol : Bytes}
    (hstep : ringStep lib junk type s h symbol = .ok (s', r)) : Collected p arrived s' := by
  -- the other object has a slot, or takes the one at the index
  cases hfind : s.find h with
  | some j =>
    obtain ⟨hkeys, hslots, -⟩ := ringStep_found hstep hfind
    obtain ⟨hj, hkey⟩ := AssemblerCache.find_eq_some hfind
    cases hcollected with
    | absent hnew => exact .absent (hkeys ▸ hnew)
    | slot i hcollects hholds =>
      have hne : i ≠ j := by
        rintro rfl
        have hget := hcollects.key
        rw [AssemblerCache.getElem?_keys hj, hkey, Option.some.injEq, Option.some.injEq] at hget
        exact hother hget
      have hslot := hslots i hne
      refine .slot i ⟨hcollects.lt, hkeys ▸ hcollects.key, hkeys ▸ hcollects.only, ?_⟩ ?_
      · rw [hslot]
        exact hcollects.decoded_eq
      · rw [hslot]
        exact hholds
  | none =>
    obtain ⟨hkeys, hslots, -⟩ := ringStep_new hstep hfind
    cases hcollected with
    | absent hnew =>
      refine .absent ?_
      rw [hkeys]
      intro hmem
      obtain ⟨j, hj⟩ := List.mem_iff_getElem?.mp hmem
      -- the key that comes into the ring is not that of the object
      rcases KeyRing.getElem?_take_eq_some hj with ⟨-, -, heq⟩ | ⟨-, hj⟩
      · exact hother heq
      · exact hnew (List.mem_of_getElem? hj)
    | slot i hcollects hholds =>
      have hne : i ≠ s.index := by
        rintro rfl
        have hget := hcollects.key
        rw [AssemblerCache.getElem?_keys hcollects.lt, Option.some.injEq] at hget
        exact hkept hfind hget
      have hslot := hslots i hne
      refine .slot i ⟨hcollects.lt, ?_, ?_, ?_⟩ ?_
      · rw [hkeys, KeyRing.getElem?_take_of_ne hne]
        exact hcollects.key
      · intro j hj
        rw [hkeys] at hj
        rcases KeyRing.getElem?_take_eq_some hj with ⟨-, -, heq⟩ | ⟨-, hj⟩
        · exact absurd heq hother
        · exact hcollects.only j hj
      · rw [hslot]
        exact hcollects.decoded_eq
      · rw [hslot]
        exact hholds

end Collected

/-! ## Arrivals -/

namespace Sharding

variable {pub lib : FecLib}

/-- The symbol of the object that an arrival brings, by its header. -/
def indexOf (p : Sharding pub) (a : Arrival lib) : Option ℕ :=
  if (FecPacketHeader.decode a.payload).slotKey = p.slotKey then
    some (FecPacketHeader.decode a.payload).symbolIndex.toNat
  else none

/-- The symbols that arrivals bring. -/
def arrivedIn (p : Sharding pub) (as : List (Arrival lib)) : Finset ℕ :=
  (as.filterMap p.indexOf).toFinset

/-- The receiver reads datagrams, and the alias stands for a track of this type there. -/
def Heard (p : Sharding pub) (type : MoqTrackType) (a : Arrival lib) : Prop :=
  ¬(a.transport.isServer = true ∧ ¬a.conn.authenticated = true) ∧
    ∃ track, findSubscriptionByAlias a.conn.subscriptions p.trackAlias a.io.uninitTrack =
      some track ∧ track.type = type

/-- The receiver reads datagrams, and the alias stands for a track there. -/
def Reads (p : Sharding pub) (a : Arrival lib) : Prop :=
  ¬(a.transport.isServer = true ∧ ¬a.conn.authenticated = true) ∧
    (findSubscriptionByAlias a.conn.subscriptions p.trackAlias a.io.uninitTrack).isSome = true

instance (p : Sharding pub) (a : Arrival lib) : Decidable (p.Reads a) :=
  inferInstanceAs (Decidable (_ ∧ _))

/-- The symbols that arrivals bring to a receiver that reads them. -/
def readIn (p : Sharding pub) (as : List (Arrival lib)) : Finset ℕ :=
  p.arrivedIn (as.filter fun a => decide (p.Reads a))

/-- Where the receiver reads a datagram of the object, it has a track of this type. -/
def Typed (p : Sharding pub) (type : MoqTrackType) (a : Arrival lib) : Prop :=
  ∀ t, p.Brings a t → ∀ track, findSubscriptionByAlias a.conn.subscriptions p.trackAlias
    a.io.uninitTrack = some track → track.type = type

/-- The receiver takes the datagrams of the object for symbols of a size that it accepts. -/
def Accepted (p : Sharding pub) : Prop :=
  p.trackAlias ≠ MOQ_TRACK_TELEMETRY ∧ p.shards.symbolSize ≤ 4096

/-- A receiver with this type of track can complete the object with the first symbols that it reads,
as many as there are data symbols. -/
def Recoverable (p : Sharding pub) (type : MoqTrackType) (arrived : Finset ℕ) : Prop :=
  p.Accepted ∧ (CodeServes type p.shards.totalSymbols ∨
    arrived = Finset.range p.shards.dataSymbols)

/-- A datagram of another object neither takes the slot of the object nor stops the handler. -/
def Undisturbed (p : Sharding pub) (s : AssemblerCache) (a : Arrival lib) : Prop :=
  p.indexOf a = none → (∃ r, arrive lib s a = some r) ∧
    ∀ track h, a.symbol? = some (track, h) → s.find h = none →
      (s.slot s.index).slotKey? ≠ some p.slotKey

/-- The OBJECT event for the object is raised at the arrival. -/
def RaisedAt (p : Sharding pub) (s : AssemblerCache) (as : List (Arrival lib)) (a : Arrival lib) :
    Prop :=
  ∃ t s₁ o₁ s₂ o₂, p.Brings a t ∧ run (arrive lib) s as = some (s₁, o₁) ∧
    arrive lib s₁ a = some (s₂, o₂) ∧ ∃ obj ∈ objectsOf o₂, obj.key = p.object.key

/-- It has been raised. -/
def DeliveredIn (p : Sharding pub) (s : AssemblerCache) (as : List (Arrival lib)) : Prop :=
  ∃ pre a post, as = pre ++ a :: post ∧ p.RaisedAt s pre a

variable {p : Sharding pub} {a : Arrival lib} {type : MoqTrackType} {t : ℕ}

theorem Fits.indexOf_brings (hfits : p.Fits) (hbrings : p.Brings a t) : p.indexOf a = some t := by
  have hheader := hfits.headerOf hbrings.1 (symbolPath p.transport p.io p.shards p.conn t)
    (p.io.sendTimeNs p.conn.ptr t)
  unfold indexOf
  rw [hbrings.2, decode_symbolDatagram, if_pos hheader.slotKey, hheader.symbolIndex]

theorem arrivedIn_concat (p : Sharding pub) (as : List (Arrival lib)) (a : Arrival lib) :
    p.arrivedIn (as ++ [a]) = match p.indexOf a with
      | none => p.arrivedIn as
      | some t => insert t (p.arrivedIn as) := by
  unfold arrivedIn
  rw [List.filterMap_append, List.toFinset_append]
  cases hindex : p.indexOf a with
  | none => simp [hindex]
  | some t =>
    rw [List.filterMap_cons_some hindex, List.filterMap_nil, Finset.union_comm]
    rfl

theorem readIn_concat_of_reads {as : List (Arrival lib)} (hreads : p.Reads a)
    (hindex : p.indexOf a = some t) : p.readIn (as ++ [a]) = insert t (p.readIn as) := by
  have hone : [a].filter (fun b => decide (p.Reads b)) = [a] := by simp [hreads]
  unfold readIn
  rw [List.filter_append, hone, arrivedIn_concat, hindex]

/-- An arrival that the receiver does not read, or that brings no symbol of the object. -/
theorem readIn_concat_of_none {as : List (Arrival lib)}
    (hnone : ¬p.Reads a ∨ p.indexOf a = none) : p.readIn (as ++ [a]) = p.readIn as := by
  unfold readIn
  rw [List.filter_append]
  by_cases hreads : p.Reads a
  · have hone : [a].filter (fun b => decide (p.Reads b)) = [a] := by simp [hreads]
    rw [hone, arrivedIn_concat, hnone.resolve_left (not_not_intro hreads)]
  · have hzero : [a].filter (fun b => decide (p.Reads b)) = [] := by simp [hreads]
    rw [hzero, List.append_nil]

/-- What is read has arrived. -/
theorem readIn_subset (p : Sharding pub) (as : List (Arrival lib)) :
    p.readIn as ⊆ p.arrivedIn as := by
  intro t ht
  unfold readIn arrivedIn at *
  rw [List.mem_toFinset, List.mem_filterMap] at *
  obtain ⟨a, ha, hindex⟩ := ht
  exact ⟨a, List.mem_of_mem_filter ha, hindex⟩

theorem readIn_eq {as : List (Arrival lib)} (hreads : ∀ a ∈ as, p.Reads a) :
    p.readIn as = p.arrivedIn as := by
  unfold readIn
  rw [List.filter_eq_self.mpr fun a ha => decide_eq_true (hreads a ha)]

theorem Heard.reads (hheard : p.Heard type a) : p.Reads a := by
  obtain ⟨hopen, track, hfind, -⟩ := hheard
  exact ⟨hopen, by rw [hfind]; rfl⟩

theorem Heard.typed (hheard : p.Heard type a) : p.Typed type a := by
  intro t _ track hfind
  obtain ⟨-, track', hfind', htype⟩ := hheard
  rw [hfind', Option.some.injEq] at hfind
  rw [← hfind, htype]

theorem Reads.heard (hreads : p.Reads a) (htyped : p.Typed type a) (hbrings : p.Brings a t) :
    p.Heard type a := by
  obtain ⟨track, hfind⟩ := Option.isSome_iff_exists.mp hreads.2
  exact ⟨hreads.1, track, hfind, htyped t hbrings track hfind⟩

/-- An event was raised before, or it is raised at the last arrival. -/
theorem deliveredIn_concat {s : AssemblerCache} {as : List (Arrival lib)} :
    p.DeliveredIn s (as ++ [a]) ↔ p.DeliveredIn s as ∨ p.RaisedAt s as a := by
  constructor
  · rintro ⟨pre, b, post, has, hraised⟩
    rcases concat_eq_split.mp has with ⟨rfl, rfl, -⟩ | ⟨post', rfl, -⟩
    · exact Or.inr hraised
    · exact Or.inl ⟨pre, b, post', rfl, hraised⟩
  · rintro (⟨pre, b, post, rfl, hraised⟩ | hraised)
    · exact ⟨pre, b, post ++ [a], by simp, hraised⟩
    · exact ⟨as, a, [], rfl, hraised⟩

/-- A datagram of the object reaches the slots when it is accepted. -/
theorem Fits.symbol?_of_find (hfits : p.Fits) (haccepted : p.Accepted)
    (hopen : ¬(a.transport.isServer = true ∧ ¬a.conn.authenticated = true)) {track : MoqTrackId}
    (hfind : findSubscriptionByAlias a.conn.subscriptions p.trackAlias a.io.uninitTrack =
      some track) (hbrings : p.Brings a t) :
    a.symbol? = some (track, FecPacketHeader.decode a.payload) := by
  obtain ⟨ht, hpayload⟩ := hbrings
  obtain ⟨halias, hsize⟩ := haccepted
  have hheader := hfits.headerOf ht (symbolPath p.transport p.io p.shards p.conn t)
    (p.io.sendTimeNs p.conn.ptr t)
  have hdecode := decode_symbolDatagram p.transport p.io p.object p.shards p.conn p.trackAlias t
  have hfirst : a.payload.getD 0 0 = p.trackAlias := by
    rw [hpayload]
    rfl
  have hlength : a.payload.length = FecPacketHeader.size + p.shards.symbolSize := by
    rw [hpayload, symbolDatagram, List.length_append, FecPacketHeader.length_encode,
      p.length_symbol ht]
  rw [← hpayload] at hdecode
  unfold Arrival.symbol? symbolOf
  rw [if_neg hopen, hfirst, hfind, if_neg]
  · dsimp only
    rw [if_neg]
    rw [hdecode, UInt16.lt_iff_toNat_lt, UInt16.lt_iff_toNat_lt, hheader.totalSymbols,
      hheader.symbolSize, hlength]
    have htotal := hfits.total_le
    have hlimits : (16384 : UInt16).toNat = 16384 ∧ (4096 : UInt16).toNat = 4096 := ⟨rfl, rfl⟩
    omega
  · rintro (heq | hshort)
    · exact halias heq
    · omega

theorem Fits.symbol?_eq (hfits : p.Fits) (haccepted : p.Accepted) (hheard : p.Heard type a)
    (hbrings : p.Brings a t) :
    ∃ track h, a.symbol? = some (track, h) ∧ track.type = type := by
  obtain ⟨hopen, track, hfind, htype⟩ := hheard
  exact ⟨track, _, hfits.symbol?_of_find haccepted hopen hfind hbrings, htype⟩

/-- A datagram that is not read does not. -/
theorem symbol?_of_unread (hunread : ¬p.Reads a) (hbrings : p.Brings a t) : a.symbol? = none := by
  rw [Option.eq_none_iff_forall_ne_some]
  rintro ⟨track, h⟩ hsym
  have hfirst : a.payload.getD 0 0 = p.trackAlias := by
    rw [hbrings.2]
    rfl
  have hfind := (symbolOf_header hsym).2
  rw [hfirst] at hfind
  refine hunread ⟨fun hclosed => ?_, by rw [hfind]; rfl⟩
  unfold Arrival.symbol? symbolOf at hsym
  rw [if_pos hclosed] at hsym
  exact Option.some_ne_none _ hsym.symm

/-- Nor one that is not accepted. -/
theorem Fits.symbol?_none (hfits : p.Fits) (hrejected : ¬p.Accepted) (hbrings : p.Brings a t) :
    a.symbol? = none := by
  rw [Option.eq_none_iff_forall_ne_some]
  rintro ⟨track, h⟩ hsym
  refine hrejected ⟨?_, ?_⟩
  · rintro htelemetry
    have hfirst : a.payload.getD 0 0 = p.trackAlias := by
      rw [hbrings.2]
      rfl
    unfold Arrival.symbol? symbolOf at hsym
    rw [hfirst, htelemetry] at hsym
    simp at hsym
  · rw [← (hfits.brings hbrings hsym).1.symbolSize]
    exact (symbolOf_limits hsym).2.1

/-- What an accepted datagram of the object does is a step of the ring. -/
theorem raised_iff {s : AssemblerCache} {track : MoqTrackId} {h : FecPacketHeader}
    (hsym : a.symbol? = some (track, h)) (hkey : h.slotKey = p.slotKey) :
    (∃ s' o, arrive lib s a = some (s', o) ∧ ∃ obj ∈ objectsOf o, obj.key = p.object.key) ↔
      ∃ s' r, ringStep lib a.io.junk track.type s h a.bytes = .ok (s', r) ∧ r.fullData ≠ none := by
  have harrive := arrive_of_some hsym s
  constructor
  · rintro ⟨s', o, hstep, obj, hobj, -⟩
    cases hring : ringStep lib a.io.junk track.type s h a.bytes with
    | error e => simp [hring, harrive] at hstep
    | ok y =>
      obtain ⟨s₁, r⟩ := y
      simp only [hring, harrive, Option.some.injEq, Prod.mk.injEq] at hstep
      refine ⟨s₁, r, rfl, fun hnone => ?_⟩
      rw [← hstep.2, Arrival.objectsOf_effects, hnone] at hobj
      exact absurd hobj List.not_mem_nil
  · rintro ⟨s', r, hring, hfull⟩
    obtain ⟨fullData, hfull⟩ := Option.ne_none_iff_exists'.mp hfull
    rw [hring] at harrive
    refine ⟨s', _, harrive, ?_⟩
    rw [Arrival.objectsOf_effects, hfull]
    refine ⟨_, List.mem_map_of_mem (Option.mem_toList.mpr rfl), ?_⟩
    have hids : (⟨h.groupId, h.objectId⟩ : ObjectKey) = p.object.key :=
      congrArg SlotKey.object hkey
    rw [← hids]
    simp [MoqObject.key]

/-- A datagram of another object, or of none. -/
theorem collected_arrive {s s' : AssemblerCache} {arrived : Finset ℕ} {o : List Effect}
    (hcollected : Collected p arrived s) (hother : p.indexOf a = none)
    (hundisturbed : p.Undisturbed s a) (hstep : arrive lib s a = some (s', o)) :
    Collected p arrived s' := by
  cases hsym : a.symbol? with
  | none =>
    obtain ⟨o', -, hall⟩ := arrive_of_none hsym
    rw [hall s, Option.some.injEq, Prod.mk.injEq] at hstep
    rw [← hstep.1]
    exact hcollected
  | some x =>
    obtain ⟨track, h⟩ := x
    have hkey : h.slotKey ≠ p.slotKey := by
      intro heq
      rw [(symbolOf_header hsym).1] at heq
      unfold indexOf at hother
      rw [if_pos heq] at hother
      exact Option.some_ne_none _ hother
    rw [arrive_of_some hsym] at hstep
    cases hring : ringStep lib a.io.junk track.type s h a.bytes with
    | error e => simp [hring] at hstep
    | ok y =>
      obtain ⟨s₁, r⟩ := y
      simp only [hring, Option.some.injEq, Prod.mk.injEq] at hstep
      rw [← hstep.1]
      exact hcollected.step_other hkey ((hundisturbed hother).2 track h hsym) hring

/-! ## Whole runs -/

/-- How far the object is, once these have arrived. -/
structure Progress (p : Sharding pub) (type : MoqTrackType) (s : AssemblerCache)
    (as : List (Arrival lib)) : Prop where
  few : (p.readIn as).card < p.shards.dataSymbols → ¬p.DeliveredIn s as ∧
    ∃ s₁ o₁, run (arrive lib) s as = some (s₁, o₁) ∧ Collected p (p.readIn as) s₁
  enough : (p.readIn as).card = p.shards.dataSymbols →
    (p.DeliveredIn s as ↔ p.Recoverable type (p.readIn as))
  stuck : (p.readIn as).card = p.shards.dataSymbols → ¬p.Recoverable type (p.readIn as) →
    ∀ s₁ o₁, run (arrive lib) s as = some (s₁, o₁) → Collected p (p.readIn as) s₁

variable {s : AssemblerCache} {as : List (Arrival lib)}

/-- A datagram of another object changes nothing. -/
theorem Progress.other (hfits : p.Fits) (h : p.Progress type s as) (hother : p.indexOf a = none)
    (hundisturbed : ∀ s₁ o₁, run (arrive lib) s as = some (s₁, o₁) → p.Undisturbed s₁ a) :
    p.Progress type s (as ++ [a]) := by
  have harrived : p.readIn (as ++ [a]) = p.readIn as := readIn_concat_of_none (Or.inr hother)
  have hdelivered : p.DeliveredIn s (as ++ [a]) ↔ p.DeliveredIn s as := by
    rw [deliveredIn_concat]
    refine or_iff_left ?_
    rintro ⟨t, -, -, -, -, hbrings, -⟩
    rw [hfits.indexOf_brings hbrings] at hother
    exact Option.some_ne_none t hother
  constructor
  · intro hfew
    rw [harrived] at hfew ⊢
    obtain ⟨hnot, s₁, o₁, hrun, hcollected⟩ := h.few hfew
    obtain ⟨⟨s₂, o₂⟩, hstep⟩ := (hundisturbed s₁ o₁ hrun hother).1
    refine ⟨fun hdel => hnot (hdelivered.mp hdel), s₂, o₁ ++ o₂,
      run_concat.mpr ⟨s₁, o₁, o₂, hrun, hstep, rfl⟩, ?_⟩
    exact collected_arrive hcollected hother (hundisturbed s₁ o₁ hrun) hstep
  · intro hcount
    rw [harrived] at hcount ⊢
    rw [hdelivered]
    exact h.enough hcount
  · intro hcount hnot s₂ o hrun
    rw [harrived] at hcount hnot ⊢
    obtain ⟨s₁, o₁, o₂, hrun₁, hstep, -⟩ := run_concat.mp hrun
    exact collected_arrive (h.stuck hcount hnot s₁ o₁ hrun₁) hother (hundisturbed s₁ o₁ hrun₁) hstep

/-- The event is raised at a datagram of the object exactly when its step completes it. -/
theorem raisedAt_iff (hfits : p.Fits) (hbrings : p.Brings a t) {track : MoqTrackId}
    {h : FecPacketHeader} (hsym : a.symbol? = some (track, h)) {s₁ : AssemblerCache}
    {o₁ : List Effect} (hrun : run (arrive lib) s as = some (s₁, o₁)) :
    p.RaisedAt s as a ↔ ∃ s' r, ringStep lib a.io.junk track.type s₁ h (p.shards.symbol t) =
      .ok (s', r) ∧ r.fullData ≠ none := by
  obtain ⟨hheader, hbytes⟩ := hfits.brings hbrings hsym
  rw [← hbytes, ← raised_iff hsym hheader.slotKey]
  constructor
  · rintro ⟨-, s₁', o₁', s₂, o₂, -, hrun', hstep, hobj⟩
    rw [hrun, Option.some.injEq, Prod.mk.injEq] at hrun'
    rw [hrun'.1]
    exact ⟨s₂, o₂, hstep, hobj⟩
  · rintro ⟨s₂, o₂, hstep, hobj⟩
    exact ⟨t, s₁, o₁, s₂, o₂, hbrings, hrun, hstep, hobj⟩

/-- The symbols after a datagram of the object that does not complete it. -/
theorem collected_own (hfits : p.Fits) (hbrings : p.Brings a t) {track : MoqTrackId}
    {h : FecPacketHeader} (hsym : a.symbol? = some (track, h)) {s₁ s₂ : AssemblerCache}
    {arrived : Finset ℕ} {o₂ : List Effect} (hcollected : Collected p arrived s₁)
    (hstep : arrive lib s₁ a = some (s₂, o₂))
    (hnot : ¬∃ s' r, ringStep lib a.io.junk track.type s₁ h (p.shards.symbol t) = .ok (s', r) ∧
      r.fullData ≠ none) :
    Collected p (insert t arrived) s₂ := by
  obtain ⟨hheader, hbytes⟩ := hfits.brings hbrings hsym
  rw [arrive_of_some hsym, hbytes] at hstep
  cases hring : ringStep lib a.io.junk track.type s₁ h (p.shards.symbol t) with
  | error e => simp [hring] at hstep
  | ok y =>
    obtain ⟨s', r⟩ := y
    simp only [hring, Option.some.injEq, Prod.mk.injEq] at hstep
    rw [← hstep.1]
    refine hcollected.step_none hheader hbrings.1 hring ?_
    by_contra hfull
    exact hnot ⟨s', r, hring, hfull⟩

/-- With just enough symbols a datagram of the object completes it when it is recoverable from
them. -/
theorem Accepted.completes_iff (hlib : Recovers lib) (haccepted : p.Accepted)
    {arrived : Finset ℕ} {s₁ : AssemblerCache} (hcollected : Collected p arrived s₁)
    {h : FecPacketHeader} (hheader : p.HeaderOf t h) (ht : t < p.shards.totalSymbols)
    (hcount : (insert t arrived).card = p.shards.dataSymbols) {junk : ℕ → UInt8}
    {heard : MoqTrackType} (htype : heard = type) :
    (∃ s' r, ringStep lib junk heard s₁ h (p.shards.symbol t) = .ok (s', r) ∧ r.fullData ≠ none) ↔
      p.Recoverable type (insert t arrived) := by
  rw [hcollected.step_enough hlib haccepted.2 hheader ht hcount, htype]
  exact (and_iff_right haccepted).symm

/-- A repetition leaves the set of symbols as it is. -/
theorem insert_eq_of_card {t : ℕ} {arrived : Finset ℕ}
    (hcard : (insert t arrived).card ≤ arrived.card) : insert t arrived = arrived :=
  (Finset.eq_of_subset_of_card_le (Finset.subset_insert t arrived) hcard).symm

/-- Before the datagram that brings just enough symbols, the object that they do not recover is
still collected. -/
theorem Progress.collected (h : p.Progress type s as)
    (hcount : (insert t (p.readIn as)).card = p.shards.dataSymbols)
    (hnot : ¬p.Recoverable type (insert t (p.readIn as))) {s₁ : AssemblerCache}
    {o₁ : List Effect}
    (hrun : run (arrive lib) s as = some (s₁, o₁)) : Collected p (p.readIn as) s₁ := by
  by_cases hbefore : (p.readIn as).card = p.shards.dataSymbols
  · rw [insert_eq_of_card (by omega)] at hnot
    exact h.stuck hbefore hnot s₁ o₁ hrun
  · have hle := Finset.card_le_card (Finset.subset_insert t (p.readIn as))
    obtain ⟨-, s₁', o₁', hrun', hcollected⟩ := h.few (by omega)
    rw [hrun, Option.some.injEq, Prod.mk.injEq] at hrun'
    rw [hrun'.1]
    exact hcollected

/-- A datagram of the object. -/
theorem Progress.own (hlib : Recovers lib) (hfits : p.Fits) (haccepted : p.Accepted)
    (h : p.Progress type s as) (hheard : p.Heard type a) (hbrings : p.Brings a t) :
    p.Progress type s (as ++ [a]) := by
  obtain ⟨track, hdr, hsym, htype⟩ := hfits.symbol?_eq haccepted hheard hbrings
  have hheader := (hfits.brings hbrings hsym).1
  have harrived : p.readIn (as ++ [a]) = insert t (p.readIn as) :=
    readIn_concat_of_reads hheard.reads (hfits.indexOf_brings hbrings)
  have hle : (p.readIn as).card ≤ (insert t (p.readIn as)).card :=
    Finset.card_le_card (Finset.subset_insert t _)
  constructor
  -- with this symbol there are still too few
  · intro hfew
    rw [harrived] at hfew ⊢
    obtain ⟨hnot, s₁, o₁, hrun, hcollected⟩ := h.few (by omega)
    obtain ⟨s₂, r, hring, hnone⟩ := hcollected.step_few hheader hbrings.1 hfew
      a.io.junk track.type
    have hquiet : ¬∃ s' r, ringStep lib a.io.junk track.type s₁ hdr (p.shards.symbol t) =
        .ok (s', r) ∧ r.fullData ≠ none := by
      rintro ⟨s', r', hring', hfull⟩
      rw [hring, Except.ok.injEq, Prod.mk.injEq] at hring'
      exact hfull (hring'.2 ▸ hnone)
    have hring' := hring
    rw [← (hfits.brings hbrings hsym).2] at hring'
    have hstep := arrive_of_ringStep hsym hring'
    refine ⟨?_, s₂, _, run_concat.mpr ⟨s₁, o₁, _, hrun, hstep, rfl⟩,
      collected_own hfits hbrings hsym hcollected hstep hquiet⟩
    rw [deliveredIn_concat, raisedAt_iff hfits hbrings hsym hrun]
    exact fun hor => hor.elim hnot hquiet
  · intro hcount
    rw [harrived] at hcount ⊢
    rw [deliveredIn_concat]
    by_cases hbefore : (p.readIn as).card = p.shards.dataSymbols
    · -- the datagram is a repetition
      have hsame : insert t (p.readIn as) = p.readIn as := insert_eq_of_card (by omega)
      have hdelivered := h.enough hbefore
      rw [← hsame] at hdelivered
      rw [hdelivered]
      refine or_iff_left_of_imp ?_
      intro hraised
      by_contra hnot
      obtain ⟨-, s₁, o₁, -, -, -, hrun, -⟩ := id hraised
      rw [raisedAt_iff hfits hbrings hsym hrun, haccepted.completes_iff hlib
        (h.collected hcount hnot hrun) hheader hbrings.1 hcount htype] at hraised
      exact hnot hraised
    -- the last one that was wanted
    · obtain ⟨hnot, s₁, o₁, hrun, hcollected⟩ := h.few (by omega)
      rw [or_iff_right hnot, raisedAt_iff hfits hbrings hsym hrun,
        haccepted.completes_iff hlib hcollected hheader hbrings.1 hcount htype]
  -- enough of them, and the event was not raised: the slot goes on collecting
  · intro hcount hnot s₂ o hrun
    rw [harrived] at hcount hnot ⊢
    obtain ⟨s₁, o₁, o₂, hrun₁, hstep, -⟩ := run_concat.mp hrun
    have hbefore := h.collected hcount hnot hrun₁
    refine collected_own hfits hbrings hsym hbefore hstep ?_
    rw [haccepted.completes_iff hlib hbefore hheader hbrings.1 hcount htype]
    exact hnot

/-- A datagram of the object that the receiver does not read. -/
theorem Progress.unread (h : p.Progress type s as) (hunread : ¬p.Reads a) (hbrings : p.Brings a t) :
    p.Progress type s (as ++ [a]) := by
  obtain ⟨o, hquiet, hall⟩ := arrive_of_none (symbol?_of_unread hunread hbrings)
  have harrived : p.readIn (as ++ [a]) = p.readIn as := readIn_concat_of_none (Or.inl hunread)
  have hdelivered : p.DeliveredIn s (as ++ [a]) ↔ p.DeliveredIn s as := by
    rw [deliveredIn_concat]
    refine or_iff_left ?_
    rintro ⟨-, s₁, -, s₂, o₂, -, -, hstep, obj, hobj, -⟩
    rw [hall s₁, Option.some.injEq, Prod.mk.injEq] at hstep
    rw [← hstep.2, objectsOf_eq, hquiet] at hobj
    exact absurd hobj List.not_mem_nil
  constructor
  · intro hfew
    rw [harrived] at hfew ⊢
    obtain ⟨hnot, s₁, o₁, hrun, hcollected⟩ := h.few hfew
    exact ⟨fun hdel => hnot (hdelivered.mp hdel), s₁, o₁ ++ o,
      run_concat.mpr ⟨s₁, o₁, o, hrun, hall s₁, rfl⟩, hcollected⟩
  · intro hcount
    rw [harrived] at hcount ⊢
    rw [hdelivered]
    exact h.enough hcount
  · intro hcount hnot s₂ o' hrun
    rw [harrived] at hcount hnot ⊢
    obtain ⟨s₁, o₁, o₂, hrun₁, hstep, -⟩ := run_concat.mp hrun
    rw [hall s₁, Option.some.injEq, Prod.mk.injEq] at hstep
    rw [← hstep.1]
    exact h.stuck hcount hnot s₁ o₁ hrun₁

/-- The arrival is a datagram of the object, or belongs to none of its datagrams. -/
def Drawn (p : Sharding pub) (a : Arrival lib) : Prop :=
  (∃ t, p.Brings a t) ∨ p.indexOf a = none

theorem progress (hlib : Recovers lib) (hfits : p.Fits) (haccepted : p.Accepted)
    (hnew : some p.slotKey ∉ s.keyRing.keys) (hdrawn : ∀ a ∈ as, p.Drawn a)
    (htyped : ∀ a ∈ as, p.Typed type a) (hundisturbed : Along (arrive lib) p.Undisturbed s as) :
    p.Progress type s as := by
  induction as using List.reverseRecOn with
  | nil =>
    have hpos := p.dataSymbols_pos
    have hnone : p.readIn ([] : List (Arrival lib)) = ∅ := rfl
    have hcard : (p.readIn ([] : List (Arrival lib))).card ≠ p.shards.dataSymbols := by
      rw [hnone, Finset.card_empty]
      omega
    refine ⟨fun _ => ⟨?_, s, [], rfl, .absent hnew⟩, fun h => absurd h hcard,
      fun h => absurd h hcard⟩
    rintro ⟨pre, a, post, hnil, -⟩
    exact absurd hnil.symm (by simp)
  | append_singleton as a ih =>
    obtain ⟨hbefore, hlast⟩ := along_concat.mp hundisturbed
    have hprogress := ih (fun b hb => hdrawn b (List.mem_append_left _ hb))
      (fun b hb => htyped b (List.mem_append_left _ hb)) hbefore
    have hlastMem : a ∈ as ++ [a] := List.mem_append_right _ List.mem_cons_self
    rcases hdrawn a hlastMem with ⟨t, hbrings⟩ | hother
    · by_cases hreads : p.Reads a
      · exact hprogress.own hlib hfits haccepted (hreads.heard (htyped a hlastMem) hbrings) hbrings
      · exact hprogress.unread hreads hbrings
    · exact hprogress.other hfits hother hlast

/-- Once as many different symbols have arrived as there are data symbols, in any order and with
any repetitions, the OBJECT event has been raised exactly when the receiver has read them all and
the object is recoverable from them. -/
theorem object_recovered_iff (hlib : Recovers lib) (hfits : p.Fits)
    (hnew : some p.slotKey ∉ s.keyRing.keys) (hdrawn : ∀ a ∈ as, p.Drawn a)
    (htyped : ∀ a ∈ as, p.Typed type a) (hundisturbed : Along (arrive lib) p.Undisturbed s as)
    (hcount : (p.arrivedIn as).card = p.shards.dataSymbols) :
    p.DeliveredIn s as ↔
      p.readIn as = p.arrivedIn as ∧ p.Recoverable type (p.arrivedIn as) := by
  by_cases haccepted : p.Accepted
  · have hprogress := progress hlib hfits haccepted hnew hdrawn htyped hundisturbed
    by_cases hall : p.readIn as = p.arrivedIn as
    · have henough := hprogress.enough (by rw [hall, hcount])
      rw [hall] at henough
      exact henough.trans (and_iff_right hall).symm
    · have hfew := Finset.card_lt_card ((p.readIn_subset as).ssubset_of_ne hall)
      exact iff_of_false (hprogress.few (by omega)).1 fun h => hall h.1
  · refine iff_of_false ?_ fun hrec => haccepted hrec.2.1
    rintro ⟨pre, a, -, -, t, s₁, o₁, s₂, o₂, hbrings, -, hstep, obj, hobj, -⟩
    obtain ⟨o', hquiet, hall⟩ := arrive_of_none (hfits.symbol?_none haccepted hbrings)
    rw [hall s₁, Option.some.injEq, Prod.mk.injEq] at hstep
    rw [← hstep.2, objectsOf_eq, hquiet] at hobj
    simp at hobj

end Sharding

/-! ## An object of two data symbols -/

/-- A VIDEO object with FEC: two symbols of 1200 bytes, all zero but for the first byte of the
second one. -/
def clipObject : MoqObject :=
  ⟨⟨MOQ_TRACK_VIDEO, MOQ_TRACK_FLAG_FEC_ENABLED, TrackName.ofBuffer [97]⟩, 0, 0,
    List.replicate 1200 0 ++ [1], true, 1⟩

/-- The object as it is published over one link with `total` symbols, on alias 8. -/
def clip (lib : FecLib) (total : ℕ) : Sharding lib where
  io := { publishAt 0 with pathflow := fun _ => (total, 2) }
  transport := Transport.init false [.inet 0 0] 1280
  conn := { Conn.zero 1 with
    subscriptions := addSubscription Subscriptions.empty clipObject.trackId.type
      clipObject.trackId.flags clipObject.trackId.name 8 }
  object := clipObject
  trackAlias := 8
  sound := FecCache.sound_empty lib
  alias_eq := by decide

theorem shards_clip (lib : FecLib) {total : ℕ} (htotal : 2 < total) :
    (clip lib total).shards.dataSymbols = 2 ∧ (clip lib total).shards.paritySymbols = total - 2 ∧
      (clip lib total).shards.totalSymbols = total ∧
      (clip lib total).shards.symbolSize = 1200 := by
  have hlength : clipObject.data.length = 1201 := by
    unfold clipObject
    rw [List.length_append, List.length_replicate]
    rfl
  have hsize : (clip lib total).transport.symbolSize = 1200 := rfl
  have hdata : (clip lib total).shards.dataSymbols = 2 := by
    rw [Sharding.dataSymbols_eq, hsize]
    show dataSymbolCount clipObject.data.length 1200 = 2
    rw [hlength]
    rfl
  have hparity : (clip lib total).shards.paritySymbols = total - 2 := by
    have hfec : (getTrackProfile (clip lib total).object.trackId).fecEnabled = true := by
      show (getTrackProfile clipObject.trackId).fecEnabled = true
      decide
    rw [Sharding.paritySymbols_eq, hdata, hfec]
    show (if [if 2 < total then total - 2 else 0].sum = 0 then 1 else
      [if 2 < total then total - 2 else 0].sum) = total - 2
    rw [if_pos htotal, List.sum_singleton, if_neg (by omega)]
  refine ⟨hdata, hparity, ?_, (Sharding.symbolSize_eq _).trans hsize⟩
  unfold ShardedObject.totalSymbols
  omega

theorem fits_clip (lib : FecLib) {total : ℕ} (htotal : 2 < total) (hle : total ≤ 16384) :
    (clip lib total).Fits := by
  refine ⟨?_, ?_⟩
  · rw [(shards_clip lib htotal).2.2.1]
    exact hle
  · show 1200 ≤ 65535
    decide

/-- Datagram `s` of the object arrives at a client whose table has a track of this type under
alias 8. -/
def clipArrival (lib : FecLib) (type : MoqTrackType) (total s : ℕ) : Arrival lib where
  transport := Transport.init false [] 1280
  conn := { Conn.zero 1 with
    subscriptions := addSubscription Subscriptions.empty type clipObject.trackId.flags
      clipObject.trackId.name 8 }
  io := ⟨0, 0, MoqTrackId.zero, MoqTrackId.zero, fun _ => 0⟩
  payload := symbolDatagram (clip lib total).transport (clip lib total).io clipObject
    (clip lib total).shards (clip lib total).conn 8 s
  sound := FecCache.sound_empty lib

theorem heard_clip (lib : FecLib) (total s : ℕ) :
    (clip lib total).Heard MOQ_TRACK_VIDEO (clipArrival lib MOQ_TRACK_VIDEO total s) := by
  refine ⟨fun h => Bool.false_ne_true h.1, clipObject.trackId, ?_, rfl⟩
  show findSubscriptionByAlias (addSubscription Subscriptions.empty MOQ_TRACK_VIDEO
    clipObject.trackId.flags clipObject.trackId.name 8) 8 MoqTrackId.zero =
      some clipObject.trackId
  decide

/-- The first data symbol and the second parity symbol. -/
def clipArrivals (lib : FecLib) (total : ℕ) : List (Arrival lib) :=
  [0, 3].map (clipArrival lib MOQ_TRACK_VIDEO total)

section Clip

variable {lib : FecLib} {total : ℕ}

theorem indexOf_clipArrival (lib : FecLib) (type : MoqTrackType) (htotal : 3 < total)
    (hle : total ≤ 16384) {s : ℕ} (hs : s < total) :
    (clip lib total).indexOf (clipArrival lib type total s) = some s := by
  refine (fits_clip lib (by omega) hle).indexOf_brings ⟨?_, rfl⟩
  rw [(shards_clip lib (by omega)).2.2.1]
  exact hs

theorem arrivedIn_clipArrivals (lib : FecLib) (htotal : 3 < total) (hle : total ≤ 16384) :
    (clip lib total).arrivedIn (clipArrivals lib total) = {0, 3} := by
  have hindex := fun {s : ℕ} => indexOf_clipArrival lib MOQ_TRACK_VIDEO htotal hle (s := s)
  unfold Sharding.arrivedIn clipArrivals
  rw [List.map_cons, List.map_cons, List.map_nil, List.filterMap_cons_some (hindex (by omega)),
    List.filterMap_cons_some (hindex htotal), List.filterMap_nil]
  decide

theorem drawn_clipArrivals (lib : FecLib) (htotal : 3 < total) :
    ∀ a ∈ clipArrivals lib total, (clip lib total).Drawn a := by
  intro a ha
  obtain ⟨s, hs, rfl⟩ := List.mem_map.mp ha
  refine Or.inl ⟨s, ?_, rfl⟩
  rw [(shards_clip lib (by omega)).2.2.1]
  simp only [List.mem_cons, List.not_mem_nil, or_false] at hs
  omega

theorem heard_clipArrivals (lib : FecLib) (total : ℕ) :
    ∀ a ∈ clipArrivals lib total, (clip lib total).Heard MOQ_TRACK_VIDEO a := by
  intro a ha
  obtain ⟨s, -, rfl⟩ := List.mem_map.mp ha
  exact heard_clip lib total s

theorem typed_clipArrivals (lib : FecLib) (total : ℕ) :
    ∀ a ∈ clipArrivals lib total, (clip lib total).Typed MOQ_TRACK_VIDEO a :=
  fun a ha => (heard_clipArrivals lib total a ha).typed

theorem readIn_clipArrivals (lib : FecLib) (total : ℕ) :
    (clip lib total).readIn (clipArrivals lib total) =
      (clip lib total).arrivedIn (clipArrivals lib total) :=
  Sharding.readIn_eq fun a ha => (heard_clipArrivals lib total a ha).reads

theorem undisturbed_clipArrivals (lib : FecLib) (htotal : 3 < total) (hle : total ≤ 16384) :
    Along (arrive lib) (clip lib total).Undisturbed AssemblerCache.empty
      (clipArrivals lib total) := by
  refine along_of_mem (fun a ha s hother => ?_) _
  obtain ⟨t, ht, rfl⟩ := List.mem_map.mp ha
  rw [indexOf_clipArrival _ _ htotal hle (by
    simp only [List.mem_cons, List.not_mem_nil, or_false] at ht
    omega)] at hother
  exact absurd hother (Option.some_ne_none t)

theorem new_clip (lib : FecLib) :
    some (clip lib total).slotKey ∉ AssemblerCache.empty.keyRing.keys := by
  show some (SlotKey.mk 8 clipObject.key) ∉ AssemblerCache.empty.keyRing.keys
  decide

theorem accepted_clip (lib : FecLib) (htotal : 2 < total) : (clip lib total).Accepted := by
  refine ⟨by show (8 : UInt8) ≠ MOQ_TRACK_TELEMETRY; decide, ?_⟩
  rw [(shards_clip lib htotal).2.2.2]
  decide

/-- How far the object is after the two datagrams. -/
theorem progress_clip (hlib : Recovers lib) (htotal : 3 < total) (hle : total ≤ 16384) :
    (clip lib total).Progress MOQ_TRACK_VIDEO AssemblerCache.empty (clipArrivals lib total) :=
  Sharding.progress hlib (fits_clip _ (by omega) hle) (accepted_clip _ (by omega)) (new_clip _)
    (drawn_clipArrivals lib htotal) (typed_clipArrivals lib total)
    (undisturbed_clipArrivals lib htotal hle)

end Clip

/-- Two of four symbols, one of them parity. -/
theorem object_recovered_iff_clip :
    (clip FecLib.interpolating 4).DeliveredIn AssemblerCache.empty
        (clipArrivals FecLib.interpolating 4) ↔
      (clip FecLib.interpolating 4).readIn (clipArrivals FecLib.interpolating 4) = {0, 3} ∧
        (clip FecLib.interpolating 4).Recoverable MOQ_TRACK_VIDEO {0, 3} := by
  have harrived := arrivedIn_clipArrivals FecLib.interpolating (by decide : 3 < 4) (by decide)
  rw [← harrived]
  refine Sharding.object_recovered_iff recovers_interpolating (fits_clip _ (by decide) (by decide))
    (new_clip _) (drawn_clipArrivals _ (by decide)) (typed_clipArrivals _ _)
    (undisturbed_clipArrivals _ (by decide) (by decide)) ?_
  rw [harrived, (shards_clip _ (by decide)).1]
  decide

/-- A VIDEO object of 256 symbols: two of them have arrived, as many as it has data symbols, and
nothing is handed on. The code is one that restores what it decodes. -/
theorem clip_not_recovered :
    ∃ (lib : FecLib) (p : Sharding lib) (as : List (Arrival lib)), Recovers lib ∧ Restores lib ∧
      p.Fits ∧ (getTrackProfile p.object.trackId).fecEnabled = true ∧ 1 < p.shards.dataSymbols ∧
      (∀ a ∈ as, p.Drawn a) ∧ (∀ a ∈ as, p.Heard p.object.trackId.type a) ∧
      Along (arrive lib) p.Undisturbed AssemblerCache.empty as ∧
      p.shards.dataSymbols ≤ (p.arrivedIn as).card ∧
      ¬p.DeliveredIn AssemblerCache.empty as := by
  have hfits := fits_clip FecLib.interpolating (by decide : 2 < 256) (by decide)
  obtain ⟨hdata, -, htotal, -⟩ := shards_clip FecLib.interpolating (by decide : 2 < 256)
  have harrived := arrivedIn_clipArrivals FecLib.interpolating (by decide : 3 < 256) (by decide)
  have hcount : ((clip FecLib.interpolating 256).arrivedIn
      (clipArrivals FecLib.interpolating 256)).card =
        (clip FecLib.interpolating 256).shards.dataSymbols := by
    rw [harrived, hdata]
    decide
  refine ⟨FecLib.interpolating, clip FecLib.interpolating 256,
    clipArrivals FecLib.interpolating 256, recovers_interpolating, restores_interpolating, hfits,
    ?_, by rw [hdata]; decide, drawn_clipArrivals _ (by decide), heard_clipArrivals _ _,
    undisturbed_clipArrivals _ (by decide) (by decide), hcount.ge, ?_⟩
  · show (getTrackProfile clipObject.trackId).fecEnabled = true
    decide
  · rw [← readIn_clipArrivals] at hcount harrived
    rw [(progress_clip recovers_interpolating (by decide) (by decide)).enough hcount, harrived]
    rintro ⟨-, hserves | hall⟩
    · rw [htotal] at hserves
      rcases hserves with hle | ⟨htype, -⟩
      · omega
      · exact absurd htype (by decide)
    · rw [hdata] at hall
      exact absurd hall (by decide)

end Bishlink
