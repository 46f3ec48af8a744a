import Mathlib.Data.List.ReduceOption
import Bishlink.ControlCodec
import Bishlink.Lossless
import Bishlink.Retransmission

/-!
# Datagrams that are asked for again

On a DATA track a receiver that has half of the data symbols of an object names the missing symbols
in a NACK, once for each object. The publisher repeats them, and when the repetitions arrive the
object is handed on, whatever was lost before and whatever the decoder makes of the rest
(`loss_repaired`). This needs no more than 256 symbols in the NACK, since the publisher reads no
more of them.

* `Sharding.Carries`: a datagram of the object, the original or a repetition;
* `Stage`: how far the receiver is with the object, and what it has asked for;
* `mem_answer`: what the publisher sends for a NACK.
-/

namespace Bishlink

open ByteCodec Checked Framing Runs

/-! ## NACKs -/

/-- The NACK in a write to a stream, as `parse_control_messages` reads it. -/
def nackOf : Effect → Option ControlMessage
  | .streamWrite _ _ bytes =>
    match parseControlMessage false true bytes with
    | .item (.nack trackAlias groupId objectId missing) _ =>
      some (.nack trackAlias groupId objectId missing)
    | _ => none
  | _ => none

/-- The NACKs among effects. -/
def nacksOf (o : List Effect) : List ControlMessage := o.filterMap nackOf

theorem nacksOf_append (o o' : List Effect) : nacksOf (o ++ o') = nacksOf o ++ nacksOf o' :=
  List.filterMap_append

/-- A NACK for up to 256 symbols is read as it was sent. -/
theorem mem_nacksOf_sendNack {c : Conn} (hopen : c.controlOpen = true) (trackAlias : UInt8)
    (groupId objectId : UInt32) {missing : List ℕ} (hfew : missing.length ≤ 256)
    (hlt : ∀ i ∈ missing, i ≤ 65535) :
    .nack trackAlias groupId objectId (missing.map UInt16.ofNat) ∈
      nacksOf (sendNack c trackAlias groupId objectId missing) := by
  have hbytes : [0x08, trackAlias] ++ toBE 4 groupId.toNat ++ toBE 4 objectId.toNat ++
      toBE 2 missing.length ++ (missing.flatMap fun i => toBE 2 i) =
        (ControlMessage.nack trackAlias groupId objectId (missing.map UInt16.ofNat)).encode := by
    have hindices : missing.flatMap (fun i => toBE 2 i) =
        (missing.map UInt16.ofNat).flatMap fun i => toBE 2 i.toNat := by
      rw [List.flatMap_map]
      refine List.flatMap_congr fun i hi => ?_
      rw [toNat_ofNat_uint16.mpr (hlt i hi)]
    rw [hindices, ControlMessage.encode, List.length_map]
    rfl
  have hencodable : (ControlMessage.nack trackAlias groupId objectId
      (missing.map UInt16.ofNat)).Encodable := by
    show (missing.map UInt16.ofNat).length ≤ 256
    rw [List.length_map]
    exact hfew
  have hparse := parseControlMessage_encode hencodable (rfl : (false && !true) = false)
  unfold sendNack
  rw [if_pos hopen, hbytes]
  unfold Conn.controlOpen Conn.sendOpen at hopen
  unfold Conn.writeControl
  cases hstream : c.stream with
  | none =>
    rw [hstream] at hopen
    exact absurd hopen Bool.false_ne_true
  | some sid =>
    refine List.mem_filterMap.mpr ⟨_, List.mem_singleton_self _, ?_⟩
    unfold nackOf
    dsimp only
    rw [hparse]

/-! ## Originals and repetitions -/

namespace Sharding

variable {pub lib : FecLib} {p : Sharding pub} {a : Arrival lib} {t : ℕ}

/-- The arrival is a datagram with symbol `t` of the object, whatever path and time its header
names. -/
def Carries (p : Sharding pub) (a : Arrival lib) (t : ℕ) : Prop :=
  t < p.shards.totalSymbols ∧ ∃ pathId sendTimeNs, a.payload =
    (datagramHeader p.object p.shards p.trackAlias t pathId sendTimeNs).encode ++ p.shards.symbol t

theorem Fits.indexOf_carries (hfits : p.Fits) (hcarries : p.Carries a t) :
    p.indexOf a = some t := by
  obtain ⟨ht, pathId, sendTimeNs, hpayload⟩ := hcarries
  have hheader := hfits.headerOf ht pathId sendTimeNs
  unfold indexOf
  rw [hpayload, FecPacketHeader.decode_encode, if_pos hheader.slotKey, hheader.symbolIndex]

/-- A datagram of the object reaches the slots with its symbol. -/
theorem Fits.symbol?_of_carries (hfits : p.Fits) (haccepted : p.Accepted)
    (hheard : p.Heard p.object.trackId.type a)
    (hcarries : p.Carries a t) :
    ∃ track h, a.symbol? = some (track, h) ∧ track.type = p.object.trackId.type ∧
      p.HeaderOf t h ∧ a.bytes = p.shards.symbol t := by
  obtain ⟨ht, pathId, sendTimeNs, hpayload⟩ := hcarries
  obtain ⟨hopen, track, hfind, htype⟩ := hheard
  obtain ⟨halias, hsize⟩ := haccepted
  have hheader := hfits.headerOf ht pathId sendTimeNs
  have hfirst : a.payload.getD 0 0 = p.trackAlias := by
    rw [hpayload]
    rfl
  have hlength : a.payload.length = FecPacketHeader.size + p.shards.symbolSize := by
    rw [hpayload, List.length_append, FecPacketHeader.length_encode, p.length_symbol ht]
  have hdecode : FecPacketHeader.decode a.payload =
      datagramHeader p.object p.shards p.trackAlias t pathId sendTimeNs := by
    rw [hpayload, FecPacketHeader.decode_encode]
  refine ⟨track, FecPacketHeader.decode a.payload, ?_, htype, ?_, ?_⟩
  · unfold Arrival.symbol? symbolOf
    rw [if_neg hopen, hfirst, hfind, if_neg]
    · dsimp only
      rw [if_neg]
      rw [hdecode, UInt16.lt_iff_toNat_lt, UInt16.lt_iff_toNat_lt, hheader.totalSymbols,
        hheader.symbolSize, hlength]
      have htotal := hfits.total_le
      have hlimits : (16384 : UInt16).toNat = 16384 ∧ (4096 : UInt16).toNat = 4096 := ⟨rfl, rfl⟩
      omega
    · rintro (heq | hshort)
      · exact halias heq
      · omega
  · rw [hdecode]
    exact hheader
  · unfold Arrival.bytes
    rw [hpayload]
    exact FecPacketHeader.drop_encode _ _

/-- The arrival is a datagram of the object that the receiver hears, or of another object or of
none. -/
def Fed (p : Sharding pub) (a : Arrival lib) : Prop :=
  (∃ t, p.Carries a t ∧ p.Heard p.object.trackId.type a) ∨ p.indexOf a = none

/-! ## What is asked for -/

/-- The NACK for symbols of the object. -/
def nack (p : Sharding pub) (missing : List UInt16) : ControlMessage :=
  .nack p.trackAlias p.object.key.groupId p.object.key.objectId missing

/-- A NACK has been sent, and each symbol is there or named in it. -/
def Covered (p : Sharding pub) (arrived : Finset ℕ) (o : List Effect) : Prop :=
  ∃ missing, p.nack missing ∈ nacksOf o ∧
    ∀ t < p.shards.totalSymbols, t ∈ arrived ∨ UInt16.ofNat t ∈ missing

theorem Covered.mono {arrived arrived' : Finset ℕ} {o : List Effect} (h : p.Covered arrived o)
    (hsub : arrived ⊆ arrived') (o' : List Effect) : p.Covered arrived' (o ++ o') := by
  obtain ⟨missing, hmem, hall⟩ := h
  refine ⟨missing, ?_, fun t ht => (hall t ht).imp_left fun hmem => hsub hmem⟩
  rw [nacksOf_append]
  exact List.mem_append_left _ hmem

/-- The receiver can tell all symbols of the object that are missing in one NACK, and has room for
the marks of the decoder. -/
def Repairable (p : Sharding pub) : Prop :=
  p.shards.totalSymbols ≤ 256 ∨ (p.shards.paritySymbols = 0 ∧ p.shards.totalSymbols ≤ 513)

end Sharding

namespace Holds

variable {pub lib : FecLib} {p : Sharding pub} {arrived : Finset ℕ} {a : FrameAssembler} {s : ℕ}
  {h : FecPacketHeader}

/-- The missing symbols are those that have not arrived. -/
theorem mem_missingIndices (hholds : Holds p arrived a) {t : ℕ} :
    t ∈ a.missingIndices ↔ t < p.shards.totalSymbols ∧ t ∉ arrived := by
  unfold FrameAssembler.missingIndices
  rw [List.mem_filter, List.mem_range, hholds.totalSymbols, Bool.not_eq_true', ← Bool.not_eq_true,
    hholds.received]

theorem length_missingIndices (hholds : Holds p arrived a) :
    a.missingIndices.length + arrived.card = p.shards.totalSymbols := by
  have hsub : arrived ⊆ Finset.range p.shards.totalSymbols := fun j hj =>
    Finset.mem_range.mpr (hholds.arrived_lt j hj)
  have hmissing : a.missingIndices.length =
      (Finset.range p.shards.totalSymbols \ arrived).card := by
    refine length_eq_card (List.nodup_range.filter _) fun t => ?_
    rw [hholds.mem_missingIndices, Finset.mem_sdiff, Finset.mem_range]
  rw [hmissing, Finset.card_sdiff_add_card_eq_card hsub, Finset.card_range]

/-- The NACK of a slot that has half of the data symbols names every symbol that is not there. -/
theorem requests_eq (hholds : Holds p arrived a) (hrepairable : p.Repairable)
    (hdata : a.dataSymbols = p.shards.dataSymbols) (hopen : a.decoded = false)
    (hsent : a.nackSent = false) (hlacks : ∃ j < p.shards.dataSymbols, j ∉ arrived)
    (hhalf : (p.shards.dataSymbols + 1) / 2 ≤ arrived.card) :
    ∃ missing, a.requests MOQ_TRACK_DATA = some missing ∧ missing.length ≤ 256 ∧
      (∀ i ∈ missing, i ≤ 65535) ∧
      ∀ t < p.shards.totalSymbols, t ∈ arrived ∨ UInt16.ofNat t ∈ missing.map UInt16.ofNat := by
  have hle := p.dataSymbols_le
  have hlength := hholds.length_missingIndices
  have htotal : p.shards.totalSymbols = p.shards.dataSymbols + p.shards.paritySymbols := rfl
  have hsome : a.missingIndices ≠ [] := by
    obtain ⟨j, hj, hmissing⟩ := hlacks
    exact List.ne_nil_of_mem (hholds.mem_missingIndices.mpr ⟨by omega, hmissing⟩)
  refine ⟨a.missingIndices, ?_, ?_, ?_, ?_⟩
  · refine if_pos ⟨⟨rfl, hopen, hsent, ?_⟩, hsome⟩
    rw [hdata, hholds.receivedCount]
    exact hhalf
  · rcases hrepairable with hsmall | ⟨hnone, hsmall⟩ <;> omega
  · intro i hi
    have hi := (hholds.mem_missingIndices.mp hi).1
    rcases hrepairable with hsmall | ⟨-, hsmall⟩ <;> omega
  · intro t ht
    by_cases hmem : t ∈ arrived
    · exact Or.inl hmem
    · exact Or.inr (List.mem_map_of_mem (hholds.mem_missingIndices.mpr ⟨ht, hmem⟩))

/-- The handler does not leave an array for an object that can be repaired. -/
theorem completion_ok (hholds : Holds p arrived a) (hrepairable : p.Repairable)
    (hheader : p.HeaderOf s h) (junk : ℕ → UInt8) (type : MoqTrackType) :
    ∃ d, completion lib junk type a h = .ok d := by
  have hcap := hholds.capacity
  have hle := p.dataSymbols_le
  by_cases hall : ∀ j < p.shards.dataSymbols, j ∈ arrived
  · obtain ⟨d, hd⟩ := hholds.completion_all hheader hall junk type
    exact ⟨some d, hd⟩
  rw [not_forall] at hall
  obtain ⟨j, hj⟩ := hall
  obtain ⟨hj, hlacks⟩ := Classical.not_imp.mp hj
  refine ((completion_fits lib junk type a h).mpr (Or.inr (Or.inr ⟨⟨j, ?_, ?_, ?_⟩, ?_, ?_⟩))).1
  · rw [hheader.dataSymbols]
    exact hj
  · omega
  · rw [← Bool.not_eq_true, hholds.received]
    exact hlacks
  · rw [hheader.dataSymbols, hheader.totalSymbols]
    exact hle
  · rw [hheader.dataSymbols, hheader.totalSymbols, hheader.symbolSize]
    intro hparity _
    have htotal : p.shards.totalSymbols = p.shards.dataSymbols + p.shards.paritySymbols := rfl
    refine ⟨?_, hcap, fun _ => hholds.symbolSize_le⟩
    rcases hrepairable with hsmall | ⟨hnone, -⟩
    · exact hsmall
    · omega

end Holds

/-! ## The slot of the object -/

@[simp] theorem FrameAssembler.dataSymbols_withSymbol (a : FrameAssembler) (index size : ℕ)
    (symbol : Bytes) : (a.withSymbol index size symbol).dataSymbols = a.dataSymbols := by
  unfold withSymbol
  split <;> rfl

@[simp] theorem FrameAssembler.nackSent_withSymbol (a : FrameAssembler) (index size : ℕ)
    (symbol : Bytes) : (a.withSymbol index size symbol).nackSent = a.nackSent := by
  unfold withSymbol
  split <;> rfl

/-- A NACK is sent once half of the data symbols are there. -/
theorem FrameAssembler.half_of_nackSent {a : FrameAssembler} {type : MoqTrackType}
    (hsent : a.nackSent = false) (h : (a.afterRequest type).nackSent = true) :
    (a.dataSymbols + 1) / 2 ≤ a.receivedCount := by
  have hor : (a.nackSent || (a.requests type).isSome) = true := h
  rw [hsent, Bool.false_or] at hor
  unfold requests at hor
  split at hor
  · next hasks => exact hasks.1.2.2.2
  · exact absurd hor Bool.false_ne_true

section Others

variable {lib : FecLib} {k : SlotKey} {s s' : AssemblerCache} {h : FecPacketHeader} {symbol : Bytes}
  {junk : ℕ → UInt8} {type : MoqTrackType} {r : Received}

/-- A symbol of another object gives no slot to this one. -/
theorem not_mem_keys_of_other (hnew : some k ∉ s.keyRing.keys) (hother : h.slotKey ≠ k)
    (hstep : ringStep lib junk type s h symbol = .ok (s', r)) : some k ∉ s'.keyRing.keys := by
  cases hfind : s.find h with
  | some j =>
    rw [(ringStep_found hstep hfind).1]
    exact hnew
  | none =>
    rw [(ringStep_new hstep hfind).1]
    intro hmem
    obtain ⟨j, hj⟩ := List.mem_iff_getElem?.mp hmem
    rcases KeyRing.getElem?_take_eq_some hj with ⟨-, -, heq⟩ | ⟨-, hj⟩
    · exact hother heq
    · exact hnew (List.mem_of_getElem? hj)

/-- A symbol of another object leaves the slot as it is when it does not take it. -/
theorem Collects.other {i : ℕ} {decoded : Bool} (hcollects : Collects k s i decoded)
    (hother : h.slotKey ≠ k) (hkept : s.find h = none → (s.slot s.index).slotKey? ≠ some k)
    (hstep : ringStep lib junk type s h symbol = .ok (s', r)) :
    Collects k s' i decoded ∧ s'.slot i = s.slot i := by
  cases hfind : s.find h with
  | some j =>
    obtain ⟨hkeys, hslots, -⟩ := ringStep_found hstep hfind
    obtain ⟨hj, hkey⟩ := AssemblerCache.find_eq_some hfind
    have hne : i ≠ j := by
      rintro rfl
      have hget := hcollects.key
      rw [AssemblerCache.getElem?_keys hj, hkey, Option.some.injEq, Option.some.injEq] at hget
      exact hother hget
    have hslot := hslots i hne
    refine ⟨⟨hcollects.lt, hkeys ▸ hcollects.key, hkeys ▸ hcollects.only, ?_⟩, hslot⟩
    rw [hslot]
    exact hcollects.decoded_eq
  | none =>
    obtain ⟨hkeys, hslots, -⟩ := ringStep_new hstep hfind
    have hne : i ≠ s.index := by
      rintro rfl
      have hget := hcollects.key
      rw [AssemblerCache.getElem?_keys hcollects.lt, Option.some.injEq] at hget
      exact hkept hfind hget
    have hslot := hslots i hne
    refine ⟨⟨hcollects.lt, ?_, ?_, ?_⟩, hslot⟩
    · rw [hkeys, KeyRing.getElem?_take_of_ne hne]
      exact hcollects.key
    · intro j hj
      rw [hkeys] at hj
      rcases KeyRing.getElem?_take_eq_some hj with ⟨-, -, heq⟩ | ⟨-, hj⟩
      · exact absurd heq hother
      · exact hcollects.only j hj
    · rw [hslot]
      exact hcollects.decoded_eq

end Others

/-! ## Arrivals -/

/-- How far the receiver is with the object. While it waits for symbols, it has none or a slot
collects them; once half of the data symbols are there, and the control stream was open all the
time, it has asked for the rest. -/
inductive Stage {pub lib : FecLib} (p : Sharding pub) (as : List (Arrival lib))
    (s : AssemblerCache) (o : List Effect) : Prop where
  | absent (hnone : p.arrivedIn as = ∅) (hnew : some p.slotKey ∉ s.keyRing.keys)
  | slot (i : ℕ) (hcollects : Collects p.slotKey s i false)
      (hholds : Holds p (p.arrivedIn as) (s.slot i))
      (hlacks : ∃ j < p.shards.dataSymbols, j ∉ p.arrivedIn as)
      (hdata : (s.slot i).dataSymbols = p.shards.dataSymbols)
      (hasked : (∀ a ∈ as, a.conn.controlOpen = true) →
        (s.slot i).nackSent = true ∨ (p.shards.dataSymbols + 1) / 2 ≤ (p.arrivedIn as).card →
          p.Covered (p.arrivedIn as) o)
  | done (i : ℕ) (hcollects : Collects p.slotKey s i true)
      (hdelivered : ∃ obj ∈ objectsOf o, p.Delivers obj)

section Effects

variable {pub lib : FecLib} {p : Sharding pub} {as : List (Arrival lib)} {a : Arrival lib}
  {s : AssemblerCache} {o : List Effect} {t : ℕ}

/-- A datagram of another object, or of none. -/
theorem Stage.other (hstage : Stage p as s o) (hother : p.indexOf a = none)
    (hundisturbed : p.Undisturbed s a) :
    ∃ s' o', arrive lib s a = some (s', o') ∧ Stage p (as ++ [a]) s' (o ++ o') := by
  obtain ⟨⟨⟨s', o'⟩, hstep⟩, hkept⟩ := hundisturbed hother
  refine ⟨s', o', hstep, ?_⟩
  have harrived : p.arrivedIn (as ++ [a]) = p.arrivedIn as := by
    rw [Sharding.arrivedIn_concat, hother]
  -- the slots that are left alone
  have hslots : (some p.slotKey ∉ s.keyRing.keys → some p.slotKey ∉ s'.keyRing.keys) ∧
      ∀ i decoded, Collects p.slotKey s i decoded →
        Collects p.slotKey s' i decoded ∧ s'.slot i = s.slot i := by
    cases hsym : a.symbol? with
    | none =>
      obtain ⟨quiet, -, hall⟩ := arrive_of_none hsym
      rw [hall s, Option.some.injEq, Prod.mk.injEq] at hstep
      rw [← hstep.1]
      exact ⟨id, fun _ _ hcollects => ⟨hcollects, rfl⟩⟩
    | some x =>
      obtain ⟨track, h⟩ := x
      have hkey : h.slotKey ≠ p.slotKey := by
        intro heq
        rw [(symbolOf_header hsym).1] at heq
        unfold Sharding.indexOf at hother
        rw [if_pos heq] at hother
        exact Option.some_ne_none _ hother
      rw [arrive_of_some hsym] at hstep
      cases hring : ringStep lib a.io.junk track.type s h a.bytes with
      | error e => simp [hring] at hstep
      | ok y =>
        obtain ⟨s₁, r⟩ := y
        simp only [hring, Option.some.injEq, Prod.mk.injEq] at hstep
        rw [← hstep.1]
        exact ⟨fun hnew => not_mem_keys_of_other hnew hkey hring,
          fun i decoded hcollects => hcollects.other hkey (hkept track h hsym) hring⟩
  cases hstage with
  | absent hnone hnew =>
    refine .absent ?_ (hslots.1 hnew)
    rw [harrived]
    exact hnone
  | slot i hcollects hholds hlacks hdata hasked =>
    obtain ⟨hcollects', hslot⟩ := hslots.2 i false hcollects
    refine .slot i hcollects' ?_ ?_ ?_ ?_
    · rw [harrived, hslot]
      exact hholds
    · rw [harrived]
      exact hlacks
    · rw [hslot]
      exact hdata
    · rw [harrived, hslot]
      intro hopen hreached
      exact (hasked (fun b hb => hopen b (List.mem_append_left _ hb)) hreached).mono
        (Finset.Subset.refl _) o'
  | done i hcollects hdelivered =>
    obtain ⟨obj, hobj, hdelivers⟩ := hdelivered
    refine .done i (hslots.2 i true hcollects).1 ⟨obj, ?_, hdelivers⟩
    rw [objectsOf_append]
    exact List.mem_append_left _ hobj

/-- The object that is handed on. -/
theorem delivers_effects {track : MoqTrackId} {h : FecPacketHeader} {stored : FrameAssembler}
    (hheader : p.HeaderOf t h) (hpriority : stored.priority = p.object.priority)
    (nack : Option (List ℕ)) (symbols : ℕ → Option Bytes) :
    ∃ obj ∈
      objectsOf (a.effects s track h (stored.received nack (some (symbols, p.object.data)))),
      p.Delivers obj := by
  rw [Arrival.objectsOf_effects]
  refine ⟨_, List.mem_map_of_mem (Option.mem_toList.mpr rfl), rfl, hheader.isKeyframe, hpriority,
    ?_⟩
  have hkey : (⟨h.groupId, h.objectId⟩ : ObjectKey) = p.object.key :=
    congrArg SlotKey.object hheader.slotKey
  rw [← hkey]
  simp [MoqObject.key]

/-- The NACK that is sent. -/
theorem nack_effects {track : MoqTrackId} {h : FecPacketHeader} {r : Received} {missing : List ℕ}
    (hheader : p.HeaderOf t h) (hopen : a.conn.controlOpen = true) (hnack : r.nack = some missing)
    (hfew : missing.length ≤ 256) (hlt : ∀ i ∈ missing, i ≤ 65535) :
    p.nack (missing.map UInt16.ofNat) ∈ nacksOf (a.effects s track h r) := by
  have hsent := mem_nacksOf_sendNack hopen h.trackId h.groupId h.objectId hfew hlt
  have hkey := hheader.slotKey
  have htrack : h.trackId = p.trackAlias := congrArg SlotKey.trackAlias hkey
  have hobject : (⟨h.groupId, h.objectId⟩ : ObjectKey) = p.object.key :=
    congrArg SlotKey.object hkey
  rw [show p.nack (missing.map UInt16.ofNat) =
      .nack h.trackId h.groupId h.objectId (missing.map UInt16.ofNat) by
    unfold Sharding.nack
    rw [← hobject, htrack]]
  unfold Arrival.effects
  rw [hnack, ← List.singleton_append, nacksOf_append, nacksOf_append, nacksOf_append]
  exact List.mem_append_right _ (List.mem_append_left _ (List.mem_append_right _ hsent))

/-- What the publisher and the receiver are given: the object is on a DATA track, it can be
repaired, its datagrams are accepted and its parity, if there is any, is encoded. -/
structure Sharding.Sendable (p : Sharding pub) : Prop where
  data : p.object.trackId.type = MOQ_TRACK_DATA
  fits : p.Fits
  accepted : p.Accepted
  repairable : p.Repairable
  encoded : 0 < p.shards.paritySymbols →
    p.Encoded (receiverFecType MOQ_TRACK_DATA p.shards.totalSymbols)

end Effects

section Steps

variable {lib : FecLib} {sent got : FecParams → Bool} {p : Sharding (lib.within sent)}
  {as : List (Arrival (lib.within got))} {a : Arrival (lib.within got)} {s : AssemblerCache}
  {o : List Effect} {t : ℕ}

/-- A datagram of the object at the slot that waits for its symbols. -/
theorem Stage.collect (hlib : Restores lib) (hp : p.Sendable) (hcarries : p.Carries a t)
    {track : MoqTrackId} {h : FecPacketHeader} (hsym : a.symbol? = some (track, h))
    (htype : track.type = MOQ_TRACK_DATA) (hheader : p.HeaderOf t h)
    (hbytes : a.bytes = p.shards.symbol t)
    (hcollects : Collects p.slotKey (s.locate h).1 (s.locate h).2 false)
    (hholds : Holds p (p.arrivedIn as) ((s.locate h).1.slot (s.locate h).2))
    (hdata : ((s.locate h).1.slot (s.locate h).2).dataSymbols = p.shards.dataSymbols)
    (hasked : (∀ b ∈ as, b.conn.controlOpen = true) →
      ((s.locate h).1.slot (s.locate h).2).nackSent = true → p.Covered (p.arrivedIn as) o) :
    ∃ s' o', arrive (lib.within got) s a = some (s', o') ∧ Stage p (as ++ [a]) s' (o ++ o') := by
  have ht := hcarries.1
  have harrived : p.arrivedIn (as ++ [a]) = insert t (p.arrivedIn as) := by
    rw [Sharding.arrivedIn_concat, hp.fits.indexOf_carries hcarries]
  -- the slot after the symbol is stored, and after the request
  generalize hslot : (s.locate h).1.slot (s.locate h).2 = slot at hholds hdata hasked
  have hwith := hholds.withSymbol ht (p.length_symbol ht).ge
  have hopen : slot.decoded = false := by
    rw [← hslot]
    exact hcollects.decoded_eq
  generalize hstored : slot.withSymbol t p.shards.symbolSize (p.shards.symbol t) = stored at hwith
  have hstoredData : stored.dataSymbols = p.shards.dataSymbols := by
    rw [← hstored, FrameAssembler.dataSymbols_withSymbol, hdata]
  have hstoredNack : stored.nackSent = slot.nackSent := by
    rw [← hstored, FrameAssembler.nackSent_withSymbol]
  have hstoredOpen : stored.decoded = false := by
    rw [← hstored, FrameAssembler.decoded_withSymbol, hopen]
  have hnext := hwith.afterRequest track.type
  obtain ⟨d, hd⟩ := hnext.completion_ok hp.repairable hheader a.io.junk track.type
  have hstep : slotStep (lib.within got) _ _ _ h _ = _ :=
    hholds.slotStep_eq hopen hheader ht a.io.junk track.type (p.shards.symbol t)
  rw [hstored, hd, ← hslot] at hstep
  have hset := hcollects.set (slotStep_spec hstep).1
  have hring := ringStep_ok hstep
  have hself : ∀ x, ((s.locate h).1.set (s.locate h).2 x).slot (s.locate h).2 = x := fun x =>
    AssemblerCache.slot_set_self hcollects.lt x
  rw [← hbytes] at hring
  refine ⟨_, _, arrive_of_ringStep hsym hring, ?_⟩
  cases d with
  | some d =>
    obtain ⟨symbols, fullData⟩ := d
    have hclear : ¬p.Garbled (lib.within got) track.type := by
      rw [htype]
      exact fun hgarbled => hgarbled.unencoded (hp.encoded hgarbled.parity)
    have hfull : fullData = p.object.data :=
      hnext.completion_data hlib hp.fits hheader hclear hd
    refine .done _ hset ?_
    rw [objectsOf_append, hfull]
    obtain ⟨obj, hobj, hdelivers⟩ := delivers_effects hheader hnext.priority
      (stored.requests track.type) symbols
    exact ⟨obj, List.mem_append_right _ hobj, hdelivers⟩
  | none =>
    -- a data symbol is still missing
    have hlacks : ∃ j < p.shards.dataSymbols, j ∉ insert t (p.arrivedIn as) := by
      by_contra hnone
      have hall : ∀ j < p.shards.dataSymbols, j ∈ insert t (p.arrivedIn as) := by
        intro j hj
        by_contra hmissing
        exact hnone ⟨j, hj, hmissing⟩
      obtain ⟨d, hd'⟩ := hnext.completion_all hheader hall a.io.junk track.type
      rw [hd] at hd'
      exact Option.some_ne_none d (Except.ok.inj hd').symm
    have hstays : (stored.afterRequest track.type).decoded = false := hstoredOpen
    have hset' : Collects p.slotKey
        ((s.locate h).1.set (s.locate h).2 (stored.afterRequest track.type)) (s.locate h).2
        false := by
      rw [← hstays]
      exact hset
    refine .slot _ hset' ?_ ?_ ?_ ?_
    · rw [harrived, hself]
      exact hnext
    · rw [harrived]
      exact hlacks
    · rw [hself]
      exact hstoredData
    · rw [harrived, hself]
      intro hcontrol hreached
      have hbefore : ∀ b ∈ as, b.conn.controlOpen = true := fun b hb =>
        hcontrol b (List.mem_append_left _ hb)
      -- a NACK goes out once: it was sent before, or half of the symbols are there only now
      by_cases hsent : slot.nackSent = true
      · exact (hasked hbefore hsent).mono (Finset.subset_insert _ _) _
      rw [Bool.not_eq_true, ← hstoredNack] at hsent
      have hhalf : (p.shards.dataSymbols + 1) / 2 ≤ (insert t (p.arrivedIn as)).card := by
        refine hreached.elim (fun hnow => ?_) id
        rw [← hstoredData, ← hwith.receivedCount]
        exact FrameAssembler.half_of_nackSent hsent hnow
      obtain ⟨missing, hrequests, hfew, hlt, hall⟩ := hwith.requests_eq hp.repairable hstoredData
        hstoredOpen hsent hlacks hhalf
      refine ⟨missing.map UInt16.ofNat, ?_, hall⟩
      rw [nacksOf_append]
      refine List.mem_append_right _ (nack_effects hheader (hcontrol a (by simp)) ?_ hfew hlt)
      rw [htype]
      exact hrequests

/-- A datagram of the object. -/
theorem Stage.own (hlib : Restores lib) (hp : p.Sendable) (hstage : Stage p as s o)
    (hcarries : p.Carries a t) (hheard : p.Heard p.object.trackId.type a) :
    ∃ s' o', arrive (lib.within got) s a = some (s', o') ∧ Stage p (as ++ [a]) s' (o ++ o') := by
  obtain ⟨track, h, hsym, htype, hheader, hbytes⟩ :=
    hp.fits.symbol?_of_carries hp.accepted hheard hcarries
  rw [hp.data] at htype
  cases hstage with
  -- the first symbol of the object: a slot is assigned to it
  | absent hnone hnew =>
    obtain ⟨hcollects, hholds⟩ := (Collected.absent hnew).locate hheader
    have hfind : s.find h = none := by
      rw [AssemblerCache.find_eq_none, hheader.slotKey]
      exact hnew
    have hslot : (s.locate h).1.slot (s.locate h).2 = (s.slot s.index).assign h := by
      rw [AssemblerCache.locate, hfind]
      exact AssemblerCache.slot_evict_self s h
    rw [← hnone] at hholds
    refine Stage.collect hlib hp hcarries hsym htype hheader hbytes hcollects hholds ?_ ?_
    · rw [hslot]
      exact hheader.dataSymbols
    · rw [hslot]
      exact fun _ hsent => absurd hsent Bool.false_ne_true
  | slot i hcollects hholds hlacks hdata hasked =>
    have hlocate : s.locate h = (s, i) := by
      rw [← hheader.slotKey] at hcollects
      exact hcollects.locate_eq
    refine Stage.collect hlib hp hcarries hsym htype hheader hbytes ?_ ?_ ?_ ?_
    · rw [hlocate]
      exact hcollects
    · rw [hlocate]
      exact hholds
    · rw [hlocate]
      exact hdata
    · rw [hlocate]
      exact fun hopen hsent => hasked hopen (Or.inl hsent)
  -- the object was handed on before
  | done i hcollects hdelivered =>
    rw [← hheader.slotKey] at hcollects
    obtain ⟨s', r, hring, -, hnext⟩ :=
      hcollects.step_done (lib.within got) a.io.junk track.type a.bytes
    rw [hheader.slotKey] at hnext
    obtain ⟨obj, hobj, hdelivers⟩ := hdelivered
    refine ⟨s', _, arrive_of_ringStep hsym hring, .done i hnext ⟨obj, ?_, hdelivers⟩⟩
    rw [objectsOf_append]
    exact List.mem_append_left _ hobj

/-- Every run, from a ring without the object. -/
theorem stage_run (hlib : Restores lib) (hp : p.Sendable)
    (hnew : some p.slotKey ∉ s.keyRing.keys) (hfed : ∀ a ∈ as, p.Fed a)
    (hundisturbed : Along (arrive (lib.within got)) p.Undisturbed s as) :
    ∃ s' o', run (arrive (lib.within got)) s as = some (s', o') ∧ Stage p as s' o' := by
  induction as using List.reverseRecOn with
  | nil => exact ⟨s, [], rfl, .absent rfl hnew⟩
  | append_singleton as a ih =>
    obtain ⟨hfront, hlast⟩ := along_concat.mp hundisturbed
    obtain ⟨s₁, o₁, hrun, hstage⟩ := ih (fun b hb => hfed b (List.mem_append_left _ hb)) hfront
    have hnext : ∃ s' o', arrive (lib.within got) s₁ a = some (s', o') ∧
      Stage p (as ++ [a]) s' (o₁ ++ o') := by
      rcases hfed a (by simp) with ⟨t, hcarries, hheard⟩ | hother
      · exact hstage.own hlib hp hcarries hheard
      · exact hstage.other hother (hlast s₁ o₁ hrun)
    obtain ⟨s', o', hstep, hstage'⟩ := hnext
    exact ⟨s', o₁ ++ o', run_concat.mpr ⟨s₁, o₁, o', hrun, hstep, rfl⟩, hstage'⟩

end Steps

/-! ## The answer -/

section Answer

variable {lib : FecLib} {cache : FecCache} {p : Sharding lib} {q : DataPublish}

/-- The object is the one that was published. -/
structure Sharding.Of (p : Sharding pub) (q : DataPublish) : Prop where
  io : p.io = q.io
  transport : p.transport = q.transport
  object : p.object = q.object

theorem Sharding.Of.shards (h : p.Of q) : p.shards = q.shards lib := by
  unfold Sharding.shards DataPublish.shards
  rw [h.io, h.transport, h.object]

/-- The datagrams that answer a NACK for the object: the symbols that it names below the total, as
they were sent. -/
theorem mem_answer (hsound : cache.Sound lib) (hof : p.Of q) (hwhole : q.Whole lib)
    (hsent : q.Sent lib) (io : ControlIO) (c : Conn) (missing : List UInt16) (e : Effect) :
    e ∈ (retransmit lib cache io c (q.slot lib) q.object.data p.trackAlias missing).1 ↔
      ∃ k t, missing[k]? = some (UInt16.ofNat t) ∧ t < p.shards.totalSymbols ∧
        e = .datagram c.ptr 0 ((datagramHeader p.object p.shards p.trackAlias t 0
          (io.sendTimeNs k)).encode ++ p.shards.symbol t) := by
  obtain ⟨htotal, hdata, -⟩ := slotExact hwhole
  have hle := hwhole.total_le
  rw [hof.shards, hof.object]
  -- one index of the list
  have hone : ∀ k t, t < (q.shards lib).totalSymbols →
      (cachedHeader io (q.slot lib) q.object.data p.trackAlias k (UInt16.ofNat t)).encode ++
          (if (UInt16.ofNat t).toNat < (q.slot lib).dataSymbols.toNat then
            (q.shards lib).dataBlocks.getD (UInt16.ofNat t).toNat []
          else (q.shards lib).parityBlocks.getD
            ((UInt16.ofNat t).toNat - (q.slot lib).dataSymbols.toNat) []) =
        (datagramHeader q.object (q.shards lib) p.trackAlias t 0 (io.sendTimeNs k)).encode ++
          (q.shards lib).symbol t := by
    intro k t ht
    rw [symbol_eq hwhole hsent, hdata, toNat_ofNat_uint16.mpr (by omega)]
    rfl
  unfold retransmit
  dsimp only
  rw [cachedSymbols_slot hsound io hwhole hsent, List.reduceOption_mem_iff, List.mem_mapIdx]
  dsimp only
  constructor
  -- an index at or past the total is skipped
  · rintro ⟨k, hk, heq⟩
    have hindex : UInt16.ofNat missing[k].toNat = missing[k] := UInt16.ofNat_toNat
    split at heq
    · exact absurd heq.symm (Option.some_ne_none e)
    · next hlt =>
      rw [UInt16.le_iff_toNat_le, htotal] at hlt
      refine ⟨k, missing[k].toNat, ?_, by omega, ?_⟩
      · rw [hindex]
        exact List.getElem?_eq_getElem hk
      · rw [← hone k _ (by omega), hindex]
        exact (Option.some.inj heq).symm
  · rintro ⟨k, t, hget, ht, rfl⟩
    obtain ⟨hk, heq⟩ := List.getElem?_eq_some_iff.mp hget
    refine ⟨k, hk, ?_⟩
    rw [heq, if_neg, hone k t ht]
    rw [UInt16.le_iff_toNat_le, htotal, toNat_ofNat_uint16.mpr (by omega)]
    omega

/-- What was sent whole, with no more symbols than a NACK has room for, can be received. -/
theorem Sharding.Of.sendable (hof : p.Of q) (hwhole : q.Whole lib) (hsent : q.Sent lib)
    (hrepairable : p.Repairable) (halias : p.trackAlias ≠ MOQ_TRACK_TELEMETRY) : p.Sendable := by
  have hdata : p.object.trackId.type = MOQ_TRACK_DATA := by
    rw [hof.object]
    exact hsent.data
  have hpacket := hwhole.packet_le
  rw [← hof.transport] at hpacket
  have htotal : p.shards.totalSymbols ≤ 513 := by
    rcases hrepairable with hsmall | ⟨-, hsmall⟩ <;> omega
  refine ⟨hdata, ⟨by omega, by omega⟩, ⟨halias, ?_⟩, hrepairable, ?_⟩
  · rw [p.symbolSize_eq]
    omega
  · -- both ends choose the code by the same rule
    intro hparity
    rw [hof.shards] at hparity
    have hcode : p.shards.code p.object.trackId.type = q.code lib := by
      rw [hof.shards, hof.object]
      rfl
    have htype : (q.code lib).type = receiverFecType MOQ_TRACK_DATA p.shards.totalSymbols := by
      rw [hof.shards, ← hsent.data]
      rfl
    refine ⟨(congrArg FecParams.type hcode).trans htype, ?_, fun hraptorq hnone => ?_⟩
    · rw [hcode]
      exact hwhole.created hparity
    · have hsome := hwhole.encoded hparity (htype.trans hraptorq)
      rw [← hof.shards, hnone] at hsome
      exact Bool.false_ne_true hsome

end Answer

section Publisher

variable {lib : FecLib} {isServer : Bool} {links : List SockAddr} {mtu : ℕ} {labels : List Label}
  {sys : System} {sent : List DataPublish} {q : DataPublish} {p : Sharding lib} {io : ControlIO}
  {c : Conn} {track : MoqTrackId}

/-- What the publisher sends for a NACK for one of its last objects. -/
theorem answer_iff
    (hwhole : Along (sentStep lib) (SendsWhole lib) (System.init isServer links mtu) labels)
    (hrun : run (sentStep lib) (System.init isServer links mtu) labels = some (sys, sent))
    (hdistinct : SentKeysDiffer sent) (hq : q ∈ sent.rtake SENT_CACHE_SIZE) (hof : p.Of q)
    (hknown : findSubscriptionByAlias c.subscriptions p.trackAlias io.uninitTrack = some track)
    (htrack : q.object.trackId.sameTrack track = true) {missing : List UInt16} {e : Effect} :
    e ∈ (handleControlMessage lib io sys.transport c (p.nack missing)).2.2 ↔
      ∃ k t, missing[k]? = some (UInt16.ofNat t) ∧ t < p.shards.totalSymbols ∧
        e = .datagram c.ptr 0 ((datagramHeader p.object p.shards p.trackAlias t 0
          (io.sendTimeNs k)).encode ++ p.shards.symbol t) := by
  have hinv := sentInv_run labels sys sent hwhole hrun
  have hsent : q ∈ sent := List.mem_of_mem_drop hq
  have hfind := find_recent hinv hdistinct hq htrack
  rw [← hof.object] at hfind
  have hanswer := mem_answer hinv.sound hof (hinv.whole q hsent) (hinv.records q hsent) io c
    missing e
  rw [← hof.object] at hanswer
  unfold Sharding.nack
  simp only [handleControlMessage, hknown, hfind]
  exact hanswer

end Publisher

section Repaired

variable {lib : FecLib} {sending receiving : FecParams → Bool} {isServer : Bool}
  {links : List SockAddr} {mtu : ℕ} {labels : List Label} {sys : System} {sent : List DataPublish}
  {q : DataPublish} {p : Sharding (lib.within sending)} {io : ControlIO} {c : Conn}
  {track : MoqTrackId}

/-- All datagrams arrive that the publisher sends for the NACKs for the object. -/
def Sharding.Answered {pub lib : FecLib} (p : Sharding pub) (io : ControlIO) (t : Transport)
    (c : Conn) (o : List Effect) (late : List (Arrival lib)) : Prop :=
  ∀ missing, p.nack missing ∈ nacksOf o → ∀ ptr path bytes,
    .datagram ptr path bytes ∈ (handleControlMessage pub io t c (p.nack missing)).2.2 →
      ∃ a ∈ late, a.payload = bytes

/-- Half of the data symbols of one of the last 32 DATA objects have arrived, in any order and with
any repetitions and other datagrams between them. The receiver has then asked for the rest or has
handed on the object; and when the answers arrive, again in any order, it has handed it on. -/
theorem loss_repaired (hlib : Restores lib)
    (hwhole : Along (sentStep (lib.within sending)) (SendsWhole (lib.within sending))
      (System.init isServer links mtu) labels)
    (hpub : run (sentStep (lib.within sending)) (System.init isServer links mtu) labels =
      some (sys, sent))
    (hdistinct : SentKeysDiffer sent) (hq : q ∈ sent.rtake SENT_CACHE_SIZE) (hof : p.Of q)
    (hrepairable : p.Repairable) (halias : p.trackAlias ≠ MOQ_TRACK_TELEMETRY)
    (hknown : findSubscriptionByAlias c.subscriptions p.trackAlias io.uninitTrack = some track)
    (htrack : q.object.trackId.sameTrack track = true) {s : AssemblerCache}
    {first late : List (Arrival (lib.within receiving))} (hnew : some p.slotKey ∉ s.keyRing.keys)
    (hfed : ∀ a ∈ first ++ late, p.Fed a)
    (hundisturbed : Along (arrive (lib.within receiving)) p.Undisturbed s (first ++ late))
    (hopen : ∀ a ∈ first, a.conn.controlOpen = true)
    (hhalf : (p.shards.dataSymbols + 1) / 2 ≤ (p.arrivedIn first).card) :
    ∃ s₁ o₁, run (arrive (lib.within receiving)) s first = some (s₁, o₁) ∧
      (p.Answered io sys.transport c o₁ late → ∃ s₂ o₂,
        run (arrive (lib.within receiving)) s₁ late = some (s₂, o₂) ∧
        ∃ obj ∈ objectsOf (o₁ ++ o₂), p.Delivers obj) := by
  have hinv := sentInv_run labels sys sent hwhole hpub
  have hsent : q ∈ sent := List.mem_of_mem_drop hq
  have hp := hof.sendable (hinv.whole q hsent) (hinv.records q hsent) hrepairable halias
  obtain ⟨s₁, o₁, hrun₁, hfirst⟩ := stage_run hlib hp hnew
    (fun a ha => hfed a (List.mem_append_left _ ha))
    (along_front (List.prefix_append first late) hundisturbed)
  obtain ⟨s₂, o, hrun, hlast⟩ := stage_run hlib hp hnew hfed hundisturbed
  obtain ⟨s₁', o₁', o₂, hrun₁', hrun₂, rfl⟩ := run_append.mp hrun
  rw [hrun₁, Option.some.injEq, Prod.mk.injEq] at hrun₁'
  obtain ⟨rfl, rfl⟩ := hrun₁'
  refine ⟨s₁, o₁, hrun₁, fun hanswered => ⟨s₂, o₂, hrun₂, ?_⟩⟩
  have hpos := p.dataSymbols_pos
  have hle := p.dataSymbols_le
  -- with half of the data symbols the receiver has asked, or is done
  have hasked : p.Covered (p.arrivedIn first) o₁ ∨ ∃ obj ∈ objectsOf o₁, p.Delivers obj := by
    cases hfirst with
    | absent hnone _ =>
      rw [hnone, Finset.card_empty] at hhalf
      omega
    | slot i _ _ _ _ hasked => exact Or.inl (hasked hopen (Or.inr hhalf))
    | done i _ hdelivered => exact Or.inr hdelivered
  rcases hasked with ⟨missing, hnack, hcovered⟩ | ⟨obj, hobj, hdelivers⟩
  · -- every symbol has arrived in the end
    have hall : ∀ t < p.shards.totalSymbols, t ∈ p.arrivedIn (first ++ late) := by
      intro t ht
      unfold Sharding.arrivedIn
      rw [List.mem_toFinset, List.filterMap_append, List.mem_append]
      rcases hcovered t ht with harrived | hmissing
      · exact Or.inl (List.mem_toFinset.mp harrived)
      · obtain ⟨k, hk⟩ := List.mem_iff_getElem?.mp hmissing
        obtain ⟨a, ha, hpayload⟩ := hanswered missing hnack _ _ _
          ((answer_iff hwhole hpub hdistinct hq hof hknown htrack).mpr ⟨k, t, hk, ht, rfl⟩)
        have hcarries : p.Carries a t := ⟨ht, _, _, hpayload⟩
        exact Or.inr (List.mem_filterMap.mpr ⟨a, ha, hp.fits.indexOf_carries hcarries⟩)
    cases hlast with
    | absent hnone _ =>
      have hzero := hall 0 (by omega)
      rw [hnone] at hzero
      exact absurd hzero (Finset.notMem_empty 0)
    | slot i _ _ hlacks _ _ =>
      obtain ⟨j, hj, hmissing⟩ := hlacks
      exact absurd (hall j (by omega)) hmissing
    | done i _ hdelivered => exact hdelivered
  · refine ⟨obj, ?_, hdelivers⟩
    rw [objectsOf_append]
    exact List.mem_append_left _ hobj

end Repaired

/-! ## An object that loses its second datagram -/

/-- A DATA track. -/
def fileTrack : MoqTrackId := ⟨MOQ_TRACK_DATA, 0, TrackName.ofBuffer [97]⟩

/-- An object of two symbols. -/
def fileObject : MoqObject := ⟨fileTrack, 0, 7, List.replicate 1200 0 ++ [1], false, 0⟩

/-- A peer connects and the application subscribes to the track and publishes the object. -/
def fileRun : List Label :=
  [.connect 1, .conn 1 (.openStream 0 true), .conn 1 (.respondAuth true), .subscribe fileTrack,
    .publish (publishAt 0) fileObject]

/-- A connection whose table has the track under alias 8. -/
def fileConn : Conn :=
  { Conn.zero 1 with
    subscriptions := addSubscription Subscriptions.empty fileTrack.type fileTrack.flags
      fileTrack.name 8
    stream := some 0
    streams := [⟨0, true, false, 0, [], true⟩] }

/-- A datagram with symbol `t` of an object arrives there. -/
noncomputable def fileArrival (p : Sharding clipLib) (t : ℕ) : Arrival clipLib where
  transport := Transport.init false [] 1280
  conn := fileConn
  io := ReceiveIO.still
  payload := (datagramHeader p.object p.shards p.trackAlias t 0 0).encode ++ p.shards.symbol t
  sound := FecCache.sound_empty _

set_option maxRecDepth 8000 in
/-- What is sent. -/
theorem fileRun_eq : ∃ sys q,
    run (sentStep clipLib) (System.init true [] 1280) fileRun = some (sys, [q]) ∧
      q.object = fileObject ∧ q.transport.symbolSize = 1200 ∧
      (allocateSymbols q.transport q.io (getTrackProfile fileTrack).fecEnabled 2).2 = 0 :=
  ⟨_, _, rfl, rfl, rfl, rfl⟩

set_option maxRecDepth 8000 in
theorem fileRun_whole : Along (sentStep clipLib) (SendsWhole clipLib)
    (System.init true [] 1280) fileRun := by
  decide

/-- Only the first datagram arrives, then both are repeated. -/
theorem loss_repaired_file : ∃ (p : Sharding clipLib) (s₁ s₂ : AssemblerCache)
    (o₁ o₂ : List Effect), p.object = fileObject ∧ p.shards.totalSymbols = 2 ∧
      run (arrive clipLib) AssemblerCache.empty [fileArrival p 0] = some (s₁, o₁) ∧
      run (arrive clipLib) s₁ [fileArrival p 0, fileArrival p 1] = some (s₂, o₂) ∧
      ∃ obj ∈ objectsOf (o₁ ++ o₂), p.Delivers obj := by
  obtain ⟨sys, q, hpub, hobject, hsize, hparity⟩ := fileRun_eq
  have hwhole := fileRun_whole
  have hinv := sentInv_run fileRun sys [q] hwhole hpub
  have hq := List.mem_singleton_self q
  let p : Sharding clipLib :=
    ⟨q.io, q.transport, fileConn, q.object, 8, (hinv.records q hq).sound, by
      rw [hobject]
      decide⟩
  have hof : p.Of q := ⟨rfl, rfl, rfl⟩
  have hdata : p.shards.dataSymbols = 2 := by
    rw [p.dataSymbols_eq]
    show dataSymbolCount q.object.data.length q.transport.symbolSize = 2
    have hlength : fileObject.data.length = 1201 := by
      unfold fileObject
      rw [List.length_append, List.length_replicate]
      rfl
    rw [hsize, hobject, hlength]
    rfl
  have halias : p.trackAlias ≠ MOQ_TRACK_TELEMETRY := by
    show (8 : UInt8) ≠ MOQ_TRACK_TELEMETRY
    decide
  have htotal : p.shards.totalSymbols = 2 := by
    have hnone : p.shards.paritySymbols = 0 := by
      rw [p.paritySymbols_eq, hdata]
      show (allocateSymbols q.transport q.io (getTrackProfile q.object.trackId).fecEnabled 2).2 = 0
      rw [hobject]
      exact hparity
    unfold ShardedObject.totalSymbols
    omega
  have hrepairable : p.Repairable := Or.inl (by omega)
  have hp := hof.sendable (hinv.whole q hq) (hinv.records q hq) hrepairable halias
  have hcarries : ∀ t < 2, p.Carries (fileArrival p t) t := fun t ht => ⟨by omega, 0, 0, rfl⟩
  have hindex : ∀ t < 2, p.indexOf (fileArrival p t) = some t := fun t ht =>
    hp.fits.indexOf_carries (hcarries t ht)
  have hheard : ∀ t, p.Heard p.object.trackId.type (fileArrival p t) := by
    intro t
    refine ⟨fun h => Bool.false_ne_true h.1, fileTrack, ?_, hp.data.symm⟩
    show findSubscriptionByAlias fileConn.subscriptions 8 MoqTrackId.zero = some fileTrack
    decide
  have hfirst : p.arrivedIn [fileArrival p 0] = {0} := by
    unfold Sharding.arrivedIn
    rw [List.filterMap_cons_some (hindex 0 (by decide)), List.filterMap_nil]
    rfl
  have hmem : ∀ a ∈ [fileArrival p 0] ++ [fileArrival p 0, fileArrival p 1],
      ∃ t < 2, a = fileArrival p t := by
    intro a ha
    simp only [List.cons_append, List.nil_append, List.mem_cons, List.not_mem_nil, or_false] at ha
    rcases ha with rfl | rfl | rfl
    · exact ⟨0, by decide, rfl⟩
    · exact ⟨0, by decide, rfl⟩
    · exact ⟨1, by decide, rfl⟩
  have hknown : findSubscriptionByAlias fileConn.subscriptions p.trackAlias
      ControlIO.still.uninitTrack = some fileTrack := by
    show findSubscriptionByAlias fileConn.subscriptions 8 MoqTrackId.zero = some fileTrack
    decide
  have htrack : q.object.trackId.sameTrack fileTrack = true := by
    rw [hobject]
    decide
  have hnew : some p.slotKey ∉ AssemblerCache.empty.keyRing.keys := by
    show some (SlotKey.mk 8 q.object.key) ∉ AssemblerCache.empty.keyRing.keys
    rw [hobject]
    decide
  have hfed : ∀ a ∈ [fileArrival p 0] ++ [fileArrival p 0, fileArrival p 1], p.Fed a := by
    intro a ha
    obtain ⟨t, ht, rfl⟩ := hmem a ha
    exact Or.inl ⟨t, hcarries t ht, hheard t⟩
  have hundisturbed : Along (arrive clipLib) p.Undisturbed AssemblerCache.empty
      ([fileArrival p 0] ++ [fileArrival p 0, fileArrival p 1]) := by
    refine along_of_mem (fun a ha s hother => ?_) _
    obtain ⟨t, ht, rfl⟩ := hmem a ha
    rw [hindex t ht] at hother
    exact absurd hother (Option.some_ne_none t)
  have hopen : ∀ a ∈ [fileArrival p 0], a.conn.controlOpen = true := by
    intro a ha
    rw [List.mem_singleton.mp ha]
    show fileConn.controlOpen = true
    decide
  have hhalf : (p.shards.dataSymbols + 1) / 2 ≤ (p.arrivedIn [fileArrival p 0]).card := by
    rw [hdata, hfirst]
    decide
  obtain ⟨s₁, o₁, hrun₁, hrest⟩ := loss_repaired restores_interpolating hwhole hpub
    (List.pairwise_singleton _ _) hq hof hrepairable halias hknown htrack hnew hfed hundisturbed
    hopen hhalf
  obtain ⟨s₂, o₂, hrun₂, hobj⟩ := hrest (fun missing _ ptr path bytes hanswer => by
    obtain ⟨k, t, -, ht, heq⟩ := (answer_iff hwhole hpub (List.pairwise_singleton _ _) hq hof
      hknown htrack).mp hanswer
    rw [Effect.datagram.injEq] at heq
    refine ⟨fileArrival p t, ?_, heq.2.2.symm⟩
    have ht : t = 0 ∨ t = 1 := by omega
    rcases ht with rfl | rfl
    · exact List.mem_cons_self
    · exact List.mem_cons_of_mem _ List.mem_cons_self)
  exact ⟨p, s₁, s₂, o₁, o₂, hobject, htotal, hrun₁, hrun₂, hobj⟩

end Bishlink
