import Bishlink.AtMostOnce

/-!
# Every object is accounted for

Each slot that is given to an object is still collecting it, or it raised OBJECT when the object
was complete, or OBJECT_LOST when the slot went to another object before (`objects_accounted`).
-/

namespace Bishlink

open Runs

variable {lib : FecLib}

/-! ## What is counted -/

/-- The slot collects an object that is not complete. -/
def FrameAssembler.pending (a : FrameAssembler) : Bool := a.slotKey?.isSome && !a.decoded

/-- How many slots collect an object that is not complete. -/
def AssemblerCache.undecoded (s : AssemblerCache) : ℕ := s.slots.countP (·.pending)

/-- Whether a datagram gives a slot to an object of at least one symbol. -/
def Arrival.assigns (s : AssemblerCache) (a : Arrival lib) : Bool :=
  match a.symbol? with
  | none => false
  | some (_, h) => (s.find h).isNone && decide (0 < h.totalSymbols.toNat)

/-- How often a slot is given to an object of at least one symbol. -/
def assignments (lib : FecLib) (s : AssemblerCache) (as : List (Arrival lib)) : ℕ :=
  tally (arrive lib) (fun s a => (a.assigns s).toNat) s as

/-- The objects that are reported lost. -/
def lostOf (o : List Effect) : List (MoqTrackId × UInt64 × UInt64) :=
  (eventsOf o).filterMap fun ev =>
    match ev with
    | .objectLost track groupId objectId => some (track, groupId, objectId)
    | _ => none

/-- How many objects are handed on or reported lost. -/
def reported (o : List Effect) : ℕ := (objectsOf o).length + (lostOf o).length

theorem lostOf_append (o o' : List Effect) : lostOf (o ++ o') = lostOf o ++ lostOf o' := by
  unfold lostOf eventsOf
  rw [List.filterMap_append, List.filterMap_append]

theorem reported_append (o o' : List Effect) : reported (o ++ o') = reported o + reported o' := by
  unfold reported
  rw [objectsOf_append, lostOf_append, List.length_append, List.length_append]
  omega

/-- The table gives a track for the object of every slot in use. -/
def AssemblerCache.Known (table : Subscriptions) (s : AssemblerCache) : Prop :=
  ∀ a ∈ s.slots, a.slotKey?.isSome = true → ∀ out,
    (findSubscriptionByAlias table a.trackId out).isSome = true

/-! ## One symbol at a slot -/

/-- An OBJECT event is what makes a slot decoded. -/
theorem slotStep_decoded {junk : ℕ → UInt8} {type : MoqTrackType} {a : FrameAssembler}
    {h : FecPacketHeader} {symbol : Bytes} {r : Received}
    (hstep : slotStep lib junk type a h symbol = .ok r) :
    r.slot.decoded = (a.decoded || r.fullData.isSome) ∧ r.slot.trackId = a.trackId := by
  unfold slotStep at hstep
  split at hstep
  · rw [Except.ok.injEq] at hstep
    rw [← hstep]
    exact ⟨(Bool.or_false a.decoded).symm, rfl⟩
  · obtain ⟨stored, hstored, hrest⟩ := Checked.bind_eq_ok.mp hstep
    obtain ⟨d, -, hr⟩ := Checked.bind_eq_ok.mp hrest
    rw [Except.ok.injEq] at hr
    obtain ⟨-, -, hwith⟩ := FrameAssembler.storeSymbol_eq_ok.mp hstored
    have hkept : stored.decoded = a.decoded ∧ stored.trackId = a.trackId := by
      rw [hwith, FrameAssembler.withSymbol]
      split <;> exact ⟨rfl, rfl⟩
    rw [← hr]
    cases d with
    | none => exact ⟨hkept.1.trans (Bool.or_false a.decoded).symm, hkept.2⟩
    | some d => exact ⟨(Bool.or_true a.decoded).symm, hkept.2⟩

/-- What a symbol does to the count: an object that was pending is handed on, or stays. -/
theorem slotStep_pending {junk : ℕ → UInt8} {type : MoqTrackType} {a : FrameAssembler}
    {h : FecPacketHeader} {symbol : Bytes} {r : Received}
    (hstep : slotStep lib junk type a h symbol = .ok r)
    (hused : h.symbolIndex < h.totalSymbols → a.slotKey?.isSome = true) :
    a.pending.toNat = r.fullData.isSome.toNat + r.slot.pending.toNat := by
  obtain ⟨hkey, hcases⟩ := slotStep_spec hstep
  obtain ⟨hdecoded, -⟩ := slotStep_decoded hstep
  unfold FrameAssembler.pending
  rw [hkey]
  rcases hcases with ⟨hnone, hsame⟩ | ⟨hindex, hbefore, hafter⟩
  · rw [hnone, hsame]
    exact (Nat.zero_add _).symm
  · rw [hbefore, hafter, hused hindex]
    rw [hbefore, hafter, Bool.false_or] at hdecoded
    rw [← hdecoded]
    rfl

/-! ## One datagram at the ring -/

/-- Writing a slot changes the count by that slot. -/
theorem AssemblerCache.undecoded_set {s s' : AssemblerCache} {i : ℕ} {a : FrameAssembler}
    (hi : i < ASSEMBLER_CACHE_SIZE) (h : s'.slots = s.slots.set i a) :
    s'.undecoded + (s.slot i).pending.toNat = s.undecoded + a.pending.toNat := by
  have hlt : i < s.slots.length := by
    rw [s.length_slots]
    exact hi
  have hslot : s.slots[i] = s.slot i := by rw [slot, List.getD_eq_getElem _ _ hlt]
  have hcount : ∀ b : Bool, (if b = true then 1 else 0) = b.toNat := by decide
  unfold undecoded
  rw [h, List.countP_set hlt, hslot, hcount, hcount]
  have hle : (s.slot i).pending.toNat ≤ s.slots.countP (·.pending) := by
    cases hpending : (s.slot i).pending with
    | false => exact Nat.zero_le _
    | true =>
      refine List.one_le_countP_iff.mpr ⟨s.slot i, ?_, hpending⟩
      rw [← hslot]
      exact List.getElem_mem hlt
  omega

/-- A slot that was just given to an object. -/
theorem pending_assign (a : FrameAssembler) (h : FecPacketHeader) :
    (a.assign h).pending = decide (0 < h.totalSymbols.toNat) := by
  unfold FrameAssembler.pending FrameAssembler.slotKey? FrameAssembler.assign
  dsimp only
  by_cases hpos : 0 < h.totalSymbols.toNat
  · rw [if_pos hpos, decide_eq_true hpos]
    rfl
  · rw [if_neg hpos, decide_eq_false hpos]
    rfl

/-- An object loses its slot when it was pending. -/
theorem evicted_of_none {s : AssemblerCache} {h : FecPacketHeader} (hfind : s.find h = none) :
    s.evicted h = if (s.slot s.index).pending then some (s.slot s.index) else none := by
  unfold AssemblerCache.evicted FrameAssembler.pending FrameAssembler.slotKey?
  rw [hfind]
  dsimp only
  refine if_congr ?_ rfl rfl
  by_cases hpos : 0 < (s.slot s.index).totalSymbols
  · simp [hpos]
  · simp [hpos]

/-- An object that gets a slot, or was collected before, is handed on or lost, or is collected
afterwards. -/
theorem ringStep_balance {junk : ℕ → UInt8} {type : MoqTrackType} {s s' : AssemblerCache}
    {h : FecPacketHeader} {symbol : Bytes} {r : Received}
    (hstep : ringStep lib junk type s h symbol = .ok (s', r)) :
    ((s.find h).isNone && decide (0 < h.totalSymbols.toNat)).toNat + s.undecoded =
      r.fullData.isSome.toNat + (s.evicted h).isSome.toNat + s'.undecoded := by
  obtain ⟨r', hslot, heq⟩ := Checked.bind_eq_ok.mp hstep
  rw [Except.ok.injEq, Prod.mk.injEq] at heq
  obtain ⟨rfl, rfl⟩ := heq
  cases hfind : s.find h with
  | some i =>
    obtain ⟨hi, hkey⟩ := AssemblerCache.find_eq_some hfind
    have hlocate : s.locate h = (s, i) := by rw [AssemblerCache.locate, hfind]
    have hevicted : s.evicted h = none := by rw [AssemblerCache.evicted, hfind]
    rw [hlocate] at hslot ⊢
    dsimp only at hslot ⊢
    have hused : (s.slot i).slotKey?.isSome = true := by
      rw [hkey]
      rfl
    have hpending := slotStep_pending hslot fun _ => hused
    have hset : (s.set i r'.slot).undecoded + (s.slot i).pending.toNat =
        s.undecoded + r'.slot.pending.toNat := AssemblerCache.undecoded_set hi rfl
    rw [hevicted, Option.isNone_some, Bool.false_and]
    show 0 + s.undecoded = r'.fullData.isSome.toNat + 0 + (s.set i r'.slot).undecoded
    omega
  -- the slot at the index is given away, with what it held
  | none =>
    have hlocate : s.locate h = (s.evict h, s.index) := by rw [AssemblerCache.locate, hfind]
    rw [hlocate] at hslot ⊢
    dsimp only at hslot ⊢
    rw [AssemblerCache.slot_evict_self] at hslot
    -- a slot that was assigned a total of 0 stays unused
    have hused : h.symbolIndex < h.totalSymbols →
        ((s.slot s.index).assign h).slotKey?.isSome = true := by
      intro hindex
      rw [UInt16.lt_iff_toNat_lt] at hindex
      unfold FrameAssembler.slotKey? FrameAssembler.assign
      dsimp only
      rw [if_pos (by omega)]
      rfl
    have hpending := slotStep_pending hslot hused
    rw [pending_assign] at hpending
    have hslots : ((s.evict h).set s.index r'.slot).slots = s.slots.set s.index r'.slot := by
      show (s.slots.set s.index _).set s.index _ = _
      rw [List.set_set]
    have hset := AssemblerCache.undecoded_set s.index_lt hslots
    have hlost : (s.evicted h).isSome.toNat = (s.slot s.index).pending.toNat := by
      rw [evicted_of_none hfind]
      cases (s.slot s.index).pending <;> rfl
    rw [hlost, Option.isNone_none, Bool.true_and]
    omega

/-! ## One datagram at the connection -/

/-- A symbol that reaches the ring is of a track in the table. -/
theorem symbol?_known {a : Arrival lib} {track : MoqTrackId} {h : FecPacketHeader}
    (hsym : a.symbol? = some (track, h)) (out : MoqTrackId) :
    (findSubscriptionByAlias a.conn.subscriptions h.trackId out).isSome = true := by
  rw [Arrival.symbol?, symbolOf] at hsym
  split at hsym
  · exact absurd hsym (by simp)
  split at hsym
  · exact absurd hsym (by simp)
  split at hsym
  · exact absurd hsym (by simp)
  · next hfind =>
    dsimp only at hsym
    split at hsym
    · exact absurd hsym (by simp)
    · rw [Option.some.injEq, Prod.mk.injEq] at hsym
      rw [← hsym.2]
      show (findSubscriptionByAlias _ (a.payload.getD 0 0) out).isSome = true
      unfold findSubscriptionByAlias at hfind ⊢
      split
      · rfl
      · next hlow =>
        rw [if_neg hlow] at hfind
        rw [hfind]
        rfl

/-- A symbol leaves in each slot an object of the table. -/
theorem AssemblerCache.Known.ringStep {table : Subscriptions} {junk : ℕ → UInt8}
    {type : MoqTrackType} {s s' : AssemblerCache} {h : FecPacketHeader} {symbol : Bytes}
    {r : Received} (hs : s.Known table)
    (hh : ∀ out, (findSubscriptionByAlias table h.trackId out).isSome = true)
    (hstep : Bishlink.ringStep lib junk type s h symbol = .ok (s', r)) : s'.Known table := by
  obtain ⟨r', hslot, heq⟩ := Checked.bind_eq_ok.mp hstep
  rw [Except.ok.injEq, Prod.mk.injEq] at heq
  obtain ⟨rfl, rfl⟩ := heq
  obtain ⟨hkey, -⟩ := slotStep_spec hslot
  obtain ⟨-, htrack⟩ := slotStep_decoded hslot
  have hlocated : ∀ b ∈ (s.locate h).1.slots, b.slotKey?.isSome = true → ∀ out,
      (findSubscriptionByAlias table b.trackId out).isSome = true := by
    unfold AssemblerCache.locate
    split
    · exact hs
    · intro b hb hused out
      rcases List.mem_or_eq_of_mem_set hb with hb | rfl
      · exact hs b hb hused out
      · exact hh out
  intro b hb hused out
  rcases List.mem_or_eq_of_mem_set hb with hb | rfl
  · exact hlocated b hb hused out
  · rw [htrack]
    rw [hkey] at hused
    refine hlocated _ ?_ hused out
    have hi : (s.locate h).2 < ASSEMBLER_CACHE_SIZE := by
      unfold AssemblerCache.locate
      cases hfind : s.find h with
      | some i => exact (AssemblerCache.find_eq_some hfind).1
      | none => exact s.index_lt
    exact List.mem_of_getElem? (AssemblerCache.getElem?_slots hi)

/-- The object that loses its slot was pending, and the table knows it. -/
theorem evicted_eq_some {s : AssemblerCache} {h : FecPacketHeader} {old : FrameAssembler}
    (hevicted : s.evicted h = some old) :
    s.find h = none ∧ old = s.slot s.index ∧ old.pending = true := by
  cases hfind : s.find h with
  | some i =>
    rw [AssemblerCache.evicted, hfind] at hevicted
    exact absurd hevicted (by simp)
  | none =>
    rw [evicted_of_none hfind] at hevicted
    split at hevicted
    · next hpending =>
      rw [Option.some.injEq] at hevicted
      exact ⟨rfl, hevicted.symm, hevicted ▸ hpending⟩
    · exact absurd hevicted (by simp)

theorem AssemblerCache.Known.evicted {table : Subscriptions} {s : AssemblerCache}
    (hs : s.Known table) {h : FecPacketHeader} {old : FrameAssembler}
    (hevicted : s.evicted h = some old) (out : MoqTrackId) :
    (findSubscriptionByAlias table old.trackId out).isSome = true := by
  obtain ⟨-, hold, hpending⟩ := evicted_eq_some hevicted
  refine hs old ?_ (Bool.and_eq_true_iff.mp hpending).1 out
  rw [hold]
  exact List.mem_of_getElem? (AssemblerCache.getElem?_slots s.index_lt)

/-- The losses that a symbol reports. -/
theorem Arrival.lostOf_effects (a : Arrival lib) (s : AssemblerCache) (track : MoqTrackId)
    (h : FecPacketHeader) (r : Received) :
    lostOf (a.effects s track h r) =
      match s.evicted h with
      | none => []
      | some old =>
        ((findSubscriptionByAlias a.conn.subscriptions old.trackId a.io.uninitLost).map
          fun track => (track, old.groupId.toUInt64, old.objectId.toUInt64)).toList := by
  have hnack : ∀ missing, lostOf (sendNack a.conn h.trackId h.groupId h.objectId missing) = [] := by
    intro missing
    rw [sendNack, Conn.writeControl]
    split
    · split <;> rfl
    · rfl
  have hcons : ∀ o, lostOf (Effect.datagram a.conn.ptr h.pathId.toNat
      (telemetryReply a.io h).encode :: o) = lostOf o := fun o => rfl
  rw [Arrival.effects, hcons, lostOf_append, lostOf_append, List.append_assoc]
  have hrest : ∀ l l' l'' : List (MoqTrackId × UInt64 × UInt64), l' = [] → l'' = [] →
      l ++ (l' ++ l'') = l := by
    intro l l' l'' hl' hl''
    rw [hl', hl'', List.append_nil, List.append_nil]
  refine (hrest _ _ _ ?_ ?_).trans ?_
  · cases r.nack with
    | none => rfl
    | some missing => exact hnack missing
  · cases r.fullData <;> rfl
  · cases s.evicted h with
    | none => rfl
    | some old =>
      dsimp only
      rw [objectLost]
      cases findSubscriptionByAlias a.conn.subscriptions old.trackId a.io.uninitLost <;> rfl

/-- A datagram: a slot that is given away is reported, lost or pending. -/
theorem arrive_balance {table : Subscriptions} {s s' : AssemblerCache} {a : Arrival lib}
    {o : List Effect} (hs : s.Known table) (htable : a.conn.subscriptions = table)
    (h : arrive lib s a = some (s', o)) :
    s'.Known table ∧ (a.assigns s).toNat + s.undecoded = reported o + s'.undecoded := by
  cases hsym : a.symbol? with
  | none =>
    obtain ⟨o', hevents, hall⟩ := arrive_of_none hsym
    rw [hall s, Option.some.injEq, Prod.mk.injEq] at h
    obtain ⟨rfl, rfl⟩ := h
    have hassigns : a.assigns s = false := by rw [Arrival.assigns, hsym]
    have hreported : reported o' = 0 := by
      rw [reported, objectsOf_eq, lostOf, hevents]
      rfl
    refine ⟨hs, ?_⟩
    rw [hassigns, hreported]
    rfl
  | some x =>
    obtain ⟨track, hdr⟩ := x
    rw [arrive_of_some hsym] at h
    cases hring : ringStep lib a.io.junk track.type s hdr a.bytes with
    | error e =>
      rw [hring] at h
      exact absurd h (by simp)
    | ok y =>
      obtain ⟨s₁, r⟩ := y
      simp only [hring, Option.some.injEq, Prod.mk.injEq] at h
      obtain ⟨rfl, rfl⟩ := h
      have hassigns : a.assigns s =
          ((s.find hdr).isNone && decide (0 < hdr.totalSymbols.toNat)) := by
        rw [Arrival.assigns, hsym]
      have hlost : (lostOf (a.effects s track hdr r)).length = (s.evicted hdr).isSome.toNat := by
        rw [Arrival.lostOf_effects]
        cases hevicted : s.evicted hdr with
        | none => rfl
        | some old =>
          -- the table knows the object that lost its slot
          have hknown : (findSubscriptionByAlias table old.trackId a.io.uninitLost).isSome = true :=
            hs.evicted hevicted a.io.uninitLost
          obtain ⟨track', htrack'⟩ := Option.isSome_iff_exists.mp hknown
          dsimp only
          rw [htable, htrack']
          rfl
      have hobjects : (objectsOf (a.effects s track hdr r)).length = r.fullData.isSome.toNat := by
        rw [Arrival.objectsOf_effects, List.length_map]
        cases r.fullData <;> rfl
      refine ⟨hs.ringStep (fun out => htable ▸ symbol?_known hsym out) hring, ?_⟩
      rw [hassigns, ringStep_balance hring, reported, hlost, hobjects]

/-- No two slots in use have the same key. -/
theorem distinct_arrive {s s' : AssemblerCache} {a : Arrival lib} {o : List Effect}
    (hs : s.keyRing.Distinct) (h : arrive lib s a = some (s', o)) : s'.keyRing.Distinct := by
  rw [keyRing_arrive h]
  cases a.touches with
  | none => exact hs
  | some x => exact hs.touch x.1 x.2

theorem distinct_empty : AssemblerCache.empty.keyRing.Distinct := by
  intro i j k hi
  have hmem := List.mem_of_getElem? hi
  have hfree : ∀ x ∈ AssemblerCache.empty.keyRing.keys, x = none := by decide
  exact absurd (hfree _ hmem) (by simp)

theorem getElem?_keys_of_slotKey {s : AssemblerCache} {i : ℕ} {k : SlotKey}
    (h : (s.slot i).slotKey? = some k) : s.keyRing.keys[i]? = some (some k) := by
  by_cases hi : i < ASSEMBLER_CACHE_SIZE
  · rw [AssemblerCache.getElem?_keys hi, h]
  · have hzero : s.slot i = FrameAssembler.zero := by
      unfold AssemblerCache.slot
      rw [List.getD_eq_default]
      rw [s.length_slots]
      omega
    have hfree : FrameAssembler.zero.slotKey? = none := rfl
    rw [hzero, hfree] at h
    exact absurd h (by simp)

/-- A loss that is reported is that of the object that was pending in the slot at the index; the
slot is that of another object afterwards, and no other slot is its own. -/
theorem lost_arrive {s s' : AssemblerCache} {a : Arrival lib} {o : List Effect}
    (hs : s.keyRing.Distinct) (h : arrive lib s a = some (s', o)) {track : MoqTrackId}
    {groupId objectId : UInt64} (hlost : (track, groupId, objectId) ∈ lostOf o) :
    (s.slot s.index).pending = true ∧
      findSubscriptionByAlias a.conn.subscriptions (s.slot s.index).trackId a.io.uninitLost =
        some track ∧
      groupId = (s.slot s.index).groupId.toUInt64 ∧
      objectId = (s.slot s.index).objectId.toUInt64 ∧
      ∀ j, (s'.slot j).slotKey? ≠ (s.slot s.index).slotKey? := by
  cases hsym : a.symbol? with
  | none =>
    obtain ⟨o', hevents, hall⟩ := arrive_of_none hsym
    rw [hall s, Option.some.injEq, Prod.mk.injEq] at h
    rw [← h.2, lostOf, hevents] at hlost
    exact absurd hlost List.not_mem_nil
  | some x =>
    obtain ⟨found, hdr⟩ := x
    have hkeys := keyRing_arrive h
    rw [arrive_of_some hsym] at h
    cases hring : ringStep lib a.io.junk found.type s hdr a.bytes with
    | error e =>
      rw [hring] at h
      exact absurd h (by simp)
    | ok y =>
      obtain ⟨s₁, r⟩ := y
      simp only [hring, Option.some.injEq, Prod.mk.injEq] at h
      obtain ⟨rfl, rfl⟩ := h
      rw [Arrival.lostOf_effects] at hlost
      cases hevicted : s.evicted hdr with
      | none =>
        rw [hevicted] at hlost
        exact absurd hlost List.not_mem_nil
      | some old =>
        rw [hevicted] at hlost
        obtain ⟨hfind, rfl, hpending⟩ := evicted_eq_some hevicted
        rw [Option.mem_toList, Option.map_eq_some_iff] at hlost
        obtain ⟨track', htrack', heq⟩ := hlost
        rw [Prod.mk.injEq, Prod.mk.injEq] at heq
        obtain ⟨rfl, rfl, rfl⟩ := heq
        refine ⟨hpending, htrack', rfl, rfl, fun j hj => ?_⟩
        obtain ⟨k, hk⟩ := Option.isSome_iff_exists.mp (Bool.and_eq_true_iff.mp hpending).1
        have hold := getElem?_keys_of_slotKey hk
        have hnot := AssemblerCache.find_eq_none.mp hfind
        have hnew := getElem?_keys_of_slotKey (hj.trans hk)
        simp only [Arrival.touches, hsym, Option.map_some] at hkeys
        rw [hkeys, KeyRing.touch_of_not_mem hnot] at hnew
        -- the key of the header had no slot, and the key that was evicted had no other
        rcases KeyRing.getElem?_take_eq_some hnew with ⟨-, -, heq⟩ | ⟨hne, hget⟩
        · rw [heq] at hnot
          exact hnot (List.mem_of_getElem? hold)
        · exact hne (hs j s.index k hget hold)

/-! ## The whole run -/

/-- Every object that gets a slot is accounted for. With a fixed table, after any datagrams, the
slots that were given to objects of at least one symbol are as many as the OBJECT events, the
OBJECT_LOST events and the slots that still collect an object together. Each OBJECT_LOST names the
object that was pending in the slot that was given away just then, and no two slots in use are of
the same object. -/
theorem objects_accounted (lib : FecLib) (table : Subscriptions) (as : List (Arrival lib))
    (htable : ∀ a ∈ as, a.conn.subscriptions = table) {s : AssemblerCache} {o : List Effect}
    (hrun : run (arrive lib) AssemblerCache.empty as = some (s, o)) :
    assignments lib AssemblerCache.empty as =
      (objectsOf o).length + (lostOf o).length + s.undecoded ∧
    (∀ pre a post s₁ o₁ s₂ o₂, as = pre ++ a :: post →
      run (arrive lib) AssemblerCache.empty pre = some (s₁, o₁) →
      arrive lib s₁ a = some (s₂, o₂) →
      ∀ track groupId objectId, (track, groupId, objectId) ∈ lostOf o₂ →
        (s₁.slot s₁.index).pending = true ∧
        findSubscriptionByAlias table (s₁.slot s₁.index).trackId a.io.uninitLost = some track ∧
        groupId = (s₁.slot s₁.index).groupId.toUInt64 ∧
        objectId = (s₁.slot s₁.index).objectId.toUInt64 ∧
        ∀ j, (s₂.slot j).slotKey? ≠ (s₁.slot s₁.index).slotKey?) ∧
    ∀ i j k, (s.slot i).slotKey? = some k → (s.slot j).slotKey? = some k → i = j := by
  have hdistinct : ∀ as s o, run (arrive lib) AssemblerCache.empty as = some (s, o) →
      s.keyRing.Distinct :=
    invariant (I := fun s => s.keyRing.Distinct) distinct_empty
      fun s a s' o hs h => distinct_arrive hs h
  refine ⟨?_, ?_, ?_⟩
  · have hempty : AssemblerCache.empty.Known table := by
      intro a ha hused
      have hfree : ∀ a ∈ AssemblerCache.empty.slots, a.slotKey?.isSome = false := by decide
      exact absurd ((hfree a ha).symm.trans hused) Bool.false_ne_true
    exact balance_along (G := fun _ a => a.conn.subscriptions = table)
      (I := AssemblerCache.Known table) (fun s a => (Arrival.assigns s a).toNat)
      AssemblerCache.undecoded reported rfl reported_append
      (fun s a s' o hs htable h => arrive_balance hs htable h) hempty
      (along_of_mem (fun a ha _ => htable a ha) AssemblerCache.empty) hrun
  · intro pre a post s₁ o₁ s₂ o₂ has hpre hstep track groupId objectId hlost
    have hmem : a ∈ as := by
      rw [has]
      exact List.mem_append_right pre List.mem_cons_self
    have hnamed := lost_arrive (hdistinct pre s₁ o₁ hpre) hstep hlost
    rwa [htable a hmem] at hnamed
  · intro i j k hi hj
    exact hdistinct as s o hrun i j k (getElem?_keys_of_slotKey hi) (getElem?_keys_of_slotKey hj)

/-! ## More objects under way than slots -/

/-- The first of several data symbols does not complete an object in a new slot. -/
theorem slotStep_first (lib : FecLib) (junk : ℕ → UInt8) (type : MoqTrackType) (a : FrameAssembler)
    {h : FecPacketHeader} (symbol : Bytes) (hpos : 0 < h.totalSymbols.toNat)
    (hdata : 1 < h.dataSymbols.toNat) (hindex : h.symbolIndex = 0) :
    ∃ r, slotStep lib junk type (a.assign h) h symbol = .ok r ∧ r.fullData = none := by
  have hindex' : h.symbolIndex.toNat = 0 := by rw [hindex]; rfl
  obtain ⟨b, hstored, hcount, -⟩ := storeSymbol_assign a symbol hpos
  refine ⟨(b.afterRequest type).received (b.requests type) none, ?_, rfl⟩
  rw [slotStep, if_neg, hindex', hstored]
  · show (completion lib junk type (b.afterRequest type) h >>= _) = _
    rw [completion, if_pos (by rw [FrameAssembler.receivedCount_afterRequest, hcount]; exact hdata)]
    rfl
  · rintro (hdecoded | hle)
    · exact Bool.false_ne_true hdecoded
    · rw [UInt16.le_iff_toNat_le] at hle
      omega

/-- Every slot that has an object waits for more of it. -/
def AssemblerCache.AllPending (s : AssemblerCache) : Prop :=
  ∀ i < ASSEMBLER_CACHE_SIZE, (s.slot i).slotKey?.isSome = true → (s.slot i).decoded = false

/-- Then as many objects are under way as there are keys. -/
theorem AssemblerCache.AllPending.undecoded_eq {s : AssemblerCache} (hpending : s.AllPending) :
    s.undecoded = s.keyRing.keys.countP (·.isSome) := by
  show _ = (s.slots.map (·.slotKey?)).countP (·.isSome)
  rw [List.countP_map]
  refine List.countP_congr fun a ha => ?_
  obtain ⟨i, hi, rfl⟩ := List.getElem_of_mem ha
  have hslot : s.slot i = s.slots[i] := by rw [slot, List.getD_eq_getElem _ _ hi]
  rw [← hslot]
  rw [s.length_slots] at hi
  unfold FrameAssembler.pending
  rw [Function.comp_apply, Bool.and_eq_true, and_iff_left_iff_imp]
  intro hused
  rw [hpending i hi hused]
  rfl

/-- The first symbol of another object, which is not complete with it. -/
theorem AssemblerCache.AllPending.ringStep_first (lib : FecLib) (junk : ℕ → UInt8)
    (type : MoqTrackType) {s : AssemblerCache} (hpending : s.AllPending) {h : FecPacketHeader}
    (symbol : Bytes) (hnew : some h.slotKey ∉ s.keyRing.keys) (hpos : 0 < h.totalSymbols.toNat)
    (hdata : 1 < h.dataSymbols.toNat) (hindex : h.symbolIndex = 0) :
    ∃ s' r, ringStep lib junk type s h symbol = .ok (s', r) ∧ s'.AllPending ∧
      r.fullData = none := by
  have hfind := AssemblerCache.find_eq_none.mpr hnew
  have hlocate : s.locate h = (s.evict h, s.index) := by rw [AssemblerCache.locate, hfind]
  obtain ⟨r, hr, hnone⟩ := slotStep_first lib junk type (s.slot s.index) symbol hpos hdata hindex
  have hslot : slotStep lib junk type ((s.locate h).1.slot (s.locate h).2) h symbol = .ok r := by
    rw [hlocate, AssemblerCache.slot_evict_self]
    exact hr
  have hring := ringStep_ok hslot
  rw [hlocate] at hring
  refine ⟨_, r, hring, fun i hi hused => ?_, hnone⟩
  by_cases hi' : i = s.index
  · rw [hi', AssemblerCache.slot_set_self s.index_lt, (slotStep_decoded hr).1, hnone]
    rfl
  · rw [(ringStep_new hring hfind).2.1 i hi'] at hused ⊢
    exact hpending i hi hused

/-- The first of two symbols of TEXT object `id`. -/
def fragmentHeader (id : UInt32) : FecPacketHeader :=
  ⟨MOQ_TRACK_TEXT, 0, 1, 0, id, 0, 2, 2, 1, 2, 0, 0⟩

/-- It arrives. -/
def fragmentArrival (id : UInt32) : Arrival FecLib.unavailable where
  transport := Transport.init false [] 1280
  conn := Conn.zero 1
  io := ⟨0, 0, MoqTrackId.zero, MoqTrackId.zero, fun _ => 0⟩
  payload := (fragmentHeader id).encode ++ [7]
  sound := FecCache.sound_empty _

theorem symbol?_fragmentArrival (id : UInt32) :
    (fragmentArrival id).symbol? =
      some (⟨MOQ_TRACK_TEXT, 0, TrackName.empty⟩, fragmentHeader id) := by
  have hdecode : FecPacketHeader.decode (fragmentArrival id).payload = fragmentHeader id :=
    FecPacketHeader.decode_encode _ _
  have hlen : (fragmentArrival id).payload.length = FecPacketHeader.size + 1 := by
    show ((fragmentHeader id).encode ++ [7]).length = _
    rw [List.length_append, FecPacketHeader.length_encode]
    rfl
  have hfirst : (fragmentArrival id).payload.getD 0 0 = MOQ_TRACK_TEXT := rfl
  have hfound : findSubscriptionByAlias (fragmentArrival id).conn.subscriptions MOQ_TRACK_TEXT
      (fragmentArrival id).io.uninitTrack = some ⟨MOQ_TRACK_TEXT, 0, TrackName.empty⟩ := rfl
  rw [Arrival.symbol?, symbolOf, if_neg, hfirst, hlen, hfound, if_neg]
  · dsimp only
    rw [hdecode, if_neg]
    show ¬((16384 : UInt16) < 2 ∨ (4096 : UInt16) < 1 ∨ _ < FecPacketHeader.size + 1)
    decide
  · decide
  · exact fun h => Bool.false_ne_true h.1

/-- Objects that come while they have no slot: each of them is given one, and none is complete. -/
theorem run_fragments (ids : List UInt32) (s : AssemblerCache) (hpending : s.AllPending)
    (hnew : s.keyRing.allNew (ids.map fun id => (fragmentHeader id).slotKey) = true) :
    ∃ s' o, run (arrive FecLib.unavailable) s (ids.map fragmentArrival) = some (s', o) ∧
      objectsOf o = [] ∧ s'.AllPending ∧
      s'.keyRing = ids.foldl (fun r id => r.touch (fragmentHeader id).slotKey true) s.keyRing ∧
      assignments FecLib.unavailable s (ids.map fragmentArrival) = ids.length := by
  induction ids generalizing s with
  | nil => exact ⟨s, [], rfl, rfl, hpending, rfl, rfl⟩
  | cons id ids ih =>
    rw [List.map_cons, KeyRing.allNew, Bool.and_eq_true, decide_eq_true_eq] at hnew
    have hsym := symbol?_fragmentArrival id
    obtain ⟨s₁, r, hring, hpending₁, hnone⟩ := hpending.ringStep_first FecLib.unavailable
      (fragmentArrival id).io.junk (MoqTrackId.mk MOQ_TRACK_TEXT 0 TrackName.empty).type
      (fragmentArrival id).bytes hnew.1 (show 0 < 2 by decide) (show 1 < 2 by decide) rfl
    have harrive := arrive_of_ringStep hsym hring
    have hkeys : s₁.keyRing = s.keyRing.touch (fragmentHeader id).slotKey true := by
      have htouches : (fragmentArrival id).touches = some ((fragmentHeader id).slotKey, true) := by
        rw [Arrival.touches, hsym]
        rfl
      have hkeys := keyRing_arrive harrive
      rwa [htouches] at hkeys
    have hassigns : (fragmentArrival id).assigns s = true := by
      rw [Arrival.assigns, hsym]
      dsimp only
      rw [AssemblerCache.find_eq_none.mpr hnew.1]
      rfl
    obtain ⟨s', o, hrun, hobjects, hpending', hkeys', hcount⟩ :=
      ih s₁ hpending₁ (by rw [hkeys]; exact hnew.2)
    refine ⟨s', _, run_cons.mpr ⟨s₁, _, o, harrive, hrun, rfl⟩, ?_, hpending', ?_, ?_⟩
    · rw [objectsOf_append, hobjects, List.append_nil, Arrival.objectsOf_effects, hnone]
      rfl
    · rw [hkeys', hkeys, List.foldl_cons]
    · unfold assignments at hcount ⊢
      rw [List.map_cons, tally, harrive, hassigns]
      dsimp only
      rw [hcount, List.length_cons, Bool.toNat_true, Nat.add_comm]

/-- Seventeen objects. -/
def seventeen : List UInt32 := [0, 1, 2, 3, 4, 5, 6, 7, 8, 9, 10, 11, 12, 13, 14, 15, 16]

/-- The last one evicts the first one, which is reported lost; the others stay under way. -/
theorem objects_accounted_text :
    ∃ s o, run (arrive FecLib.unavailable) AssemblerCache.empty (seventeen.map fragmentArrival) =
        some (s, o) ∧ objectsOf o = [] ∧ (lostOf o).length = 1 ∧ s.undecoded = 16 := by
  have hempty : AssemblerCache.empty.AllPending := by
    show ∀ i < 16, (AssemblerCache.empty.slot i).slotKey?.isSome = true →
      (AssemblerCache.empty.slot i).decoded = false
    decide
  obtain ⟨s, o, hrun, hobjects, hpending, hkeys, hcount⟩ :=
    run_fragments seventeen AssemblerCache.empty hempty (by decide)
  have hlaw := (objects_accounted FecLib.unavailable Subscriptions.empty _ (by
    intro a ha
    obtain ⟨id, -, rfl⟩ := List.mem_map.mp ha
    rfl) hrun).1
  have hall : s.undecoded = 16 := by
    rw [hpending.undecoded_eq, hkeys]
    decide
  have hlength : seventeen.length = 17 := rfl
  rw [hcount, hobjects, hall, List.length_nil] at hlaw
  exact ⟨s, o, hrun, hobjects, by omega, hall⟩

end Bishlink
