import Bishlink.Soundness

/-!
# Datagrams without loss

All datagrams of an object, in the order they were sent, at a ring that does not know the object:
the object is handed on with its last data symbol, and no decoder is asked. Objects that come one
after the other are handed on in their order (`run_inOrder`).
-/

namespace Bishlink

open ByteCodec Checked Runs

variable {pub lib : FecLib} {p : Sharding pub}

/-! ## The slot -/

/-- A slot with all data symbols completes the object that was published. -/
theorem Holds.completion_data_all {arrived : Finset ℕ} {a : FrameAssembler} {t : ℕ}
    {h : FecPacketHeader} (hholds : Holds p arrived a) (hfits : p.Fits) (hheader : p.HeaderOf t h)
    (hall : ∀ j < p.shards.dataSymbols, j ∈ arrived) (junk : ℕ → UInt8) (type : MoqTrackType) :
    ∃ symbols, completion lib junk type a h = .ok (some (symbols, p.object.data)) := by
  obtain ⟨⟨symbols, fullData⟩, hd⟩ := hholds.completion_all hheader hall junk type
  obtain ⟨hobtained, hcopied⟩ := completion_some hd
  have hscan : gotAllData a.store.receivedMask 0 h.dataSymbols.toNat = .ok true := by
    refine gotAllData_true.mpr fun j _ hj => ?_
    rw [hheader.dataSymbols, Nat.zero_add] at hj
    exact (hholds.received j).mpr (hall j hj)
  have hnone : symbols = fun _ => none := by
    rw [obtained, hscan] at hobtained
    exact (Option.some.inj (Except.ok.inj hobtained)).symm
  have hrestored : Restored p arrived symbols := by
    intro k hk
    rw [hnone]
    exact Or.inr ⟨rfl, hall k hk⟩
  rw [hheader.symbolSize, hheader.dataSymbols, hheader.originalSize,
    hholds.copied_restored hfits hrestored] at hcopied
  rw [hcopied] at hd
  exact ⟨symbols, hd⟩

section Ring

variable {s : AssemblerCache} {h : FecPacketHeader}

/-- The symbol that completes the data symbols hands the object on. -/
theorem Collected.step_all {arrived : Finset ℕ} {t : ℕ} (hcollected : Collected p arrived s)
    (hfits : p.Fits) (hheader : p.HeaderOf t h) (ht : t < p.shards.totalSymbols)
    (hall : ∀ j < p.shards.dataSymbols, j ∈ insert t arrived) (junk : ℕ → UInt8)
    (type : MoqTrackType) :
    ∃ s' r, ringStep lib junk type s h (p.shards.symbol t) = .ok (s', r) ∧
      r.fullData = some p.object.data ∧ r.slot.priority = p.object.priority ∧
      ∃ i, Collects p.slotKey s' i true := by
  obtain ⟨hcollects, hholds⟩ := hcollected.locate hheader
  have hnext := (hholds.withSymbol ht (p.length_symbol ht).ge).afterRequest type
  obtain ⟨symbols, hcompletion⟩ := hnext.completion_data_all hfits hheader hall junk type
  have hslot : slotStep lib _ _ _ h _ = _ :=
    hholds.slotStep_eq hcollects.decoded_eq hheader ht junk type (p.shards.symbol t)
  rw [hcompletion, ok_bind] at hslot
  exact ⟨_, _, ringStep_ok hslot, rfl, hnext.priority, (s.locate h).2,
    hcollects.set (slotStep_spec hslot).1⟩

/-- A symbol of an object that has a slot goes there. -/
theorem Collects.locate_eq {i : ℕ} {decoded : Bool} (hcollects : Collects h.slotKey s i decoded) :
    s.locate h = (s, i) := by
  cases hfind : s.find h with
  | none =>
    exact absurd (List.mem_of_getElem? hcollects.key) (AssemblerCache.find_eq_none.mp hfind)
  | some j =>
    obtain ⟨hj, hkey⟩ := AssemblerCache.find_eq_some hfind
    have heq : j = i := by
      apply hcollects.only j
      rw [AssemblerCache.getElem?_keys hj, hkey]
    rw [AssemblerCache.locate, hfind, heq]

/-- A slot that is done with its object ignores the rest of it. -/
theorem Collects.step_done (lib : FecLib) {i : ℕ} (hcollects : Collects h.slotKey s i true)
    (junk : ℕ → UInt8) (type : MoqTrackType) (symbol : Bytes) :
    ∃ s' r, ringStep lib junk type s h symbol = .ok (s', r) ∧ r.fullData = none ∧
      Collects h.slotKey s' i true := by
  have hlocate := hcollects.locate_eq
  have hslot : slotStep lib junk type ((s.locate h).1.slot (s.locate h).2) h symbol =
      .ok ⟨s.slot i, none, none⟩ := by
    rw [hlocate]
    exact if_pos (Or.inl hcollects.decoded_eq)
  refine ⟨_, _, ringStep_ok hslot, rfl, ?_⟩
  have hset := hcollects.set (a := s.slot i) rfl
  rw [hcollects.decoded_eq] at hset
  rw [hlocate]
  exact hset

end Ring

/-! ## The datagrams of one object -/

/-- The receiver takes datagrams, and the alias stands for the track. -/
structure Arrival.Resolves (a : Arrival lib) (trackAlias : UInt8) (track : MoqTrackId) : Prop where
  allowed : ¬(a.transport.isServer = true ∧ ¬a.conn.authenticated = true)
  track_eq : findSubscriptionByAlias a.conn.subscriptions trackAlias a.io.uninitTrack = some track

/-- The object as the receiver hands it on. -/
def Sharding.received (p : Sharding pub) (track : MoqTrackId) : MoqObject where
  trackId := { track with flags := datagramFlags track.flags }
  groupId := p.object.groupId.toUInt32.toUInt64
  objectId := p.object.objectId.toUInt32.toUInt64
  data := p.object.data
  isKeyframe := p.object.isKeyframe
  priority := p.object.priority

section Object

variable {a : Arrival lib} {track : MoqTrackId} {t : ℕ} {s : AssemblerCache}

/-- What a datagram of the object does at the ring. -/
theorem Sharding.Fits.arrive_eq (hfits : p.Fits) (haccepted : p.Accepted)
    (hbrings : p.Brings a t) (hresolves : a.Resolves p.trackAlias track) :
    ∃ h, p.HeaderOf t h ∧ ∀ s s' r,
      ringStep lib a.io.junk track.type s h (p.shards.symbol t) = .ok (s', r) →
        ∃ o, arrive lib s a = some (s', o) ∧ s'.keyRing = s.keyRing.touch p.slotKey true ∧
          (r.fullData = none → objectsOf o = []) ∧
          (r.fullData = some p.object.data → r.slot.priority = p.object.priority →
            objectsOf o = [p.received track]) := by
  have hsym := hfits.symbol?_of_find haccepted hresolves.allowed hresolves.track_eq hbrings
  obtain ⟨hheader, hbytes⟩ := hfits.brings hbrings hsym
  refine ⟨_, hheader, fun s s' r hring => ?_⟩
  rw [← hbytes] at hring
  have harrive := arrive_of_ringStep hsym hring
  refine ⟨_, harrive, ?_, ?_, ?_⟩
  · have hpos : 0 < p.shards.totalSymbols := p.dataSymbols_pos.trans_le p.dataSymbols_le
    have hkeys := keyRing_arrive harrive
    rw [Arrival.touches, hsym, Option.map_some, hheader.slotKey, hheader.totalSymbols,
      decide_eq_true hpos] at hkeys
    exact hkeys
  · intro hnone
    rw [Arrival.objectsOf_effects, hnone]
    rfl
  · intro hfull hpriority
    have hids : (⟨_, _⟩ : ObjectKey) = p.object.key := congrArg SlotKey.object hheader.slotKey
    rw [MoqObject.key, ObjectKey.mk.injEq] at hids
    rw [Arrival.objectsOf_effects, hfull, hpriority, hheader.isKeyframe, hids.1, hids.2]
    rfl

/-- The datagrams that follow the last data symbol. -/
theorem Sharding.Fits.run_done (hfits : p.Fits) (haccepted : p.Accepted) {as : List (Arrival lib)}
    (has : ∀ a ∈ as, (∃ t, p.Brings a t) ∧ a.Resolves p.trackAlias track) {i : ℕ}
    (hcollects : Collects p.slotKey s i true) :
    ∃ s' o, run (arrive lib) s as = some (s', o) ∧ s'.keyRing = s.keyRing ∧ objectsOf o = [] := by
  induction as generalizing s with
  | nil => exact ⟨s, [], rfl, rfl, rfl⟩
  | cons a as ih =>
    obtain ⟨⟨t, hbrings⟩, hresolves⟩ := has a List.mem_cons_self
    obtain ⟨h, hheader, harrive⟩ := hfits.arrive_eq haccepted hbrings hresolves
    rw [← hheader.slotKey] at hcollects
    obtain ⟨s₁, r, hring, hnone, hcollects₁⟩ :=
      hcollects.step_done lib a.io.junk track.type (p.shards.symbol t)
    obtain ⟨o₁, hstep, hkeys, hquiet, -⟩ := harrive s s₁ r hring
    rw [hheader.slotKey] at hcollects hcollects₁
    rw [KeyRing.touch_of_mem (List.mem_of_getElem? hcollects.key)] at hkeys
    obtain ⟨s₂, o₂, hrun, hkeys₂, hobjects⟩ :=
      ih (fun b hb => has b (List.mem_cons_of_mem a hb)) hcollects₁
    refine ⟨s₂, o₁ ++ o₂, run_cons.mpr ⟨s₁, o₁, o₂, hstep, hrun, rfl⟩, hkeys₂.trans hkeys, ?_⟩
    rw [objectsOf_append]
    exact List.append_eq_nil_iff.mpr ⟨hquiet hnone, hobjects⟩

/-- The datagrams of an object from symbol `t` on, all of them and in their order. -/
def Sharding.InOrder (p : Sharding pub) (track : MoqTrackId) (t : ℕ) (as : List (Arrival lib)) :
    Prop :=
  List.Forall₂ (fun a j => p.Brings a j ∧ a.Resolves p.trackAlias track) as
    (List.range' t (p.shards.totalSymbols - t))

theorem Sharding.InOrder.brings {as : List (Arrival lib)} (h : p.InOrder track t as) :
    ∀ a ∈ as, (∃ j, p.Brings a j) ∧ a.Resolves p.trackAlias track := by
  unfold InOrder at h
  intro a ha
  obtain ⟨i, hi, rfl⟩ := List.getElem_of_mem ha
  have hlen := h.length_eq
  have hboth := h.get hi (by omega)
  exact ⟨⟨_, hboth.1⟩, hboth.2⟩

theorem Sharding.InOrder.uncons {as : List (Arrival lib)} (h : p.InOrder track t as)
    (ht : t < p.shards.totalSymbols) :
    ∃ a as', as = a :: as' ∧ p.Brings a t ∧ a.Resolves p.trackAlias track ∧
      p.InOrder track (t + 1) as' := by
  unfold InOrder at h
  have hrest : p.shards.totalSymbols - t = p.shards.totalSymbols - (t + 1) + 1 := by omega
  rw [hrest, List.range'_succ] at h
  cases h with
  | cons hfirst hlater => exact ⟨_, _, rfl, hfirst.1, hfirst.2, hlater⟩

/-- The object is handed on once, when its data symbols are there. -/
theorem Sharding.Fits.run_object (hfits : p.Fits) (haccepted : p.Accepted)
    (ht : t < p.shards.dataSymbols) (hcollected : Collected p (Finset.range t) s)
    {as : List (Arrival lib)} (has : p.InOrder track t as) :
    ∃ s' o, run (arrive lib) s as = some (s', o) ∧ objectsOf o = [p.received track] ∧
      ∀ k, some k ∈ s'.keyRing.keys → k = p.slotKey ∨ some k ∈ s.keyRing.keys := by
  have hle := p.dataSymbols_le
  -- the datagrams in front have brought the symbols below `t`
  induction as generalizing t s with
  | nil =>
    obtain ⟨a, as', hcons, -⟩ := has.uncons (by omega)
    exact absurd hcons (List.cons_ne_nil a as').symm
  | cons a as ih =>
    obtain ⟨a', as', hcons, hbrings, hresolves, hlater⟩ := has.uncons (by omega)
    rw [List.cons.injEq] at hcons
    obtain ⟨rfl, rfl⟩ := hcons
    obtain ⟨h, hheader, harrive⟩ := hfits.arrive_eq haccepted hbrings hresolves
    have hinsert : insert t (Finset.range t) = Finset.range (t + 1) := Finset.range_add_one.symm
    rcases Nat.lt_or_ge (t + 1) p.shards.dataSymbols with hfew | hall
    · -- more data symbols are to come
      obtain ⟨s₁, r, hring, hnone⟩ := hcollected.step_few hheader (by omega)
        (by rw [hinsert, Finset.card_range]; exact hfew) a.io.junk track.type
      obtain ⟨o₁, hstep, hkeys, hquiet, -⟩ := harrive s s₁ r hring
      have hcollected₁ := hcollected.step_none hheader (by omega) hring hnone
      rw [hinsert] at hcollected₁
      obtain ⟨s₂, o₂, hrun, hobjects, hkeys₂⟩ := ih hfew hcollected₁ hlater
      refine ⟨s₂, o₁ ++ o₂, run_cons.mpr ⟨s₁, o₁, o₂, hstep, hrun, rfl⟩, ?_, ?_⟩
      · rw [objectsOf_append]
        show objectsOf o₁ ++ objectsOf o₂ = _
        rw [hquiet hnone, hobjects, List.nil_append]
      · intro k hk
        rcases hkeys₂ k hk with heq | hk
        · exact Or.inl heq
        · rw [hkeys] at hk
          exact KeyRing.mem_keys_touch hk
    · -- this is the last one
      obtain ⟨s₁, r, hring, hfull, hpriority, i, hcollects⟩ :=
        hcollected.step_all hfits hheader (by omega) (fun j hj => by
          rw [hinsert, Finset.mem_range]
          omega) a.io.junk track.type
      obtain ⟨o₁, hstep, hkeys, -, hobject⟩ := harrive s s₁ r hring
      obtain ⟨s₂, o₂, hrun, hkeys₂, hobjects⟩ :=
        hfits.run_done haccepted hlater.brings hcollects
      refine ⟨s₂, o₁ ++ o₂, run_cons.mpr ⟨s₁, o₁, o₂, hstep, hrun, rfl⟩, ?_, ?_⟩
      · rw [objectsOf_append]
        show objectsOf o₁ ++ objectsOf o₂ = _
        rw [hobject hfull hpriority, hobjects, List.append_nil]
      · intro k hk
        rw [hkeys₂, hkeys] at hk
        exact KeyRing.mem_keys_touch hk

end Object

/-! ## Objects one after the other -/

/-- Objects of different keys that the ring does not know are handed on in their order. -/
theorem run_inOrder {track : MoqTrackId} {ps : List (Sharding pub)}
    {ass : List (List (Arrival lib))} (hfits : ∀ p ∈ ps, p.Fits ∧ p.Accepted)
    (hkeys : (ps.map (·.slotKey)).Nodup)
    (harrive : List.Forall₂ (fun p as => p.InOrder track 0 as) ps ass) {s : AssemblerCache}
    (hnew : ∀ p ∈ ps, some p.slotKey ∉ s.keyRing.keys) :
    ∃ s' o, run (arrive lib) s ass.flatten = some (s', o) ∧
      objectsOf o = ps.map (·.received track) := by
  induction harrive generalizing s with
  | nil => exact ⟨s, [], rfl, rfl⟩
  | @cons p as ps ass hfirst hlater ih =>
    rw [List.map_cons, List.nodup_cons] at hkeys
    obtain ⟨hp, haccepted⟩ := hfits p List.mem_cons_self
    have habsent : Collected p (Finset.range 0) s := .absent (hnew p List.mem_cons_self)
    obtain ⟨s₁, o₁, hrun₁, hobject, hring⟩ :=
      hp.run_object haccepted p.dataSymbols_pos habsent hfirst
    have hnew₁ : ∀ q ∈ ps, some q.slotKey ∉ s₁.keyRing.keys := by
      intro q hq hmem
      rcases hring _ hmem with heq | hold
      · exact hkeys.1 (heq ▸ List.mem_map_of_mem hq)
      · exact hnew q (List.mem_cons_of_mem p hq) hold
    obtain ⟨s₂, o₂, hrun₂, hobjects⟩ :=
      ih (fun q hq => hfits q (List.mem_cons_of_mem p hq)) hkeys.2 hnew₁
    refine ⟨s₂, o₁ ++ o₂, ?_, ?_⟩
    · rw [List.flatten_cons]
      exact run_append.mpr ⟨s₁, o₁, o₂, hrun₁, hrun₂, rfl⟩
    · rw [objectsOf_append]
      show objectsOf o₁ ++ objectsOf o₂ = _
      rw [hobject, hobjects, List.map_cons, List.singleton_append]

end Bishlink
