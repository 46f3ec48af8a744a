import Bishlink.FecCache
import Bishlink.Lib.Lru

/-!
# Which requests are hits

With a clock that runs, and contexts that can be created, the cache holds the tuples requested
last, each with the time of its last request (`Ordered`): the scan for the least time finds an
entry that was never used, or else the tuple that was requested longest ago.
-/

namespace Bishlink

/-! ## Hits -/

/-- Only an answer, and not NULL. -/
def answersOnly : List FecEvent → Bool
  | [.answer _ (some _)] => true
  | _ => false

/-- A request is a hit: it returns a context and neither creates nor destroys one. -/
def Hits (cache : FecCache) (r : FecRequest) : Prop :=
  (requestFec cache r).map (fun q => answersOnly q.2) = some true

instance (cache : FecCache) (r : FecRequest) : Decidable (Hits cache r) := by
  unfold Hits
  infer_instance

/-- A hit is an entry with a live context for the tuple. -/
theorem hits_iff {cache : FecCache} (hlength : cache.entries.length = FEC_CACHE_SIZE)
    (r : FecRequest) :
    Hits cache r ↔ ∃ e ∈ cache.entries, e.fec.isSome ∧ e.params = r.params := by
  obtain ⟨cache', o, hstep, hcases⟩ := requestFec_cases hlength r
  rw [Hits, hstep, Option.map_some, Option.some.injEq]
  cases hcases with
  | hit pre post e f heq hfec hparams =>
    refine iff_of_true rfl ⟨e, ?_, ?_, hparams⟩
    · rw [heq]
      exact List.mem_append_right pre List.mem_cons_self
    · rw [hfec]
      rfl
  | miss pre post e heq hmiss hvictim hcreates =>
    refine iff_of_false ?_ fun ⟨a, ha, hhit⟩ => hmiss a ha hhit
    cases hfec : e.fec with
    | none => simp [evicted, hfec, answersOnly]
    | some f => simp [evicted, hfec, answersOnly]
  | failure pre post e heq hmiss hcreates =>
    refine iff_of_false ?_ fun ⟨a, ha, hhit⟩ => hmiss a ha hhit
    cases hfec : e.fec with
    | none => simp [evicted, hfec, answersOnly]
    | some f => simp [evicted, hfec, answersOnly]

/-- An entry as a slot: its tuple with its time, when it has a context. -/
def slotOf (e : FecCacheEntry) : Option (FecParams × ℕ) :=
  e.fec.map fun _ => (e.params, e.lastUsedNs)

theorem slotOf_eq_some {e : FecCacheEntry} {x : FecParams × ℕ} :
    slotOf e = some x ↔ e.fec.isSome ∧ e.params = x.1 ∧ e.lastUsedNs = x.2 := by
  rw [slotOf]
  cases e.fec with
  | none => simp
  | some f => simp [Prod.ext_iff]

/-- The tuple was among the last that were requested, as many as there are entries. -/
def RecentlyRequested (earlier : List FecRequest) (r : FecRequest) : Prop :=
  r.params ∈ (Lru.recent (earlier.map (·.params))).take FEC_CACHE_SIZE

instance (earlier : List FecRequest) (r : FecRequest) :
    Decidable (RecentlyRequested earlier r) := by
  unfold RecentlyRequested
  infer_instance

/-- The entries with a context are the tuples requested last, each with the time of its last
request, and the entries without one have never been used. -/
structure Ordered (cache : FecCache) (earlier : List FecRequest) : Prop where
  length : cache.entries.length = FEC_CACHE_SIZE
  tracks : Lru.Tracks (cache.entries.map slotOf) (earlier.map (·.params))
  unused : ∀ e ∈ cache.entries, e.fec = none → e.lastUsedNs = 0
  used : ∀ e ∈ cache.entries, e.fec.isSome →
    0 < e.lastUsedNs ∧ ∃ r ∈ earlier, e.lastUsedNs = r.now.toNat

theorem ordered_empty : Ordered FecCache.empty [] where
  length := List.length_replicate
  tracks := Lru.tracks_empty FEC_CACHE_SIZE
  unused e he _ := by
    rw [List.eq_of_mem_replicate he]
    rfl
  used e he hsome := by
    rw [List.eq_of_mem_replicate he] at hsome
    simp [FecCacheEntry.zero] at hsome

theorem Ordered.hits_iff {cache : FecCache} {earlier : List FecRequest}
    (h : Ordered cache earlier) (r : FecRequest) :
    Hits cache r ↔ RecentlyRequested earlier r := by
  have hmem := h.tracks.mem_iff (k := r.params)
  rw [List.length_map, h.length] at hmem
  rw [Bishlink.hits_iff h.length, RecentlyRequested, ← hmem]
  constructor
  · rintro ⟨e, he, hsome, hparams⟩
    exact ⟨e.lastUsedNs, List.mem_map.mpr ⟨e, he, slotOf_eq_some.mpr ⟨hsome, hparams, rfl⟩⟩⟩
  · rintro ⟨t, ht⟩
    obtain ⟨e, he, hslot⟩ := List.mem_map.mp ht
    obtain ⟨hsome, hparams, -⟩ := slotOf_eq_some.mp hslot
    exact ⟨e, he, hsome, hparams⟩

/-- All times of the cache are before the next request. -/
theorem Ordered.lt_now {cache : FecCache} {earlier : List FecRequest} (h : Ordered cache earlier)
    {now : ℕ} (hpos : 0 < now) (hlater : ∀ r ∈ earlier, r.now.toNat < now) :
    ∀ e ∈ cache.entries, e.lastUsedNs < now := by
  intro e he
  cases hfec : e.fec with
  | none =>
    rw [h.unused e he hfec]
    exact hpos
  | some f =>
    obtain ⟨-, r, hr, hnow⟩ := h.used e he (by rw [hfec]; rfl)
    rw [hnow]
    exact hlater r hr

/-- An entry takes the tuple and the time of a request. -/
theorem Ordered.of_entry {pre post : List FecCacheEntry} {e : FecCacheEntry} {f : FecT}
    {created created' : ℕ} {earlier : List FecRequest} {r : FecRequest}
    (h : Ordered ⟨pre ++ e :: post, created⟩ earlier) (hpos : 0 < r.now.toNat)
    (htracks : Lru.Tracks (pre.map slotOf ++ some (r.params, r.now.toNat) :: post.map slotOf)
      (earlier.map (·.params) ++ [r.params])) :
    Ordered ⟨pre ++ ⟨r.params, some f, r.now.toNat⟩ :: post, created'⟩ (earlier ++ [r]) where
  length := by
    rw [← h.length]
    simp
  tracks := by
    rw [List.map_append, List.map_cons, List.map_append, List.map_singleton]
    exact htracks
  unused a ha hnone := by
    rcases List.mem_append.mp ha with ha | ha
    · exact h.unused a (List.mem_append_left _ ha) hnone
    rcases List.mem_cons.mp ha with rfl | ha
    · simp at hnone
    · exact h.unused a (List.mem_append_right _ (List.mem_cons_of_mem e ha)) hnone
  used a ha hsome := by
    have hold : ∀ a ∈ pre ++ e :: post, a.fec.isSome →
        0 < a.lastUsedNs ∧ ∃ r' ∈ earlier ++ [r], a.lastUsedNs = r'.now.toNat := by
      intro a ha hsome
      obtain ⟨hused, r', hr', hnow⟩ := h.used a ha hsome
      exact ⟨hused, r', List.mem_append_left _ hr', hnow⟩
    rcases List.mem_append.mp ha with ha | ha
    · exact hold a (List.mem_append_left _ ha) hsome
    rcases List.mem_cons.mp ha with rfl | ha
    · exact ⟨hpos, r, List.mem_append_right _ (List.mem_singleton_self r), rfl⟩
    · exact hold a (List.mem_append_right _ (List.mem_cons_of_mem e ha)) hsome

/-- A request at a later time whose context could be created keeps the order. -/
theorem Ordered.step {cache cache' : FecCache} {earlier : List FecRequest} {o : List FecEvent}
    {r : FecRequest} (h : Ordered cache earlier) (hpos : 0 < r.now.toNat)
    (hlater : ∀ r' ∈ earlier, r'.now.toNat < r.now.toNat) (hcreates : r.creates = true)
    (hstep : requestFec cache r = some (cache', o)) : Ordered cache' (earlier ++ [r]) := by
  obtain ⟨c, o', hstep', hcases⟩ := requestFec_cases h.length r
  rw [hstep', Option.some.injEq, Prod.mk.injEq] at hstep
  obtain ⟨rfl, rfl⟩ := hstep
  have hnow := h.lt_now hpos hlater
  have hbefore : Lru.Before (cache.entries.map slotOf) r.now.toNat := by
    intro x hx
    obtain ⟨a, ha, hslot⟩ := List.mem_map.mp hx
    rw [← (slotOf_eq_some.mp hslot).2.2]
    exact hnow a ha
  have htracks := h.tracks
  obtain ⟨entries, created⟩ := cache
  dsimp only at hnow hbefore htracks
  cases hcases with
  -- the entry that answers becomes the last one used
  | hit pre post e f heq hfec hparams =>
    dsimp only at heq
    subst heq
    have hslot : slotOf e = some (r.params, e.lastUsedNs) :=
      slotOf_eq_some.mpr ⟨by rw [hfec]; rfl, hparams, rfl⟩
    have hentry : ({ e with lastUsedNs := r.now.toNat } : FecCacheEntry) =
        ⟨r.params, some f, r.now.toNat⟩ := by
      rw [hfec, hparams]
    rw [List.map_append, List.map_cons, hslot] at htracks hbefore
    rw [hentry]
    exact h.of_entry hpos (htracks.hit hbefore)
  | miss pre post e heq hmiss hvictim hc =>
    dsimp only at heq
    subst heq
    have hlt := hnow e (List.mem_append_right pre List.mem_cons_self)
    have hleast := hvictim ⟨e, List.mem_append_right pre List.mem_cons_self, by
      have hbound := r.now.toNat_lt
      omega⟩
    have hnew : ∀ t, some (r.params, t) ∉ (pre ++ e :: post).map slotOf := by
      intro t ht
      obtain ⟨a, ha, hslot⟩ := List.mem_map.mp ht
      obtain ⟨hsome, hparams, -⟩ := slotOf_eq_some.mp hslot
      exact hmiss a ha ⟨hsome, hparams⟩
    cases hfec : e.fec with
    -- an empty entry is filled, and nothing is dropped
    | none =>
      have hslot : slotOf e = none := by rw [slotOf, hfec, Option.map_none]
      rw [List.map_append, List.map_cons, hslot] at htracks hbefore hnew
      exact h.of_entry hpos (htracks.fill hbefore hnew)
    | some f =>
      have hslot : slotOf e = some (e.params, e.lastUsedNs) := by
        rw [slotOf, hfec, Option.map_some]
      have hused := (h.used e (List.mem_append_right pre List.mem_cons_self) (by
        rw [hfec]
        rfl)).1
      have hfull : none ∉ (pre ++ e :: post).map slotOf := by
        -- an entry without a context has time 0, and would be the victim
        intro hmem
        obtain ⟨a, ha, hnone⟩ := List.mem_map.mp hmem
        have hzero := h.unused a ha (Option.map_eq_none_iff.mp hnone)
        have hle := hleast a ha
        omega
      have hleast' : ∀ x, some x ∈ (pre ++ e :: post).map slotOf → e.lastUsedNs ≤ x.2 := by
        intro x hx
        obtain ⟨a, ha, hslot⟩ := List.mem_map.mp hx
        rw [← (slotOf_eq_some.mp hslot).2.2]
        exact hleast a ha
      rw [List.map_append, List.map_cons, hslot] at htracks hbefore hnew hfull hleast'
      exact h.of_entry hpos (htracks.replace hbefore hnew hfull hleast')
  | failure pre post e heq hmiss hfails =>
    rw [hcreates] at hfails
    simp at hfails

/-- The clock: each reading is later than the ones before it, and than the zeros of a new
table. -/
structure Clocked (rs : List FecRequest) : Prop where
  later : rs.Pairwise fun r r' => r.now < r'.now
  pos : ∀ r ∈ rs, 0 < r.now

theorem ordered_run {rs : List FecRequest} {cache : FecCache} {tr : List FecEvent}
    (hclock : Clocked rs) (hcreates : ∀ r ∈ rs, r.creates = true)
    (hrun : Runs.run requestFec FecCache.empty rs = some (cache, tr)) : Ordered cache rs := by
  refine Runs.run_induction requestFec (P := fun rs cache _ => Clocked rs →
    (∀ r ∈ rs, r.creates = true) → Ordered cache rs) (fun _ _ => ordered_empty) ?_ rs cache tr
    hrun hclock hcreates
  intro earlier cache tr r cache' o hrun ih hstep hclock hcreates
  have hsplit := List.pairwise_append.mp hclock.later
  have hlast : r ∈ earlier ++ [r] := List.mem_append_right _ (List.mem_singleton_self r)
  have hearlier : Ordered cache earlier :=
    ih ⟨hsplit.1, fun r' hr' => hclock.pos r' (List.mem_append_left _ hr')⟩
      fun r' hr' => hcreates r' (List.mem_append_left _ hr')
  refine hearlier.step (UInt64.lt_iff_toNat_lt.mp (hclock.pos r hlast)) ?_ (hcreates r hlast) hstep
  intro r' hr'
  exact UInt64.lt_iff_toNat_lt.mp (hsplit.2.2 r' hr' r (List.mem_singleton_self r))

/-- The cache over any requests. -/
theorem fecCache_requests (rs : List FecRequest) :
    ∃ cache tr, Runs.run requestFec FecCache.empty rs = some (cache, tr) ∧ Proper tr ∧
      ((cache.entries.filter (·.fec.isSome)).map (·.params)).Nodup ∧
      (Clocked rs → (∀ r ∈ rs, r.creates = true) →
        Runs.AlongHistory requestFec
          (fun earlier cache r => Hits cache r ↔ RecentlyRequested earlier r)
          FecCache.empty rs) := by
  obtain ⟨cache, tr, hrun⟩ := Runs.exists_run requestFec_total FecCache.empty rs
  have h := holding_run hrun
  refine ⟨cache, tr, hrun, h.proper, ?_, ?_⟩
  · rw [map_params_liveFecs h.tuple]
    exact h.distinct
  · rintro hclock hcreates pre r post rfl cache' tr' hrun'
    have hpre : Clocked pre := by
      refine ⟨(List.pairwise_append.mp hclock.later).1, fun r' hr' => ?_⟩
      exact hclock.pos r' (List.mem_append_left _ hr')
    exact (ordered_run hpre (fun r' hr' => hcreates r' (List.mem_append_left _ hr'))
      hrun').hits_iff r

/-- A tuple of `FEC_RAPTORQ` with this many data symbols. -/
def raptorqTuple (data : ℕ) : FecParams := ⟨.FEC_RAPTORQ, data, 1, 1⟩

/-- Nine tuples, one after the other. -/
def nineRequests : List FecRequest :=
  [⟨1, raptorqTuple 1, true⟩, ⟨2, raptorqTuple 2, true⟩, ⟨3, raptorqTuple 3, true⟩,
    ⟨4, raptorqTuple 4, true⟩, ⟨5, raptorqTuple 5, true⟩, ⟨6, raptorqTuple 6, true⟩,
    ⟨7, raptorqTuple 7, true⟩, ⟨8, raptorqTuple 8, true⟩, ⟨9, raptorqTuple 9, true⟩]

/-- The ninth tuple evicts the first one, and the second one is still there. -/
theorem fecCache_requests_nine :
    ∃ cache tr, Runs.run requestFec FecCache.empty nineRequests = some (cache, tr) ∧
      ¬Hits cache ⟨10, raptorqTuple 1, true⟩ ∧ Hits cache ⟨10, raptorqTuple 2, true⟩ := by
  obtain ⟨cache, tr, hrun⟩ := Runs.exists_run requestFec_total FecCache.empty nineRequests
  have hhits : ∀ data, Hits cache ⟨10, raptorqTuple data, true⟩ ↔
      RecentlyRequested nineRequests ⟨10, raptorqTuple data, true⟩ := by
    intro data
    obtain ⟨-, -, -, -, -, hlru⟩ :=
      fecCache_requests (nineRequests ++ [⟨10, raptorqTuple data, true⟩])
    have hclock : Clocked (nineRequests ++ [⟨10, raptorqTuple data, true⟩]) :=
      ⟨by simp [nineRequests], by simp [nineRequests]⟩
    exact hlru hclock (by simp [nineRequests]) nineRequests _ [] rfl cache tr hrun
  refine ⟨cache, tr, hrun, fun hhit => ?_, (hhits 2).mpr (by decide)⟩
  exact absurd ((hhits 1).mp hhit) (by decide)

/-- At clock reading 0 a used entry looks like one that was never used: the next request evicts
it although seven entries are empty. -/
theorem hit_lost_at_zero :
    ¬∀ rs : List FecRequest, rs.Pairwise (fun r r' => r.now < r'.now) →
      (∀ r ∈ rs, r.creates = true) →
      Runs.AlongHistory requestFec
        (fun earlier cache r => Hits cache r ↔ RecentlyRequested earlier r) FecCache.empty rs := by
  intro h
  have hruns := h
    [⟨0, raptorqTuple 1, true⟩, ⟨1, raptorqTuple 2, true⟩, ⟨2, raptorqTuple 1, true⟩]
    (by decide) (by decide)
  revert hruns
  decide

end Bishlink
