import Bishlink.Fec
import Bishlink.Lib.FixedArray
import Bishlink.Lib.Runs
import Mathlib.Data.List.Nodup

/-!
# The context cache over runs

`getCachedFec` as a step that reports what it creates, destroys and returns. The creation of a
context may fail at any request. `Proper` says of the reports of a run what a user of contexts
relies on, and `Holding` that the cache holds the contexts that are alive (`holding_run`).
-/

namespace Bishlink

/-- A call of `get_cached_fec`: the clock reading, the tuple, and whether `fec_create_ex` would
return a context. -/
structure FecRequest where
  now : UInt64
  params : FecParams
  creates : Bool
deriving DecidableEq

/-- What happens to contexts. -/
inductive FecEvent where
  | create (f : FecT)
  | destroy (handle : ℕ)
  | answer (p : FecParams) (fec : Option FecT)
deriving DecidableEq

/-- The victim of an eviction is destroyed when there is one. -/
def evicted (e : FecCacheEntry) : List FecEvent := e.fec.toList.map fun f => .destroy f.handle

/-- `get_cached_fec`, with what it does to contexts. -/
def requestFec (cache : FecCache) (r : FecRequest) : Option (FecCache × List FecEvent) :=
  match scanFecCache r.params cache.entries 0 0 (2 ^ 64 - 1) with
  | .inl i =>
    some ({ cache with entries :=
        cache.entries.modify i fun e => { e with lastUsedNs := r.now.toNat } },
      [.answer r.params ((cache.entries[i]?).bind (·.fec))])
  | .inr lruIdx =>
    -- `fec_destroy` comes before `fec_create_ex`, whatever that gives
    let destroyed := ((cache.entries[lruIdx]?).map evicted).getD []
    if r.creates then
      some (⟨cache.entries.modify lruIdx fun _ =>
          ⟨r.params, some ⟨cache.created, r.params⟩, r.now.toNat⟩, cache.created + 1⟩,
        destroyed ++ [.create ⟨cache.created, r.params⟩,
          .answer r.params (some ⟨cache.created, r.params⟩)])
    else
      some ({ cache with entries := cache.entries.modify lruIdx fun e => { e with fec := none } },
        destroyed ++ [.answer r.params none])

/-- With the library's contexts this is `getCachedFec`. -/
theorem requestFec_getCachedFec (lib : FecLib) (cache : FecCache) (now : UInt64)
    (p : FecParams) :
    ∃ o, requestFec cache ⟨now, p, lib.creates p⟩ =
        some ((getCachedFec lib cache now.toNat p).2, o) ∧
      o.getLast? = some (.answer p (getCachedFec lib cache now.toNat p).1) := by
  unfold requestFec getCachedFec fecCreateEx
  dsimp only
  cases scanFecCache p cache.entries 0 0 (2 ^ 64 - 1) with
  | inl i => exact ⟨_, rfl, rfl⟩
  | inr lruIdx =>
    by_cases hcreates : lib.creates p = true
    · simp only [hcreates, if_true]
      exact ⟨_, rfl, by simp⟩
    · simp only [hcreates]
      exact ⟨_, rfl, by simp⟩

/-! ## Contexts in use -/

def FecEvent.created : FecEvent → Option FecT
  | .create f => some f
  | _ => none

def FecEvent.destroyed : FecEvent → Option ℕ
  | .destroy handle => some handle
  | _ => none

/-- The contexts that were created. -/
def createdFecs (tr : List FecEvent) : List FecT := tr.filterMap (·.created)

/-- The handles of the contexts that were destroyed. -/
def destroyedFecs (tr : List FecEvent) : List ℕ := tr.filterMap (·.destroyed)

/-- The contexts that were created and not destroyed. -/
def aliveFecs (tr : List FecEvent) : List FecT :=
  (createdFecs tr).filter fun f => f.handle ∉ destroyedFecs tr

/-- Contexts are used as they should be. A context that is returned, or destroyed, is alive, so
none is returned or destroyed after it was destroyed. -/
structure Proper (tr : List FecEvent) : Prop where
  fresh : ((createdFecs tr).map (·.handle)).Nodup
  answered : ∀ pre p f post, tr = pre ++ .answer p (some f) :: post →
    f.params = p ∧ f ∈ aliveFecs pre
  destroyed : ∀ pre handle post, tr = pre ++ .destroy handle :: post →
    ∃ f ∈ aliveFecs pre, f.handle = handle
  few : ∀ pre, pre <+: tr → (aliveFecs pre).length ≤ FEC_CACHE_SIZE

/-- What may happen after `tr`. -/
def Allowed (tr : List FecEvent) : FecEvent → Prop
  | .create f => f.handle ∉ (createdFecs tr).map (·.handle) ∧
      (aliveFecs tr).length < FEC_CACHE_SIZE
  | .destroy handle => ∃ f ∈ aliveFecs tr, f.handle = handle
  | .answer p (some f) => f.params = p ∧ f ∈ aliveFecs tr
  | .answer _ none => True

theorem createdFecs_append (tr tr' : List FecEvent) :
    createdFecs (tr ++ tr') = createdFecs tr ++ createdFecs tr' := List.filterMap_append

theorem destroyedFecs_append (tr tr' : List FecEvent) :
    destroyedFecs (tr ++ tr') = destroyedFecs tr ++ destroyedFecs tr' := List.filterMap_append

theorem mem_aliveFecs {tr : List FecEvent} {f : FecT} :
    f ∈ aliveFecs tr ↔ f ∈ createdFecs tr ∧ f.handle ∉ destroyedFecs tr := by
  rw [aliveFecs, List.mem_filter, decide_eq_true_iff]

theorem aliveFecs_create {tr : List FecEvent} {f : FecT} (h : f.handle ∉ destroyedFecs tr) :
    aliveFecs (tr ++ [.create f]) = aliveFecs tr ++ [f] := by
  have hcreated : createdFecs (tr ++ [.create f]) = createdFecs tr ++ [f] :=
    createdFecs_append tr _
  have hdestroyed : destroyedFecs (tr ++ [.create f]) = destroyedFecs tr := by
    rw [destroyedFecs_append]
    exact List.append_nil _
  rw [aliveFecs, hcreated, hdestroyed, List.filter_append, ← aliveFecs]
  congr 1
  exact List.filter_cons_of_pos (decide_eq_true h)

theorem aliveFecs_answer (tr : List FecEvent) (p : FecParams) (fec : Option FecT) :
    aliveFecs (tr ++ [.answer p fec]) = aliveFecs tr := by
  have hcreated : createdFecs (tr ++ [.answer p fec]) = createdFecs tr := by
    rw [createdFecs_append]
    exact List.append_nil _
  have hdestroyed : destroyedFecs (tr ++ [.answer p fec]) = destroyedFecs tr := by
    rw [destroyedFecs_append]
    exact List.append_nil _
  rw [aliveFecs, hcreated, hdestroyed, ← aliveFecs]

theorem aliveFecs_destroy (tr : List FecEvent) (handle : ℕ) :
    aliveFecs (tr ++ [.destroy handle]) = (aliveFecs tr).filter fun f => f.handle ≠ handle := by
  have hcreated : createdFecs (tr ++ [.destroy handle]) = createdFecs tr := by
    rw [createdFecs_append]
    exact List.append_nil _
  have hdestroyed : destroyedFecs (tr ++ [.destroy handle]) = destroyedFecs tr ++ [handle] :=
    destroyedFecs_append tr _
  rw [aliveFecs, hcreated, hdestroyed, aliveFecs, List.filter_filter]
  apply List.filter_congr
  intro f _
  simp [and_comm]

theorem proper_nil : Proper [] where
  fresh := List.nodup_nil
  answered pre p f post h := absurd h (by simp)
  destroyed pre handle post h := absurd h (by simp)
  few pre h := by
    rw [List.prefix_nil.mp h]
    exact Nat.zero_le _

/-- What was destroyed had been created. -/
theorem Proper.created_of_destroyed {tr : List FecEvent} (h : Proper tr) {handle : ℕ}
    (hd : handle ∈ destroyedFecs tr) : handle ∈ (createdFecs tr).map (·.handle) := by
  obtain ⟨e, he, hhandle⟩ := List.mem_filterMap.mp hd
  cases e with
  | create f => simp [FecEvent.destroyed] at hhandle
  | answer p fec => simp [FecEvent.destroyed] at hhandle
  | destroy handle' =>
    rw [FecEvent.destroyed, Option.some.injEq] at hhandle
    subst hhandle
    obtain ⟨pre, post, htr⟩ := List.append_of_mem he
    obtain ⟨f, hf, rfl⟩ := h.destroyed pre handle' post htr
    apply List.mem_map_of_mem
    rw [htr, createdFecs_append]
    exact List.mem_append_left _ (mem_aliveFecs.mp hf).1

/-- A context with a new handle is alive once it was created. -/
theorem Proper.aliveFecs_create {tr : List FecEvent} {f : FecT} (h : Proper tr)
    (hf : f.handle ∉ (createdFecs tr).map (·.handle)) :
    aliveFecs (tr ++ [.create f]) = aliveFecs tr ++ [f] :=
  Bishlink.aliveFecs_create fun hd => hf (h.created_of_destroyed hd)

/-- One more event that is allowed. -/
theorem Proper.concat {tr : List FecEvent} {e : FecEvent} (h : Proper tr) (he : Allowed tr e) :
    Proper (tr ++ [e]) where
  fresh := by
    rw [createdFecs_append]
    cases e with
    | create f =>
      show ((createdFecs tr ++ [f]).map fun f : FecT => f.handle).Nodup
      rw [List.map_append, List.map_singleton, List.nodup_append]
      refine ⟨h.fresh, List.nodup_singleton _, ?_⟩
      rintro handle hmem handle' hsingle rfl
      rw [List.mem_singleton.mp hsingle] at hmem
      exact he.1 hmem
    | destroy handle =>
      show ((createdFecs tr ++ []).map fun f : FecT => f.handle).Nodup
      rw [List.append_nil]
      exact h.fresh
    | answer p fec =>
      show ((createdFecs tr ++ []).map fun f : FecT => f.handle).Nodup
      rw [List.append_nil]
      exact h.fresh
  -- the last event is the new one, or the split lies in the trace before
  answered pre p f post heq := by
    rcases Runs.concat_eq_split.mp heq with ⟨rfl, rfl, -⟩ | ⟨post', htr, -⟩
    · exact he
    · exact h.answered pre p f post' htr
  destroyed pre handle post heq := by
    rcases Runs.concat_eq_split.mp heq with ⟨rfl, rfl, -⟩ | ⟨post', htr, -⟩
    · exact he
    · exact h.destroyed pre handle post' htr
  few pre hpre := by
    rcases List.prefix_concat_iff.mp hpre with rfl | hpre
    · have hfew := h.few tr List.prefix_rfl
      cases e with
      | create f =>
        rw [h.aliveFecs_create he.1, List.length_append, List.length_singleton]
        exact he.2
      | destroy handle =>
        rw [aliveFecs_destroy]
        exact (List.length_filter_le _ _).trans hfew
      | answer p fec =>
        rw [aliveFecs_answer]
        exact hfew
    · exact h.few pre hpre

/-! ## The cache and its contexts -/

/-- The contexts in the cache. -/
def liveFecs (entries : List FecCacheEntry) : List FecT := entries.filterMap (·.fec)

/-- The cache holds the contexts that are alive, each under its own tuple and no two under the
same. -/
structure Holding (cache : FecCache) (tr : List FecEvent) : Prop where
  length : cache.entries.length = FEC_CACHE_SIZE
  tuple : ∀ e ∈ cache.entries, ∀ f, e.fec = some f → f.params = e.params
  distinct : ((liveFecs cache.entries).map (·.params)).Nodup
  live : (liveFecs cache.entries).Perm (aliveFecs tr)
  old : ∀ f ∈ createdFecs tr, f.handle < cache.created
  proper : Proper tr

theorem liveFecs_split (pre post : List FecCacheEntry) (e : FecCacheEntry) :
    liveFecs (pre ++ e :: post) = liveFecs pre ++ (e.fec.toList ++ liveFecs post) := by
  rw [liveFecs, List.filterMap_append, List.filterMap_cons]
  cases e.fec with
  | none => rfl
  | some f => rfl

theorem liveFecs_empty (pre post : List FecCacheEntry) {e : FecCacheEntry} (h : e.fec = none) :
    liveFecs (pre ++ e :: post) = liveFecs pre ++ liveFecs post := by
  rw [liveFecs_split, h, Option.toList_none, List.nil_append]

theorem liveFecs_held (pre post : List FecCacheEntry) {e : FecCacheEntry} {f : FecT}
    (h : e.fec = some f) :
    liveFecs (pre ++ e :: post) = liveFecs pre ++ f :: liveFecs post := by
  rw [liveFecs_split, h, Option.toList_some, List.singleton_append]

/-- Handles tell the contexts of the cache apart. -/
theorem Holding.nodup_handles {cache : FecCache} {tr : List FecEvent} (h : Holding cache tr) :
    ((liveFecs cache.entries).map (·.handle)).Nodup := by
  rw [(h.live.map _).nodup_iff, aliveFecs]
  exact h.proper.fresh.sublist (List.filter_sublist.map _)

/-- Another entry with its tuple in place of one. -/
theorem tuple_split {pre post : List FecCacheEntry} {e e' : FecCacheEntry}
    (h : ∀ a ∈ pre ++ e :: post, ∀ f, a.fec = some f → f.params = a.params)
    (he' : ∀ f, e'.fec = some f → f.params = e'.params) :
    ∀ a ∈ pre ++ e' :: post, ∀ f, a.fec = some f → f.params = a.params := by
  intro a ha
  rcases List.mem_append.mp ha with ha | ha
  · exact h a (List.mem_append_left _ ha)
  rcases List.mem_cons.mp ha with rfl | ha
  · exact he'
  · exact h a (List.mem_append_right _ (List.mem_cons_of_mem e ha))

/-- Dropping the context of an entry, if there is one. -/
theorem Holding.evict {pre post : List FecCacheEntry} {e : FecCacheEntry} {created : ℕ}
    {tr : List FecEvent} (h : Holding ⟨pre ++ e :: post, created⟩ tr) :
    Holding ⟨pre ++ { e with fec := none } :: post, created⟩ (tr ++ evicted e) := by
  have hempty : liveFecs (pre ++ { e with fec := none } :: post) =
      liveFecs pre ++ liveFecs post := liveFecs_empty pre post rfl
  cases hfec : e.fec with
  | none =>
    have hsame : { e with fec := none } = e := by
      rw [← hfec]
    rw [hsame, evicted, hfec, Option.toList_none, List.map_nil, List.append_nil]
    exact h
  | some f =>
    have hheld := liveFecs_held pre post hfec
    have hlive := h.live
    have hhandles := h.nodup_handles
    have hdistinct := h.distinct
    dsimp only at hlive hhandles hdistinct
    rw [hheld] at hlive hhandles hdistinct
    -- the victim in front, the others behind it
    have hfront : (f :: (liveFecs pre ++ liveFecs post)).Perm (aliveFecs tr) :=
      List.perm_middle.symm.trans hlive
    have hsub : (liveFecs pre ++ liveFecs post).Sublist (liveFecs pre ++ f :: liveFecs post) :=
      (List.Sublist.refl _).append (List.sublist_cons_self _ _)
    have hnot : ∀ f' ∈ liveFecs pre ++ liveFecs post, f'.handle ≠ f.handle := by
      rw [(List.perm_middle.map _).nodup_iff, List.map_cons, List.nodup_cons] at hhandles
      intro f' hf' heq
      apply hhandles.1
      rw [← heq]
      exact List.mem_map_of_mem hf'
    have hevicted : evicted e = [.destroy f.handle] := by
      rw [evicted, hfec]
      rfl
    rw [hevicted]
    refine ⟨?_, tuple_split h.tuple fun f' hf' => absurd hf' (by simp), ?_, ?_, ?_, ?_⟩
    · rw [← h.length]
      simp
    · dsimp only
      rw [hempty]
      exact hdistinct.sublist (hsub.map _)
    · dsimp only
      rw [hempty, aliveFecs_destroy]
      have hfilter := hfront.filter fun f' => decide (f'.handle ≠ f.handle)
      rw [List.filter_cons_of_neg (by simp), List.filter_eq_self.mpr fun f' hf' =>
        decide_eq_true (hnot f' hf')] at hfilter
      exact hfilter
    · intro f' hf'
      rw [createdFecs_append] at hf'
      exact h.old f' ((List.append_nil (createdFecs tr)) ▸ hf')
    · exact h.proper.concat ⟨f, hfront.mem_iff.mp List.mem_cons_self, rfl⟩

/-- A new context in an entry without one. -/
theorem Holding.create {pre post : List FecCacheEntry} {e : FecCacheEntry} {created : ℕ}
    {tr : List FecEvent} {p : FecParams} (now : ℕ) (h : Holding ⟨pre ++ e :: post, created⟩ tr)
    (hempty : e.fec = none) (hnew : ∀ f ∈ liveFecs (pre ++ e :: post), f.params ≠ p) :
    Holding ⟨pre ++ ⟨p, some ⟨created, p⟩, now⟩ :: post, created + 1⟩
      (tr ++ [.create ⟨created, p⟩]) := by
  have hlive := h.live
  have hdistinct := h.distinct
  have hlength := h.length
  dsimp only at hlive hdistinct hlength
  rw [liveFecs_empty pre post hempty] at hlive hdistinct hnew
  have hheld : liveFecs (pre ++ ⟨p, some ⟨created, p⟩, now⟩ :: post) =
      liveFecs pre ++ ⟨created, p⟩ :: liveFecs post := liveFecs_held pre post rfl
  -- handles are counted up, so this one is new
  have hhandle : created ∉ (createdFecs tr).map (·.handle) := by
    intro hmem
    obtain ⟨f, hf, heq⟩ := List.mem_map.mp hmem
    have hlt := h.old f hf
    dsimp only at hlt
    omega
  -- one entry is empty, so fewer contexts are alive than there are entries
  have hroom : (aliveFecs tr).length < FEC_CACHE_SIZE := by
    have hpre := List.length_filterMap_le (fun e : FecCacheEntry => e.fec) pre
    have hpost := List.length_filterMap_le (fun e : FecCacheEntry => e.fec) post
    rw [← hlive.length_eq, ← hlength, List.length_append, List.length_append, List.length_cons,
      liveFecs, liveFecs]
    omega
  refine ⟨?_, tuple_split h.tuple ?_, ?_, ?_, ?_, ?_⟩
  · rw [← h.length]
    simp
  · intro f hf
    rw [← Option.some.inj hf]
  · dsimp only
    rw [hheld, (List.perm_middle.map _).nodup_iff, List.map_cons, List.nodup_cons]
    refine ⟨fun hmem => ?_, hdistinct⟩
    obtain ⟨f, hf, heq⟩ := List.mem_map.mp hmem
    exact hnew f hf heq
  · dsimp only
    rw [hheld, h.proper.aliveFecs_create hhandle]
    exact (List.perm_middle.trans (hlive.cons _)).trans (List.perm_append_singleton _ _).symm
  · intro f hf
    rw [createdFecs_append] at hf
    rcases List.mem_append.mp hf with hf | hf
    · exact (h.old f hf).trans (Nat.lt_succ_self created)
    · rw [List.mem_singleton.mp hf]
      exact Nat.lt_succ_self created
  · exact h.proper.concat ⟨hhandle, hroom⟩

/-- The answer is a context of the cache, or none. -/
theorem Holding.answer {cache : FecCache} {tr : List FecEvent} (h : Holding cache tr)
    (p : FecParams) (fec : Option FecT)
    (hfec : ∀ f, fec = some f → f.params = p ∧ f ∈ liveFecs cache.entries) :
    Holding cache (tr ++ [.answer p fec]) := by
  refine ⟨h.length, h.tuple, h.distinct, ?_, ?_, h.proper.concat ?_⟩
  · rw [aliveFecs_answer]
    exact h.live
  · intro f hf
    rw [createdFecs_append] at hf
    exact h.old f ((List.append_nil (createdFecs tr)) ▸ hf)
  · cases fec with
    | none => trivial
    | some f =>
      obtain ⟨hparams, hmem⟩ := hfec f rfl
      exact ⟨hparams, h.live.mem_iff.mp hmem⟩

/-- A new time in an entry. -/
theorem Holding.touch {pre post : List FecCacheEntry} {e : FecCacheEntry} {created : ℕ}
    {tr : List FecEvent} (now : ℕ) (h : Holding ⟨pre ++ e :: post, created⟩ tr) :
    Holding ⟨pre ++ { e with lastUsedNs := now } :: post, created⟩ tr := by
  have hlive : liveFecs (pre ++ { e with lastUsedNs := now } :: post) =
      liveFecs (pre ++ e :: post) := by
    rw [liveFecs_split, liveFecs_split]
  have htuple := h.tuple e (List.mem_append_right pre List.mem_cons_self)
  refine ⟨?_, tuple_split h.tuple htuple, ?_, ?_, h.old, h.proper⟩
  · rw [← h.length]
    simp
  · dsimp only
    rw [hlive]
    exact h.distinct
  · dsimp only
    rw [hlive]
    exact h.live

/-! ## The scan -/

/-- A miss: no entry has a live context for the tuple, and the victim is the first entry, if all
times are past `minTime`, or else one with the least time. -/
theorem scanFecCache_inr {p : FecParams} {es : List FecCacheEntry} {i lruIdx minTime j : ℕ}
    (h : scanFecCache p es i lruIdx minTime = .inr j) :
    (∀ e ∈ es, ¬(e.fec.isSome ∧ e.params = p)) ∧
      ((j = lruIdx ∧ ∀ e ∈ es, minTime ≤ e.lastUsedNs) ∨
        ∃ k e, j = i + k ∧ es[k]? = some e ∧ e.lastUsedNs < minTime ∧
          ∀ e' ∈ es, e.lastUsedNs ≤ e'.lastUsedNs) := by
  induction es generalizing i lruIdx minTime with
  | nil =>
    rw [scanFecCache, Sum.inr.injEq] at h
    exact ⟨by simp, Or.inl ⟨h.symm, by simp⟩⟩
  | cons e es ih =>
    rw [scanFecCache] at h
    by_cases hhit : e.fec.isSome ∧ e.params = p
    · rw [if_pos hhit] at h
      simp at h
    rw [if_neg hhit] at h
    by_cases hless : e.lastUsedNs < minTime
    · rw [if_pos hless] at h
      obtain ⟨hmiss, hvictim⟩ := ih h
      refine ⟨List.forall_mem_cons.mpr ⟨hhit, hmiss⟩, Or.inr ?_⟩
      rcases hvictim with ⟨rfl, hleast⟩ | ⟨k, v, rfl, hk, hv, hleast⟩
      · exact ⟨0, e, rfl, rfl, hless, List.forall_mem_cons.mpr ⟨Nat.le_refl _, hleast⟩⟩
      · exact ⟨k + 1, v, by omega, hk, by omega, List.forall_mem_cons.mpr ⟨by omega, hleast⟩⟩
    · rw [if_neg hless] at h
      obtain ⟨hmiss, hvictim⟩ := ih h
      refine ⟨List.forall_mem_cons.mpr ⟨hhit, hmiss⟩, ?_⟩
      rcases hvictim with ⟨rfl, hleast⟩ | ⟨k, v, rfl, hk, hv, hleast⟩
      · exact Or.inl ⟨rfl, List.forall_mem_cons.mpr ⟨by omega, hleast⟩⟩
      · exact Or.inr ⟨k + 1, v, by omega, hk, hv, List.forall_mem_cons.mpr ⟨by omega, hleast⟩⟩

/-- What a request does: it answers with a context of the table, whose time it sets, or empties
the entry of a victim and, if it can, fills it with a new context. -/
inductive RequestCases (cache : FecCache) (r : FecRequest) : FecCache → List FecEvent → Prop where
  | hit (pre post : List FecCacheEntry) (e : FecCacheEntry) (f : FecT)
      (heq : cache.entries = pre ++ e :: post) (hfec : e.fec = some f)
      (hparams : e.params = r.params) :
      RequestCases cache r
        ⟨pre ++ { e with lastUsedNs := r.now.toNat } :: post, cache.created⟩
        [.answer r.params (some f)]
  | miss (pre post : List FecCacheEntry) (e : FecCacheEntry)
      (heq : cache.entries = pre ++ e :: post)
      (hmiss : ∀ a ∈ cache.entries, ¬(a.fec.isSome ∧ a.params = r.params))
      (hvictim : (∃ a ∈ cache.entries, a.lastUsedNs < 2 ^ 64 - 1) →
        ∀ a ∈ cache.entries, e.lastUsedNs ≤ a.lastUsedNs)
      (hcreates : r.creates = true) :
      RequestCases cache r
        ⟨pre ++ ⟨r.params, some ⟨cache.created, r.params⟩, r.now.toNat⟩ :: post,
          cache.created + 1⟩
        (evicted e ++ [.create ⟨cache.created, r.params⟩,
          .answer r.params (some ⟨cache.created, r.params⟩)])
  | failure (pre post : List FecCacheEntry) (e : FecCacheEntry)
      (heq : cache.entries = pre ++ e :: post)
      (hmiss : ∀ a ∈ cache.entries, ¬(a.fec.isSome ∧ a.params = r.params))
      (hcreates : r.creates = false) :
      RequestCases cache r ⟨pre ++ { e with fec := none } :: post, cache.created⟩
        (evicted e ++ [.answer r.params none])

theorem requestFec_cases {cache : FecCache} (hlength : cache.entries.length = FEC_CACHE_SIZE)
    (r : FecRequest) :
    ∃ cache' o, requestFec cache r = some (cache', o) ∧ RequestCases cache r cache' o := by
  unfold requestFec
  cases hscan : scanFecCache r.params cache.entries 0 0 (2 ^ 64 - 1) with
  | inl i =>
    obtain ⟨k, e, hi, hk, hsome, hparams⟩ := scanFecCache_inl hscan
    obtain ⟨f, hfec⟩ := Option.isSome_iff_exists.mp hsome
    obtain ⟨pre, post, heq, rfl⟩ := FixedArray.exists_split hk
    rw [Nat.zero_add] at hi
    subst hi
    have hentry : (cache.entries[pre.length]?).bind (·.fec) = some f := by
      rw [hk, Option.bind_some, hfec]
    have hmod := FixedArray.modify_split
      (fun e : FecCacheEntry => { e with lastUsedNs := r.now.toNat }) pre post e
    rw [← heq] at hmod
    refine ⟨_, _, rfl, ?_⟩
    rw [hentry, hmod]
    exact .hit pre post e f heq hfec hparams
  | inr lruIdx =>
    obtain ⟨hmiss, hleast⟩ := scanFecCache_inr hscan
    obtain ⟨e, hk, hvictim⟩ : ∃ e, cache.entries[lruIdx]? = some e ∧
        ((∃ a ∈ cache.entries, a.lastUsedNs < 2 ^ 64 - 1) →
          ∀ a ∈ cache.entries, e.lastUsedNs ≤ a.lastUsedNs) := by
      -- the scan starts at entry 0 and the greatest time, and may leave both as they are
      rcases hleast with ⟨rfl, hlate⟩ | ⟨k, e, rfl, hk, -, hleast⟩
      · have hzero : 0 < cache.entries.length := by
          rw [hlength]
          decide
        refine ⟨_, List.getElem?_eq_getElem hzero, ?_⟩
        rintro ⟨a, ha, hlt⟩
        exact absurd (hlate a ha) (by omega)
      · rw [Nat.zero_add]
        exact ⟨e, hk, fun _ => hleast⟩
    obtain ⟨pre, post, heq, rfl⟩ := FixedArray.exists_split hk
    dsimp only
    rw [hk, Option.map_some, Option.getD_some]
    cases hcreates : r.creates with
    | true =>
      have hmod := FixedArray.modify_split
        (fun _ => (⟨r.params, some ⟨cache.created, r.params⟩, r.now.toNat⟩ : FecCacheEntry))
        pre post e
      rw [← heq] at hmod
      rw [if_pos rfl, hmod]
      exact ⟨_, _, rfl, .miss pre post e heq hmiss hvictim hcreates⟩
    | false =>
      have hmod := FixedArray.modify_split (fun e : FecCacheEntry => { e with fec := none })
        pre post e
      rw [← heq] at hmod
      rw [if_neg Bool.false_ne_true, hmod]
      exact ⟨_, _, rfl, .failure pre post e heq hmiss hcreates⟩

/-- No context of the cache has the tuple of a miss. -/
theorem Holding.params_ne {cache : FecCache} {tr : List FecEvent} (h : Holding cache tr)
    {p : FecParams} (hmiss : ∀ a ∈ cache.entries, ¬(a.fec.isSome ∧ a.params = p)) :
    ∀ f ∈ liveFecs cache.entries, f.params ≠ p := by
  intro f hf heq
  obtain ⟨a, ha, hfec⟩ := List.mem_filterMap.mp hf
  apply hmiss a ha
  rw [hfec]
  exact ⟨rfl, (h.tuple a ha f hfec).symm.trans heq⟩

/-- A request keeps the cache in step with the contexts. -/
theorem Holding.step {cache cache' : FecCache} {tr o : List FecEvent} {r : FecRequest}
    (h : Holding cache tr) (hstep : requestFec cache r = some (cache', o)) :
    Holding cache' (tr ++ o) := by
  obtain ⟨c, o', hstep', hcases⟩ := requestFec_cases h.length r
  rw [hstep', Option.some.injEq, Prod.mk.injEq] at hstep
  obtain ⟨rfl, rfl⟩ := hstep
  obtain ⟨entries, created⟩ := cache
  cases hcases with
  | hit pre post e f heq hfec hparams =>
    dsimp only at heq
    subst heq
    apply (h.touch r.now.toNat).answer r.params (some f)
    intro f' hf'
    cases hf'
    refine ⟨(h.tuple e (List.mem_append_right pre List.mem_cons_self) f hfec).trans hparams, ?_⟩
    rw [liveFecs_held pre post (e := { e with lastUsedNs := r.now.toNat }) hfec]
    exact List.mem_append_right _ List.mem_cons_self
  | miss pre post e heq hmiss hvictim hcreates =>
    have hnew := h.params_ne hmiss
    dsimp only at heq
    subst heq
    -- the events come in the order destroy, create, answer
    have hcreated := h.evict.create (p := r.params) r.now.toNat rfl ?_
    · have hanswer := hcreated.answer r.params (some ⟨created, r.params⟩) ?_
      · rw [List.append_assoc, List.append_assoc] at hanswer
        exact hanswer
      · intro f hf
        cases hf
        refine ⟨rfl, ?_⟩
        rw [liveFecs_held pre post rfl]
        exact List.mem_append_right _ List.mem_cons_self
    · intro f hf
      apply hnew f
      rw [liveFecs_empty pre post rfl] at hf
      rw [liveFecs_split]
      rcases List.mem_append.mp hf with hf | hf
      · exact List.mem_append_left _ hf
      · exact List.mem_append_right _ (List.mem_append_right _ hf)
  | failure pre post e heq hmiss hcreates =>
    dsimp only at heq
    subst heq
    have hanswer := h.evict.answer r.params none fun f hf => absurd hf (by simp)
    rw [List.append_assoc] at hanswer
    exact hanswer

theorem holding_empty : Holding FecCache.empty [] where
  length := List.length_replicate
  tuple e he f hf := by
    rw [List.eq_of_mem_replicate he] at hf
    simp [FecCacheEntry.zero] at hf
  distinct := by decide
  live := by decide
  old f hf := absurd hf (by simp [createdFecs])
  proper := proper_nil

/-- After any requests the cache holds the contexts that are alive. -/
theorem holding_run {rs : List FecRequest} {cache : FecCache} {tr : List FecEvent}
    (hrun : Runs.run requestFec FecCache.empty rs = some (cache, tr)) : Holding cache tr :=
  Runs.run_induction requestFec (P := fun _ cache tr => Holding cache tr) holding_empty
    (fun _ _ _ _ _ _ _ h hstep => h.step hstep) rs cache tr hrun

/-- Requests never get stuck. -/
theorem requestFec_total (cache : FecCache) (r : FecRequest) :
    ∃ q, requestFec cache r = some q := by
  unfold requestFec
  split
  · exact ⟨_, rfl⟩
  · dsimp only
    split
    · exact ⟨_, rfl⟩
    · exact ⟨_, rfl⟩

/-- The tuples of the entries with a context. -/
theorem map_params_liveFecs {entries : List FecCacheEntry}
    (h : ∀ e ∈ entries, ∀ f, e.fec = some f → f.params = e.params) :
    (entries.filter (·.fec.isSome)).map (·.params) = (liveFecs entries).map (·.params) := by
  induction entries with
  | nil => rfl
  | cons e entries ih =>
    have hrest := ih fun e' he' => h e' (List.mem_cons_of_mem e he')
    rw [liveFecs, List.filterMap_cons, ← liveFecs, List.filter_cons]
    cases hfec : e.fec with
    | none => exact hrest
    | some f =>
      rw [Option.isSome_some, if_pos rfl, List.map_cons, List.map_cons, hrest,
        h e List.mem_cons_self f hfec]

end Bishlink
