import Bishlink.Interfaces
import Bishlink.Lib.Runs
import Mathlib.Data.Finset.Image
import Mathlib.Tactic.Tauto

/-!
# Replaying interface updates

What an observer knows of the interfaces is a `View`: which indices there are, and the set
of addresses of each. It starts from the first snapshot and applies the updates.

* `apply_generateUpdate`: applying the difference of two snapshots to the view of the first
  gives the view of the second;
* `nonempty_eq_false`: the difference is empty exactly when indices, address sets and
  hardware addresses are the same.
-/

namespace Bishlink

open Runs

/-! ## Views -/

/-- The addresses of each interface, by index. -/
abbrev View := UInt32 → Option (Finset IfmonAddr)

/-- The view of a list of interfaces. -/
def viewOf (ifaces : List IfmonIface) : View := fun i =>
  (findIface ifaces i).map (·.addrs.toFinset)

namespace View

/-- Drop the removed indices. -/
def drop (v : View) (removed : List UInt32) : View := fun i => if i ∈ removed then none else v i

/-- Insert the added indices with their addresses. -/
def insert (v : View) (interfaces : List IfmonIface) (added : List UInt32) : View := fun i =>
  if i ∈ added then viewOf interfaces i else v i

/-- Apply the added and the removed addresses of one modified entry. -/
def modify (v : View) (d : IfmonIfaceDiff) : View :=
  Function.update v d.index
    ((v d.index).map fun addrs => (addrs ∪ d.addrsAdded.toFinset) \ d.addrsRemoved.toFinset)

/-- Apply an update. -/
def apply (v : View) (up : IfmonUpdate) : View :=
  up.modified.foldl modify ((v.drop up.removed).insert up.interfaces up.added)

/-- Entries of other indices leave an index alone. -/
theorem foldl_modify_of_ne (v : View) {ds : List IfmonIfaceDiff} {i : UInt32}
    (h : ∀ d ∈ ds, d.index ≠ i) : ds.foldl modify v i = v i := by
  induction ds generalizing v with
  | nil => rfl
  | cons d ds ih =>
    have hd : i ≠ d.index := fun heq => h d List.mem_cons_self heq.symm
    rw [List.foldl_cons, ih (v.modify d) fun d' hd' => h d' (List.mem_cons_of_mem d hd'), modify,
      Function.update_of_ne hd]

/-- The only entry of an index decides what happens to it. -/
theorem foldl_modify_of_mem (v : View) {ds : List IfmonIfaceDiff}
    (hnodup : (ds.map (·.index)).Nodup) {d : IfmonIfaceDiff} (hd : d ∈ ds) :
    ds.foldl modify v d.index = v.modify d d.index := by
  induction ds generalizing v with
  | nil => exact absurd hd (by simp)
  | cons e ds ih =>
    rw [List.map_cons, List.nodup_cons] at hnodup
    rw [List.foldl_cons]
    rcases List.mem_cons.mp hd with rfl | hmem
    · -- no later entry has the index again
      apply foldl_modify_of_ne
      intro d' hd' heq
      exact hnodup.1 (heq ▸ List.mem_map_of_mem hd')
    · have hne : d.index ≠ e.index := fun heq =>
        hnodup.1 (heq ▸ List.mem_map_of_mem hmem)
      rw [ih (v.modify e) hnodup.2 hmem]
      simp only [modify, Function.update_self, Function.update_of_ne hne]

end View

/-! ## The difference of two snapshots -/

/-- The same indices, with the same hardware address and the same set of addresses. -/
def SameInterfaces (a b : List IfmonIface) : Prop :=
  ∀ i, (findIface a i).map (fun f => (f.hwAddr, f.addrs.toFinset)) =
    (findIface b i).map fun f => (f.hwAddr, f.addrs.toFinset)

theorem SameInterfaces.viewOf_eq {a b : List IfmonIface} (h : SameInterfaces a b) :
    viewOf a = viewOf b := by
  funext i
  have hi := congrArg (Option.map Prod.snd) (h i)
  rw [Option.map_map, Option.map_map] at hi
  exact hi

section Difference

variable (prev curr : Snapshot)

theorem mem_added {i : UInt32} :
    i ∈ (generateUpdate prev.ifaces curr.ifaces false).added ↔
      (findIface curr.ifaces i).isSome ∧ findIface prev.ifaces i = none := by
  rw [generateUpdate_eq]
  simp [findIface, List.mem_filter]

theorem mem_removed {i : UInt32} :
    i ∈ (generateUpdate prev.ifaces curr.ifaces false).removed ↔
      (findIface prev.ifaces i).isSome ∧ findIface curr.ifaces i = none := by
  rw [generateUpdate_eq]
  simp [findIface, List.mem_filter]

/-- A modified entry is the difference of the two interfaces of its index. -/
theorem mem_modified {d : IfmonIfaceDiff} :
    d ∈ (generateUpdate prev.ifaces curr.ifaces false).modified ↔
      ∃ g f, findIface prev.ifaces d.index = some g ∧ findIface curr.ifaces d.index = some f ∧
        (ifaceDiff g f).changed = true ∧ d = ifaceDiff g f := by
  rw [generateUpdate_eq]
  simp only [List.mem_filterMap, changedDiff, Option.bind_eq_some_iff,
    Option.ite_none_right_eq_some,
    Option.some.injEq]
  constructor
  · rintro ⟨f, hf, g, hg, hchanged, rfl⟩
    exact ⟨g, f, hg, curr.findIface_of_mem hf, hchanged, rfl⟩
  · rintro ⟨g, f, hg, hf, hchanged, rfl⟩
    obtain ⟨hmem, hindex⟩ := index_of_findIface hf
    exact ⟨f, hmem, g, hg, hchanged, rfl⟩

theorem nodup_modified :
    ((generateUpdate prev.ifaces curr.ifaces false).modified.map (·.index)).Nodup := by
  rw [generateUpdate_eq]
  refine List.Nodup.sublist ?_ curr.nodup_index
  simp only [List.map_filterMap]
  induction curr.ifaces with
  | nil => exact List.Sublist.refl _
  | cons f fs ih =>
    rw [List.filterMap_cons, List.map_cons]
    cases hdiff : changedDiff prev.ifaces f with
    | none => exact ih.cons _
    | some d =>
      have hindex : d.index = f.index := by
        simp only [changedDiff, Option.bind_eq_some_iff, Option.ite_none_right_eq_some,
          Option.some.injEq] at hdiff
        obtain ⟨g, -, -, rfl⟩ := hdiff
        rfl
      rw [Option.map_some, hindex]
      exact ih.cons_cons _

variable {prev curr}

/-- An interface that both snapshots have is unchanged when its hardware address and its set
of addresses are. -/
theorem changed_eq_false {i : UInt32} {g f : IfmonIface} (hg : findIface prev.ifaces i = some g)
    (hf : findIface curr.ifaces i = some f) :
    (ifaceDiff g f).changed = false ↔
      g.hwAddr = f.hwAddr ∧ g.addrs.toFinset = f.addrs.toFinset := by
  have hglen := prev.addrCount_le g (index_of_findIface hg).1
  have hflen := curr.addrCount_le f (index_of_findIface hf).1
  have hadded : addrsAdded g f = [] ↔ ∀ a ∈ f.addrs, a ∈ g.addrs := by
    simp only [List.eq_nil_iff_forall_not_mem, mem_addrsAdded hflen, not_and, not_not]
  have hremoved : addrsRemoved g f = [] ↔ ∀ a ∈ g.addrs, a ∈ f.addrs := by
    simp only [List.eq_nil_iff_forall_not_mem, mem_addrsRemoved hglen, not_and, not_not]
  simp only [IfmonIfaceDiff.changed, ifaceDiff, Bool.or_eq_false_iff, Bool.not_eq_false',
    List.isEmpty_iff, hadded, hremoved, bne_eq_false_iff_eq, Finset.ext_iff, List.mem_toFinset]
  constructor
  · rintro ⟨⟨hhw, hfg⟩, hgf⟩
    exact ⟨hhw, fun a => ⟨hgf a, hfg a⟩⟩
  · rintro ⟨hhw, hiff⟩
    exact ⟨⟨hhw, fun a => (hiff a).mpr⟩, fun a => (hiff a).mp⟩

/-- Patching the addresses of the previous interface gives those of the current one. -/
theorem patch_eq {i : UInt32} {g f : IfmonIface} (hg : findIface prev.ifaces i = some g)
    (hf : findIface curr.ifaces i = some f) :
    (g.addrs.toFinset ∪ (addrsAdded g f).toFinset) \ (addrsRemoved g f).toFinset =
      f.addrs.toFinset := by
  have hglen := prev.addrCount_le g (index_of_findIface hg).1
  have hflen := curr.addrCount_le f (index_of_findIface hf).1
  ext a
  simp only [Finset.mem_sdiff, Finset.mem_union, List.mem_toFinset, mem_addrsAdded hflen,
    mem_addrsRemoved hglen]
  tauto

variable (prev curr)

/-- An update takes the view of the previous snapshot to that of the current one. -/
theorem apply_generateUpdate :
    (viewOf prev.ifaces).apply (generateUpdate prev.ifaces curr.ifaces false) =
      viewOf curr.ifaces := by
  have hinterfaces : (generateUpdate prev.ifaces curr.ifaces false).interfaces = curr.ifaces := by
    rw [generateUpdate_eq]
  funext i
  rw [View.apply, hinterfaces]
  -- the view before the modified entries, at this index
  have hbase : ((viewOf prev.ifaces).drop (generateUpdate prev.ifaces curr.ifaces false).removed
      |>.insert curr.ifaces (generateUpdate prev.ifaces curr.ifaces false).added) i =
      if (findIface curr.ifaces i).isSome ∧ findIface prev.ifaces i = none then
        viewOf curr.ifaces i
      else if (findIface prev.ifaces i).isSome ∧ findIface curr.ifaces i = none then none
      else viewOf prev.ifaces i := by
    simp only [View.insert, View.drop, mem_added, mem_removed]
  cases hf : findIface curr.ifaces i with
  | none =>
    rw [View.foldl_modify_of_ne, hbase, hf]
    · cases hg : findIface prev.ifaces i with
      | none => simp [viewOf, hg, hf]
      | some g => simp [viewOf, hf]
    · intro d hd heq
      obtain ⟨g, f, -, hf', -⟩ := (mem_modified prev curr).mp hd
      rw [heq, hf] at hf'
      exact absurd hf' (by simp)
  | some f =>
    cases hg : findIface prev.ifaces i with
    | none =>
      rw [View.foldl_modify_of_ne, hbase, hf, hg]
      · simp
      · intro d hd heq
        obtain ⟨g, f, hg', -⟩ := (mem_modified prev curr).mp hd
        rw [heq, hg] at hg'
        exact absurd hg' (by simp)
    | some g =>
      have hindex : (ifaceDiff g f).index = i := (index_of_findIface hf).2
      have hview : viewOf curr.ifaces i = some f.addrs.toFinset := by simp [viewOf, hf]
      -- an interface of both snapshots is replayed if it changed, and is the same if not
      cases hchanged : (ifaceDiff g f).changed with
      | true =>
        have hmem : ifaceDiff g f ∈ (generateUpdate prev.ifaces curr.ifaces false).modified :=
          (mem_modified prev curr).mpr ⟨g, f, by rw [hindex, hg], by rw [hindex, hf], hchanged, rfl⟩
        have hfold := View.foldl_modify_of_mem
          ((viewOf prev.ifaces).drop (generateUpdate prev.ifaces curr.ifaces false).removed
            |>.insert curr.ifaces (generateUpdate prev.ifaces curr.ifaces false).added)
          (nodup_modified prev curr) hmem
        rw [View.modify, Function.update_self, hindex, hbase, hf, hg] at hfold
        rw [hfold, hview]
        simp only [viewOf, hg, Option.isSome_some, reduceCtorEq, and_false, if_false,
          Option.map_some, ifaceDiff, patch_eq hg hf]
      | false =>
        rw [View.foldl_modify_of_ne, hbase, hf, hg, hview]
        · simp [viewOf, hg, ((changed_eq_false hg hf).mp hchanged).2]
        · intro d hd heq
          obtain ⟨g', f', hg', hf', hchanged', -⟩ := (mem_modified prev curr).mp hd
          rw [heq, hg] at hg'
          rw [heq, hf] at hf'
          cases hg'
          cases hf'
          rw [hchanged] at hchanged'
          exact absurd hchanged' (by decide)

/-- No index is in two of the three lists. -/
theorem disjoint_generateUpdate :
    let up := generateUpdate prev.ifaces curr.ifaces false
    up.added.Disjoint up.removed ∧ up.added.Disjoint (up.modified.map (·.index)) ∧
      up.removed.Disjoint (up.modified.map (·.index)) := by
  intro up
  refine ⟨?_, ?_, ?_⟩
  · intro i hadded hremoved
    have hcurr := ((mem_added prev curr).mp hadded).1
    rw [((mem_removed prev curr).mp hremoved).2] at hcurr
    exact absurd hcurr (by decide)
  · intro i hadded hmodified
    obtain ⟨d, hd, rfl⟩ := List.mem_map.mp hmodified
    obtain ⟨g, f, hg, -⟩ := (mem_modified prev curr).mp hd
    rw [((mem_added prev curr).mp hadded).2] at hg
    exact absurd hg (by simp)
  · intro i hremoved hmodified
    obtain ⟨d, hd, rfl⟩ := List.mem_map.mp hmodified
    obtain ⟨g, f, -, hf, -⟩ := (mem_modified prev curr).mp hd
    rw [((mem_removed prev curr).mp hremoved).2] at hf
    exact absurd hf (by simp)

/-- The difference is empty exactly between snapshots with the same interfaces. -/
theorem nonempty_eq_false :
    (generateUpdate prev.ifaces curr.ifaces false).nonempty = false ↔
      SameInterfaces prev.ifaces curr.ifaces := by
  simp only [IfmonUpdate.nonempty, Bool.or_eq_false_iff, Bool.not_eq_false', List.isEmpty_iff,
    List.eq_nil_iff_forall_not_mem]
  constructor
  · rintro ⟨⟨hadded, hremoved⟩, hmodified⟩ i
    have hadded := mt (mem_added prev curr).mpr (hadded i)
    have hremoved := mt (mem_removed prev curr).mpr (hremoved i)
    cases hf : findIface curr.ifaces i with
    | none =>
      cases hg : findIface prev.ifaces i with
      | none => rfl
      | some g => exact absurd ⟨by rw [hg]; rfl, hf⟩ hremoved
    | some f =>
      cases hg : findIface prev.ifaces i with
      | none => exact absurd ⟨by rw [hf]; rfl, hg⟩ hadded
      | some g =>
        have hindex : (ifaceDiff g f).index = i := (index_of_findIface hf).2
        have hsame : (ifaceDiff g f).changed = false := by
          by_contra hchanged
          rw [Bool.not_eq_false] at hchanged
          exact hmodified (ifaceDiff g f) ((mem_modified prev curr).mpr
            ⟨g, f, by rw [hindex, hg], by rw [hindex, hf], hchanged, rfl⟩)
        obtain ⟨hhw, haddrs⟩ := (changed_eq_false hg hf).mp hsame
        rw [Option.map_some, Option.map_some, hhw, haddrs]
  -- no entry of any of the three lists can exist
  · intro hsame
    refine ⟨⟨?_, ?_⟩, ?_⟩
    · intro i hi
      obtain ⟨hcurr, hprev⟩ := (mem_added prev curr).mp hi
      have hi := hsame i
      rw [hprev, Option.map_none, eq_comm, Option.map_eq_none_iff] at hi
      rw [hi] at hcurr
      exact absurd hcurr (by decide)
    · intro i hi
      obtain ⟨hprev, hcurr⟩ := (mem_removed prev curr).mp hi
      have hi := hsame i
      rw [hcurr, Option.map_none, Option.map_eq_none_iff] at hi
      rw [hi] at hprev
      exact absurd hprev (by decide)
    · intro d hd
      obtain ⟨g, f, hg, hf, hchanged, -⟩ := (mem_modified prev curr).mp hd
      have hi := hsame d.index
      rw [hg, hf, Option.map_some, Option.map_some, Option.some.injEq, Prod.mk.injEq] at hi
      rw [(changed_eq_false hg hf).mpr hi] at hchanged
      exact absurd hchanged (by decide)

end Difference

/-! ## Runs of the watcher -/

/-- The interfaces last passed to the callback. -/
def lastDelivered (first : Snapshot) (ups : List IfmonUpdate) : List IfmonIface :=
  ((ups.getLast?.getD (initialUpdate first))).interfaces

/-- What a run of the watcher keeps: `prev_list` is what was last delivered, it has the
interfaces of the latest snapshot, and the observer knows them. -/
structure Replayed (first : Snapshot) (snaps : List Snapshot) (prev : Snapshot)
    (ups : List IfmonUpdate) : Prop where
  delivered : lastDelivered first ups = prev.ifaces
  latest : SameInterfaces prev.ifaces (snaps.getLastD first).ifaces
  view : ups.foldl View.apply (viewOf first.ifaces) = viewOf prev.ifaces
  disjoint : ∀ up ∈ ups, up.added.Disjoint up.removed ∧
    up.added.Disjoint (up.modified.map (·.index)) ∧
    up.removed.Disjoint (up.modified.map (·.index))

theorem watcherStep_total (prev curr : Snapshot) : ∃ r, watcherStep prev curr = some r := by
  simp only [watcherStep]
  split <;> exact ⟨_, rfl⟩

/-- What the watcher does with a snapshot: it delivers a difference that is not empty, and
keeps its previous list otherwise. -/
theorem watcherStep_cases {prev curr prev' : Snapshot} {o : List IfmonUpdate}
    (h : watcherStep prev curr = some (prev', o)) :
    ((generateUpdate prev.ifaces curr.ifaces false).nonempty = true ∧ prev' = curr ∧
        o = [generateUpdate prev.ifaces curr.ifaces false]) ∨
      ((generateUpdate prev.ifaces curr.ifaces false).nonempty = false ∧ prev' = prev ∧
        o = []) := by
  simp only [watcherStep] at h
  cases hup : (generateUpdate prev.ifaces curr.ifaces false).nonempty with
  | true =>
    simp only [hup, if_true, Option.some.injEq, Prod.mk.injEq] at h
    exact Or.inl ⟨rfl, h.1.symm, h.2.symm⟩
  | false =>
    simp only [hup, Bool.false_eq_true, if_false, Option.some.injEq, Prod.mk.injEq] at h
    exact Or.inr ⟨rfl, h.1.symm, h.2.symm⟩

/-- The callback is skipped exactly when the new snapshot has the same interfaces. -/
theorem watcherStep_skips {prev curr prev' : Snapshot} {o : List IfmonUpdate}
    (h : watcherStep prev curr = some (prev', o)) :
    o = [] ↔ SameInterfaces prev.ifaces curr.ifaces := by
  rw [← nonempty_eq_false]
  rcases watcherStep_cases h with ⟨hup, -, rfl⟩ | ⟨hup, -, rfl⟩
  · simp [hup]
  · simp [hup]

theorem Replayed.step {first prev prev' : Snapshot} {snaps : List Snapshot}
    {ups o : List IfmonUpdate} {curr : Snapshot} (h : Replayed first snaps prev ups)
    (hstep : watcherStep prev curr = some (prev', o)) :
    Replayed first (snaps ++ [curr]) prev' (ups ++ o) := by
  have hlast : (snaps ++ [curr]).getLastD first = curr := by simp
  rcases watcherStep_cases hstep with ⟨-, rfl, rfl⟩ | ⟨hempty, rfl, rfl⟩
  · refine ⟨?_, ?_, ?_, ?_⟩
    · rw [lastDelivered, List.getLast?_append, List.getLast?_singleton, Option.some_or,
        Option.getD_some, generateUpdate_eq]
    · rw [hlast]
      exact fun _ => rfl
    · rw [List.foldl_append, List.foldl_cons, List.foldl_nil, h.view, apply_generateUpdate]
    · intro up hup
      rcases List.mem_append.mp hup with hup | hup
      · exact h.disjoint up hup
      · rw [List.mem_singleton.mp hup]
        exact disjoint_generateUpdate prev prev'
  · rw [nonempty_eq_false] at hempty
    rw [List.append_nil]
    exact ⟨h.delivered, by rw [hlast]; exact hempty, h.view, h.disjoint⟩

/-- An observer that applies the delivered updates knows the latest snapshot; no index is in
two lists of an update; and a snapshot is skipped exactly when it has the interfaces that
were last delivered. -/
theorem updates_replay (first : Snapshot) (snaps : List Snapshot) (curr : Snapshot) :
    ∃ prev ups, run watcherStep first snaps = some (prev, ups) ∧
      ups.foldl View.apply (viewOf (initialUpdate first).interfaces) =
        viewOf (snaps.getLastD first).ifaces ∧
      (∀ up ∈ ups, up.added.Disjoint up.removed ∧
        up.added.Disjoint (up.modified.map (·.index)) ∧
        up.removed.Disjoint (up.modified.map (·.index))) ∧
      ∃ prev' o, watcherStep prev curr = some (prev', o) ∧
        (o = [] ↔ SameInterfaces (lastDelivered first ups) curr.ifaces) := by
  obtain ⟨prev, ups, hrun⟩ := exists_run watcherStep_total first snaps
  have hinit : Replayed first [] first [] :=
    ⟨rfl, fun _ => rfl, rfl, fun up hup => absurd hup (by simp)⟩
  have h := run_induction watcherStep (P := Replayed first) hinit
    (fun _ _ _ _ _ _ _ h hstep => h.step hstep) snaps prev ups hrun
  obtain ⟨⟨prev', o⟩, hstep⟩ := watcherStep_total prev curr
  refine ⟨prev, ups, hrun, ?_, h.disjoint, prev', o, hstep, ?_⟩
  · rw [← h.latest.viewOf_eq, ← h.view]
    rfl
  · rw [h.delivered]
    exact watcherStep_skips hstep

end Bishlink
