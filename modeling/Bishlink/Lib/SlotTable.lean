import Bishlink.Lib.FirstMatch
import Mathlib.Data.List.Perm.Subperm

/-!
# Tables with a fixed number of slots

A table of keys with a value each, in slots that are scanned from the front. A key is added
where it is already, or in the first free slot. `First` says that looking a value up gives a
key: it is the first slot with that value.

* `mem_add`, `mem_remove`: what is in the table afterwards;
* `First.add`, `First.remove`: what looking a value up gives afterwards;
* `none_mem_of_subset`: a table with a slot for every key that may come never is full.
-/

namespace SlotTable

open FirstMatch

variable {κ ν : Type*}

/-- The keys in the table. -/
def keys (l : List (Option (κ × ν))) : List κ := l.filterMap (·.map Prod.fst)

theorem mem_keys {l : List (Option (κ × ν))} {k : κ} : k ∈ keys l ↔ ∃ v, some (k, v) ∈ l := by
  unfold keys
  rw [List.mem_filterMap]
  constructor
  · rintro ⟨x, hx, heq⟩
    obtain ⟨⟨k', v⟩, rfl, rfl⟩ := Option.map_eq_some_iff.mp heq
    exact ⟨v, hx⟩
  · rintro ⟨v, hv⟩
    exact ⟨some (k, v), hv, rfl⟩

theorem keys_append (l l' : List (Option (κ × ν))) : keys (l ++ l') = keys l ++ keys l' :=
  List.filterMap_append

@[simp] theorem keys_cons_some (k : κ) (v : ν) (l : List (Option (κ × ν))) :
    keys (some (k, v) :: l) = k :: keys l := rfl

@[simp] theorem keys_cons_none (l : List (Option (κ × ν))) : keys (none :: l) = keys l := rfl

/-- A table is full when it has as many keys as slots. -/
theorem none_not_mem_iff {l : List (Option (κ × ν))} :
    none ∉ l ↔ (keys l).length = l.length := by
  unfold keys
  rw [List.filterMap_length_eq_length]
  constructor
  · intro hfull x hx
    cases x with
    | none => exact absurd hx hfull
    | some x => rfl
  · intro hall hnone
    exact absurd (hall none hnone) (by simp)

/-- No more keys than slots, and with a slot for each of some keys a free slot as long as one
of them is missing. -/
theorem none_mem_of_subset {l : List (Option (κ × ν))} {all : List κ} (hnodup : (keys l).Nodup)
    (hsub : ∀ k ∈ keys l, k ∈ all) (hlen : all.length ≤ l.length) {k : κ} (hk : k ∈ all)
    (hnot : k ∉ keys l) : none ∈ l := by
  by_contra hfull
  have hcount := none_not_mem_iff.mp hfull
  have hsub' : k :: keys l ⊆ all := by
    intro k' hk'
    rcases List.mem_cons.mp hk' with rfl | hk'
    · exact hk
    · exact hsub k' hk'
  have hle := (List.subperm_of_subset (List.nodup_cons.mpr ⟨hnot, hnodup⟩) hsub').length_le
  rw [List.length_cons, hcount] at hle
  omega

section Values

variable [DecidableEq ν]

/-- The slot has the value. -/
def hasValue (v : ν) : Option (κ × ν) → Bool
  | some (_, v') => decide (v' = v)
  | none => false

/-- The first slot with the value belongs to the key. -/
def First (k : κ) (v : ν) (l : List (Option (κ × ν))) : Prop :=
  l.find? (hasValue v) = some (some (k, v))

theorem First.split {k : κ} {v : ν} {l : List (Option (κ × ν))} (h : First k v l) :
    ∃ pre post, l = pre ++ some (k, v) :: post ∧ ∀ x ∈ pre, hasValue v x = false := by
  obtain ⟨-, pre, post, hl, hpre⟩ := List.find?_eq_some_iff_append.mp h
  exact ⟨pre, post, hl, fun x hx => by simpa using hpre x hx⟩

theorem first_of_split {k : κ} {v : ν} {pre post : List (Option (κ × ν))}
    (hpre : ∀ x ∈ pre, hasValue v x = false) : First k v (pre ++ some (k, v) :: post) := by
  refine List.find?_eq_some_iff_append.mpr ⟨?_, pre, post, rfl, ?_⟩
  · exact decide_eq_true rfl
  · intro x hx
    rw [hpre x hx]
    rfl

theorem First.mem {k : κ} {v : ν} {l : List (Option (κ × ν))} (h : First k v l) :
    some (k, v) ∈ l := List.mem_of_find?_eq_some h

end Values

variable [DecidableEq κ]

/-- The slot belongs to the key. -/
def hasKey (k : κ) : Option (κ × ν) → Bool
  | some (k', _) => decide (k' = k)
  | none => false

/-- The slot that a key takes: its own, or a free one. -/
def addsAt (k : κ) (l : List (Option (κ × ν))) : Option (κ × ν) → Bool :=
  if l.any (hasKey k) then hasKey k else Option.isNone

/-- Add a key, or change its value. -/
def add (k : κ) (v : ν) (l : List (Option (κ × ν))) : List (Option (κ × ν)) :=
  updateFirst (addsAt k l) (fun _ => some (k, v)) l

/-- Free the slot of a key. -/
def remove (k : κ) (l : List (Option (κ × ν))) : List (Option (κ × ν)) :=
  updateFirst (hasKey k) (fun _ => none) l

theorem hasKey_eq_true {k : κ} {x : Option (κ × ν)} :
    hasKey k x = true ↔ ∃ v, x = some (k, v) := by
  cases x with
  | none => simp [hasKey]
  | some x =>
    obtain ⟨k', v⟩ := x
    simp [hasKey]

theorem any_hasKey {k : κ} {l : List (Option (κ × ν))} :
    l.any (hasKey k) = true ↔ k ∈ keys l := by
  rw [List.any_eq_true, mem_keys]
  constructor
  · rintro ⟨x, hx, hkey⟩
    obtain ⟨v, rfl⟩ := hasKey_eq_true.mp hkey
    exact ⟨v, hx⟩
  · rintro ⟨v, hv⟩
    exact ⟨some (k, v), hv, hasKey_eq_true.mpr ⟨v, rfl⟩⟩

theorem hasKey_eq_false {k : κ} {x : Option (κ × ν)} :
    hasKey k x = false ↔ ∀ v, x ≠ some (k, v) := by
  rw [← Bool.not_eq_true, hasKey_eq_true, not_exists]

@[simp] theorem length_add (k : κ) (v : ν) (l : List (Option (κ × ν))) :
    (add k v l).length = l.length := length_updateFirst _ _ _

@[simp] theorem length_remove (k : κ) (l : List (Option (κ × ν))) :
    (remove k l).length = l.length := length_updateFirst _ _ _

/-! ## Contents -/

/-- Removing a key, with the table taken apart at its slot. -/
theorem remove_split {k : κ} {l : List (Option (κ × ν))} (h : k ∈ keys l) :
    ∃ pre v post, l = pre ++ some (k, v) :: post ∧ remove k l = pre ++ none :: post := by
  obtain ⟨v, hv⟩ := mem_keys.mp h
  obtain ⟨pre, x, post, hl, hx, -, hupdate⟩ :=
    updateFirst_split ⟨some (k, v), hv, hasKey_eq_true.mpr ⟨v, rfl⟩⟩
  obtain ⟨v', rfl⟩ := hasKey_eq_true.mp hx
  exact ⟨pre, v', post, hl, hupdate fun _ => none⟩

/-- Removing a key that has no slot. -/
theorem remove_of_not_mem {k : κ} {l : List (Option (κ × ν))} (h : k ∉ keys l) :
    remove k l = l := by
  refine updateFirst_of_forall fun x hx => ?_
  rw [hasKey_eq_false]
  rintro v rfl
  exact h (mem_keys.mpr ⟨v, hx⟩)

/-- Adding a key, with the table taken apart at the slot it takes. -/
theorem add_split {k : κ} (v : ν) {l : List (Option (κ × ν))} (h : k ∈ keys l ∨ none ∈ l) :
    ∃ pre x post, l = pre ++ x :: post ∧ add k v l = pre ++ some (k, v) :: post ∧
      addsAt k l x = true ∧ ∀ y ∈ pre, addsAt k l y = false := by
  have hexists : ∃ x ∈ l, addsAt k l x = true := by
    unfold addsAt
    by_cases hk : k ∈ keys l
    · obtain ⟨v', hv'⟩ := mem_keys.mp hk
      refine ⟨some (k, v'), hv', ?_⟩
      rw [if_pos (any_hasKey.mpr hk)]
      exact hasKey_eq_true.mpr ⟨v', rfl⟩
    · refine ⟨none, h.resolve_left hk, ?_⟩
      rw [if_neg fun hany => hk (any_hasKey.mp hany)]
      rfl
  obtain ⟨pre, x, post, hl, hx, hpre, hupdate⟩ := updateFirst_split hexists
  exact ⟨pre, x, post, hl, hupdate fun _ => some (k, v), hx, hpre⟩

/-- The slot that is taken had the key or was free. -/
theorem eq_of_addsAt {k : κ} {l : List (Option (κ × ν))} {x : Option (κ × ν)}
    (h : addsAt k l x = true) : (∃ v, x = some (k, v)) ∨ (x = none ∧ k ∉ keys l) := by
  unfold addsAt at h
  split at h
  · exact Or.inl (hasKey_eq_true.mp h)
  · next hany =>
    refine Or.inr ⟨by simpa using h, ?_⟩
    exact fun hk => hany (any_hasKey.mpr hk)

theorem nodup_remove {k : κ} {l : List (Option (κ × ν))} (h : (keys l).Nodup) :
    (keys (remove k l)).Nodup := by
  by_cases hk : k ∈ keys l
  · obtain ⟨pre, v, post, hl, hremove⟩ := remove_split hk
    rw [hremove, keys_append, keys_cons_none]
    rw [hl, keys_append, keys_cons_some] at h
    exact h.sublist (List.Sublist.append_left (List.sublist_cons_self _ _) _)
  · rw [remove_of_not_mem hk]
    exact h

/-- What is left without the key. -/
theorem mem_remove {k k' : κ} {v' : ν} {l : List (Option (κ × ν))} (h : (keys l).Nodup) :
    some (k', v') ∈ remove k l ↔ k' ≠ k ∧ some (k', v') ∈ l := by
  by_cases hk : k ∈ keys l
  · obtain ⟨pre, v, post, hl, hremove⟩ := remove_split hk
    rw [hl, keys_append, keys_cons_some, List.perm_middle.nodup_iff, List.nodup_cons,
      List.mem_append, not_or] at h
    have hpre : ∀ v, some (k, v) ∉ pre := fun v hv => h.1.1 (mem_keys.mpr ⟨v, hv⟩)
    have hpost : ∀ v, some (k, v) ∉ post := fun v hv => h.1.2 (mem_keys.mpr ⟨v, hv⟩)
    rw [hremove, hl, List.mem_append, List.mem_cons, List.mem_append, List.mem_cons]
    by_cases hkk : k' = k
    · simp [hkk, hpre, hpost]
    · simp [hkk]
  · rw [remove_of_not_mem hk]
    refine ⟨fun hmem => ⟨?_, hmem⟩, And.right⟩
    rintro rfl
    exact hk (mem_keys.mpr ⟨v', hmem⟩)

theorem nodup_add {k : κ} (v : ν) {l : List (Option (κ × ν))} (h : (keys l).Nodup)
    (hroom : k ∈ keys l ∨ none ∈ l) : (keys (add k v l)).Nodup := by
  obtain ⟨pre, x, post, hl, hadd, hx, -⟩ := add_split v hroom
  rw [hadd, keys_append, keys_cons_some]
  rcases eq_of_addsAt hx with ⟨v', rfl⟩ | ⟨rfl, hk⟩
  · rw [hl, keys_append, keys_cons_some] at h
    exact h
  · rw [hl, keys_append, keys_cons_none] at h hk
    exact List.perm_middle.nodup_iff.mpr (List.nodup_cons.mpr ⟨hk, h⟩)

/-- What is in the table with the key. -/
theorem mem_add {k k' : κ} {v v' : ν} {l : List (Option (κ × ν))} (h : (keys l).Nodup)
    (hroom : k ∈ keys l ∨ none ∈ l) :
    some (k', v') ∈ add k v l ↔ (k' = k ∧ v' = v) ∨ (k' ≠ k ∧ some (k', v') ∈ l) := by
  obtain ⟨pre, x, post, hl, hadd, hx, -⟩ := add_split v hroom
  have hnot : ∀ v, some (k, v) ∉ pre ∧ some (k, v) ∉ post := by
    intro v₀
    rcases eq_of_addsAt hx with ⟨v₁, rfl⟩ | ⟨rfl, hk⟩
    · rw [hl, keys_append, keys_cons_some, List.perm_middle.nodup_iff, List.nodup_cons,
        List.mem_append, not_or] at h
      exact ⟨fun hv => h.1.1 (mem_keys.mpr ⟨v₀, hv⟩), fun hv => h.1.2 (mem_keys.mpr ⟨v₀, hv⟩)⟩
    · rw [hl, keys_append, keys_cons_none, List.mem_append, not_or] at hk
      exact ⟨fun hv => hk.1 (mem_keys.mpr ⟨v₀, hv⟩), fun hv => hk.2 (mem_keys.mpr ⟨v₀, hv⟩)⟩
  have hother : k' ≠ k → some (k', v') ≠ x := by
    rintro hne rfl
    rcases eq_of_addsAt hx with ⟨v₁, heq⟩ | ⟨heq, -⟩
    · simp only [Option.some.injEq, Prod.mk.injEq] at heq
      exact hne heq.1
    · simp at heq
  rw [hadd, hl, List.mem_append, List.mem_cons, List.mem_append, List.mem_cons]
  by_cases hkk : k' = k
  · simp [hkk, hnot]
  · simp [hkk, hother hkk]

theorem mem_keys_add {k k' : κ} (v : ν) {l : List (Option (κ × ν))} (h : (keys l).Nodup)
    (hroom : k ∈ keys l ∨ none ∈ l) : k' ∈ keys (add k v l) ↔ k' = k ∨ k' ∈ keys l := by
  rw [mem_keys, mem_keys]
  simp only [mem_add h hroom]
  by_cases hkk : k' = k
  · simp [hkk]
  · simp [hkk]

theorem mem_keys_remove {k k' : κ} {l : List (Option (κ × ν))} (h : (keys l).Nodup) :
    k' ∈ keys (remove k l) ↔ k' ≠ k ∧ k' ∈ keys l := by
  rw [mem_keys, mem_keys]
  simp only [mem_remove h, exists_and_left]

/-! ## Looking a value up -/

section Lookup

variable [DecidableEq ν]

/-- The slots in front of the key's. -/
def before (k : κ) (l : List (Option (κ × ν))) : List (Option (κ × ν)) :=
  l.takeWhile fun x => !hasKey k x

/-- A key that is added, elsewhere or with another value, leaves the first slot with a value
first; an equal value may only come behind it. -/
theorem First.add {k k' : κ} {v v' : ν} {l : List (Option (κ × ν))} (h : First k v l)
    (hnodup : (keys l).Nodup) (hne : k' ≠ k)
    (hbehind : v' = v → ∀ x ∈ before k l, addsAt k' l x = false) :
    First k v (SlotTable.add k' v' l) := by
  obtain ⟨pre, post, hl, hpre⟩ := h.split
  have hbefore : before k l = pre := by
    have hkey : hasKey k (some (k, v)) = true := hasKey_eq_true.mpr ⟨v, rfl⟩
    have hnone : ∀ x ∈ pre, (!hasKey k x) = true := by
      intro x hx
      rw [Bool.not_eq_true', hasKey_eq_false]
      rintro v₀ rfl
      rw [hl, keys_append, keys_cons_some, List.perm_middle.nodup_iff, List.nodup_cons,
        List.mem_append, not_or] at hnodup
      exact hnodup.1.1 (mem_keys.mpr ⟨v₀, hx⟩)
    rw [before, hl, List.takeWhile_append_of_pos hnone, List.takeWhile_cons_of_neg,
      List.append_nil]
    rw [hkey]
    exact Bool.false_ne_true
  have hself : addsAt k' l (some (k, v)) = false := by
    rw [← Bool.not_eq_true]
    intro hadds
    rcases eq_of_addsAt hadds with ⟨v₀, heq⟩ | ⟨heq, -⟩
    · simp only [Option.some.injEq, Prod.mk.injEq] at heq
      exact hne heq.1.symm
    · simp at heq
  unfold SlotTable.add
  generalize addsAt k' l = p at hbehind hself
  rw [hl, updateFirst_append]
  split
  · next hany =>
    refine first_of_split fun x hx => ?_
    rcases mem_updateFirst hx with hx | ⟨y, hy, hp, rfl⟩
    · exact hpre x hx
    · refine decide_eq_false fun heq => ?_
      rw [hbehind heq y (hbefore ▸ hy)] at hp
      exact Bool.false_ne_true hp
  · rw [updateFirst_cons, if_neg (by rw [hself]; exact Bool.false_ne_true)]
    exact first_of_split hpre

/-- Adding a key with the value that it has. -/
theorem First.add_self {k : κ} {v : ν} {l : List (Option (κ × ν))} (h : First k v l)
    (hnodup : (keys l).Nodup) : First k v (SlotTable.add k v l) := by
  have hsame : SlotTable.add k v l = l := by
    obtain ⟨pre, x, post, hl, hadd, hx, -⟩ := add_split v (Or.inl (mem_keys.mpr ⟨v, h.mem⟩))
    have hmem := h.mem
    rcases eq_of_addsAt hx with ⟨v₀, rfl⟩ | ⟨-, hnot⟩
    · rw [hl, keys_append, keys_cons_some, List.perm_middle.nodup_iff, List.nodup_cons,
        List.mem_append, not_or] at hnodup
      rw [hl, List.mem_append, List.mem_cons] at hmem
      rcases hmem with hmem | hmem | hmem
      · exact absurd (mem_keys.mpr ⟨v, hmem⟩) hnodup.1.1
      · rw [hadd, hl, hmem]
      · exact absurd (mem_keys.mpr ⟨v, hmem⟩) hnodup.1.2
    · exact absurd (mem_keys.mpr ⟨v, hmem⟩) hnot
  rw [hsame]
  exact h

/-- Removing another key. -/
theorem First.remove {k k' : κ} {v : ν} {l : List (Option (κ × ν))} (h : First k v l)
    (hne : k' ≠ k) : First k v (SlotTable.remove k' l) := by
  obtain ⟨pre, post, hl, hpre⟩ := h.split
  unfold SlotTable.remove
  rw [hl, updateFirst_append]
  split
  · refine first_of_split fun x hx => ?_
    rcases mem_updateFirst hx with hx | ⟨y, -, -, rfl⟩
    · exact hpre x hx
    · rfl
  · rw [updateFirst_cons, if_neg]
    · exact first_of_split hpre
    · rw [hasKey_eq_true]
      rintro ⟨v₀, heq⟩
      simp only [Option.some.injEq, Prod.mk.injEq] at heq
      exact hne heq.1.symm

end Lookup

end SlotTable
