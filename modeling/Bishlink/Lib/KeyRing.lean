import Mathlib.Data.List.Basic

/-!
# A ring that remembers keys

A fixed number of slots, given away in turn, as the memory of the keys that were seen: a key
that has a slot keeps it, any other key takes the slot at the index.

* `KeyRing.taken` counts the slots that other keys take;
* `KeyRing.age` is how many slots are taken before a slot is given away again.
-/

/-- The key of each slot, and the slot that is given away next. -/
structure KeyRing (κ : Type*) where
  keys : List (Option κ)
  index : ℕ
  index_lt : index < keys.length

namespace KeyRing

variable {κ : Type*}

theorem ext {r r' : KeyRing κ} (hkeys : r.keys = r'.keys) (hindex : r.index = r'.index) :
    r = r' := by
  cases r
  cases r'
  cases hkeys
  cases hindex
  rfl

/-- A key takes the slot at the index; a key that does not stay leaves it unused. -/
def take (r : KeyRing κ) (k : κ) (stays : Bool) : KeyRing κ where
  keys := r.keys.set r.index (if stays then some k else none)
  index := (r.index + 1) % r.keys.length
  index_lt := by
    rw [List.length_set]
    exact Nat.mod_lt _ (Nat.zero_lt_of_lt r.index_lt)

/-- How many slots are given away before slot `i` is. -/
def age (r : KeyRing κ) (i : ℕ) : ℕ := (i + r.keys.length - r.index) % r.keys.length

@[simp] theorem length_keys_take (r : KeyRing κ) (k : κ) (stays : Bool) :
    (r.take k stays).keys.length = r.keys.length := List.length_set

/-- The slot at the index is the oldest. -/
theorem age_index (r : KeyRing κ) : r.age r.index = 0 := by
  unfold age
  rw [Nat.add_sub_cancel_left, Nat.mod_self]

/-- Giving a slot away makes the others older. -/
theorem age_take {r : KeyRing κ} {i : ℕ} (hi : i < r.keys.length) (hne : i ≠ r.index) (k : κ)
    (stays : Bool) : (r.take k stays).age i + 1 = r.age i := by
  have hlt := r.index_lt
  unfold age
  rw [length_keys_take]
  show (i + r.keys.length - (r.index + 1) % r.keys.length) % r.keys.length + 1 = _
  rcases Nat.lt_or_ge (r.index + 1) r.keys.length with hstep | hwrap
  · rw [Nat.mod_eq_of_lt hstep]
    rcases Nat.lt_or_ge i r.index with hbefore | hafter
    · rw [Nat.mod_eq_of_lt (by omega), Nat.mod_eq_of_lt (by omega)]
      omega
    · have hsub : i + r.keys.length - (r.index + 1) = i - (r.index + 1) + r.keys.length := by omega
      have hsub' : i + r.keys.length - r.index = i - r.index + r.keys.length := by omega
      rw [hsub, hsub', Nat.add_mod_right, Nat.add_mod_right, Nat.mod_eq_of_lt (by omega),
        Nat.mod_eq_of_lt (by omega)]
      omega
  · have hlast : r.index + 1 = r.keys.length := by omega
    rw [hlast, Nat.mod_self, Nat.sub_zero, Nat.add_mod_right, Nat.mod_eq_of_lt hi,
      Nat.mod_eq_of_lt (by omega)]
    omega

/-- The slot that was just taken is the youngest. -/
theorem age_take_index (r : KeyRing κ) (k : κ) (stays : Bool) :
    (r.take k stays).age r.index + 1 = r.keys.length := by
  have hlt := r.index_lt
  unfold age
  rw [length_keys_take]
  show (r.index + r.keys.length - (r.index + 1) % r.keys.length) % r.keys.length + 1 = _
  rcases Nat.lt_or_ge (r.index + 1) r.keys.length with hstep | hwrap
  · rw [Nat.mod_eq_of_lt hstep, Nat.mod_eq_of_lt (by omega)]
    omega
  · have hlast : r.index + 1 = r.keys.length := by omega
    rw [hlast, Nat.mod_self, Nat.sub_zero, Nat.add_mod_right, Nat.mod_eq_of_lt hlt]
    exact hlast

/-- A key that stays somewhere stays there until its slot is taken. -/
theorem getElem?_take_of_ne {r : KeyRing κ} {i : ℕ} (hne : i ≠ r.index) (k : κ) (stays : Bool) :
    (r.take k stays).keys[i]? = r.keys[i]? := List.getElem?_set_ne (Ne.symm hne)

/-- The keys after a slot was taken. -/
theorem getElem?_take_eq_some {r : KeyRing κ} {k k' : κ} {stays : Bool} {j : ℕ}
    (h : (r.take k' stays).keys[j]? = some (some k)) :
    (j = r.index ∧ stays = true ∧ k' = k) ∨ (j ≠ r.index ∧ r.keys[j]? = some (some k)) := by
  by_cases hj : j = r.index
  · refine Or.inl ⟨hj, ?_⟩
    have hlt := r.index_lt
    rw [hj, take, List.getElem?_set_self hlt, Option.some.injEq] at h
    cases stays with
    | false => exact absurd h (by simp)
    | true =>
      simp only [if_true, Option.some.injEq] at h
      exact ⟨rfl, h⟩
  · refine Or.inr ⟨hj, ?_⟩
    rw [getElem?_take_of_ne hj] at h
    exact h

/-- No key has two slots. -/
def Distinct (r : KeyRing κ) : Prop :=
  ∀ (i j : ℕ) (k : κ), r.keys[i]? = some (some k) → r.keys[j]? = some (some k) → i = j

/-! ## Keys that come -/

variable [DecidableEq κ]

/-- A key comes: it has a slot, or it takes one. -/
def touch (r : KeyRing κ) (k : κ) (stays : Bool) : KeyRing κ :=
  if some k ∈ r.keys then r else r.take k stays

/-- Each key comes while it has no slot. -/
def allNew (r : KeyRing κ) : List κ → Bool
  | [] => true
  | k :: ks => decide (some k ∉ r.keys) && (r.touch k true).allNew ks

/-- How many slots keys other than `k` take while keys come. -/
def taken (k : κ) : KeyRing κ → List (κ × Bool) → ℕ
  | _, [] => 0
  | r, (k', stays) :: ks =>
    (if some k' ∉ r.keys ∧ k' ≠ k then 1 else 0) + taken k (r.touch k' stays) ks

theorem touch_of_mem {r : KeyRing κ} {k : κ} (h : some k ∈ r.keys) (stays : Bool) :
    r.touch k stays = r := if_pos h

theorem touch_of_not_mem {r : KeyRing κ} {k : κ} (h : some k ∉ r.keys) (stays : Bool) :
    r.touch k stays = r.take k stays := if_neg h

/-- The keys after a key came are this one and those before. -/
theorem mem_keys_touch {r : KeyRing κ} {k k' : κ} {stays : Bool}
    (h : some k ∈ (r.touch k' stays).keys) : k = k' ∨ some k ∈ r.keys := by
  by_cases hmem : some k' ∈ r.keys
  · rw [touch_of_mem hmem] at h
    exact Or.inr h
  · rw [touch_of_not_mem hmem] at h
    obtain ⟨j, hj⟩ := List.mem_iff_getElem?.mp h
    rcases getElem?_take_eq_some hj with ⟨-, -, heq⟩ | ⟨-, hold⟩
    · exact Or.inl heq.symm
    · exact Or.inr (List.mem_of_getElem? hold)

/-- A key that comes takes a slot only when it has none. -/
theorem Distinct.touch {r : KeyRing κ} (h : r.Distinct) (k : κ) (stays : Bool) :
    (r.touch k stays).Distinct := by
  by_cases hmem : some k ∈ r.keys
  · rw [touch_of_mem hmem]
    exact h
  · rw [touch_of_not_mem hmem]
    intro i j k' hi hj
    have hnew : ∀ {i' : ℕ}, r.keys[i']? = some (some k) → False :=
      fun hi' => hmem (List.mem_of_getElem? hi')
    rcases getElem?_take_eq_some hi with ⟨rfl, -, rfl⟩ | ⟨-, hi⟩
    · rcases getElem?_take_eq_some hj with ⟨rfl, -, -⟩ | ⟨-, hj⟩
      · rfl
      · exact (hnew hj).elim
    · rcases getElem?_take_eq_some hj with ⟨-, -, rfl⟩ | ⟨-, hj⟩
      · exact (hnew hi).elim
      · exact h i j k' hi hj

/-- The slots that are taken while a key that has a slot comes. -/
theorem taken_cons_of_mem {r : KeyRing κ} {k' : κ} (h : some k' ∈ r.keys) (k : κ) (stays : Bool)
    (ks : List (κ × Bool)) : taken k r ((k', stays) :: ks) = taken k r ks := by
  rw [taken, touch_of_mem h, if_neg fun hnot => hnot.1 h, Nat.zero_add]

/-- While a key takes a slot. -/
theorem taken_cons_of_not_mem {r : KeyRing κ} {k' : κ} (h : some k' ∉ r.keys) (k : κ)
    (stays : Bool) (ks : List (κ × Bool)) :
    taken k r ((k', stays) :: ks) =
      (if k' ≠ k then 1 else 0) + taken k (r.take k' stays) ks := by
  rw [taken, touch_of_not_mem h]
  simp only [h, not_false_eq_true, true_and]

end KeyRing
