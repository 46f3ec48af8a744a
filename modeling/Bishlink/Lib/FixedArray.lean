import Mathlib.Data.List.Basic

/-!
# Fixed arrays with a count

A C array of fixed size with the number of entries in use: an append is dropped when the
array is full. As long as everything fits, a loop of guarded appends is a filter. A loop of writes
to different entries leaves in each what its own write brought.
-/

namespace FixedArray

variable {α β : Type*}

/-- `if (n < cap) xs[n++] = a`. -/
def push (cap : ℕ) (l : List α) (a : α) : List α := if l.length < cap then l ++ [a] else l

/-- Append one entry after the other. -/
def pushAll (cap : ℕ) (l : List α) (as : List α) : List α := as.foldl (push cap) l

@[simp] theorem pushAll_nil (cap : ℕ) (l : List α) : pushAll cap l [] = l := rfl

theorem pushAll_cons (cap : ℕ) (l : List α) (a : α) (as : List α) :
    pushAll cap l (a :: as) = pushAll cap (push cap l a) as := rfl

/-- Appends that fit are all kept. -/
theorem pushAll_eq {cap : ℕ} {l as : List α} (h : l.length + as.length ≤ cap) :
    pushAll cap l as = l ++ as := by
  induction as generalizing l with
  | nil => simp
  | cons a as ih =>
    rw [List.length_cons] at h
    have hpush : push cap l a = l ++ [a] := if_pos (by omega)
    rw [pushAll_cons, hpush, ih (by simp only [List.length_append, List.length_singleton]; omega),
      List.append_assoc, List.singleton_append]

/-- The appends that fit. -/
theorem pushAll_eq_take {cap : ℕ} {l : List α} (as : List α) (h : l.length ≤ cap) :
    pushAll cap l as = (l ++ as).take cap := by
  induction as generalizing l with
  | nil => rw [pushAll_nil, List.append_nil, List.take_of_length_le h]
  | cons a as ih =>
    rw [pushAll_cons, push]
    by_cases hroom : l.length < cap
    · rw [if_pos hroom, ih (by simp only [List.length_append, List.length_singleton]; omega),
        List.append_assoc, List.singleton_append]
    · have hfull : l.length = cap := Nat.le_antisymm h (Nat.not_lt.mp hroom)
      rw [if_neg hroom, ih h, List.take_left' hfull, List.take_left' hfull]

/-- A loop that appends the entries that pass a test. -/
theorem foldl_push_filter (cap : ℕ) (p : α → Bool) (as : List α) (l : List α) :
    as.foldl (fun acc a => if p a then push cap acc a else acc) l =
      pushAll cap l (as.filter p) := by
  induction as generalizing l with
  | nil => rfl
  | cons a as ih =>
    rw [List.foldl_cons, ih, List.filter_cons]
    split
    · rfl
    · rfl

/-- A loop that appends something for each entry that passes a test. -/
theorem foldl_push_filter_map (cap : ℕ) (p : β → Bool) (g : β → α) (bs : List β) (l : List α) :
    bs.foldl (fun acc b => if p b then push cap acc (g b) else acc) l =
      pushAll cap l ((bs.filter p).map g) := by
  induction bs generalizing l with
  | nil => rfl
  | cons b bs ih =>
    rw [List.foldl_cons, ih, List.filter_cons]
    split
    · rfl
    · rfl

/-! ## An entry in its place -/

theorem exists_split {l : List α} {i : ℕ} {a : α} (h : l[i]? = some a) :
    ∃ pre post, l = pre ++ a :: post ∧ pre.length = i := by
  obtain ⟨hlt, rfl⟩ := List.getElem?_eq_some_iff.mp h
  refine ⟨l.take i, l.drop (i + 1), ?_, ?_⟩
  · rw [← List.drop_eq_getElem_cons hlt, List.take_append_drop]
  · rw [List.length_take]
    omega

theorem modify_split (f : α → α) (pre post : List α) (a : α) :
    (pre ++ a :: post).modify pre.length f = pre ++ f a :: post := by
  induction pre with
  | nil => rfl
  | cons b pre ih => rw [List.cons_append, List.length_cons, List.modify_succ_cons, ih,
      List.cons_append]

theorem getElem?_split (pre post : List α) (a : α) :
    (pre ++ a :: post)[pre.length]? = some a := by
  rw [List.getElem?_append_right (Nat.le_refl _), Nat.sub_self, List.getElem?_cons_zero]

/-- The first entry with a property, in its place. -/
theorem findIdx?_split {p : α → Bool} {l : List α} {i : ℕ} (h : l.findIdx? p = some i) :
    ∃ pre a post, l = pre ++ a :: post ∧ pre.length = i ∧ p a = true ∧ ∀ b ∈ pre, p b = false := by
  induction l generalizing i with
  | nil => simp at h
  | cons b l ih =>
    rw [List.findIdx?_cons] at h
    by_cases hb : p b = true
    · rw [if_pos hb, Option.some.injEq] at h
      exact ⟨[], b, l, rfl, h, hb, by simp⟩
    · rw [if_neg hb] at h
      obtain ⟨j, hj, rfl⟩ := Option.map_eq_some_iff.mp h
      obtain ⟨pre, a, post, rfl, rfl, ha, hpre⟩ := ih hj
      refine ⟨b :: pre, a, post, rfl, rfl, ha, ?_⟩
      exact List.forall_mem_cons.mpr ⟨(Bool.not_eq_true _).mp hb, hpre⟩

/-! ## Loops of writes -/

/-- An entry after a loop of writes to different entries. -/
theorem getElem?_foldl_set {f : β → α} {qs : List (ℕ × β)} {l : List α}
    (hnodup : (qs.map Prod.fst).Nodup) (hlt : ∀ q ∈ qs, q.1 < l.length) (i : ℕ) :
    (qs.foldl (fun l q => l.set q.1 (f q.2)) l)[i]? =
      ((qs.find? fun q => q.1 == i).map fun q => f q.2).or l[i]? := by
  induction qs generalizing l with
  | nil => rfl
  | cons q qs ih =>
    rw [List.map_cons, List.nodup_cons] at hnodup
    have hrest : ∀ q' ∈ qs, q'.1 < (l.set q.1 (f q.2)).length := by
      intro q' hq'
      rw [List.length_set]
      exact hlt q' (List.mem_cons_of_mem q hq')
    rw [List.foldl_cons, ih hnodup.2 hrest]
    by_cases hi : q.1 = i
    · -- no later write goes to the same entry
      have hlater : (qs.find? fun q => q.1 == i) = none := by
        rw [List.find?_eq_none]
        intro q' hq' heq
        apply hnodup.1
        rw [hi, ← beq_iff_eq.mp heq]
        exact List.mem_map_of_mem hq'
      rw [hlater, List.find?_cons_of_pos (by simp [hi]), ← hi,
        List.getElem?_set_self (hlt q List.mem_cons_self)]
      rfl
    · rw [List.find?_cons_of_neg (by simp [hi]), List.getElem?_set_ne hi]

/-- A loop that changes different entries in place. -/
theorem foldl_modify {f : ℕ → α → α} {is : List ℕ} (hnodup : is.Nodup) (l : List α) :
    is.foldl (fun l i => l.modify i (f i)) l =
      l.mapIdx fun i a => if i ∈ is then f i a else a := by
  induction is generalizing l with
  | nil =>
    simp only [List.foldl_nil, List.not_mem_nil, if_false]
    exact List.ext_getElem? fun i => by simp
  | cons j is ih =>
    obtain ⟨hnot, hrest⟩ := List.nodup_cons.mp hnodup
    rw [List.foldl_cons, ih hrest]
    apply List.ext_getElem?
    intro i
    rw [List.getElem?_mapIdx, List.getElem?_mapIdx, List.getElem?_modify]
    by_cases hij : j = i
    · subst hij
      simp only [hnot, if_true, if_false, List.mem_cons, true_or, Option.map_eq_map,
        Option.map_map]
      rfl
    · simp [hij, Ne.symm hij]

end FixedArray
