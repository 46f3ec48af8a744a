import Mathlib.Order.Bounds.Basic

/-!
# A running minimum with a mark

A minimum that is kept in one variable, where one of its values, the mark, stands for "nothing seen
yet". It is the minimum as long as the mark itself is not the least value seen when a larger one
comes (`tracks_next_iff`).
-/

namespace MarkedMin

variable {α : Type*} [LinearOrder α]

/-- A value is taken in: it becomes the minimum when there is none yet, or when it is below it. -/
def next (mark m x : α) : α := if m = mark ∨ x < m then x else m

/-- The variable holds the mark before the first value, and the least one from then on. -/
def Tracks (mark : α) (seen : List α) (m : α) : Prop :=
  (seen = [] ∧ m = mark) ∨ IsLeast {x | x ∈ seen} m

variable {mark m x : α} {seen : List α}

theorem tracks_nil (mark : α) : Tracks mark [] mark := Or.inl ⟨rfl, rfl⟩

theorem tracks_concat : Tracks mark (seen ++ [x]) m ↔ IsLeast {y | y ∈ seen ++ [x]} m := by
  unfold Tracks
  rw [or_iff_right]
  intro h
  exact List.append_ne_nil_of_right_ne_nil seen (List.cons_ne_nil x []) h.1

/-- The values seen with one more. -/
theorem isLeast_concat :
    IsLeast {y | y ∈ seen ++ [x]} m ↔
      (m ∈ seen ∨ m = x) ∧ (∀ y ∈ seen, m ≤ y) ∧ m ≤ x := by
  constructor
  · intro h
    have hmem : m ∈ seen ++ [x] := h.1
    rw [List.mem_append, List.mem_singleton] at hmem
    refine ⟨hmem, fun y hy => h.2 (List.mem_append_left [x] hy), ?_⟩
    exact h.2 (List.mem_append_right seen (List.mem_singleton_self x))
  · rintro ⟨hmem, hseen, hx⟩
    refine ⟨?_, fun y hy => ?_⟩
    · show m ∈ seen ++ [x]
      rw [List.mem_append, List.mem_singleton]
      exact hmem
    · have hy' : y ∈ seen ++ [x] := hy
      rw [List.mem_append, List.mem_singleton] at hy'
      rcases hy' with hy' | rfl
      · exact hseen y hy'
      · exact hx

/-- One more value. The mark can be the least value seen, and then it reads as "none". -/
theorem tracks_next_iff (h : Tracks mark seen m) :
    Tracks mark (seen ++ [x]) (next mark m x) ↔ (IsLeast {y | y ∈ seen} mark → x ≤ mark) := by
  rw [tracks_concat, isLeast_concat]
  unfold next
  rcases h with ⟨rfl, rfl⟩ | hleast
  · rw [if_pos (Or.inl rfl)]
    refine iff_of_true ⟨Or.inr rfl, fun y hy => absurd hy List.not_mem_nil, le_rfl⟩ ?_
    intro hmark
    exact absurd hmark.1 List.not_mem_nil
  · by_cases hmark : m = mark
    · subst hmark
      rw [if_pos (Or.inl rfl)]
      constructor
      · intro hall _
        exact hall.2.1 m hleast.1
      · intro hle
        exact ⟨Or.inr rfl, fun y hy => (hle hleast).trans (hleast.2 hy), le_rfl⟩
    · have hnot : ¬IsLeast {y | y ∈ seen} mark := fun hother => hmark (hleast.unique hother)
      refine iff_of_true ?_ fun hother => absurd hother hnot
      by_cases hlt : x < m
      · rw [if_pos (Or.inr hlt)]
        exact ⟨Or.inr rfl, fun y hy => hlt.le.trans (hleast.2 hy), le_rfl⟩
      · rw [if_neg (not_or.mpr ⟨hmark, hlt⟩)]
        exact ⟨Or.inl hleast.1, fun y hy => hleast.2 hy, not_lt.mp hlt⟩

end MarkedMin
