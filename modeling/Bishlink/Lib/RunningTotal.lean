import Mathlib.Algebra.BigOperators.Group.List.Basic
import Mathlib.Algebra.GroupWithZero.Nat
import Mathlib.Data.List.GetD
import Mathlib.Order.Interval.Finset.Nat

/-!
# Shares of a range

A list of numbers cuts the range up to its sum into consecutive blocks, one for each entry.
`blockOf` finds the block of an index by the running total, and a block holds as many indices as
its entry says (`card_blockOf`).
-/

namespace RunningTotal

/-- The block an index falls into: the first entry whose running total is above it. -/
def blockOf : (xs : List ℕ) → (s : ℕ) → Option ℕ
  | [], _ => none
  | x :: xs, s => if s < x then some 0 else (blockOf xs (s - x)).map (· + 1)

/-- No block is left for an index from the sum on. -/
theorem blockOf_eq_none (xs : List ℕ) (s : ℕ) : blockOf xs s = none ↔ xs.sum ≤ s := by
  induction xs generalizing s with
  | nil => exact iff_of_true rfl (Nat.zero_le s)
  | cons x xs ih =>
    unfold blockOf
    rw [List.sum_cons]
    by_cases hx : s < x
    · rw [if_pos hx]
      exact iff_of_false (by simp) (by omega)
    · rw [if_neg hx, Option.map_eq_none_iff, ih]
      omega

/-- The indices of a block follow those of the blocks in front of it. -/
theorem blockOf_eq_some (xs : List ℕ) (s i : ℕ) :
    blockOf xs s = some i ↔ (xs.take i).sum ≤ s ∧ s < (xs.take i).sum + xs.getD i 0 := by
  induction xs generalizing s i with
  | nil => exact iff_of_false (by simp [blockOf]) (by simp)
  | cons x xs ih =>
    unfold blockOf
    by_cases hx : s < x
    · rw [if_pos hx, Option.some.injEq]
      cases i with
      | zero => simpa using hx
      | succ i =>
        refine iff_of_false (Nat.succ_ne_zero i).symm fun h => ?_
        rw [List.take_succ_cons, List.sum_cons] at h
        omega
    · rw [if_neg hx]
      cases i with
      | zero => exact iff_of_false (by simp) (by simpa using hx)
      | succ i =>
        rw [Option.map_eq_some_iff]
        simp only [Nat.add_right_cancel_iff, exists_eq_right]
        rw [ih, List.take_succ_cons, List.sum_cons, List.getD_cons_succ]
        omega

theorem lt_length_of_blockOf {xs : List ℕ} {s i : ℕ} (h : blockOf xs s = some i) :
    i < xs.length := by
  by_contra hi
  have hlt := (blockOf_eq_some xs s i).mp h
  rw [List.getD_eq_default _ _ (Nat.not_lt.mp hi)] at hlt
  omega

/-- The blocks up to the end of one are no more than all of them. -/
theorem sum_take_add_getD_le (xs : List ℕ) (i : ℕ) :
    (xs.take i).sum + xs.getD i 0 ≤ xs.sum := by
  induction xs generalizing i with
  | nil => simp
  | cons x xs ih =>
    cases i with
    | zero => simp
    | succ i =>
      have hle := ih i
      rw [List.take_succ_cons, List.sum_cons, List.sum_cons, List.getD_cons_succ]
      omega

/-- A block holds as many indices as its entry says. -/
theorem card_blockOf (xs : List ℕ) (i : ℕ) :
    ((Finset.range xs.sum).filter fun s => blockOf xs s = some i).card = xs.getD i 0 := by
  have hblock : ((Finset.range xs.sum).filter fun s => blockOf xs s = some i) =
      Finset.Ico (xs.take i).sum ((xs.take i).sum + xs.getD i 0) := by
    ext s
    have hle := sum_take_add_getD_le xs i
    rw [Finset.mem_filter, Finset.mem_range, blockOf_eq_some, Finset.mem_Ico]
    omega
  rw [hblock, Nat.card_Ico]
  omega

end RunningTotal
