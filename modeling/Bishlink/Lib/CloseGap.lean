import Mathlib.Data.List.Basic

/-!
# Closing a gap in an array

An entry is taken out of the used part of a C array by moving the entries behind it one place
down, in a loop or with `memmove`. What was used is then one entry shorter; the place behind it
keeps a copy of the last entry that moved.
-/

namespace CloseGap

variable {α : Type*}

/-- `xs[j] = xs[j + 1]`. -/
def copyDown (xs : List α) (j : ℕ) : List α := (xs[j + 1]?).elim xs fun a => xs.set j a

/-- `copyDown` at `j`, `j + 1`, and so on, `m` times. -/
def shiftDown : (xs : List α) → (j m : ℕ) → List α
  | xs, _, 0 => xs
  | xs, j, m + 1 => shiftDown (copyDown xs j) (j + 1) m

/-- `memmove(xs + dst, xs + src, n)`: the entries are as if read before any is written. -/
def memmove (xs : List α) (dst src n : ℕ) : List α :=
  xs.take dst ++ (xs.drop src).take n ++ xs.drop (dst + n)

/-- What is left in the place behind: the last entry that moved. -/
def lastMoved (a : α) (mid : List α) : α := mid.getLast?.getD a

@[simp] theorem lastMoved_cons (a b : α) (mid : List α) :
    lastMoved a (b :: mid) = lastMoved b mid := by
  rw [lastMoved, lastMoved, List.getLast?_cons, Option.getD_some]

theorem copyDown_split (pre rest : List α) (a b : α) :
    copyDown (pre ++ a :: b :: rest) pre.length = pre ++ b :: b :: rest := by
  have hnext : (pre ++ a :: b :: rest)[pre.length + 1]? = some b := by
    rw [List.getElem?_append_right (by omega), Nat.add_sub_cancel_left]
    rfl
  rw [copyDown, hnext, Option.elim_some, List.set_append_right _ _ (Nat.le_refl _), Nat.sub_self,
    List.set_cons_zero]

/-- The loop over the entries `mid` behind the gap. -/
theorem shiftDown_split (pre mid rest : List α) (a : α) :
    shiftDown (pre ++ a :: (mid ++ rest)) pre.length mid.length =
      pre ++ mid ++ lastMoved a mid :: rest := by
  induction mid generalizing pre a with
  | nil =>
    rw [List.append_nil]
    rfl
  | cons b mid ih =>
    have hpre : pre ++ b :: b :: (mid ++ rest) = (pre ++ [b]) ++ b :: (mid ++ rest) := by
      rw [List.append_assoc, List.singleton_append]
    have hlen : pre.length + 1 = (pre ++ [b]).length := by
      rw [List.length_append, List.length_singleton]
    rw [List.length_cons, shiftDown, List.cons_append, copyDown_split, hpre, hlen, ih,
      lastMoved_cons, List.append_assoc pre, List.singleton_append]

theorem drop_lastMoved (mid rest : List α) (a : α) :
    (a :: (mid ++ rest)).drop mid.length = lastMoved a mid :: rest := by
  induction mid generalizing a with
  | nil => rfl
  | cons b mid ih => rw [List.length_cons, List.drop_succ_cons, List.cons_append, ih,
    lastMoved_cons]

/-- `memmove` over them does the same. -/
theorem memmove_split (pre mid rest : List α) (a : α) :
    memmove (pre ++ a :: (mid ++ rest)) pre.length (pre.length + 1) mid.length =
      pre ++ mid ++ lastMoved a mid :: rest := by
  rw [memmove, List.take_left, ← List.drop_drop, List.drop_left, List.drop_succ_cons,
    List.drop_zero, List.take_left, ← List.drop_drop, List.drop_left, drop_lastMoved]

end CloseGap
