import Mathlib.Data.List.Basic

/-!
# Checked memory accesses

Array accesses of a C function as computations that stop at the first one out of range.
A loop that touches the entries `0 .. n - 1` of an array is one check, and fails at the
first entry past the end. A checked computation is taken apart by `bind_eq_ok`.
-/

namespace Checked

/-- An access out of range: an index at or past the end of an array, or a copy longer
than the buffer it reads or fills. -/
inductive Fault where
  | index (i bound : ℕ)
  | copy (len bound : ℕ)
deriving DecidableEq

/-- One access to entry `i` of an array of `bound` entries. -/
def checkIndex (i bound : ℕ) : Except Fault Unit :=
  if i < bound then .ok () else .error (.index i bound)

/-- Accesses to the entries `0 .. n - 1` of an array of `bound` entries. -/
def checkIndices (n bound : ℕ) : Except Fault Unit :=
  if n ≤ bound then .ok () else .error (.index bound bound)

/-- A copy of `len` bytes within a buffer of `bound` bytes. -/
def checkCopy (len bound : ℕ) : Except Fault Unit :=
  if len ≤ bound then .ok () else .error (.copy len bound)

/-- Accesses to the first `size` bytes of the blocks that an array of pointers has at the
given indices. -/
def checkBlocks (size : ℕ) (blocks : List (List UInt8)) : List ℕ → Except Fault Unit
  | [] => .ok ()
  | i :: is => do
    checkIndex i blocks.length
    checkCopy size (blocks.getD i []).length
    checkBlocks size blocks is

@[simp] theorem checkIndex_eq_ok {i bound : ℕ} {u : Unit} :
    checkIndex i bound = .ok u ↔ i < bound := by
  unfold checkIndex
  split <;> simp_all

@[simp] theorem checkIndices_eq_ok {n bound : ℕ} {u : Unit} :
    checkIndices n bound = .ok u ↔ n ≤ bound := by
  unfold checkIndices
  split <;> simp_all

@[simp] theorem checkCopy_eq_ok {len bound : ℕ} {u : Unit} :
    checkCopy len bound = .ok u ↔ len ≤ bound := by
  unfold checkCopy
  split <;> simp_all

@[simp] theorem ok_bind {α β : Type} (a : α) (f : α → Except Fault β) :
    (Except.ok a >>= f) = f a := rfl

/-- A checked computation that went through: its first part did, and the rest after it. -/
theorem bind_eq_ok {α β : Type} {x : Except Fault α} {f : α → Except Fault β} {b : β} :
    (x >>= f) = .ok b ↔ ∃ a, x = .ok a ∧ f a = .ok b := by
  cases x with
  | error e => simp [bind, Except.bind]
  | ok a => simp [bind, Except.bind]

@[simp] theorem checkBlocks_eq_ok {size : ℕ} {blocks : List (List UInt8)} {is : List ℕ}
    {u : Unit} :
    checkBlocks size blocks is = .ok u ↔
      ∀ i ∈ is, i < blocks.length ∧ size ≤ (blocks.getD i []).length := by
  induction is with
  | nil => simp [checkBlocks]
  | cons i is ih =>
    rw [checkBlocks, bind_eq_ok]
    simp only [bind_eq_ok, checkIndex_eq_ok, checkCopy_eq_ok, ih, exists_const, List.mem_cons,
      forall_eq_or_imp, and_assoc]

/-! ## Two computations side by side -/

/-- Both stop at a fault, or both go through with related results. -/
inductive Rel {α β : Type} (R : α → β → Prop) : Except Fault α → Except Fault β → Prop where
  | ok {a : α} {b : β} (h : R a b) : Rel R (.ok a) (.ok b)
  | error {e e' : Fault} : Rel R (.error e) (.error e')

namespace Rel

variable {α β γ δ : Type} {R : α → β → Prop} {S : γ → δ → Prop}

theorem bind {x : Except Fault α} {y : Except Fault β} {f : α → Except Fault γ}
    {g : β → Except Fault δ} (h : Rel R x y) (hfg : ∀ a b, R a b → Rel S (f a) (g b)) :
    Rel S (x >>= f) (y >>= g) := by
  cases h with
  | ok hab => exact hfg _ _ hab
  | error => exact .error

/-- A computation beside itself. -/
theorem refl {R : α → α → Prop} (h : ∀ a, R a a) (x : Except Fault α) : Rel R x x := by
  cases x with
  | ok a => exact .ok (h a)
  | error e => exact .error

/-- The same results, when they go through: the same computation up to its faults. -/
theorem of_iff {x y : Except Fault α} (h : ∀ a, x = .ok a ↔ y = .ok a) : Rel Eq x y := by
  cases x with
  | ok a => rw [(h a).mp rfl]; exact .ok rfl
  | error e =>
    cases y with
    | ok b => exact absurd ((h b).mpr rfl) (by simp)
    | error e' => exact .error

end Rel

end Checked
