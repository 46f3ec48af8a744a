import Mathlib.Data.List.GetD
import Mathlib.LinearAlgebra.Lagrange

/-!
# Codes by interpolation

A block of `d` symbols of `size` letters, over an alphabet that a field gives its operations. Letter
by letter, the symbols are the values of a polynomial of degree less than `d` at `d` points; the
other symbols of the code are its values at further points (`symbolAt`). Any `d` symbols determine
the polynomial, so all others follow from them (`symbolAt_eq`).
-/

namespace Interpolation

open Finset

section Values

variable {F ι : Type*} [Field F] [DecidableEq ι] {s t : Finset ι} {v w r : ι → F}

/-- The value at `x` of the polynomial with values `r` at the points `v` of `s`. -/
noncomputable def valueAt (s : Finset ι) (v r : ι → F) (x : F) : F :=
  (Lagrange.interpolate s v r).eval x

theorem valueAt_node (hv : Set.InjOn v s) {i : ι} (hi : i ∈ s) : valueAt s v r (v i) = r i :=
  Lagrange.eval_interpolate_at_node r hv hi

/-- The polynomial follows from as many of its values at other points. -/
theorem valueAt_eq (hv : Set.InjOn v s) (hw : Set.InjOn w t) (hcard : t.card = s.card)
    {r' : ι → F} (h : ∀ j ∈ t, r' j = valueAt s v r (w j)) (x : F) :
    valueAt t w r' x = valueAt s v r x := by
  have hdegree : (Lagrange.interpolate s v r).degree < t.card := by
    rw [hcard]
    exact Lagrange.degree_interpolate_lt r hv
  have hpoly := Lagrange.eq_interpolate_of_eval_eq r' hw hdegree fun j hj => (h j hj).symm
  unfold valueAt
  rw [hpoly]

/-- A polynomial with a single value is constant. -/
theorem valueAt_const (hv : Set.InjOn v s) (hs : s.Nonempty) (c x : F) :
    valueAt s v (fun _ => c) x = c := by
  have hdegree : (Polynomial.C c).degree < s.card :=
    lt_of_le_of_lt Polynomial.degree_C_le (by exact_mod_cast hs.card_pos)
  have hpoly := Lagrange.eq_interpolate_of_eval_eq (fun _ => c) hv hdegree fun _ _ =>
    Polynomial.eval_C
  rw [valueAt, ← hpoly, Polynomial.eval_C]

end Values

section Symbols

variable {F α : Type*} [Field F] [Inhabited α] (e : α ≃ F) {d size : ℕ} {v w : ℕ → F}
  {rows rows' : ℕ → List α}

/-- The symbol at `x` of the block that has the symbols `rows` at the points `v`. -/
noncomputable def symbolAt (d size : ℕ) (v : ℕ → F) (rows : ℕ → List α) (x : F) : List α :=
  (List.range size).map fun k =>
    e.symm (valueAt (range d) v (fun i => e ((rows i).getD k default)) x)

@[simp] theorem length_symbolAt (x : F) : (symbolAt e d size v rows x).length = size := by
  rw [symbolAt, List.length_map, List.length_range]

theorem getD_symbolAt (x : F) {k : ℕ} (hk : k < size) :
    (symbolAt e d size v rows x).getD k default =
      e.symm (valueAt (range d) v (fun i => e ((rows i).getD k default)) x) := by
  rw [symbolAt, List.getD_eq_getElem?_getD, List.getElem?_map, List.getElem?_range hk,
    Option.map_some, Option.getD_some]

/-- At its points the block has its symbols. -/
theorem symbolAt_node (hv : Set.InjOn v (range d)) {i : ℕ} (hi : i < d)
    (hlength : (rows i).length = size) : symbolAt e d size v rows (v i) = rows i := by
  refine List.ext_getElem (by rw [length_symbolAt, hlength]) fun k hk hk' => ?_
  rw [length_symbolAt] at hk
  have hletter : (symbolAt e d size v rows (v i)).getD k default = _ := getD_symbolAt e (v i) hk
  rw [valueAt_node hv (mem_range.mpr hi), e.symm_apply_apply,
    List.getD_eq_getElem _ _ (by rw [length_symbolAt]; exact hk),
    List.getD_eq_getElem _ _ hk'] at hletter
  exact hletter

/-- In a block of equal symbols all symbols are equal. -/
theorem symbolAt_const (hv : Set.InjOn v (range d)) (hd : 0 < d) {b : List α}
    (hlength : b.length = size) (x : F) : symbolAt e d size v (fun _ => b) x = b := by
  refine List.ext_getElem (by rw [length_symbolAt, hlength]) fun k hk hk' => ?_
  rw [length_symbolAt] at hk
  have hletter : (symbolAt e d size v (fun _ => b) x).getD k default = _ := getD_symbolAt e x hk
  rw [valueAt_const hv (nonempty_range_iff.mpr hd.ne'), e.symm_apply_apply,
    List.getD_eq_getElem _ _ (by rw [length_symbolAt]; exact hk),
    List.getD_eq_getElem _ _ hk'] at hletter
  exact hletter

/-- Every symbol follows from any `d` of them. -/
theorem symbolAt_eq (hv : Set.InjOn v (range d)) (hw : Set.InjOn w (range d))
    (h : ∀ j < d, rows' j = symbolAt e d size v rows (w j)) (x : F) :
    symbolAt e d size w rows' x = symbolAt e d size v rows x := by
  refine List.map_congr_left fun k hk => ?_
  have hk := List.mem_range.mp hk
  refine congrArg e.symm (valueAt_eq hv hw rfl (fun j hj => ?_) x)
  rw [h j (mem_range.mp hj), getD_symbolAt e _ hk, e.apply_symm_apply]

end Symbols

end Interpolation
