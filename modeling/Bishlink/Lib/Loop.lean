import Mathlib.Data.List.Basic
import Mathlib.Order.Basic

/-!
# Loops that need not end

A loop is a step function `σ → Option σ` that gives nothing when the loop is left. `Ends step s v t`
says that the loop, entered in `s`, is left in `t`, and that `v` are the states in which its body
ran. A loop that comes back to its own state is never left (`not_ends_of_stuck`).
-/

namespace Loop

variable {σ : Type*} {step : σ → Option σ}

/-- The loop ends, and these are the states its body ran in. -/
inductive Ends (step : σ → Option σ) : σ → List σ → σ → Prop
  | done {s : σ} : step s = none → Ends step s [] s
  | next {s s' t : σ} {v : List σ} : step s = some s' → Ends step s' v t → Ends step s (s :: v) t

/-- A loop ends in one way. -/
theorem Ends.unique {s t t' : σ} {v v' : List σ} (h : Ends step s v t) (h' : Ends step s v' t') :
    v = v' ∧ t = t' := by
  induction h generalizing v' t' with
  | done hnone =>
    cases h' with
    | done _ => exact ⟨rfl, rfl⟩
    | next hsome _ => exact absurd (hnone.symm.trans hsome) (by simp)
  | next hsome _ ih =>
    cases h' with
    | done hnone => exact absurd (hnone.symm.trans hsome) (by simp)
    | next hsome' hrest =>
      obtain rfl := Option.some.inj (hsome.symm.trans hsome')
      obtain ⟨rfl, rfl⟩ := ih hrest
      exact ⟨rfl, rfl⟩

/-- A loop that ends after a step ends. -/
theorem ends_of_step {s s' : σ} (h : step s = some s') :
    (∃ v t, Ends step s v t) ↔ ∃ v t, Ends step s' v t := by
  constructor
  · rintro ⟨v, t, hends⟩
    cases hends with
    | done hnone => exact absurd (h.symm.trans hnone) (by simp)
    | next hsome hrest =>
      obtain rfl := Option.some.inj (h.symm.trans hsome)
      exact ⟨_, _, hrest⟩
  · rintro ⟨v, t, hends⟩
    exact ⟨_, _, .next h hends⟩

/-- A body that changes nothing runs forever. -/
theorem not_ends_of_stuck {s : σ} (h : step s = some s) (v : List σ) (t : σ) :
    ¬Ends step s v t := by
  intro hends
  induction hends with
  | done hnone => exact absurd (h.symm.trans hnone) (by simp)
  | next hsome _ ih =>
    obtain rfl := Option.some.inj (h.symm.trans hsome)
    exact ih h

/-- What the body keeps holds when the loop is left. -/
theorem Ends.invariant {P : σ → Prop} (hstep : ∀ s s', step s = some s' → P s → P s') {s t : σ}
    {v : List σ} (h : Ends step s v t) (hs : P s) : P t := by
  induction h with
  | done _ => exact hs
  | next hsome _ ih => exact ih (hstep _ _ hsome hs)

/-- A body that moves a counter up, or changes nothing, runs at each value of the counter at most
once in a loop that ends. -/
theorem Ends.pairwise_lt {α : Type*} [Preorder α] {f : σ → α}
    (hstep : ∀ s s', step s = some s' → s' = s ∨ f s < f s') {s t : σ} {v : List σ}
    (h : Ends step s v t) :
    (v.map f).Pairwise (· < ·) ∧ ∀ u ∈ v, f s ≤ f u := by
  induction h with
  | done _ => exact ⟨List.Pairwise.nil, fun u hu => absurd hu List.not_mem_nil⟩
  | @next s s' t v hsome hrest ih =>
    obtain ⟨hpair, hle⟩ := ih
    rcases hstep s s' hsome with rfl | hlt
    · exact absurd hrest (not_ends_of_stuck hsome v t)
    · refine ⟨?_, ?_⟩
      · rw [List.map_cons, List.pairwise_cons]
        refine ⟨fun k hk => ?_, hpair⟩
        obtain ⟨u, hu, rfl⟩ := List.mem_map.mp hk
        exact hlt.trans_le (hle u hu)
      · intro u hu
        rcases List.mem_cons.mp hu with rfl | hu
        · exact le_rfl
        · exact hlt.le.trans (hle u hu)

/-- The state in which the loop is left, if it is after fewer than `n` rounds. -/
def leave (step : σ → Option σ) : ℕ → σ → Option σ
  | 0, _ => none
  | n + 1, s =>
    match step s with
    | none => some s
    | some s' => leave step n s'

theorem Ends.leave_eq {s t : σ} {v : List σ} (h : Ends step s v t) {n : ℕ} (hn : v.length < n) :
    leave step n s = some t := by
  induction h generalizing n with
  | done hnone =>
    obtain ⟨n, rfl⟩ := Nat.exists_eq_add_one_of_ne_zero (by omega : n ≠ 0)
    rw [leave, hnone]
  | next hsome _ ih =>
    obtain ⟨n, rfl⟩ := Nat.exists_eq_add_one_of_ne_zero (by omega : n ≠ 0)
    rw [List.length_cons] at hn
    rw [leave, hsome]
    exact ih (by omega)

end Loop
