import Mathlib.Data.List.Basic
import Mathlib.Data.List.Nodup

/-!
# Lives of objects in a trace

Each event of a trace is about one object, and an object goes through phases: `next` says which
event is allowed in which phase and where it leads. `check next q es` follows the events of one
object from phase `q` on, and gives nothing when one of them is not allowed. Events that take an
object from phase to phase compose (`check_about_append`), and what happens to different objects in
turn is the life of each of them (`about_flatMap`).
-/

namespace Lives

variable {κ ε τ : Type*}

/-- The phase that events lead to. -/
def check (next : τ → ε → Option τ) : τ → List ε → Option τ
  | q, [] => some q
  | q, e :: es => (next q e).bind fun q' => check next q' es

@[simp] theorem check_nil (next : τ → ε → Option τ) (q : τ) : check next q [] = some q := rfl

theorem check_cons {next : τ → ε → Option τ} {q : τ} {e : ε} {es : List ε} :
    check next q (e :: es) = (next q e).bind fun q' => check next q' es := rfl

/-- Events one after the other. -/
theorem check_append {next : τ → ε → Option τ} {q : τ} {es es' : List ε} :
    check next q (es ++ es') = (check next q es).bind fun q' => check next q' es' := by
  induction es generalizing q with
  | nil => rfl
  | cons e es ih =>
    rw [List.cons_append, check_cons, check_cons]
    cases next q e with
    | none => rfl
    | some q' => exact ih

/-- Events that stay in the phase. -/
theorem check_stay {next : τ → ε → Option τ} {q : τ} {es : List ε}
    (h : ∀ e ∈ es, next q e = some q) : check next q es = some q := by
  induction es with
  | nil => rfl
  | cons e es ih =>
    rw [check_cons, h e List.mem_cons_self]
    exact ih fun e' he' => h e' (List.mem_cons_of_mem e he')

section About

variable [DecidableEq κ] (key : ε → κ)

/-- The events of one object. -/
def about (k : κ) (es : List ε) : List ε := es.filter fun e => key e = k

theorem about_append (k : κ) (es es' : List ε) :
    about key k (es ++ es') = about key k es ++ about key k es' := List.filter_append ..

/-- Events of one object are all of this one. -/
theorem about_of_all {k : κ} {es : List ε} (h : ∀ e ∈ es, key e = k) : about key k es = es :=
  List.filter_eq_self.mpr fun e he => decide_eq_true (h e he)

/-- Events of other objects. -/
theorem about_of_none {k : κ} {es : List ε} (h : ∀ e ∈ es, key e ≠ k) : about key k es = [] :=
  List.filter_eq_nil_iff.mpr fun e he hk => h e he (of_decide_eq_true hk)

/-- What happens to different objects in turn. -/
theorem about_flatMap {ks : List κ} (hnodup : ks.Nodup) {f : κ → List ε}
    (hkey : ∀ k, ∀ e ∈ f k, key e = k) (k : κ) :
    about key k (ks.flatMap f) = if k ∈ ks then f k else [] := by
  induction ks with
  | nil => rfl
  | cons k' ks ih =>
    obtain ⟨hnot, hnodup⟩ := List.nodup_cons.mp hnodup
    rw [List.flatMap_cons, about_append, ih hnodup]
    by_cases heq : k = k'
    · rw [heq, if_neg hnot, if_pos List.mem_cons_self, about_of_all key (hkey k'), List.append_nil]
    · rw [about_of_none key fun e he hk => heq (hk.symm.trans (hkey k' e he)), List.nil_append]
      refine if_congr ?_ rfl rfl
      rw [List.mem_cons, or_iff_right heq]

/-- Lives go on. -/
theorem check_about_append {next : τ → ε → Option τ} {k : κ} {q q' q'' : τ} {es es' : List ε}
    (h : check next q (about key k es) = some q')
    (h' : check next q' (about key k es') = some q'') :
    check next q (about key k (es ++ es')) = some q'' := by
  rw [about_append, check_append, h]
  exact h'

end About

end Lives
