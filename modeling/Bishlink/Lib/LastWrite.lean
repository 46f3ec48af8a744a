import Bishlink.Lib.Runs

/-!
# The last write of a run

A register of a system that takes one step after another: some steps write it, the others
leave it. What it reads after a run is what the last step that wrote it has written
(`read_eq_iff`). Whether a step writes may depend on the state that it is taken in.
-/

namespace LastWrite

open Runs

variable {σ ι α : Type*}

/-- A step of the run writes `a`, and no later one writes. -/
def LastWrites (step : σ → ι → σ) (write : σ → ι → Option α) (s : σ) (is : List ι) (a : α) :
    Prop :=
  ∃ pre i post, is = pre ++ i :: post ∧ write (pre.foldl step s) i = some a ∧
    ∀ mid j rest, post = mid ++ j :: rest → write ((pre ++ i :: mid).foldl step s) j = none

variable {step : σ → ι → σ} {write : σ → ι → Option α} {s : σ}

theorem not_lastWrites_nil (a : α) : ¬LastWrites step write s [] a := by
  rintro ⟨pre, i, post, h, -⟩
  exact absurd h.symm (by simp)

/-- A run that ends in a write. -/
theorem lastWrites_of_write {is : List ι} {i : ι} {a b : α}
    (h : write (is.foldl step s) i = some b) :
    LastWrites step write s (is ++ [i]) a ↔ a = b := by
  constructor
  · rintro ⟨pre, j, post, his, hj, hpost⟩
    rcases concat_eq_split.mp his with ⟨rfl, rfl, -⟩ | ⟨mid, rfl, rfl⟩
    · exact Option.some.inj (hj.symm.trans h)
    · -- the last step would be one that does not write
      rw [hpost mid _ [] rfl] at h
      exact absurd h.symm (Option.some_ne_none b)
  · rintro rfl
    refine ⟨is, i, [], rfl, h, ?_⟩
    intro mid j rest hrest
    exact absurd hrest.symm (by simp)

/-- A run that does not end in a write. -/
theorem lastWrites_of_not_write {is : List ι} {i : ι} {a : α}
    (h : write (is.foldl step s) i = none) :
    LastWrites step write s (is ++ [i]) a ↔ LastWrites step write s is a := by
  constructor
  · rintro ⟨pre, j, post, his, hj, hpost⟩
    rcases concat_eq_split.mp his with ⟨rfl, rfl, -⟩ | ⟨post, rfl, rfl⟩
    · rw [hj] at h
      exact absurd h (Option.some_ne_none a)
    · refine ⟨pre, j, post, rfl, hj, ?_⟩
      rintro mid k rest rfl
      exact hpost mid k (rest ++ [i]) (by simp)
  · rintro ⟨pre, j, post, rfl, hj, hpost⟩
    refine ⟨pre, j, post ++ [i], by simp, hj, ?_⟩
    intro mid k rest hrest
    rcases concat_eq_split.mp hrest with ⟨rfl, rfl, -⟩ | ⟨rest, rfl, -⟩
    · exact h
    · exact hpost mid k rest rfl

/-- A register that starts empty reads `a` after a run exactly when the run's last write put
`a` there: every step that keeps the invariant either writes the register or leaves it. -/
theorem read_eq_iff {β : Type*} {write : σ → ι → Option (Option β)} (read : σ → Option β)
    (Inv : σ → Prop) (hinv : ∀ s i, Inv s → Inv (step s i))
    (hread : ∀ s i, Inv s → read (step s i) = (write s i).getD (read s))
    (hs : Inv s) (hempty : read s = none) (is : List ι) (b : β) :
    read (is.foldl step s) = some b ↔ LastWrites step write s is (some b) := by
  have hrun : ∀ is : List ι, Inv (is.foldl step s) := by
    intro is
    induction is using List.reverseRecOn with
    | nil => exact hs
    | append_singleton is i ih =>
      rw [List.foldl_append]
      exact hinv _ i ih
  induction is using List.reverseRecOn with
  | nil =>
    rw [List.foldl_nil, hempty]
    exact iff_of_false (Option.some_ne_none b).symm (not_lastWrites_nil _)
  | append_singleton is i ih =>
    rw [List.foldl_append, List.foldl_cons, List.foldl_nil, hread _ i (hrun is)]
    cases hwrite : write (is.foldl step s) i with
    | none =>
      rw [lastWrites_of_not_write hwrite, Option.getD_none]
      exact ih
    | some w =>
      rw [lastWrites_of_write hwrite, Option.getD_some]
      exact eq_comm

end LastWrite
