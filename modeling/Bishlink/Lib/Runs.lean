import Mathlib.Data.List.Induction

/-!
# Runs of a labelled step function

A system is a partial step function `σ → ι → Option (σ × List ω)`: a label is tried in
a state, and either the step is refused or it gives the next state and what it put
out. `run` chains labels and collects the outputs, `Along` says that a guard holds in
the state before every step of a run, `tally` counts along a run. The rules at the end are the
induction every run property starts from: what one step preserves, a whole run preserves.
-/

namespace Runs

variable {σ ι ω : Type*}

/-- The state a list of labels leads to and everything put out on the way. -/
def run (step : σ → ι → Option (σ × List ω)) : σ → List ι → Option (σ × List ω)
  | s, [] => some (s, [])
  | s, i :: is =>
    match step s i with
    | none => none
    | some (s₁, o₁) =>
      match run step s₁ is with
      | none => none
      | some (s₂, o₂) => some (s₂, o₁ ++ o₂)

/-- `G` holds of the state before each step and of the label the step takes there. -/
def Along (step : σ → ι → Option (σ × List ω)) (G : σ → ι → Prop) : σ → List ι → Prop
  | _, [] => True
  | s, i :: is => G s i ∧ ∀ s₁ o₁, step s i = some (s₁, o₁) → Along step G s₁ is

variable {step : σ → ι → Option (σ × List ω)}

/-- A guard that can be evaluated can be checked along a run. -/
instance decidableAlong (G : σ → ι → Prop) [∀ s i, Decidable (G s i)] :
    ∀ s is, Decidable (Along step G s is)
  | _, [] => .isTrue trivial
  | s, i :: is =>
    match hstep : step s i with
    | none => decidable_of_iff (G s i) (by simp [Along, hstep])
    | some r =>
      have := decidableAlong G r.1 is
      decidable_of_iff (G s i ∧ Along step G r.1 is) (by
        obtain ⟨s₁, o₁⟩ := r
        simp [Along, hstep])

@[simp] theorem run_nil (s : σ) : run step s [] = some (s, []) := rfl

/-- A run of labels that stand for others. -/
theorem run_map {ι' : Type*} (f : ι' → ι) (s : σ) (is : List ι') :
    run step s (is.map f) = run (fun s i => step s (f i)) s is := by
  induction is generalizing s with
  | nil => rfl
  | cons i is ih => simp only [List.map_cons, run, ih]

/-- A run of one label followed by others, taken apart. -/
theorem run_cons {s s₂ : σ} {i : ι} {is : List ι} {o : List ω} :
    run step s (i :: is) = some (s₂, o) ↔
      ∃ s₁ o₁ o₂, step s i = some (s₁, o₁) ∧ run step s₁ is = some (s₂, o₂) ∧ o = o₁ ++ o₂ := by
  rw [run]
  constructor
  · intro h
    cases hstep : step s i with
    | none => simp [hstep] at h
    | some r =>
      obtain ⟨s₁, o₁⟩ := r
      cases hrun : run step s₁ is with
      | none => simp [hstep, hrun] at h
      | some r' =>
        obtain ⟨s', o'⟩ := r'
        simp only [hstep, hrun, Option.some.injEq, Prod.mk.injEq] at h
        exact ⟨s₁, o₁, o', rfl, by rw [hrun, h.1], h.2.symm⟩
  · rintro ⟨s₁, o₁, o₂, hstep, hrun, rfl⟩
    simp [hstep, hrun]

/-- Runs compose. -/
theorem run_append {s s₂ : σ} {is js : List ι} {o : List ω} :
    run step s (is ++ js) = some (s₂, o) ↔
      ∃ s₁ o₁ o₂, run step s is = some (s₁, o₁) ∧ run step s₁ js = some (s₂, o₂) ∧
        o = o₁ ++ o₂ := by
  induction is generalizing s o with
  | nil => simp
  | cons i is ih =>
    rw [List.cons_append, run_cons]
    constructor
    · rintro ⟨s₁, o₁, o₂, hstep, hrun, rfl⟩
      obtain ⟨s', o', o'', his, hjs, rfl⟩ := ih.mp hrun
      exact ⟨s', o₁ ++ o', o'', run_cons.mpr ⟨s₁, o₁, o', hstep, his, rfl⟩, hjs,
        (List.append_assoc _ _ _).symm⟩
    · rintro ⟨s', o', o'', his, hjs, rfl⟩
      obtain ⟨s₁, o₁, o₂, hstep, hrun, rfl⟩ := run_cons.mp his
      exact ⟨s₁, o₁, o₂ ++ o'', hstep, ih.mpr ⟨s', o₂, o'', hrun, hjs, rfl⟩,
        List.append_assoc _ _ _⟩

/-- The last step of a run, taken apart. -/
theorem run_concat {s s₂ : σ} {is : List ι} {i : ι} {o : List ω} :
    run step s (is ++ [i]) = some (s₂, o) ↔
      ∃ s₁ o₁ o₂, run step s is = some (s₁, o₁) ∧ step s₁ i = some (s₂, o₂) ∧ o = o₁ ++ o₂ := by
  rw [run_append]
  constructor
  · rintro ⟨s₁, o₁, o₂, his, hi, rfl⟩
    obtain ⟨s', o', o'', hstep, hnil, rfl⟩ := run_cons.mp hi
    simp only [run_nil, Option.some.injEq, Prod.mk.injEq] at hnil
    obtain ⟨rfl, rfl⟩ := hnil
    exact ⟨s₁, o₁, o', his, hstep, by simp⟩
  · rintro ⟨s₁, o₁, o₂, his, hstep, rfl⟩
    exact ⟨s₁, o₁, o₂, his, run_cons.mpr ⟨s₂, o₂, [], hstep, rfl, by simp⟩, rfl⟩

/-- A step that is never refused lets every list of labels run. -/
theorem exists_run (h : ∀ s i, ∃ r, step s i = some r) (s : σ) (is : List ι) :
    ∃ s' o, run step s is = some (s', o) := by
  induction is generalizing s with
  | nil => exact ⟨s, [], rfl⟩
  | cons i is ih =>
    obtain ⟨⟨s₁, o₁⟩, hstep⟩ := h s i
    obtain ⟨s₂, o₂, hrun⟩ := ih s₁
    exact ⟨s₂, o₁ ++ o₂, run_cons.mpr ⟨s₁, o₁, o₂, hstep, hrun, rfl⟩⟩

/-- The guard along a longer run: along the first part, and at the last step. -/
theorem along_concat {G : σ → ι → Prop} {s : σ} {is : List ι} {i : ι} :
    Along step G s (is ++ [i]) ↔
      Along step G s is ∧ ∀ s₁ o₁, run step s is = some (s₁, o₁) → G s₁ i := by
  induction is generalizing s with
  | nil =>
    constructor
    · rintro ⟨hG, -⟩
      refine ⟨trivial, fun s₁ o₁ h => ?_⟩
      simp only [run_nil, Option.some.injEq, Prod.mk.injEq] at h
      rw [← h.1]
      exact hG
    · rintro ⟨-, hG⟩
      exact ⟨hG s [] rfl, fun _ _ _ => trivial⟩
  | cons j is ih =>
    constructor
    · rintro ⟨hG, hrest⟩
      refine ⟨⟨hG, fun s₁ o₁ h => (ih.mp (hrest s₁ o₁ h)).1⟩, fun s₂ o h => ?_⟩
      obtain ⟨s₁, o₁, o₂, hstep, hrun, -⟩ := run_cons.mp h
      exact (ih.mp (hrest s₁ o₁ hstep)).2 s₂ o₂ hrun
    · rintro ⟨⟨hG, hrest⟩, hlast⟩
      refine ⟨hG, fun s₁ o₁ hstep => ih.mpr ⟨hrest s₁ o₁ hstep, fun s₂ o₂ hrun => ?_⟩⟩
      exact hlast s₂ (o₁ ++ o₂) (run_cons.mpr ⟨s₁, o₁, o₂, hstep, hrun, rfl⟩)

/-- A guard that holds of every step. -/
theorem along_of_forall {G : σ → ι → Prop} (h : ∀ s i, G s i) (s : σ) (is : List ι) :
    Along step G s is := by
  induction is generalizing s with
  | nil => exact trivial
  | cons i is ih => exact ⟨h s i, fun s₁ _ _ => ih s₁⟩

/-- A guard that does not look at the states. -/
theorem along_of_mem {G : σ → ι → Prop} {is : List ι} (h : ∀ i ∈ is, ∀ s, G s i) (s : σ) :
    Along step G s is := by
  induction is generalizing s with
  | nil => exact trivial
  | cons i is ih =>
    exact ⟨h i List.mem_cons_self s,
      fun s₁ _ _ => ih (fun j hj => h j (List.mem_cons_of_mem i hj)) s₁⟩

/-- A guard that follows from another one. -/
theorem along_mono {G G' : σ → ι → Prop} (h : ∀ s i, G s i → G' s i) {is : List ι} :
    ∀ {s : σ}, Along step G s is → Along step G' s is := by
  induction is with
  | nil => exact fun _ => trivial
  | cons i is ih =>
    intro s hG
    exact ⟨h s i hG.1, fun s₁ o₁ hstep => ih (hG.2 s₁ o₁ hstep)⟩

/-- A guard along a run holds along its front parts. -/
theorem along_front {G : σ → ι → Prop} {is js : List ι} (hpre : is <+: js) {s : σ}
    (h : Along step G s js) : Along step G s is := by
  induction is generalizing s js with
  | nil => exact trivial
  | cons i is ih =>
    cases js with
    | nil => exact absurd (List.prefix_nil.mp hpre) (List.cons_ne_nil i is)
    | cons j js =>
      obtain ⟨rfl, hrest⟩ := List.cons_prefix_cons.mp hpre
      exact ⟨h.1, fun s₁ o₁ hstep => ih hrest (h.2 s₁ o₁ hstep)⟩

/-- Two guards along a run. -/
theorem along_and {G G' : σ → ι → Prop} {s : σ} {is : List ι} (h : Along step G s is)
    (h' : Along step G' s is) : Along step (fun s i => G s i ∧ G' s i) s is := by
  induction is generalizing s with
  | nil => exact trivial
  | cons i is ih =>
    exact ⟨⟨h.1, h'.1⟩, fun s₁ o₁ hstep => ih (h.2 s₁ o₁ hstep) (h'.2 s₁ o₁ hstep)⟩

/-- A guard along one run after the other. -/
theorem along_append {G : σ → ι → Prop} {s : σ} {is js : List ι} (h : Along step G s is)
    (h' : ∀ s₁ o₁, run step s is = some (s₁, o₁) → Along step G s₁ js) :
    Along step G s (is ++ js) := by
  induction is generalizing s with
  | nil => exact h' s [] rfl
  | cons i is ih =>
    refine ⟨h.1, fun s₁ o₁ hstep => ih (h.2 s₁ o₁ hstep) fun s₂ o₂ hrun => ?_⟩
    exact h' s₂ (o₁ ++ o₂) (run_cons.mpr ⟨s₁, o₁, o₂, hstep, hrun, rfl⟩)

/-- A guard that holds of steps that are taken. -/
theorem along_of_run {G : σ → ι → Prop} (hG : ∀ s i r, step s i = some r → G s i) {s s' : σ}
    {is : List ι} {o : List ω} (h : run step s is = some (s', o)) : Along step G s is := by
  induction is generalizing s o with
  | nil => exact trivial
  | cons i is ih =>
    obtain ⟨s₁, o₁, o₂, hstep, hrun, -⟩ := run_cons.mp h
    refine ⟨hG s i _ hstep, fun s₂ o' hstep' => ?_⟩
    rw [hstep, Option.some.injEq, Prod.mk.injEq] at hstep'
    rw [← hstep'.1]
    exact ih hrun

/-- Induction over runs that sees the whole history: the labels so far, the state they
lead to and the outputs so far. -/
theorem run_induction (step : σ → ι → Option (σ × List ω)) {s₀ : σ}
    {P : List ι → σ → List ω → Prop} (init : P [] s₀ [])
    (next : ∀ is s o i s' o', run step s₀ is = some (s, o) → P is s o →
      step s i = some (s', o') → P (is ++ [i]) s' (o ++ o')) :
    ∀ is s o, run step s₀ is = some (s, o) → P is s o := by
  intro is
  induction is using List.reverseRecOn with
  | nil =>
    intro s o h
    simp only [run_nil, Option.some.injEq, Prod.mk.injEq] at h
    rw [← h.1, ← h.2]
    exact init
  | append_singleton is i ih =>
    intro s' o h
    obtain ⟨s, o₁, o₂, his, hstep, rfl⟩ := run_concat.mp h
    exact next is s o₁ i s' o₂ his (ih s o₁ his) hstep

/-- Induction over the runs whose steps all meet a guard. -/
theorem run_induction_along (step : σ → ι → Option (σ × List ω)) {s₀ : σ} {G : σ → ι → Prop}
    {P : List ι → σ → List ω → Prop}
    (init : P [] s₀ [])
    (next : ∀ is s o i s' o', run step s₀ is = some (s, o) → P is s o → G s i →
      step s i = some (s', o') → P (is ++ [i]) s' (o ++ o')) :
    ∀ is s o, Along step G s₀ is → run step s₀ is = some (s, o) → P is s o := by
  intro is s o hG hrun
  refine run_induction step
    (P := fun is s o => Along step G s₀ is → P is s o) (fun _ => init) ?_ is s o hrun hG
  intro is s o i s' o' hrun ih hstep hG
  obtain ⟨hG, hlast⟩ := along_concat.mp hG
  exact next is s o i s' o' hrun (ih hG) (hlast s o hrun) hstep

/-- Two systems side by side. While the guard holds, related states and labels take steps that
put out the same, or take none; then so do the runs. -/
theorem run_alike {σ' ι' : Type*} {step' : σ' → ι' → Option (σ' × List ω)} {R : σ → σ' → Prop}
    {L : ι → ι' → Prop} {G : σ → ι → Prop}
    (next : ∀ s s' i i', R s s' → L i i' → G s i →
      Option.Rel (fun r r' => R r.1 r'.1 ∧ r.2 = r'.2) (step s i) (step' s' i'))
    {is : List ι} {is' : List ι'} (hlabels : List.Forall₂ L is is') :
    ∀ {s : σ} {s' : σ'}, R s s' → Along step G s is →
      (run step s is).map Prod.snd = (run step' s' is').map Prod.snd := by
  induction hlabels with
  | nil =>
    intro s s' _ _
    rfl
  | @cons i i' is is' hlabel _ ih =>
    intro s s' hstates hguard
    have hstep := next s s' i i' hstates hlabel hguard.1
    -- both steps fail, or both succeed with the same output
    cases hs : step s i with
    | none =>
      rw [hs] at hstep
      cases hs' : step' s' i' with
      | none =>
        rw [run, run, hs, hs']
        rfl
      | some r' =>
        rw [hs'] at hstep
        cases hstep
    | some r =>
      rw [hs] at hstep
      cases hs' : step' s' i' with
      | none =>
        rw [hs'] at hstep
        cases hstep
      | some r' =>
        rw [hs'] at hstep
        obtain ⟨s₁, o₁⟩ := r
        obtain ⟨s₁', o₁'⟩ := r'
        cases hstep with
        | some hboth =>
          have hout : o₁ = o₁' := hboth.2
          subst hout
          have hrest := ih hboth.1 (hguard.2 s₁ o₁ hs)
          dsimp only at hrest
          rw [run, run, hs, hs']
          dsimp only
          cases hrun : run step s₁ is with
          | none =>
            rw [hrun, Option.map_none, eq_comm, Option.map_eq_none_iff] at hrest
            rw [hrest]
            rfl
          | some q =>
            rw [hrun, Option.map_some, eq_comm, Option.map_eq_some_iff] at hrest
            obtain ⟨q', hq', heq⟩ := hrest
            rw [hq']
            show some (o₁ ++ q.2) = some (o₁ ++ q'.2)
            rw [heq]

/-! ## Guards on the history

Some conditions on a step are about what happened before it, not only about the state. -/

/-- `G` holds of the labels so far, the state they lead to and the next label, at every step
of the labels. -/
def AlongHistory (step : σ → ι → Option (σ × List ω)) (G : List ι → σ → ι → Prop) (s₀ : σ)
    (is : List ι) : Prop :=
  ∀ pre i post, is = pre ++ i :: post → ∀ s o, run step s₀ pre = some (s, o) → G pre s i

/-- A guard that no label of the list can violate. -/
theorem alongHistory_of_forall {G : List ι → σ → ι → Prop} {s₀ : σ} {is : List ι}
    (h : ∀ i ∈ is, ∀ pre s, G pre s i) : AlongHistory step G s₀ is := by
  rintro pre i post rfl s - -
  exact h i (by simp) pre s

theorem alongHistory_nil (G : List ι → σ → ι → Prop) (s₀ : σ) : AlongHistory step G s₀ [] := by
  intro pre i post heq
  exact absurd heq.symm (by simp)

/-- The guard at the first step, and along the others after it. -/
theorem alongHistory_cons {G : List ι → σ → ι → Prop} {s₀ : σ} {i : ι} {is : List ι} :
    AlongHistory step G s₀ (i :: is) ↔
      G [] s₀ i ∧ ∀ s₁ o₁, step s₀ i = some (s₁, o₁) →
        AlongHistory step (fun pre => G (i :: pre)) s₁ is := by
  constructor
  · intro h
    refine ⟨h [] i is rfl s₀ [] rfl, ?_⟩
    rintro s₁ o₁ hstep pre j post rfl s o hrun
    exact h (i :: pre) j post rfl s (o₁ ++ o) (run_cons.mpr ⟨s₁, o₁, o, hstep, hrun, rfl⟩)
  · rintro ⟨hfirst, hrest⟩ pre j post heq s o hrun
    cases pre with
    | nil =>
      obtain ⟨rfl, rfl⟩ := List.cons.inj heq
      simp only [run_nil, Option.some.injEq, Prod.mk.injEq] at hrun
      rw [← hrun.1]
      exact hfirst
    | cons k pre =>
      obtain ⟨rfl, rfl⟩ := List.cons.inj heq
      obtain ⟨s₁, o₁, o₂, hstep, hrun, -⟩ := run_cons.mp hrun
      exact hrest s₁ o₁ hstep pre j post rfl s o₂ hrun

/-- A guard on the history that can be evaluated can be checked along a run. -/
instance decidableAlongHistory : ∀ (G : List ι → σ → ι → Prop) [∀ pre s i, Decidable (G pre s i)]
    (s₀ : σ) (is : List ι), Decidable (AlongHistory step G s₀ is)
  | G, _, s₀, [] => .isTrue (alongHistory_nil G s₀)
  | G, _, s₀, i :: is =>
    match hstep : step s₀ i with
    | none => decidable_of_iff (G [] s₀ i) (by simp [alongHistory_cons, hstep])
    | some r =>
      have := decidableAlongHistory (fun pre => G (i :: pre)) r.1 is
      decidable_of_iff (G [] s₀ i ∧ AlongHistory step (fun pre => G (i :: pre)) r.1 is) (by
        obtain ⟨s₁, o₁⟩ := r
        simp [alongHistory_cons, hstep])

/-- A list that grows by one, taken apart at one of its entries: it is the new one, or it was
there. -/
theorem concat_eq_split {α : Type*} {l pre post : List α} {a b : α} :
    l ++ [a] = pre ++ b :: post ↔
      (pre = l ∧ b = a ∧ post = []) ∨ ∃ post', l = pre ++ b :: post' ∧ post = post' ++ [a] := by
  constructor
  · intro h
    rcases List.eq_nil_or_concat post with rfl | ⟨post', c, rfl⟩
    · obtain ⟨rfl, hb⟩ := List.append_inj' h rfl
      exact Or.inl ⟨rfl, (List.singleton_inj.mp hb).symm, rfl⟩
    · rw [List.concat_eq_append, ← List.cons_append, ← List.append_assoc] at h
      obtain ⟨rfl, hc⟩ := List.append_inj' h rfl
      rw [List.concat_eq_append, List.singleton_inj.mp hc]
      exact Or.inr ⟨post', rfl, rfl⟩
  · rintro (⟨rfl, rfl, rfl⟩ | ⟨post', rfl, rfl⟩)
    · rfl
    · rw [List.append_assoc, List.cons_append]

/-- The guard along a longer list: along the first part, and at the last step. -/
theorem alongHistory_concat {G : List ι → σ → ι → Prop} {s₀ : σ} {is : List ι} {i : ι} :
    AlongHistory step G s₀ (is ++ [i]) ↔
      AlongHistory step G s₀ is ∧ ∀ s o, run step s₀ is = some (s, o) → G is s i := by
  constructor
  · intro h
    refine ⟨?_, fun s o hrun => h is i [] rfl s o hrun⟩
    rintro pre j post rfl s o hrun
    exact h pre j (post ++ [i]) (by simp) s o hrun
  · rintro ⟨hfront, hlast⟩ pre j post heq s o hrun
    rcases concat_eq_split.mp heq with ⟨rfl, rfl, -⟩ | ⟨post', rfl, -⟩
    · exact hlast s o hrun
    · exact hfront pre j post' rfl s o hrun

/-- A state predicate that every guarded step preserves holds wherever a guarded run leads. -/
theorem invariant_along {G : σ → ι → Prop} {I : σ → Prop} {s₀ : σ} (init : I s₀)
    (next : ∀ s i s' o', I s → G s i → step s i = some (s', o') → I s') :
    ∀ is s o, Along step G s₀ is → run step s₀ is = some (s, o) → I s :=
  run_induction_along step (P := fun _ s _ => I s) init
    fun _ s _ i s' o' _ hI hG hstep => next s i s' o' hI hG hstep

/-- A state predicate that every step preserves holds in every state a run leads to. -/
theorem invariant {I : σ → Prop} {s₀ : σ} (init : I s₀)
    (next : ∀ s i s' o', I s → step s i = some (s', o') → I s') :
    ∀ is s o, run step s₀ is = some (s, o) → I s :=
  run_induction step (P := fun _ s _ => I s) init
    fun _ s _ i s' o' _ hI hstep => next s i s' o' hI hstep

/-- Steps within the guard keep an invariant that makes states safe, and a step outside of it leads
to an unsafe state. Then all states of a run are safe exactly when its steps are within the guard.
`H` is what is assumed of the steps. -/
theorem safe_iff_along {G H : σ → ι → Prop} {I J : σ → Prop} (safe : ∀ s, J s → I s)
    (next : ∀ s i s' o', J s → H s i → G s i → step s i = some (s', o') → J s')
    (leaves : ∀ s i, J s → ¬G s i → ∃ s' o', step s i = some (s', o') ∧ ¬I s') {is : List ι} :
    ∀ {s₀ : σ}, J s₀ → Along step H s₀ is →
      ((∀ pre s o, pre <+: is → run step s₀ pre = some (s, o) → I s) ↔ Along step G s₀ is) := by
  induction is with
  | nil =>
    intro s₀ hJ _
    refine iff_of_true (fun pre s o hpre hrun => ?_) trivial
    obtain rfl := List.prefix_nil.mp hpre
    simp only [run_nil, Option.some.injEq, Prod.mk.injEq] at hrun
    exact hrun.1 ▸ safe s₀ hJ
  | cons i is ih =>
    intro s₀ hJ hH
    constructor
    · intro hall
      have hG : G s₀ i := by
        by_contra hnot
        obtain ⟨s', o', hstep, hbad⟩ := leaves s₀ i hJ hnot
        refine hbad (hall [i] s' o' ⟨is, rfl⟩ ?_)
        exact run_cons.mpr ⟨s', o', [], hstep, rfl, (List.append_nil o').symm⟩
      refine ⟨hG, fun s₁ o₁ hstep => ?_⟩
      refine (ih (next s₀ i s₁ o₁ hJ hH.1 hG hstep) (hH.2 s₁ o₁ hstep)).mp ?_
      intro pre s o hpre hrun
      exact hall (i :: pre) s (o₁ ++ o) ((List.prefix_cons_inj i).mpr hpre)
        (run_cons.mpr ⟨s₁, o₁, o, hstep, hrun, rfl⟩)
    · rintro ⟨hG, hrest⟩ pre s o hpre hrun
      cases pre with
      | nil =>
        simp only [run_nil, Option.some.injEq, Prod.mk.injEq] at hrun
        exact hrun.1 ▸ safe s₀ hJ
      | cons j pre =>
        obtain ⟨rfl, hrest'⟩ := List.cons_prefix_cons.mp hpre
        obtain ⟨s₁, o₁, o₂, hstep, hrun, -⟩ := run_cons.mp hrun
        exact (ih (next s₀ j s₁ o₁ hJ hH.1 hG hstep) (hH.2 s₁ o₁ hstep)).mpr (hrest s₁ o₁ hstep)
          pre s o₂ hrest' hrun

/-- What `f` counts in the steps of a run, up to the first that is refused. -/
def tally (step : σ → ι → Option (σ × List ω)) (f : σ → ι → ℕ) : σ → List ι → ℕ
  | _, [] => 0
  | s, i :: is =>
    f s i +
      match step s i with
      | none => 0
      | some (s₁, _) => tally step f s₁ is

/-- A law of conservation: what each step brings in it puts out or leaves in the state, and so does
a whole run. -/
theorem balance_along {G : σ → ι → Prop} {I : σ → Prop} (f : σ → ι → ℕ) (held : σ → ℕ)
    (spent : List ω → ℕ) (hnil : spent [] = 0)
    (happend : ∀ o o', spent (o ++ o') = spent o + spent o')
    (next : ∀ s i s' o, I s → G s i → step s i = some (s', o) →
      I s' ∧ f s i + held s = spent o + held s') {is : List ι} :
    ∀ {s s' : σ} {o : List ω}, I s → Along step G s is → run step s is = some (s', o) →
      tally step f s is + held s = spent o + held s' := by
  induction is with
  | nil =>
    intro s s' o _ _ hrun
    simp only [run_nil, Option.some.injEq, Prod.mk.injEq] at hrun
    obtain ⟨rfl, rfl⟩ := hrun
    rw [hnil]
    rfl
  | cons i is ih =>
    intro s s' o hI hG hrun
    obtain ⟨s₁, o₁, o₂, hstep, hrest, rfl⟩ := run_cons.mp hrun
    obtain ⟨hI₁, hfirst⟩ := next s i s₁ o₁ hI hG.1 hstep
    have hlater := ih hI₁ (hG.2 s₁ o₁ hstep) hrest
    rw [tally, hstep, happend]
    dsimp only
    omega

/-- What each step has to do with its outputs, a whole run has to do with all of them, when it
composes. -/
theorem run_related {I : σ → Prop} {R : σ → List ω → σ → Prop} (hnil : ∀ s, R s [] s)
    (happend : ∀ s s₁ s₂ o o', R s o s₁ → R s₁ o' s₂ → R s (o ++ o') s₂)
    (next : ∀ s i s' o, I s → step s i = some (s', o) → I s' ∧ R s o s') {s₀ : σ} (init : I s₀) :
    ∀ is s o, run step s₀ is = some (s, o) → I s ∧ R s₀ o s := by
  refine run_induction step (P := fun _ s o => I s ∧ R s₀ o s) ⟨init, hnil s₀⟩ ?_
  intro is s o i s' o' _ ih hstep
  obtain ⟨hI, hR⟩ := ih
  obtain ⟨hI', hR'⟩ := next s i s' o' hI hstep
  exact ⟨hI', happend s₀ s s' o o' hR hR'⟩

/-- Guards that an invariant makes equivalent hold along the same runs. -/
theorem along_congr {I : σ → Prop} {G G' : σ → ι → Prop}
    (next : ∀ s i s' o', I s → step s i = some (s', o') → I s')
    (hiff : ∀ s i, I s → (G s i ↔ G' s i)) :
    ∀ {s : σ} {is : List ι}, I s → (Along step G s is ↔ Along step G' s is) := by
  intro s is
  induction is generalizing s with
  | nil => exact fun _ => Iff.rfl
  | cons i is ih =>
    intro hI
    exact and_congr (hiff s i hI) (forall_congr' fun s' => forall_congr' fun o' =>
      forall_congr' fun hstep => ih (next s i s' o' hI hstep))

/-- All outputs of a run are good exactly when those of each step are. -/
theorem forall_outputs_iff_along {I : σ → Prop} {G : σ → ι → Prop} {P : ω → Prop}
    (next : ∀ s i s' o', I s → step s i = some (s', o') → I s')
    (hiff : ∀ s i, I s → (G s i ↔ ∀ s' o', step s i = some (s', o') → ∀ e ∈ o', P e))
    {is : List ι} :
    ∀ {s₀ : σ}, I s₀ →
      ((∀ pre s o, pre <+: is → run step s₀ pre = some (s, o) → ∀ e ∈ o, P e) ↔
        Along step G s₀ is) := by
  induction is with
  | nil =>
    intro s₀ _
    refine iff_of_true (fun pre s o hpre hrun => ?_) trivial
    obtain rfl := List.prefix_nil.mp hpre
    simp only [run_nil, Option.some.injEq, Prod.mk.injEq] at hrun
    intro e he
    rw [← hrun.2] at he
    exact absurd he List.not_mem_nil
  | cons i is ih =>
    intro s₀ hI
    constructor
    · intro hall
      refine ⟨(hiff s₀ i hI).mpr fun s₁ o₁ hstep => ?_, fun s₁ o₁ hstep => ?_⟩
      · exact hall [i] s₁ o₁ (List.prefix_append [i] is)
          (run_cons.mpr ⟨s₁, o₁, [], hstep, rfl, (List.append_nil o₁).symm⟩)
      · refine (ih (next s₀ i s₁ o₁ hI hstep)).mp fun pre s o hpre hrun e he => ?_
        exact hall (i :: pre) s (o₁ ++ o) ((List.prefix_cons_inj i).mpr hpre)
          (run_cons.mpr ⟨s₁, o₁, o, hstep, hrun, rfl⟩) e (List.mem_append_right o₁ he)
    · rintro ⟨hG, hrest⟩ pre s o hpre hrun e he
      cases pre with
      | nil =>
        simp only [run_nil, Option.some.injEq, Prod.mk.injEq] at hrun
        rw [← hrun.2] at he
        exact absurd he List.not_mem_nil
      | cons j pre =>
        obtain ⟨rfl, hpre'⟩ := List.cons_prefix_cons.mp hpre
        obtain ⟨s₁, o₁, o₂, hstep, hrun', rfl⟩ := run_cons.mp hrun
        rcases List.mem_append.mp he with he | he
        · exact (hiff s₀ j hI).mp hG s₁ o₁ hstep e he
        · exact (ih (next s₀ j s₁ o₁ hI hstep)).mpr (hrest s₁ o₁ hstep) pre s o₂ hpre' hrun' e he

end Runs
