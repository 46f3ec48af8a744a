import Mathlib.Data.List.Basic

/-!
# First-match tables

A fixed array scanned from the front: the first entry a test accepts is read, or
rewritten in place. `updateFirst` is the rewriting loop; its lemmas say which
lookups it can change, so that the operations built from it never unfold the scan.
-/

namespace FirstMatch

variable {α : Type*}

/-- Rewrite the first entry that `p` accepts, in place; no entry changes when there is none. -/
def updateFirst (p : α → Bool) (f : α → α) (l : List α) : List α :=
  l.replaceF fun a => if p a then some (f a) else none

@[simp] theorem updateFirst_nil (p : α → Bool) (f : α → α) : updateFirst p f [] = [] := rfl

theorem updateFirst_cons (p : α → Bool) (f : α → α) (a : α) (l : List α) :
    updateFirst p f (a :: l) = if p a then f a :: l else a :: updateFirst p f l := by
  by_cases h : p a <;> simp [updateFirst, List.replaceF, h]

@[simp] theorem length_updateFirst (p : α → Bool) (f : α → α) (l : List α) :
    (updateFirst p f l).length = l.length := by
  rw [updateFirst, List.length_replaceF]

/-- A table without a match is left as it is. -/
theorem updateFirst_of_forall {p : α → Bool} {f : α → α} {l : List α}
    (h : ∀ a ∈ l, p a = false) : updateFirst p f l = l := by
  refine List.replaceF_of_forall_none fun a ha => ?_
  simp [h a ha]

/-- Every entry afterwards was there before, or is the rewritten one. -/
theorem mem_updateFirst {p : α → Bool} {f : α → α} {l : List α} {b : α}
    (h : b ∈ updateFirst p f l) : b ∈ l ∨ ∃ a ∈ l, p a = true ∧ b = f a := by
  induction l with
  | nil => simp at h
  | cons a l ih =>
    rw [updateFirst_cons] at h
    by_cases hp : p a = true
    · rw [if_pos hp] at h
      rcases List.mem_cons.mp h with rfl | hb
      · exact Or.inr ⟨a, List.mem_cons_self, hp, rfl⟩
      · exact Or.inl (List.mem_cons_of_mem a hb)
    · rw [if_neg hp] at h
      rcases List.mem_cons.mp h with rfl | hb
      · exact Or.inl List.mem_cons_self
      · rcases ih hb with hb | ⟨c, hc, hpc, rfl⟩
        · exact Or.inl (List.mem_cons_of_mem a hb)
        · exact Or.inr ⟨c, List.mem_cons_of_mem a hc, hpc, rfl⟩

/-- A lookup that accepts an entry exactly when it accepts the rewritten one finds the
same position: it returns the old entry, or the rewritten one. -/
theorem find?_updateFirst_of_iff {p q : α → Bool} {f : α → α}
    (hq : ∀ a, p a = true → q (f a) = q a) (l : List α) :
    (updateFirst p f l).find? q = l.find? q ∨
      ∃ a ∈ l, p a = true ∧ l.find? q = some a ∧ (updateFirst p f l).find? q = some (f a) := by
  induction l with
  | nil => exact Or.inl rfl
  | cons a l ih =>
    rw [updateFirst_cons]
    by_cases hp : p a = true
    · rw [if_pos hp]
      by_cases hqa : q a = true
      · refine Or.inr ⟨a, List.mem_cons_self, hp, ?_, ?_⟩
        · rw [List.find?_cons_of_pos hqa]
        · rw [List.find?_cons_of_pos (by rw [hq a hp]; exact hqa)]
      · refine Or.inl ?_
        rw [List.find?_cons_of_neg (by rw [hq a hp]; exact hqa), List.find?_cons_of_neg hqa]
    · rw [if_neg hp]
      by_cases hqa : q a = true
      · exact Or.inl (by rw [List.find?_cons_of_pos hqa, List.find?_cons_of_pos hqa])
      · rw [List.find?_cons_of_neg hqa, List.find?_cons_of_neg hqa]
        rcases ih with ih | ⟨b, hb, h⟩
        · exact Or.inl ih
        · exact Or.inr ⟨b, List.mem_cons_of_mem a hb, h⟩

/-- A lookup that accepts neither the rewritten entry nor its old value is unaffected. -/
theorem find?_updateFirst_of_not {p q : α → Bool} {f : α → α}
    (hq : ∀ a, p a = true → q a = false ∧ q (f a) = false) (l : List α) :
    (updateFirst p f l).find? q = l.find? q := by
  have hiff : ∀ a, p a = true → q (f a) = q a := fun a hp => (hq a hp).2.trans (hq a hp).1.symm
  rcases find?_updateFirst_of_iff hiff l with h | ⟨a, -, hp, hfind, -⟩
  · exact h
  · have hqa : q a = true := by simpa using List.find?_some hfind
    rw [(hq a hp).1] at hqa
    exact absurd hqa (by decide)

/-- Looking up the rewritten entry by the test that selected it. -/
theorem find?_updateFirst_self {p : α → Bool} {f : α → α} (hf : ∀ a, p a = true → p (f a) = true)
    (l : List α) : (updateFirst p f l).find? p = (l.find? p).map f := by
  induction l with
  | nil => rfl
  | cons a l ih =>
    rw [updateFirst_cons]
    by_cases hp : p a = true
    · rw [if_pos hp, List.find?_cons_of_pos (hf a hp), List.find?_cons_of_pos hp, Option.map_some]
    · rw [if_neg hp, List.find?_cons_of_neg hp, List.find?_cons_of_neg hp, ih]

/-- The scan goes through the first part of a table before it reaches the second. -/
theorem updateFirst_append (p : α → Bool) (f : α → α) (l l' : List α) :
    updateFirst p f (l ++ l') =
      if l.any p then updateFirst p f l ++ l' else l ++ updateFirst p f l' := by
  induction l with
  | nil => rfl
  | cons a l ih =>
    rw [List.cons_append, updateFirst_cons, updateFirst_cons, List.any_cons]
    by_cases hp : p a = true
    · rw [if_pos hp, if_pos hp, hp, Bool.true_or, if_pos rfl, List.cons_append]
    · rw [if_neg hp, if_neg hp, ih]
      rw [Bool.not_eq_true] at hp
      rw [hp, Bool.false_or]
      split <;> rfl

/-- A table with a match, taken apart at the first one. -/
theorem updateFirst_split {p : α → Bool} {l : List α} (h : ∃ a ∈ l, p a = true) :
    ∃ pre a post, l = pre ++ a :: post ∧ p a = true ∧ (∀ b ∈ pre, p b = false) ∧
      ∀ f, updateFirst p f l = pre ++ f a :: post := by
  obtain ⟨a, ha⟩ := Option.isSome_iff_exists.mp (List.find?_isSome.mpr h)
  obtain ⟨hp, pre, post, rfl, hpre⟩ := List.find?_eq_some_iff_append.mp ha
  have hnot : ∀ b ∈ pre, p b = false := fun b hb => by simpa using hpre b hb
  refine ⟨pre, a, post, rfl, hp, hnot, fun f => ?_⟩
  rw [updateFirst_append, if_neg, updateFirst_cons, if_pos hp]
  rw [List.any_eq_true]
  rintro ⟨b, hb, hpb⟩
  rw [hnot b hb] at hpb
  exact Bool.false_ne_true hpb

/-- The rewritten entry of a table with a match. -/
theorem mem_updateFirst_of_exists {p : α → Bool} {l : List α} (h : ∃ a ∈ l, p a = true)
    (f : α → α) :
    ∃ a, p a = true ∧ f a ∈ updateFirst p f l := by
  obtain ⟨pre, a, post, -, hp, -, hupdate⟩ := updateFirst_split h
  refine ⟨a, hp, ?_⟩
  rw [hupdate]
  exact List.mem_append_right pre List.mem_cons_self

/-- Entries that the update does not touch, in their order. -/
theorem filter_updateFirst_of_not {p q : α → Bool} {f : α → α}
    (hq : ∀ a, p a = true → q a = false ∧ q (f a) = false) (l : List α) :
    (updateFirst p f l).filter q = l.filter q := by
  induction l with
  | nil => rfl
  | cons a l ih =>
    rw [updateFirst_cons]
    by_cases hp : p a = true
    · rw [if_pos hp, List.filter_cons_of_neg (by rw [(hq a hp).2]; decide),
        List.filter_cons_of_neg (by rw [(hq a hp).1]; decide)]
    · rw [if_neg hp, List.filter_cons, List.filter_cons, ih]

/-- Only what becomes of the first match counts. -/
theorem updateFirst_congr {p : α → Bool} {f f' : α → α} {l : List α}
    (h : ∀ a, l.find? p = some a → f a = f' a) : updateFirst p f l = updateFirst p f' l := by
  induction l with
  | nil => rfl
  | cons a l ih =>
    rw [updateFirst_cons, updateFirst_cons]
    by_cases hp : p a = true
    · rw [if_pos hp, if_pos hp, h a (List.find?_cons_of_pos hp)]
    · rw [if_neg hp, if_neg hp, ih fun b hb => h b (by rw [List.find?_cons_of_neg hp, hb])]

/-- A first match that the update leaves as it is. -/
theorem updateFirst_of_fixed {p : α → Bool} {f : α → α} {l : List α}
    (h : ∀ a, l.find? p = some a → f a = a) : updateFirst p f l = l := by
  induction l with
  | nil => rfl
  | cons a l ih =>
    rw [updateFirst_cons]
    by_cases hp : p a = true
    · rw [if_pos hp, h a (List.find?_cons_of_pos hp)]
    · rw [if_neg hp, ih fun b hb => h b (by rw [List.find?_cons_of_neg hp, hb])]

/-- What is read off the entries follows the update. -/
theorem map_updateFirst {β : Type*} {p : α → Bool} {f : α → α} {g : α → β} {q : β → Bool}
    {f' : β → β} {l : List α} (hq : ∀ a ∈ l, q (g a) = p a)
    (hf : ∀ a ∈ l, p a = true → g (f a) = f' (g a)) :
    (updateFirst p f l).map g = updateFirst q f' (l.map g) := by
  induction l with
  | nil => rfl
  | cons a l ih =>
    rw [updateFirst_cons, List.map_cons, updateFirst_cons, hq a List.mem_cons_self]
    by_cases hp : p a = true
    · rw [if_pos hp, if_pos hp, List.map_cons, hf a List.mem_cons_self hp]
    · rw [if_neg hp, if_neg hp, List.map_cons,
        ih (fun b hb => hq b (List.mem_cons_of_mem a hb))
          (fun b hb => hf b (List.mem_cons_of_mem a hb))]

/-- A search that can come to one result only. -/
theorem findSome?_of_unique {β : Type*} {f : α → Option β} {l : List α} {x : α} {b : β}
    (hx : x ∈ l) (hf : f x = some b) (huniq : ∀ y ∈ l, ∀ b', f y = some b' → b' = b) :
    l.findSome? f = some b := by
  cases hfind : l.findSome? f with
  | none =>
    have hnone := List.findSome?_eq_none_iff.mp hfind x hx
    rw [hf] at hnone
    exact absurd hnone (Option.some_ne_none b)
  | some b' =>
    obtain ⟨y, hy, hfy⟩ := List.exists_of_findSome?_eq_some hfind
    rw [huniq y hy b' hfy]

/-- Where at most one entry has a key, the first one with it is every one with it. -/
theorem updateFirst_eq_map {β : Type*} [BEq β] [LawfulBEq β] {key : α → β} (f : α → α)
    {l : List α} (h : (l.map key).Nodup) (k : β) :
    updateFirst (key · == k) f l = l.map fun a => if key a == k then f a else a := by
  induction l with
  | nil => rfl
  | cons a l ih =>
    rw [List.map_cons, List.nodup_cons] at h
    rw [updateFirst_cons, List.map_cons]
    by_cases ha : (key a == k) = true
    · have hrest : l.map (fun b => if key b == k then f b else b) = l := by
        rw [show l.map _ = l.map id from List.map_congr_left ?_, List.map_id]
        intro b hb
        have hb' : key b ≠ k := fun hk => h.1 (by
          rw [eq_of_beq ha, ← hk]
          exact List.mem_map_of_mem hb)
        exact if_neg fun hk => hb' (eq_of_beq hk)
      rw [if_pos ha, if_pos ha, hrest]
    · rw [if_neg ha, if_neg ha, ih h.2]

end FirstMatch
