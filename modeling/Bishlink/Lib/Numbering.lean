import Mathlib.Data.List.Basic
import Mathlib.Data.List.Nodup

/-!
# Two copies of one numbering

Two ends number keys, each in a list of its own with room for `cap` keys: the number of a key
is its position. An end that needs a key learns it and announces key and number to the other
end, which learns it in turn; announcements arrive in order.

The numbers stay the same on both ends as long as an end that learns a new key takes the
number the other end has for it, if any, and a number the other end has for no other key
(`Fits`). `Agree` is the invariant: one list is a prefix of the other, and what is under way
to an end brings it up to the list of the sender (`Deliverable`).
-/

namespace Numbering

variable {α : Type*} [DecidableEq α]

/-! ## Learning a key -/

/-- Add a key at the end, unless it is there or the list is full. -/
def learn (cap : ℕ) (l : List α) (k : α) : List α :=
  if k ∈ l ∨ cap ≤ l.length then l else l ++ [k]

variable {cap : ℕ}

theorem learn_of_mem {l : List α} {k : α} (h : k ∈ l) : learn cap l k = l := if_pos (Or.inl h)

theorem learn_of_full {l : List α} {k : α} (h : cap ≤ l.length) : learn cap l k = l :=
  if_pos (Or.inr h)

theorem learn_of_new {l : List α} {k : α} (h : k ∉ l) (hroom : l.length < cap) :
    learn cap l k = l ++ [k] :=
  if_neg (by rintro (hk | hfull); exacts [h hk, by omega])

/-- Nothing happens, or a new key gets the next position. -/
theorem learn_cases (cap : ℕ) (l : List α) (k : α) :
    (learn cap l k = l ∧ (k ∈ l ∨ cap ≤ l.length)) ∨
      (learn cap l k = l ++ [k] ∧ k ∉ l ∧ l.length < cap) := by
  by_cases hk : k ∈ l
  · exact Or.inl ⟨learn_of_mem hk, Or.inl hk⟩
  by_cases hfull : cap ≤ l.length
  · exact Or.inl ⟨learn_of_full hfull, Or.inr hfull⟩
  · exact Or.inr ⟨learn_of_new hk (by omega), hk, by omega⟩

theorem prefix_learn (cap : ℕ) (l : List α) (k : α) : l <+: learn cap l k := by
  rcases learn_cases cap l k with ⟨h, -⟩ | ⟨h, -, -⟩
  · simp only [h, List.prefix_rfl]
  · rw [h]
    exact List.prefix_append l [k]

theorem nodup_learn {l : List α} (h : l.Nodup) (k : α) : (learn cap l k).Nodup := by
  rcases learn_cases cap l k with ⟨heq, -⟩ | ⟨heq, hk, -⟩
  · rw [heq]
    exact h
  · rw [heq, ← List.concat_eq_append]
    exact h.concat hk

theorem length_learn_le {l : List α} (h : l.length ≤ cap) (k : α) :
    (learn cap l k).length ≤ cap := by
  rcases learn_cases cap l k with ⟨heq, -⟩ | ⟨heq, -, hroom⟩
  · rw [heq]
    exact h
  · rw [heq, List.length_append, List.length_singleton]
    omega

/-- A key keeps its number in a longer list. -/
theorem idxOf_of_isPrefix {l l' : List α} {k : α} (h : l <+: l') (hk : k ∈ l) :
    l'.idxOf k = l.idxOf k := by
  obtain ⟨r, rfl⟩ := h
  exact List.idxOf_append_of_mem hk

omit [DecidableEq α] in
/-- Two lists that extend one list by a key and are comparable end in the same key. -/
theorem eq_of_concat_isPrefix {l m : List α} {j k : α} (hj : l ++ [j] <+: m)
    (hk : l ++ [k] <+: m ∨ m <+: l ++ [k]) : j = k := by
  have same : l ++ [j] <+: l ++ [k] := by
    rcases hk with hk | hk
    · exact List.prefix_of_prefix_length_le hj hk (by simp)
    · exact hj.trans hk
  have heq := same.eq_of_length (by simp)
  simpa using heq

/-! ## Announcements under way -/

/-- The announcements under way from an end with list `sender` to an end with list
`receiver`: each carries the number the key has, or gets, there on arrival, each new key is
the next one of the sender, and in the end the receiver has all keys of the sender. -/
def Deliverable (cap : ℕ) (sender : List α) : (receiver : List α) → List (ℕ × α) → Prop
  | receiver, [] => sender <+: receiver
  | receiver, (n, k) :: q =>
    n = receiver.idxOf k ∧ (learn cap receiver k = receiver ∨ receiver ++ [k] <+: sender) ∧
      Deliverable cap sender (learn cap receiver k) q

/-- The sender learned keys that the receiver has already. -/
theorem Deliverable.extend_sender {sender sender' receiver : List α} {q : List (ℕ × α)}
    (h : Deliverable cap sender receiver q) (hext : sender <+: sender')
    (hknown : sender' <+: receiver) : Deliverable cap sender' receiver q := by
  induction q generalizing receiver with
  | nil => exact hknown
  | cons m q ih =>
    obtain ⟨hn, hk, hrest⟩ := h
    exact ⟨hn, hk.imp_right fun hk => hk.trans hext,
      ih hrest (hknown.trans (prefix_learn cap receiver m.2))⟩

/-- The receiver learned a key on its own that the sender has at the same place, or not. -/
theorem Deliverable.extend_receiver {sender receiver : List α} {q : List (ℕ × α)} {k : α}
    (h : Deliverable cap sender receiver q) (hk : k ∉ receiver) (hroom : receiver.length < cap)
    (hcomp : receiver ++ [k] <+: sender ∨ sender <+: receiver ++ [k]) :
    Deliverable cap sender (receiver ++ [k]) q := by
  induction q with
  | nil => exact h.trans (List.prefix_append receiver [k])
  | cons m q ih =>
    obtain ⟨n, j⟩ := m
    obtain ⟨hn, hj, hrest⟩ := h
    by_cases hmem : j ∈ receiver
    · rw [learn_of_mem hmem] at hrest
      have hmem' : j ∈ receiver ++ [k] := List.mem_append_left _ hmem
      refine ⟨?_, Or.inl (learn_of_mem hmem'), ?_⟩
      · rw [hn, List.idxOf_append_of_mem hmem]
      · rw [learn_of_mem hmem']
        exact ih hrest
    · have hnew := learn_of_new hmem hroom
      rw [hnew] at hj hrest
      have hpre : receiver ++ [j] <+: sender := hj.resolve_left (by simp)
      have hjk : j = k := eq_of_concat_isPrefix hpre hcomp
      subst hjk
      have hmem' : j ∈ receiver ++ [j] := by simp
      refine ⟨?_, Or.inl (learn_of_mem hmem'), ?_⟩
      · rw [hn, List.idxOf_append_of_notMem hmem, List.idxOf_eq_length hmem]
        simp
      · rw [learn_of_mem hmem']
        exact hrest

/-- The sender learns a key and announces it, with the receiver short of the sender or with
the key at the same place. -/
theorem Deliverable.announce {sender receiver : List α} {q : List (ℕ × α)} {k : α}
    (h : Deliverable cap sender receiver q) (hlen : receiver.length ≤ cap)
    (hcomp : k ∉ sender → sender.length < cap → sender ++ [k] <+: receiver ∨ receiver <+: sender) :
    Deliverable cap (learn cap sender k) receiver (q ++ [(sender.idxOf k, k)]) := by
  -- each message under way is learned by the receiver first; the new one comes last
  induction q generalizing receiver with
  | nil =>
    have hpre : sender <+: receiver := h
    rw [List.nil_append]
    -- the key has a number, the numbers are used up, or it gets the next one
    by_cases hmem : k ∈ sender
    · have hmem' : k ∈ receiver := hpre.subset hmem
      refine ⟨(idxOf_of_isPrefix hpre hmem).symm, Or.inl (learn_of_mem hmem'), ?_⟩
      rw [learn_of_mem hmem, learn_of_mem hmem']
      exact hpre
    by_cases hfull : cap ≤ sender.length
    · have heq : sender = receiver := hpre.eq_of_length_le (by omega)
      subst heq
      refine ⟨rfl, Or.inl (learn_of_full hfull), ?_⟩
      exact List.prefix_rfl
    · rw [learn_of_new hmem (by omega)]
      rcases hcomp hmem (by omega) with hthere | hshort
      · have hmem' : k ∈ receiver := hthere.subset (by simp)
        refine ⟨?_, Or.inl (learn_of_mem hmem'), ?_⟩
        · rw [idxOf_of_isPrefix hthere (by simp), List.idxOf_append_of_notMem hmem,
            List.idxOf_eq_length hmem]
          simp
        · rw [learn_of_mem hmem']
          exact hthere
      · have heq : sender = receiver := hpre.eq_of_length_le hshort.length_le
        subst heq
        refine ⟨rfl, Or.inr List.prefix_rfl, ?_⟩
        rw [learn_of_new hmem (by omega)]
        exact List.prefix_rfl
  | cons m q ih =>
    obtain ⟨n, j⟩ := m
    obtain ⟨hn, hj, hrest⟩ := h
    refine ⟨hn, hj.imp_right fun hj => hj.trans (prefix_learn cap sender k), ?_⟩
    refine ih hrest (length_learn_le hlen j) fun hmem hroom => ?_
    rcases hj with hsame | hnext
    · rw [hsame]
      exact hcomp hmem hroom
    · rcases learn_cases cap receiver j with ⟨hsame, -⟩ | ⟨hnew, -, -⟩
      · rw [hsame]
        exact hcomp hmem hroom
      · rw [hnew]
        exact Or.inr hnext

/-! ## The two ends -/

/-- The lists of the two ends, and the announcements under way. -/
structure Pair (α : Type*) where
  left : List α
  right : List α
  toRight : List (ℕ × α)
  toLeft : List (ℕ × α)

/-- The same pair from the other side. -/
def Pair.swap (p : Pair α) : Pair α := ⟨p.right, p.left, p.toLeft, p.toRight⟩

/-- The left end learns a key and announces it. -/
def Pair.announceLeft (cap : ℕ) (p : Pair α) (k : α) : Pair α :=
  { p with left := learn cap p.left k, toRight := p.toRight ++ [(p.left.idxOf k, k)] }

/-- The right end learns the key of an announcement. -/
def Pair.deliverRight (cap : ℕ) (p : Pair α) (k : α) (q : List (ℕ × α)) : Pair α :=
  { p with right := learn cap p.right k, toRight := q }

/-- The next number of a list is free on the other end, or goes to the same key there. -/
def Fits (own peer : List α) (k : α) : Prop :=
  k ∉ own → ∀ j k', peer[j]? = some k' → (j = own.length ↔ k' = k)

/-- The two copies of the numbering agree, and so do the announcements under way. -/
structure Agree (cap : ℕ) (p : Pair α) : Prop where
  comparable : p.left <+: p.right ∨ p.right <+: p.left
  nodup_left : p.left.Nodup
  nodup_right : p.right.Nodup
  length_left : p.left.length ≤ cap
  length_right : p.right.length ≤ cap
  toRight : Deliverable cap p.left p.right p.toRight
  toLeft : Deliverable cap p.right p.left p.toLeft

theorem Agree.swap {p : Pair α} (h : Agree cap p) : Agree cap p.swap :=
  ⟨h.comparable.symm, h.nodup_right, h.nodup_left, h.length_right, h.length_left, h.toLeft,
    h.toRight⟩

theorem agree_empty (cap : ℕ) : Agree cap (⟨[], [], [], []⟩ : Pair α) :=
  ⟨Or.inl List.prefix_rfl, List.nodup_nil, List.nodup_nil, Nat.zero_le _, Nat.zero_le _,
    List.prefix_rfl, List.prefix_rfl⟩

omit [DecidableEq α] in
/-- A key that fits is the next one of the other end, or the other end is not longer. -/
theorem prefix_of_fits {own peer : List α} {k : α} (hcomp : own <+: peer ∨ peer <+: own)
    (hfits : Fits own peer k) (hk : k ∉ own) : own ++ [k] <+: peer ∨ peer <+: own := by
  rcases hcomp with ⟨r, rfl⟩ | hcomp
  · cases r with
    | nil => exact Or.inr (by simp)
    | cons x r =>
      have hx : x = k := (hfits hk own.length x (by simp)).mp rfl
      subst hx
      exact Or.inl ⟨r, by simp⟩
  · exact Or.inr hcomp

theorem Agree.announceLeft {p : Pair α} {k : α} (h : Agree cap p) (hfits : Fits p.left p.right k) :
    Agree cap (p.announceLeft cap k) := by
  have hnext := prefix_of_fits h.comparable hfits
  refine ⟨?_, nodup_learn h.nodup_left k, h.nodup_right, length_learn_le h.length_left k,
    h.length_right, h.toRight.announce h.length_right fun hk _ => hnext hk, ?_⟩
  · show learn cap p.left k <+: p.right ∨ p.right <+: learn cap p.left k
    rcases learn_cases cap p.left k with ⟨heq, -⟩ | ⟨heq, hk, -⟩
    · rw [heq]
      exact h.comparable
    · rw [heq]
      exact (hnext hk).imp_right fun hshort => hshort.trans (List.prefix_append _ _)
  · show Deliverable cap p.right (learn cap p.left k) p.toLeft
    rcases learn_cases cap p.left k with ⟨heq, -⟩ | ⟨heq, hk, hroom⟩
    · rw [heq]
      exact h.toLeft
    · rw [heq]
      exact h.toLeft.extend_receiver hk hroom
        ((hnext hk).imp_right fun hshort => hshort.trans (List.prefix_append _ _))

theorem Agree.deliverRight {p : Pair α} {n : ℕ} {k : α} {q : List (ℕ × α)} (h : Agree cap p)
    (hq : p.toRight = (n, k) :: q) : Agree cap (p.deliverRight cap k q) := by
  have hto := h.toRight
  rw [hq] at hto
  obtain ⟨-, hnext, hrest⟩ := hto
  have hknown : learn cap p.right k <+: p.left ∨ learn cap p.right k = p.right := by
    rcases learn_cases cap p.right k with ⟨heq, -⟩ | ⟨heq, -, -⟩
    · exact Or.inr heq
    · rw [heq] at hnext ⊢
      exact Or.inl (hnext.resolve_left (by simp))
  refine ⟨?_, h.nodup_left, nodup_learn h.nodup_right k, h.length_left,
    length_learn_le h.length_right k, hrest, ?_⟩
  · show p.left <+: learn cap p.right k ∨ learn cap p.right k <+: p.left
    rcases hknown with hknown | heq
    · exact Or.inr hknown
    · rw [heq]
      exact h.comparable
  · show Deliverable cap (learn cap p.right k) p.left p.toLeft
    rcases hknown with hknown | heq
    · exact h.toLeft.extend_sender (prefix_learn cap p.right k) hknown
    · rw [heq]
      exact h.toLeft

/-- The number an announcement carries is the one its key has, or gets, on arrival. -/
theorem Agree.number_eq {p : Pair α} {n : ℕ} {k : α} {q : List (ℕ × α)} (h : Agree cap p)
    (hq : p.toRight = (n, k) :: q) : n = p.right.idxOf k := by
  have hto := h.toRight
  rw [hq] at hto
  exact hto.1

/-- With nothing under way, the two lists are the same. -/
theorem Agree.eq_of_quiet {p : Pair α} (h : Agree cap p) (hright : p.toRight = [])
    (hleft : p.toLeft = []) : p.left = p.right := by
  have hlr := h.toRight
  have hrl := h.toLeft
  rw [hright] at hlr
  rw [hleft] at hrl
  exact List.IsPrefix.eq_of_length_le hlr (List.IsPrefix.length_le hrl)

end Numbering
