import Bishlink.Lib.Numbering
import Mathlib.Data.List.ReduceOption
import Mathlib.Data.List.Perm.Subperm

/-!
# A numbering that is handed over

Two ends number keys together (`Numbering`), one after the other: the first end announces its own
keys and then hands the numbering over, with a mark among its announcements; the second end
announces its own keys only when it has come to the mark. `Turns.Ordered` is the invariant:

* until the mark is there, the second end knows a part of what the first one knows, and all of that
  is the first end's own;
* from then on the first end knows a part of what the second one knows, with all of its own keys.

So no number is given to two keys, though announcements cross (`Ordered.agree`). What the first end
announces after the mark, or once more, is numbered already.
-/

namespace Numbering

variable {α : Type*} [DecidableEq α] {cap : ℕ}

/-- All keys of the sender are known to the receiver, or announced. -/
theorem Deliverable.mem_or_announced {sender receiver : List α} {q : List (ℕ × α)}
    (h : Deliverable cap sender receiver q) {k : α} (hk : k ∈ sender) :
    k ∈ receiver ∨ ∃ n, (n, k) ∈ q := by
  induction q generalizing receiver with
  | nil => exact Or.inl (h.subset hk)
  | cons m q ih =>
    obtain ⟨n, j⟩ := m
    rcases ih h.2.2 with hlearned | ⟨n', hn'⟩
    · rcases learn_cases cap receiver j with ⟨heq, -⟩ | ⟨heq, -, -⟩
      · rw [heq] at hlearned
        exact Or.inl hlearned
      · rw [heq, List.mem_append, List.mem_singleton] at hlearned
        rcases hlearned with hthere | rfl
        · exact Or.inl hthere
        · exact Or.inr ⟨n, List.mem_cons_self⟩
    · exact Or.inr ⟨n', List.mem_cons_of_mem _ hn'⟩

/-- The next announcement is known, or the next key of the sender. -/
theorem Deliverable.learn_cases {sender receiver : List α} {n : ℕ} {k : α} {q : List (ℕ × α)}
    (h : Deliverable cap sender receiver ((n, k) :: q)) :
    learn cap receiver k = receiver ∨ learn cap receiver k <+: sender := by
  rcases Numbering.learn_cases cap receiver k with ⟨heq, -⟩ | ⟨heq, -, -⟩
  · exact Or.inl heq
  · rw [heq]
    exact Or.inr (h.2.1.resolve_left (by rw [heq]; simp))

/-! ## Many keys at once -/

/-- Learn keys one after the other. -/
def learnAll (cap : ℕ) (l ks : List α) : List α := ks.foldl (learn cap) l

/-- The announcements that go with it. -/
def announcements (cap : ℕ) : List α → List α → List (ℕ × α)
  | _, [] => []
  | l, k :: ks => (l.idxOf k, k) :: announcements cap (learn cap l k) ks

theorem prefix_learnAll (cap : ℕ) (l ks : List α) : l <+: learnAll cap l ks := by
  induction ks generalizing l with
  | nil => exact List.prefix_rfl
  | cons k ks ih => exact (prefix_learn cap l k).trans (ih (learn cap l k))

omit [DecidableEq α] in
/-- Some distinct keys out of `all` leave room for one more of these. -/
theorem length_lt_of_subset {l all : List α} {k : α} (hroom : all.length ≤ cap) (hnodup : l.Nodup)
    (hl : l ⊆ all) (hk : k ∈ all) (hnew : k ∉ l) : l.length < cap := by
  have hsub : k :: l ⊆ all := List.cons_subset.mpr ⟨hk, hl⟩
  have hle := (List.subperm_of_subset (List.nodup_cons.mpr ⟨hnew, hnodup⟩) hsub).length_le
  rw [List.length_cons] at hle
  omega

/-- A key out of `all` is there once it was learned, and nothing else came with it. -/
theorem mem_learn {l all : List α} {k : α} (hroom : all.length ≤ cap) (hnodup : l.Nodup)
    (hl : l ⊆ all) (hk : k ∈ all) (j : α) : j ∈ learn cap l k ↔ j = k ∨ j ∈ l := by
  by_cases hthere : k ∈ l
  · rw [learn_of_mem hthere]
    exact ⟨Or.inr, fun hor => hor.elim (fun heq => heq ▸ hthere) id⟩
  · rw [learn_of_new hthere (length_lt_of_subset hroom hnodup hl hk hthere), List.mem_append,
      List.mem_singleton, or_comm]

/-- The lists of the two ends and what is under way; `none` is the mark, and `handed` says that it
has come to the second end. -/
structure Turns (α : Type*) where
  first : List α
  second : List α
  toSecond : List (Option (ℕ × α))
  toFirst : List (ℕ × α)
  handed : Bool

namespace Turns

/-- The two copies of the numbering. -/
def pair (s : Turns α) : Pair α := ⟨s.first, s.second, s.toSecond.reduceOption, s.toFirst⟩

/-- Nothing happened yet. -/
def start : Turns α := ⟨[], [], [], [], false⟩

/-- The first end learns a key and announces it. -/
def announce (cap : ℕ) (s : Turns α) (k : α) : Turns α :=
  { s with
    first := learn cap s.first k
    toSecond := s.toSecond ++ [some (s.first.idxOf k, k)] }

/-- The first end hands the numbering over. -/
def handOver (s : Turns α) : Turns α := { s with toSecond := s.toSecond ++ [none] }

/-- The second end learns the key of an announcement. -/
def learnSecond (cap : ℕ) (s : Turns α) (k : α) (q : List (Option (ℕ × α))) : Turns α :=
  { s with second := learn cap s.second k, toSecond := q }

/-- The second end comes to the mark. -/
def takeOver (s : Turns α) (q : List (Option (ℕ × α))) : Turns α :=
  { s with toSecond := q, handed := true }

/-- The second end learns a key and announces it. -/
def answer (cap : ℕ) (s : Turns α) (k : α) : Turns α :=
  { s with
    second := learn cap s.second k
    toFirst := s.toFirst ++ [(s.second.idxOf k, k)] }

/-- The first end learns the key of an announcement. -/
def learnFirst (cap : ℕ) (s : Turns α) (k : α) (q : List (ℕ × α)) : Turns α :=
  { s with first := learn cap s.first k, toFirst := q }

/-- The first end announces many keys. -/
def announceAll (cap : ℕ) (s : Turns α) (ks : List α) : Turns α :=
  { s with
    first := learnAll cap s.first ks
    toSecond := s.toSecond ++ (announcements cap s.first ks).map some }

/-- The second end announces many keys. -/
def answerAll (cap : ℕ) (s : Turns α) (ks : List α) : Turns α :=
  { s with
    second := learnAll cap s.second ks
    toFirst := s.toFirst ++ announcements cap s.second ks }

/-- The order in which the ends announce their own keys. -/
structure Ordered (cap : ℕ) (own peer : List α) (s : Turns α) : Prop where
  agree : Agree cap s.pair
  known : s.first ⊆ own ++ peer ∧ s.second ⊆ own ++ peer
  before : s.handed = false → s.toFirst = [] ∧ s.first ⊆ own ∧ s.second <+: s.first
  after : s.handed = true → own ⊆ s.first ∧ s.first <+: s.second
  marked : none ∈ s.toSecond → own ⊆ s.first
  delivered : ∀ pre post, s.toSecond = pre ++ none :: post → ∀ k ∈ own,
    k ∈ s.second ∨ ∃ n, some (n, k) ∈ pre

theorem ordered_start (cap : ℕ) (own peer : List α) : (start : Turns α).Ordered cap own peer where
  agree := agree_empty cap
  known := ⟨List.nil_subset _, List.nil_subset _⟩
  before _ := ⟨rfl, List.nil_subset _, List.prefix_rfl⟩
  after h := absurd h Bool.false_ne_true
  marked h := absurd h List.not_mem_nil
  delivered pre post h := absurd h (by simp [start])

namespace Ordered

variable {own peer : List α} {s : Turns α}

omit [DecidableEq α] in
/-- The end whose list is the longer one takes the next number, which the other end has for no
key. -/
theorem fits_of_longer {own peer : List α} (h : peer <+: own) (k : α) : Fits own peer k := by
  intro hk j k' hj
  have hmem : k' ∈ own := h.subset (List.mem_of_getElem? hj)
  obtain ⟨hlt, -⟩ := List.getElem?_eq_some_iff.mp hj
  have hle := h.length_le
  constructor
  · omega
  · rintro rfl
    exact absurd hmem hk

/-- The first end announces a key of its own. -/
theorem announce (h : s.Ordered cap own peer) {k : α} (hk : k ∈ own) :
    (s.announce cap k).Ordered cap own peer := by
  have hpair : (s.announce cap k).pair = s.pair.announceLeft cap k := by
    unfold Turns.announce pair Pair.announceLeft
    rw [List.reduceOption_append]
    rfl
  have hlearned : learn cap s.first k ⊆ k :: s.first := by
    rcases learn_cases cap s.first k with ⟨heq, -⟩ | ⟨heq, -, -⟩
    · rw [heq]
      exact List.subset_cons_self k s.first
    · rw [heq]
      intro j hj
      rcases List.mem_append.mp hj with hj | hj
      · exact List.mem_cons_of_mem k hj
      · rw [List.mem_singleton.mp hj]
        exact List.mem_cons_self
  have hmore := prefix_learn cap s.first k
  refine ⟨?_, ⟨?_, h.known.2⟩, fun hfalse => ?_, fun htrue => ?_, fun hmark => ?_, ?_⟩
  · rw [hpair]
    refine h.agree.announceLeft ?_
    cases hhanded : s.handed with
    | false => exact fits_of_longer (h.before hhanded).2.2 k
    | true => exact fun hnew => absurd ((h.after hhanded).1 hk) hnew
  · exact fun j hj => (List.mem_cons.mp (hlearned hj)).elim
      (fun heq => heq ▸ List.mem_append_left peer hk) fun hj => h.known.1 hj
  · obtain ⟨hquiet, hsub, hpre⟩ := h.before hfalse
    exact ⟨hquiet, fun j hj => (List.mem_cons.mp (hlearned hj)).elim (fun heq => heq ▸ hk)
      fun hj => hsub hj, hpre.trans hmore⟩
  · obtain ⟨hsub, hpre⟩ := h.after htrue
    -- the key was numbered before the numbering was handed over
    have hsame : learn cap s.first k = s.first := learn_of_mem (hsub hk)
    show own ⊆ learn cap s.first k ∧ learn cap s.first k <+: s.second
    rw [hsame]
    exact ⟨hsub, hpre⟩
  · refine fun j hj => hmore.subset (h.marked ?_ hj)
    rcases List.mem_append.mp hmark with hmark | hmark
    · exact hmark
    · exact absurd (List.mem_singleton.mp hmark) (by simp)
  · intro pre post hq j hj
    rcases List.eq_nil_or_concat post with rfl | ⟨post, m, rfl⟩
    · have hlast := (List.append_inj_right' hq rfl)
      exact absurd (List.cons.inj hlast).1 (by simp)
    · rw [List.concat_eq_append, ← List.cons_append, ← List.append_assoc] at hq
      exact h.delivered pre post (List.append_inj_left' hq rfl) j hj

/-- The first end hands over when it has numbered all keys of its own. -/
theorem handOver (h : s.Ordered cap own peer) (hown : own ⊆ s.first) :
    s.handOver.Ordered cap own peer := by
  have hpair : s.handOver.pair = s.pair := by
    unfold Turns.handOver pair
    rw [List.reduceOption_append]
    show Pair.mk _ _ (_ ++ []) _ = _
    rw [List.append_nil]
  refine ⟨?_, h.known, h.before, h.after, fun _ => hown, ?_⟩
  · rw [hpair]
    exact h.agree
  · intro pre post hq j hj
    rcases List.eq_nil_or_concat post with rfl | ⟨post, m, rfl⟩
    · have hpre : s.toSecond = pre := List.append_inj_left' hq rfl
      rcases h.agree.toRight.mem_or_announced (hown hj) with hthere | ⟨n, hn⟩
      · exact Or.inl hthere
      · rw [← hpre]
        exact Or.inr ⟨n, List.reduceOption_mem_iff.mp hn⟩
    · rw [List.concat_eq_append, ← List.cons_append, ← List.append_assoc] at hq
      exact h.delivered pre post (List.append_inj_left' hq rfl) j hj

/-- The second end takes an announcement. -/
theorem learnSecond (hroom : (own ++ peer).length ≤ cap) (h : s.Ordered cap own peer) {n : ℕ}
    {k : α}
    {q : List (Option (ℕ × α))} (hq : s.toSecond = some (n, k) :: q) :
    (s.learnSecond cap k q).Ordered cap own peer ∧ n = s.second.idxOf k := by
  have hto : s.pair.toRight = (n, k) :: q.reduceOption := by
    unfold pair
    rw [hq]
    exact List.reduceOption_cons_of_some (n, k) q
  have hnext := h.agree.toRight
  rw [hto] at hnext
  have hlearned := hnext.learn_cases
  have hmore := prefix_learn cap s.second k
  have hknown : learn cap s.second k ⊆ own ++ peer := by
    -- the second end stays a front part of the first
    rcases hlearned with heq | hpre
    · rw [show learn cap s.second k = s.second from heq]
      exact h.known.2
    · exact fun j hj => h.known.1 (hpre.subset hj)
  refine ⟨⟨h.agree.deliverRight hto, ⟨h.known.1, hknown⟩, fun hfalse => ?_, fun htrue => ?_,
    fun hmark => ?_, ?_⟩, h.agree.number_eq hto⟩
  · obtain ⟨hquiet, hsub, hpre⟩ := h.before hfalse
    refine ⟨hquiet, hsub, ?_⟩
    rcases hlearned with heq | hnew
    · show learn cap s.second k <+: s.first
      rw [show learn cap s.second k = s.second from heq]
      exact hpre
    · exact hnew
  · exact ⟨(h.after htrue).1, (h.after htrue).2.trans hmore⟩
  · exact h.marked (by rw [hq]; exact List.mem_cons_of_mem _ hmark)
  · intro pre post hq' j hj
    have hsplit : s.toSecond = (some (n, k) :: pre) ++ none :: post := by
      rw [hq, List.cons_append]
      exact congrArg _ hq'
    rcases h.delivered _ post hsplit j hj with hthere | ⟨n', hn'⟩
    · exact Or.inl (hmore.subset hthere)
    rcases List.mem_cons.mp hn' with heq | hn'
    · left
      obtain ⟨-, rfl⟩ := Prod.mk.inj (Option.some.inj heq)
      exact (mem_learn hroom h.agree.nodup_right h.known.2 (List.mem_append_left peer hj) j).mpr
        (Or.inl rfl)
    · exact Or.inr ⟨n', hn'⟩

/-- The second end comes to the mark: from now on it is the one that knows more. -/
theorem takeOver (h : s.Ordered cap own peer) {q : List (Option (ℕ × α))}
    (hq : s.toSecond = none :: q) : (s.takeOver q).Ordered cap own peer := by
  have hpair : (s.takeOver q).pair = s.pair := by
    unfold Turns.takeOver pair
    rw [hq]
    rfl
  have hown : own ⊆ s.first := h.marked (by rw [hq]; exact List.mem_cons_self)
  refine ⟨hpair ▸ h.agree, h.known, fun hfalse => absurd hfalse (by simp [Turns.takeOver]),
    fun _ => ⟨hown, ?_⟩, fun _ => hown, ?_⟩
  · cases hhanded : s.handed with
    | true => exact (h.after hhanded).2
    | false =>
      obtain ⟨-, hsub, hpre⟩ := h.before hhanded
      -- all that the first end knows are its own keys, and these have come
      have hall : s.first ⊆ s.second := by
        intro j hj
        rcases h.delivered [] q hq j (hsub hj) with hthere | ⟨n, hn⟩
        · exact hthere
        · exact absurd hn List.not_mem_nil
      have hle := (List.subperm_of_subset h.agree.nodup_left hall).length_le
      have heq : s.second = s.first := hpre.eq_of_length_le hle
      exact heq ▸ List.prefix_rfl
  · intro pre post hq' j hj
    have hsplit : s.toSecond = (none :: pre) ++ none :: post := by
      rw [hq, List.cons_append]
      exact congrArg _ hq'
    rcases h.delivered _ post hsplit j hj with hthere | ⟨n, hn⟩
    · exact Or.inl hthere
    · rcases List.mem_cons.mp hn with heq | hn
      · exact absurd heq (by simp)
      · exact Or.inr ⟨n, hn⟩

/-- The second end announces a key of its own, once the numbering was handed over. -/
theorem answer (h : s.Ordered cap own peer) (hhanded : s.handed = true) {k : α} (hk : k ∈ peer) :
    (s.answer cap k).Ordered cap own peer := by
  obtain ⟨hown, hpre⟩ := h.after hhanded
  have hpair : (s.answer cap k).pair = (s.pair.swap.announceLeft cap k).swap := rfl
  have hmore := prefix_learn cap s.second k
  refine ⟨?_, ⟨h.known.1, ?_⟩, fun hfalse => ?_, fun _ => ⟨hown, hpre.trans hmore⟩, h.marked, ?_⟩
  · rw [hpair]
    exact (h.agree.swap.announceLeft (fits_of_longer hpre k)).swap
  · intro j hj
    rcases learn_cases cap s.second k with ⟨heq, -⟩ | ⟨heq, -, -⟩
    · exact h.known.2 (heq ▸ hj)
    · have hj' : j ∈ s.second ++ [k] := heq ▸ hj
      rcases List.mem_append.mp hj' with hj' | hj'
      · exact h.known.2 hj'
      · rw [List.mem_singleton.mp hj']
        exact List.mem_append_right own hk
  · exact absurd (hhanded.symm.trans hfalse) (by simp)
  · intro pre post hq j hj
    exact (h.delivered pre post hq j hj).imp_left fun hthere => hmore.subset hthere

/-- The first end takes an announcement. -/
theorem learnFirst (h : s.Ordered cap own peer) {n : ℕ} {k : α} {q : List (ℕ × α)}
    (hq : s.toFirst = (n, k) :: q) :
    (s.learnFirst cap k q).Ordered cap own peer ∧ n = s.first.idxOf k := by
  have hto : s.pair.swap.toRight = (n, k) :: q := hq
  have hhanded : s.handed = true := by
    by_contra hnot
    have hnil := (h.before (by simpa using hnot)).1
    rw [hq] at hnil
    exact absurd hnil (by simp)
  obtain ⟨hown, hpre⟩ := h.after hhanded
  have hnext := h.agree.toLeft
  rw [show s.pair.toLeft = (n, k) :: q from hq] at hnext
  have hmore := prefix_learn cap s.first k
  have hshort : learn cap s.first k <+: s.second := by
    rcases hnext.learn_cases with heq | hpre'
    · rw [show learn cap s.first k = s.first from heq]
      exact hpre
    · exact hpre'
  refine ⟨⟨(h.agree.swap.deliverRight hto).swap, ⟨fun j hj => h.known.2 (hshort.subset hj),
    h.known.2⟩, fun hfalse => ?_, fun _ => ⟨fun j hj => hmore.subset (hown hj), hshort⟩,
    fun hmark j hj =>
    hmore.subset (h.marked hmark hj), h.delivered⟩, h.agree.swap.number_eq hto⟩
  exact absurd (hhanded.symm.trans hfalse) (by simp)

/-- The first end announces keys of its own, and knows them then. -/
theorem announceAll (hroom : (own ++ peer).length ≤ cap) (h : s.Ordered cap own peer) {ks : List α}
    (hks : ks ⊆ own) : (s.announceAll cap ks).Ordered cap own peer ∧
      ∀ k ∈ ks, k ∈ (s.announceAll cap ks).first := by
  induction ks generalizing s with
  | nil =>
    have hsame : s.announceAll cap [] = s := by
      show { s with toSecond := s.toSecond ++ [] } = s
      rw [List.append_nil]
    rw [hsame]
    exact ⟨h, fun k hk => absurd hk List.not_mem_nil⟩
  | cons k ks ih =>
    have hk := hks List.mem_cons_self
    have hcons : s.announceAll cap (k :: ks) = (s.announce cap k).announceAll cap ks := by
      unfold Turns.announceAll Turns.announce
      dsimp only
      rw [List.append_assoc]
      rfl
    obtain ⟨hordered, hall⟩ := ih (h.announce hk) fun j hj => hks (List.mem_cons_of_mem k hj)
    rw [hcons]
    refine ⟨hordered, fun j hj => ?_⟩
    rcases List.mem_cons.mp hj with rfl | hj
    · apply (prefix_learnAll cap _ ks).subset
      exact (mem_learn hroom h.agree.nodup_left h.known.1 (List.mem_append_left peer hk) j).mpr
        (Or.inl rfl)
    · exact hall j hj

/-- The second end announces keys of its own, and knows them then. -/
theorem answerAll (hroom : (own ++ peer).length ≤ cap) (h : s.Ordered cap own peer)
    (hhanded : s.handed = true) {ks : List α} (hks : ks ⊆ peer) :
    (s.answerAll cap ks).Ordered cap own peer ∧ ∀ k ∈ ks, k ∈ (s.answerAll cap ks).second := by
  induction ks generalizing s with
  | nil =>
    have hsame : s.answerAll cap [] = s := by
      show { s with toFirst := s.toFirst ++ [] } = s
      rw [List.append_nil]
    rw [hsame]
    exact ⟨h, fun k hk => absurd hk List.not_mem_nil⟩
  | cons k ks ih =>
    have hk := hks List.mem_cons_self
    have hcons : s.answerAll cap (k :: ks) = (s.answer cap k).answerAll cap ks := by
      unfold Turns.answerAll Turns.answer
      dsimp only
      rw [List.append_assoc]
      rfl
    obtain ⟨hordered, hall⟩ := ih (h.answer hhanded hk) hhanded
      fun j hj => hks (List.mem_cons_of_mem k hj)
    rw [hcons]
    refine ⟨hordered, fun j hj => ?_⟩
    rcases List.mem_cons.mp hj with rfl | hj
    · apply (prefix_learnAll cap _ ks).subset
      exact (mem_learn hroom h.agree.nodup_right h.known.2 (List.mem_append_right own hk) j).mpr
        (Or.inl rfl)
    · exact hall j hj

/-- The numbers that both ends have given are the same. -/
theorem getElem?_eq (h : s.Ordered cap own peer) {i : ℕ} {j k : α} (hj : s.first[i]? = some j)
    (hk : s.second[i]? = some k) : j = k := by
  have key : ∀ {l l' : List α} {x : α}, l <+: l' → l[i]? = some x → l'[i]? = some x := by
    rintro l l' x ⟨r, rfl⟩ hx
    obtain ⟨hlt, -⟩ := List.getElem?_eq_some_iff.mp hx
    rw [List.getElem?_append_left hlt]
    exact hx
  rcases h.agree.comparable with hpre | hpre
  · exact Option.some.inj ((key hpre hj).symm.trans hk)
  · exact Option.some.inj (hj.symm.trans (key hpre hk))

end Ordered

end Turns

end Numbering
