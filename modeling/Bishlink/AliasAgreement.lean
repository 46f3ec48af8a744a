import Bishlink.Control
import Bishlink.Lib.Numbering
import Bishlink.Lib.Runs

/-!
# Aliases on both ends

Both ends of a connection number tracks in their own table: a new track gets the alias one
above the largest, and the SUBSCRIBE message makes the other end take that alias over. The
table of an end `Numbers` a list of tracks when the `i`-th of them has the alias `8 + i`;
`subscribeTable` and `addSubscription` are then `Numbering.learn`, and the two ends with their
messages are a `Numbering.Pair`.
-/

namespace Bishlink

open FirstMatch Numbering

/-! ## Tables that number tracks -/

theorem toNat_ofNat_byte {n : ℕ} (h : n < 256) : (UInt8.ofNat n).toNat = n :=
  UInt8.toNat_ofNat_of_lt' h

/-- What a table goes by when it compares tracks. -/
@[ext] structure TrackKey where
  type : MoqTrackType
  name : TrackName
deriving DecidableEq

def MoqTrackId.key (t : MoqTrackId) : TrackKey := ⟨t.type, t.name⟩

/-- What an entry says: nothing, or a track and its alias. -/
def TrackSubscription.view (e : TrackSubscription) : Option (TrackKey × UInt8) :=
  if e.active then some (e.trackId.key, e.trackAlias) else none

/-- The views of a table whose tracks have the aliases from `n` on, with `free` free entries. -/
def numberedViews : (n : ℕ) → List TrackKey → (free : ℕ) → List (Option (TrackKey × UInt8))
  | _, [], free => List.replicate free none
  | n, k :: ks, free => some (k, UInt8.ofNat n) :: numberedViews (n + 1) ks free

/-- The table holds these tracks, numbered from 8 on, and nothing else. -/
def Numbers (s : Subscriptions) (ks : List TrackKey) : Prop :=
  s.entries.map (·.view) = numberedViews 8 ks (32 - ks.length) ∧ ks.length ≤ 32

section Views

variable {l : List TrackSubscription} {n free : ℕ} {ks : List TrackKey}

theorem view_eq_some {e : TrackSubscription} {k : TrackKey} {trackAlias : UInt8} :
    e.view = some (k, trackAlias) ↔
      e.active = true ∧ e.trackId.key = k ∧ e.trackAlias = trackAlias := by
  rw [TrackSubscription.view]
  split
  · rename_i h
    simp [h]
  · rename_i h
    simp [h]

theorem view_eq_none {e : TrackSubscription} : e.view = none ↔ e.active = false := by
  rw [TrackSubscription.view]
  split
  · rename_i h
    simp [h]
  · rename_i h
    simpa using h

theorem holds_of_view {e : TrackSubscription} {k k' : TrackKey} {trackAlias : UInt8}
    (h : e.view = some (k, trackAlias)) : e.holds k'.type k'.name = decide (k = k') := by
  obtain ⟨hactive, rfl, -⟩ := view_eq_some.mp h
  rw [Bool.eq_iff_iff, TrackSubscription.holds_iff, decide_eq_true_eq, TrackKey.ext_iff]
  simp [hactive, MoqTrackId.key]

theorem hasAlias_of_view {e : TrackSubscription} {k : TrackKey} {trackAlias x : UInt8}
    (h : e.view = some (k, trackAlias)) : e.hasAlias x = decide (trackAlias = x) := by
  obtain ⟨hactive, -, rfl⟩ := view_eq_some.mp h
  rw [Bool.eq_iff_iff, TrackSubscription.hasAlias_iff, decide_eq_true_eq]
  simp [hactive]

/-- The free entries behind the numbered ones. -/
theorem inactive_of_free (h : l.map (·.view) = numberedViews n [] free) :
    ∀ e ∈ l, e.active = false := by
  intro e he
  have hmem : e.view ∈ l.map (·.view) := List.mem_map_of_mem he
  rw [h] at hmem
  exact view_eq_none.mp (List.eq_of_mem_replicate hmem)

/-- Looking a track up finds its number. -/
theorem find?_holds_numbered (h : l.map (·.view) = numberedViews n ks free) (k : TrackKey) :
    (l.find? (·.holds k.type k.name)).map (·.trackAlias) =
      if k ∈ ks then some (UInt8.ofNat (n + ks.idxOf k)) else none := by
  induction ks generalizing l n with
  | nil =>
    have hnone : l.find? (·.holds k.type k.name) = none := by
      rw [List.find?_eq_none]
      intro e he
      simp [TrackSubscription.holds, inactive_of_free h e he]
    simp [hnone]
  | cons k' ks ih =>
    cases l with
    | nil => simp [numberedViews] at h
    | cons e l =>
      simp only [List.map_cons, numberedViews, List.cons.injEq] at h
      by_cases hk : k' = k
      · rw [List.find?_cons_of_pos (by simp [holds_of_view h.1, hk]), Option.map_some,
          (view_eq_some.mp h.1).2.2]
        simp [hk]
      · rw [List.find?_cons_of_neg (by simp [holds_of_view h.1, hk]), ih h.2,
          List.idxOf_cons_ne ks hk]
        have hmem : k ∈ k' :: ks ↔ k ∈ ks := by simp [Ne.symm hk]
        simp only [hmem, Nat.succ_eq_add_one]
        rw [show n + 1 + ks.idxOf k = n + (ks.idxOf k + 1) by omega]

/-- Looking a number up finds its track. -/
theorem find?_hasAlias_numbered (h : l.map (·.view) = numberedViews n ks free)
    (hbound : n + ks.length ≤ 256) {x : ℕ} (hx : n ≤ x) (hx' : x < 256) :
    (l.find? (·.hasAlias (UInt8.ofNat x))).map (·.trackId.key) = ks[x - n]? := by
  induction ks generalizing l n with
  | nil =>
    have hnone : l.find? (·.hasAlias (UInt8.ofNat x)) = none := by
      rw [List.find?_eq_none]
      intro e he
      simp [TrackSubscription.hasAlias, inactive_of_free h e he]
    simp [hnone]
  | cons k ks ih =>
    cases l with
    | nil => simp [numberedViews] at h
    | cons e l =>
      simp only [List.map_cons, numberedViews, List.cons.injEq] at h
      rw [List.length_cons] at hbound
      have hiff : UInt8.ofNat n = UInt8.ofNat x ↔ n = x := by
        rw [← UInt8.toNat_inj, toNat_ofNat_byte (by omega), toNat_ofNat_byte hx']
      by_cases hnx : n = x
      · rw [List.find?_cons_of_pos (by simp [hasAlias_of_view h.1, hnx]), Option.map_some,
          (view_eq_some.mp h.1).2.1]
        simp [hnx]
      · rw [List.find?_cons_of_neg (by simp [hasAlias_of_view h.1, hiff, hnx]),
          ih h.2 (by omega) (by omega)]
        rw [show x - n = (x - (n + 1)) + 1 by omega, List.getElem?_cons_succ]

/-- The next alias is the next number. -/
theorem foldl_nextAlias_numbered (h : l.map (·.view) = numberedViews n ks free)
    (hbound : n + ks.length ≤ 256) :
    l.foldl (fun next e =>
      if e.active && decide (next ≤ e.trackAlias.toNat) then e.trackAlias.toNat + 1
      else next) n = n + ks.length := by
  induction ks generalizing l n with
  | nil =>
    have hinactive := inactive_of_free h
    clear h
    induction l with
    | nil => rfl
    | cons e l ih =>
      rw [List.foldl_cons, hinactive e List.mem_cons_self]
      exact ih fun e he => hinactive e (List.mem_cons_of_mem _ he)
  | cons k ks ih =>
    cases l with
    | nil => simp [numberedViews] at h
    | cons e l =>
      simp only [List.map_cons, numberedViews, List.cons.injEq] at h
      rw [List.length_cons] at hbound
      obtain ⟨hactive, -, halias⟩ := view_eq_some.mp h.1
      have hnat : (UInt8.ofNat n).toNat = n := toNat_ofNat_byte (by omega)
      rw [List.foldl_cons, hactive, halias, hnat]
      simp only [Bool.true_and, le_refl, decide_true, if_true]
      rw [ih h.2 (by omega), List.length_cons]
      omega

/-- Setting the alias a track has already. -/
theorem map_view_update_holds (h : l.map (·.view) = numberedViews n ks free) {k : TrackKey}
    (hk : k ∈ ks) (flags : UInt8) :
    (updateFirst (·.holds k.type k.name) (fun e => { e with
        trackAlias := UInt8.ofNat (n + ks.idxOf k)
        trackId := { e.trackId with flags := flags } }) l).map (·.view) =
      numberedViews n ks free := by
  induction ks generalizing l n with
  | nil => simp at hk
  | cons k' ks ih =>
    cases l with
    | nil => simp [numberedViews] at h
    | cons e l =>
      simp only [List.map_cons, numberedViews, List.cons.injEq] at h
      rw [updateFirst_cons]
      by_cases hkk : k' = k
      · subst hkk
        obtain ⟨hactive, hkey, halias⟩ := view_eq_some.mp h.1
        rw [if_pos (by simp [holds_of_view h.1]), List.map_cons, numberedViews, h.2]
        refine congrArg (· :: _) (view_eq_some.mpr ⟨hactive, hkey, ?_⟩)
        simp
      · rw [if_neg (by simp [holds_of_view h.1, hkk]), List.map_cons, numberedViews, h.1,
          List.idxOf_cons_ne ks hkk]
        refine congrArg (_ :: ·) ?_
        have hrec := ih h.2 (by simpa [Ne.symm hkk] using hk)
        rw [show n + 1 + ks.idxOf k = n + (ks.idxOf k).succ by omega] at hrec
        exact hrec

/-- Taking the first free entry for a new track. -/
theorem map_view_update_free (h : l.map (·.view) = numberedViews n ks (free + 1))
    {e' : TrackSubscription} {k : TrackKey}
    (he' : e'.view = some (k, UInt8.ofNat (n + ks.length))) :
    (updateFirst (!·.active) (fun _ => e') l).map (·.view) = numberedViews n (ks ++ [k]) free := by
  induction ks generalizing l n with
  | nil =>
    cases l with
    | nil => simp [numberedViews, List.replicate_succ] at h
    | cons e l =>
      simp only [List.map_cons, numberedViews, List.replicate_succ, List.cons.injEq] at h
      rw [updateFirst_cons, if_pos (by simp [view_eq_none.mp h.1]), List.map_cons, h.2, he']
      rfl
  | cons k' ks ih =>
    cases l with
    | nil => simp [numberedViews] at h
    | cons e l =>
      simp only [List.map_cons, numberedViews, List.cons.injEq] at h
      rw [updateFirst_cons, if_neg (by simp [(view_eq_some.mp h.1).1]), List.map_cons, h.1,
        List.cons_append, numberedViews]
      refine congrArg (_ :: ·) (ih h.2 ?_)
      rw [he', List.length_cons, show n + 1 + ks.length = n + (ks.length + 1) by omega]

/-- A full table has no free entry to take. -/
theorem map_view_update_full (h : l.map (·.view) = numberedViews n ks 0)
    (e' : TrackSubscription) : updateFirst (!·.active) (fun _ => e') l = l := by
  refine updateFirst_of_forall fun e he => ?_
  have hmem : e.view ∈ numberedViews n ks 0 := h ▸ List.mem_map_of_mem he
  clear h
  induction ks generalizing n with
  | nil => simp [numberedViews] at hmem
  | cons k ks ih =>
    rcases List.mem_cons.mp hmem with hview | hmem
    · simp [(view_eq_some.mp hview).1]
    · exact ih hmem

end Views

/-! ## The operations on a numbered table -/

section Tables

variable {s : Subscriptions} {ks : List TrackKey}

theorem numbers_empty : Numbers Subscriptions.empty [] :=
  ⟨by simp [Subscriptions.empty, numberedViews, TrackSubscription.view, TrackSubscription.zero],
    Nat.zero_le _⟩

/-- The alias of a named track is its number. -/
theorem Numbers.findAliasByTrack (h : Numbers s ks) {track : MoqTrackId}
    (hnamed : track.named = true) :
    findAliasByTrack s track =
      if track.key ∈ ks then some (UInt8.ofNat (8 + ks.idxOf track.key)) else none := by
  rw [Bishlink.findAliasByTrack, if_pos hnamed]
  exact find?_holds_numbered h.1 track.key

/-- The alias a SUBSCRIBE carries is the number the track has, or gets. -/
theorem Numbers.subscribeAlias (h : Numbers s ks) {track : MoqTrackId}
    (hnamed : track.named = true) :
    subscribeAlias s track = UInt8.ofNat (8 + ks.idxOf track.key) := by
  rw [Bishlink.subscribeAlias, h.findAliasByTrack hnamed]
  by_cases hk : track.key ∈ ks
  · rw [if_pos hk]
  · have hlen := h.2
    rw [if_neg hk, if_pos hnamed, List.idxOf_eq_length hk]
    exact congrArg UInt8.ofNat (foldl_nextAlias_numbered h.1 (by omega))

/-- Looking up a number gives its track. -/
theorem Numbers.findSubscriptionByAlias (h : Numbers s ks) {i : ℕ} (hi : i < 248)
    (out : MoqTrackId) :
    (findSubscriptionByAlias s (UInt8.ofNat (8 + i)) out).map MoqTrackId.key = ks[i]? := by
  have hnot : ¬UInt8.ofNat (8 + i) < 8 := by
    rw [UInt8.lt_iff_toNat_lt, toNat_ofNat_byte (by omega)]
    show ¬8 + i < 8
    omega
  have hlen := h.2
  rw [Bishlink.findSubscriptionByAlias, if_neg hnot, Option.map_map]
  have hfind := find?_hasAlias_numbered h.1 (by omega) (x := 8 + i) (by omega) (by omega)
  rw [Nat.add_sub_cancel_left] at hfind
  exact hfind

/-- `add_subscription` with the number the track has, or gets, learns the track. -/
theorem Numbers.addSubscription (h : Numbers s ks) {track : MoqTrackId} {trackAlias : UInt8}
    (halias : trackAlias = UInt8.ofNat (8 + ks.idxOf track.key)) :
    Numbers (addSubscription s track.type track.flags track.name trackAlias)
      (learn 32 ks track.key) := by
  have hlen := h.2
  have hany : s.entries.any (·.holds track.type track.name) = decide (track.key ∈ ks) := by
    have hfind := congrArg Option.isSome (find?_holds_numbered h.1 track.key)
    rw [Option.isSome_map] at hfind
    rw [Bool.eq_iff_iff, List.any_eq_true, ← List.find?_isSome]
    show (s.entries.find? (·.holds track.key.type track.key.name)).isSome = true ↔ _
    rw [hfind]
    by_cases hk : track.key ∈ ks <;> simp [hk]
  rw [Bishlink.addSubscription, hany]
  rcases learn_cases 32 ks track.key with ⟨heq, hk⟩ | ⟨heq, hk, hroom⟩
  · rw [heq]
    by_cases hmem : track.key ∈ ks
    · rw [if_pos (decide_eq_true hmem), halias]
      exact ⟨map_view_update_holds h.1 hmem track.flags, hlen⟩
    · rw [if_neg (by simpa using hmem)]
      have hfull : ks.length = 32 := by
        rcases hk with hk | hk
        · exact absurd hk hmem
        · omega
      refine ⟨?_, hlen⟩
      have hview := h.1
      rw [hfull] at hview ⊢
      show (updateFirst _ _ s.entries).map (·.view) = _
      rw [map_view_update_full hview]
      exact hview
  · rw [heq, if_neg (by simpa using hk)]
    have hview := h.1
    rw [show 32 - ks.length = (32 - (ks.length + 1)) + 1 by omega] at hview
    refine ⟨?_, by rw [List.length_append, List.length_singleton]; omega⟩
    rw [List.length_append, List.length_singleton]
    refine map_view_update_free hview (view_eq_some.mpr ⟨rfl, rfl, ?_⟩)
    rw [halias, List.idxOf_eq_length hk]

/-- `transport_subscribe` learns the track. -/
theorem Numbers.subscribeTable (h : Numbers s ks) {track : MoqTrackId}
    (hnamed : track.named = true) : Numbers (subscribeTable s track) (learn 32 ks track.key) := by
  rw [Bishlink.subscribeTable, h.findAliasByTrack hnamed]
  by_cases hk : track.key ∈ ks
  · rw [if_pos hk, learn_of_mem hk]
    exact h
  · rw [if_neg hk, Option.isNone_none, if_pos rfl]
    exact h.addSubscription (h.subscribeAlias hnamed)

end Tables

/-! ## The two ends -/

/-- The tables of the two ends of a connection, and the SUBSCRIBE messages under way. -/
structure AliasEnds where
  left : Subscriptions
  right : Subscriptions
  toRight : List (UInt8 × MoqTrackId)
  toLeft : List (UInt8 × MoqTrackId)
deriving DecidableEq

namespace AliasEnds

/-- Both ends of a new connection. -/
def init : AliasEnds := ⟨Subscriptions.empty, Subscriptions.empty, [], []⟩

/-- The same connection from the other side. -/
def swap (s : AliasEnds) : AliasEnds := ⟨s.right, s.left, s.toLeft, s.toRight⟩

/-- `transport_subscribe` on the left end. -/
def subscribeLeft (s : AliasEnds) (track : MoqTrackId) : AliasEnds :=
  { s with
    left := subscribeTable s.left track
    toRight := s.toRight ++ [(subscribeAlias s.left track, track)] }

/-- The right end takes the next message. -/
def deliverRight (s : AliasEnds) : Option AliasEnds :=
  match s.toRight with
  | [] => none
  | (trackAlias, track) :: q =>
    some { s with
      right := addSubscription s.right track.type track.flags track.name trackAlias
      toRight := q }

/-- No SUBSCRIBE is in flight. -/
def Quiet (s : AliasEnds) : Prop := s.toRight = [] ∧ s.toLeft = []

end AliasEnds

/-- What can happen: a call at an end, with a named track, or the arrival of a message. -/
inductive AliasLabel where
  | subscribeLeft (track : MoqTrackId)
  | subscribeRight (track : MoqTrackId)
  | deliverRight
  | deliverLeft

def aliasStep (s : AliasEnds) : AliasLabel → Option (AliasEnds × List Unit)
  | .subscribeLeft track => if track.named then some (s.subscribeLeft track, []) else none
  | .subscribeRight track =>
    if track.named then some ((s.swap.subscribeLeft track).swap, []) else none
  | .deliverRight => s.deliverRight.map fun s' => (s', [])
  | .deliverLeft => s.swap.deliverRight.map fun s' => (s'.swap, [])

/-- Where the track is new to an end, the alias it takes is held on the other end by that
track if the other end has it, and by no other track. -/
def TakesFreeAlias (own peer : Subscriptions) (track : MoqTrackId) : Prop :=
  findAliasByTrack own track = none → ∀ e ∈ peer.entries, e.active = true →
    (e.trackAlias = subscribeAlias own track ↔ e.trackId.sameTrack track = true)

/-- The guard on a step: a call takes a free alias. -/
def NoClash (s : AliasEnds) : AliasLabel → Prop
  | .subscribeLeft track => TakesFreeAlias s.left s.right track
  | .subscribeRight track => TakesFreeAlias s.right s.left track
  | _ => True

instance (own peer : Subscriptions) (track : MoqTrackId) :
    Decidable (TakesFreeAlias own peer track) := by
  unfold TakesFreeAlias
  infer_instance

instance (s : AliasEnds) (l : AliasLabel) : Decidable (NoClash s l) := by
  unfold NoClash
  split <;> infer_instance

/-! ## The ends are two copies of one numbering -/

/-- A message announces its track with its number. -/
def Announces (m : UInt8 × MoqTrackId) (m' : ℕ × TrackKey) : Prop :=
  m.1 = UInt8.ofNat (8 + m'.1) ∧ m.2.key = m'.2

/-- The tables number the lists of the pair, and the messages are its announcements. -/
structure Refines (s : AliasEnds) (p : Pair TrackKey) : Prop where
  left : Numbers s.left p.left
  right : Numbers s.right p.right
  toRight : List.Forall₂ Announces s.toRight p.toRight
  toLeft : List.Forall₂ Announces s.toLeft p.toLeft

theorem Refines.swap {s : AliasEnds} {p : Pair TrackKey} (h : Refines s p) :
    Refines s.swap p.swap :=
  ⟨h.right, h.left, h.toLeft, h.toRight⟩

/-- The invariant of the two ends. -/
def AliasInv (s : AliasEnds) : Prop := ∃ p, Agree 32 p ∧ Refines s p

theorem AliasInv.swap {s : AliasEnds} (h : AliasInv s) : AliasInv s.swap := by
  obtain ⟨p, hagree, hrefines⟩ := h
  exact ⟨p.swap, hagree.swap, hrefines.swap⟩

theorem aliasInv_init : AliasInv AliasEnds.init :=
  ⟨⟨[], [], [], []⟩, agree_empty 32, numbers_empty, numbers_empty, .nil, .nil⟩

/-- An entry of a numbered table has the number of its track. -/
theorem Numbers.entry {s : Subscriptions} {ks : List TrackKey} (h : Numbers s ks)
    {e : TrackSubscription} (he : e ∈ s.entries) (hactive : e.active = true) :
    ∃ j, ks[j]? = some e.trackId.key ∧ e.trackAlias = UInt8.ofNat (8 + j) := by
  have hmem : some (e.trackId.key, e.trackAlias) ∈ numberedViews 8 ks (32 - ks.length) := by
    rw [← h.1, ← view_eq_some.mpr ⟨hactive, rfl, rfl⟩]
    exact List.mem_map_of_mem he
  have key : ∀ (n : ℕ) (ks : List TrackKey) (free : ℕ),
      some (e.trackId.key, e.trackAlias) ∈ numberedViews n ks free →
      ∃ j, ks[j]? = some e.trackId.key ∧ e.trackAlias = UInt8.ofNat (n + j) := by
    intro n ks free hmem
    induction ks generalizing n with
    | nil => simp [numberedViews] at hmem
    | cons k ks ih =>
      rcases List.mem_cons.mp hmem with heq | hmem
      · simp only [Option.some.injEq, Prod.mk.injEq] at heq
        exact ⟨0, by simp [heq.1], heq.2⟩
      · obtain ⟨j, hj, halias⟩ := ih (n + 1) hmem
        exact ⟨j + 1, by simpa using hj, by rw [halias, show n + 1 + j = n + (j + 1) by omega]⟩
  exact key 8 ks _ hmem

/-- Every number of a numbered table has its entry. -/
theorem Numbers.exists_entry {s : Subscriptions} {ks : List TrackKey} (h : Numbers s ks) {j : ℕ}
    {k : TrackKey} (hj : ks[j]? = some k) :
    ∃ e ∈ s.entries, e.active = true ∧ e.trackId.key = k ∧ e.trackAlias = UInt8.ofNat (8 + j) := by
  have hlen := h.2
  obtain ⟨hlt, -⟩ := List.getElem?_eq_some_iff.mp hj
  have hfind := find?_hasAlias_numbered h.1 (by omega) (x := 8 + j) (by omega) (by omega)
  rw [Nat.add_sub_cancel_left, hj, Option.map_eq_some_iff] at hfind
  obtain ⟨e, he, hkey⟩ := hfind
  obtain ⟨hactive, halias⟩ := TrackSubscription.hasAlias_iff.mp
    (List.find?_some (p := TrackSubscription.hasAlias (UInt8.ofNat (8 + j))) he)
  exact ⟨e, List.mem_of_find?_eq_some he, hactive, hkey, halias⟩

/-- Numbers that fit a table are told apart by their aliases. -/
theorem alias_inj {i j : ℕ} (hi : i < 248) (hj : j < 248) :
    UInt8.ofNat (8 + i) = UInt8.ofNat (8 + j) ↔ i = j := by
  rw [← UInt8.toNat_inj, toNat_ofNat_byte (by omega), toNat_ofNat_byte (by omega)]
  omega

/-- A call that takes a free alias takes a number that fits. -/
theorem fits_of_takesFreeAlias {own peer : Subscriptions} {ks ks' : List TrackKey}
    {track : MoqTrackId} (hown : Numbers own ks) (hpeer : Numbers peer ks')
    (hnamed : track.named = true) (h : TakesFreeAlias own peer track) :
    Fits ks ks' track.key := by
  intro hk j k' hj
  have hlen := hown.2
  have hlen' := hpeer.2
  obtain ⟨hlt, -⟩ := List.getElem?_eq_some_iff.mp hj
  obtain ⟨e, he, hactive, rfl, halias⟩ := hpeer.exists_entry hj
  have hnone : findAliasByTrack own track = none := by
    rw [hown.findAliasByTrack hnamed, if_neg hk]
  have hiff := h hnone e he hactive
  rw [halias, hown.subscribeAlias hnamed, List.idxOf_eq_length hk,
    alias_inj (by omega) (by omega), MoqTrackId.sameTrack_iff] at hiff
  rw [hiff, TrackKey.ext_iff]
  rfl

theorem aliasInv_subscribeLeft {s : AliasEnds} {track : MoqTrackId} (h : AliasInv s)
    (hnamed : track.named = true) (hfree : TakesFreeAlias s.left s.right track) :
    AliasInv (s.subscribeLeft track) := by
  obtain ⟨p, hagree, hrefines⟩ := h
  refine ⟨p.announceLeft 32 track.key, hagree.announceLeft ?_, ?_⟩
  · exact fits_of_takesFreeAlias hrefines.left hrefines.right hnamed hfree
  · refine ⟨hrefines.left.subscribeTable hnamed, hrefines.right, ?_, hrefines.toLeft⟩
    have halias := hrefines.left.subscribeAlias hnamed
    exact List.rel_append hrefines.toRight (.cons ⟨halias, rfl⟩ .nil)

theorem aliasInv_deliverRight {s s' : AliasEnds} (h : AliasInv s)
    (hstep : s.deliverRight = some s') : AliasInv s' := by
  obtain ⟨p, hagree, hrefines⟩ := h
  have hforall := hrefines.toRight
  rw [AliasEnds.deliverRight] at hstep
  split at hstep
  · simp at hstep
  rename_i trackAlias track q hq
  rw [Option.some.injEq] at hstep
  subst hstep
  rw [hq] at hforall
  cases hp : p.toRight with
  | nil => rw [hp] at hforall; cases hforall
  | cons m q' =>
    obtain ⟨n, k⟩ := m
    rw [hp] at hforall
    obtain ⟨⟨halias, hkey⟩, hrest⟩ := List.forall₂_cons.mp hforall
    dsimp only at halias hkey
    refine ⟨p.deliverRight 32 k q', hagree.deliverRight hp, ?_⟩
    refine ⟨hrefines.left, ?_, hrest, hrefines.toLeft⟩
    rw [hagree.number_eq hp, ← hkey] at halias
    rw [← hkey]
    exact hrefines.right.addSubscription halias

/-- One step keeps the two copies in agreement. -/
theorem aliasInv_step {s s' : AliasEnds} {l : AliasLabel} {o : List Unit} (h : AliasInv s)
    (hfree : NoClash s l) (hstep : aliasStep s l = some (s', o)) : AliasInv s' := by
  cases l with
  | subscribeLeft track =>
    simp only [aliasStep] at hstep
    split at hstep
    · rename_i hnamed
      simp only [Option.some.injEq, Prod.mk.injEq] at hstep
      rw [← hstep.1]
      exact aliasInv_subscribeLeft h hnamed hfree
    · simp at hstep
  | subscribeRight track =>
    simp only [aliasStep] at hstep
    split at hstep
    · rename_i hnamed
      simp only [Option.some.injEq, Prod.mk.injEq] at hstep
      rw [← hstep.1]
      exact (aliasInv_subscribeLeft h.swap hnamed hfree).swap
    · simp at hstep
  | deliverRight =>
    obtain ⟨s₁, hs, heq⟩ := Option.map_eq_some_iff.mp hstep
    simp only [Prod.mk.injEq] at heq
    rw [← heq.1]
    exact aliasInv_deliverRight h hs
  | deliverLeft =>
    obtain ⟨s₁, hs, heq⟩ := Option.map_eq_some_iff.mp hstep
    simp only [Prod.mk.injEq] at heq
    rw [← heq.1]
    exact (aliasInv_deliverRight h.swap hs).swap

/-! ## Agreement -/

/-- The alias one table has for a track stands for that track in the other. -/
def ResolvesIn (s peer : Subscriptions) : Prop :=
  ∀ track, track.named = true → ∀ x, findAliasByTrack s track = some x → ∀ out,
    ∃ track', findSubscriptionByAlias peer x out = some track' ∧ track'.sameTrack track = true

/-- Active entries have aliases from 8 on, and different tracks different aliases. -/
def DistinctAliases (s : Subscriptions) : Prop :=
  ∀ e ∈ s.entries, e.active = true → 8 ≤ e.trackAlias ∧
    ∀ e' ∈ s.entries, e'.active = true → e.trackAlias = e'.trackAlias →
      e.trackId.sameTrack e'.trackId = true

/-- The two ends agree on aliases. -/
structure AliasesAgree (s : AliasEnds) : Prop where
  same : ∀ track, track.named = true → ∀ x y, findAliasByTrack s.left track = some x →
    findAliasByTrack s.right track = some y → x = y
  distinct_left : DistinctAliases s.left
  distinct_right : DistinctAliases s.right
  resolves_left : ResolvesIn s.left s.left
  resolves_right : ResolvesIn s.right s.right
  resolves_left_right : ResolvesIn s.left s.right
  resolves_right_left : ResolvesIn s.right s.left

theorem Numbers.resolvesIn {s peer : Subscriptions} {ks : List TrackKey} (h : Numbers s ks)
    (hpeer : Numbers peer ks) : ResolvesIn s peer := by
  intro track hnamed x hx out
  rw [h.findAliasByTrack hnamed] at hx
  split at hx
  · rename_i hk
    have hlen := h.2
    have hlt := List.idxOf_lt_length_of_mem hk
    have hfind := hpeer.findSubscriptionByAlias (i := ks.idxOf track.key) (by omega) out
    rw [List.getElem?_idxOf hk, Option.some.inj hx, Option.map_eq_some_iff] at hfind
    obtain ⟨track', hfind, hkey⟩ := hfind
    refine ⟨track', hfind, (MoqTrackId.sameTrack_iff _ _).mpr ?_⟩
    exact TrackKey.ext_iff.mp hkey
  · simp at hx

theorem Numbers.distinctAliases {s : Subscriptions} {ks : List TrackKey} (h : Numbers s ks) :
    DistinctAliases s := by
  intro e he hactive
  have hlen := h.2
  obtain ⟨j, hj, halias⟩ := h.entry he hactive
  obtain ⟨hlt, -⟩ := List.getElem?_eq_some_iff.mp hj
  refine ⟨?_, fun e' he' hactive' heq => ?_⟩
  · rw [halias, UInt8.le_iff_toNat_le, toNat_ofNat_byte (by omega)]
    show 8 ≤ 8 + j
    omega
  · obtain ⟨j', hj', halias'⟩ := h.entry he' hactive'
    obtain ⟨hlt', -⟩ := List.getElem?_eq_some_iff.mp hj'
    rw [halias, halias', alias_inj (by omega) (by omega)] at heq
    rw [heq, hj', Option.some.injEq] at hj
    exact (MoqTrackId.sameTrack_iff _ _).mpr (TrackKey.ext_iff.mp hj.symm)

/-- With no message in flight, the two ends agree. -/
theorem AliasInv.agree {s : AliasEnds} (h : AliasInv s) (hquiet : s.Quiet) : AliasesAgree s := by
  obtain ⟨p, hagree, hrefines⟩ := h
  have hright := hrefines.toRight
  have hleft := hrefines.toLeft
  rw [hquiet.1, List.forall₂_nil_left_iff] at hright
  rw [hquiet.2, List.forall₂_nil_left_iff] at hleft
  have heq := hagree.eq_of_quiet hright hleft
  have hnumR := hrefines.right
  have hnumL := hrefines.left
  rw [← heq] at hnumR
  refine ⟨?_, hnumL.distinctAliases, hnumR.distinctAliases, hnumL.resolvesIn hnumL,
    hnumR.resolvesIn hnumR, hnumL.resolvesIn hnumR, hnumR.resolvesIn hnumL⟩
  intro track hnamed x y hx hy
  rw [hnumL.findAliasByTrack hnamed] at hx
  rw [hnumR.findAliasByTrack hnamed, hx] at hy
  exact Option.some.inj hy

/-- In every run whose calls take free aliases, the two ends agree whenever no SUBSCRIBE is in
flight. -/
theorem aliases_agree (labels : List AliasLabel) (s : AliasEnds) (o : List Unit)
    (hguard : Runs.Along aliasStep NoClash AliasEnds.init labels)
    (hrun : Runs.run aliasStep AliasEnds.init labels = some (s, o)) (hquiet : s.Quiet) :
    AliasesAgree s :=
  (Runs.invariant_along (I := AliasInv) aliasInv_init
    (fun _ _ _ _ h hfree hstep => aliasInv_step h hfree hstep) labels s o hguard hrun).agree hquiet

/-- The left end subscribes to one track, and the right end to another, before or after the
first message arrives. -/
def crossRun (crossing : Bool) : List AliasLabel :=
  let left := AliasLabel.subscribeLeft ⟨MOQ_TRACK_VIDEO, 0, TrackName.ofBuffer [97]⟩
  let right := AliasLabel.subscribeRight ⟨MOQ_TRACK_DATA, 0, TrackName.ofBuffer [98]⟩
  if crossing then [left, right, .deliverRight, .deliverLeft]
  else [left, .deliverRight, right, .deliverLeft]

set_option maxRecDepth 8000 in
/-- One call after the other. -/
theorem aliases_agree_in_turn :
    ∃ s o, Runs.run aliasStep AliasEnds.init (crossRun false) = some (s, o) ∧ AliasesAgree s :=
  ⟨_, _, rfl, aliases_agree (crossRun false) _ _ (by decide) rfl ⟨rfl, rfl⟩⟩

set_option maxRecDepth 8000 in
/-- Calls that cross: with both messages delivered, both tracks have alias 8 on the left end,
and what is sent there on the second track is taken for the first. -/
theorem aliases_cross :
    ∃ s o, Runs.run aliasStep AliasEnds.init (crossRun true) = some (s, o) ∧ s.Quiet ∧
      ∃ track track', track.named = true ∧ findAliasByTrack s.left track = some 8 ∧
        findSubscriptionByAlias s.left 8 MoqTrackId.zero = some track' ∧
        track'.sameTrack track = false :=
  ⟨_, _, rfl, ⟨rfl, rfl⟩, ⟨MOQ_TRACK_DATA, 0, TrackName.ofBuffer [98]⟩, _, rfl, rfl, rfl, by decide⟩

end Bishlink
