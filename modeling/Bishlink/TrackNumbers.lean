import Bishlink.Directions
import Bishlink.Lib.Handover

/-!
# Tables with the unnamed DATA track

A daemon may subscribe to the unnamed DATA track as well. Its alias is its type, on both ends, but
the SUBSCRIBE message makes an entry for it in the table of the other end. `NumbersNamed` is
`Numbers` with such an entry: the named tracks of the table have the aliases 8, 9, … in the order of
a list, and there may be one entry more.
-/

namespace Bishlink

open SlotTable Numbering

/-- `name[0] != '\0'`. -/
def TrackKey.named (k : TrackKey) : Bool := k.name != TrackName.empty

theorem MoqTrackId.named_key (t : MoqTrackId) : t.key.named = t.named := rfl

/-- The DATA track without a name. -/
def unnamedData : TrackKey := ⟨MOQ_TRACK_DATA, TrackName.empty⟩

/-- The named tracks of the table are numbered from 8 on; beside them there is at most the unnamed
DATA track, under its type. -/
structure NumbersNamed (s : Subscriptions) (ks : List TrackKey) : Prop where
  nodup : (keys s.views).Nodup
  mem_iff : ∀ k a, k.named = true →
    (some (k, a) ∈ s.views ↔ k ∈ ks ∧ a = UInt8.ofNat (8 + ks.idxOf k))
  unnamed : ∀ k a, k.named = false → some (k, a) ∈ s.views → k = unnamedData ∧ a = MOQ_TRACK_DATA
  named : ∀ k ∈ ks, k.named = true

theorem views_empty : Subscriptions.empty.views = List.replicate 32 none := by
  rw [Subscriptions.views, Subscriptions.empty, List.map_replicate]
  rfl

theorem numbersNamed_empty : NumbersNamed Subscriptions.empty [] := by
  have hnone : ∀ x : TrackKey × UInt8, some x ∉ Subscriptions.empty.views := by
    intro x hx
    rw [views_empty] at hx
    exact absurd (List.eq_of_mem_replicate hx) (Option.some_ne_none x)
  have hkeys : keys Subscriptions.empty.views = [] := by
    rw [List.eq_nil_iff_forall_not_mem]
    intro k hk
    obtain ⟨a, ha⟩ := mem_keys.mp hk
    exact hnone _ ha
  refine ⟨?_, fun k a _ => ?_, fun k a _ ha => absurd ha (hnone _), fun k hk => ?_⟩
  · rw [hkeys]
    exact List.nodup_nil
  · exact iff_of_false (hnone _) fun h => absurd h.1 List.not_mem_nil
  · exact absurd hk List.not_mem_nil

namespace NumbersNamed

variable {s s' : Subscriptions} {ks : List TrackKey}

theorem of_views (h : NumbersNamed s ks) (hviews : s'.views = s.views) : NumbersNamed s' ks := by
  refine ⟨?_, ?_, ?_, h.named⟩
  · rw [hviews]
    exact h.nodup
  · rw [hviews]
    exact h.mem_iff
  · rw [hviews]
    exact h.unnamed

theorem mem_keys_iff (h : NumbersNamed s ks) {k : TrackKey} (hk : k.named = true) :
    k ∈ keys s.views ↔ k ∈ ks := by
  rw [mem_keys]
  simp only [h.mem_iff k _ hk, exists_and_left, exists_eq, and_true]

/-- With 30 named tracks and the unnamed one there is still a free slot. -/
theorem hasRoom (h : NumbersNamed s ks) (hlen : ks.length ≤ 30) (k : TrackKey) :
    k ∈ keys s.views ∨ none ∈ s.views := by
  by_cases hthere : k ∈ keys s.views
  · exact Or.inl hthere
  right
  have hsub : ∀ k' ∈ keys s.views, k' ∈ k :: unnamedData :: ks := by
    intro k' hk'
    cases hnamed : k'.named with
    | true =>
      rw [h.mem_keys_iff hnamed] at hk'
      exact List.mem_cons_of_mem _ (List.mem_cons_of_mem _ hk')
    | false =>
      obtain ⟨a, ha⟩ := mem_keys.mp hk'
      rw [(h.unnamed k' a hnamed ha).1]
      exact List.mem_cons_of_mem _ List.mem_cons_self
  refine none_mem_of_subset h.nodup hsub ?_ List.mem_cons_self hthere
  have htable := Subscriptions.length_views s
  rw [List.length_cons, List.length_cons, htable]
  omega

/-! ## Lookups -/

/-- The alias of a named track is its number. -/
theorem findAliasByTrack (h : NumbersNamed s ks) {track : MoqTrackId}
    (hnamed : track.named = true) :
    findAliasByTrack s track =
      if track.key ∈ ks then some (UInt8.ofNat (8 + ks.idxOf track.key)) else none := by
  have hmem : ∀ e ∈ s.entries, e.view ∈ s.views := fun e he => List.mem_map_of_mem he
  have hkeyed : track.key.named = true := hnamed
  rw [Bishlink.findAliasByTrack, if_pos hnamed]
  cases hfind : s.entries.find? (·.holds track.type track.name) with
  | none =>
    rw [if_neg, Option.map_none]
    intro hk
    rw [← h.mem_keys_iff hkeyed, ← any_hasKey, any_hasKey_views, List.any_eq_true] at hk
    obtain ⟨e, he, hholds⟩ := hk
    exact absurd hholds (List.find?_eq_none.mp hfind e he)
  | some e =>
    obtain ⟨hactive, htype, hname⟩ := TrackSubscription.holds_iff.mp
      (List.find?_some (p := TrackSubscription.holds track.type track.name) hfind)
    have hkey : e.trackId.key = track.key := TrackKey.ext htype hname
    have hview := hmem e (List.mem_of_find?_eq_some hfind)
    rw [view_eq_some.mpr ⟨hactive, hkey, rfl⟩, h.mem_iff _ _ hkeyed] at hview
    rw [if_pos hview.1, Option.map_some, hview.2]

/-- No alias is above the next number, and the last number is taken. -/
theorem nextAlias_eq (h : NumbersNamed s ks) (hks : ks.Nodup) (hlen : ks.length ≤ 30) :
    nextAlias s = 8 + ks.length := by
  have hmem : ∀ e ∈ s.entries, e.view ∈ s.views := fun e he => List.mem_map_of_mem he
  have hbyte : ∀ i ≤ 30, (UInt8.ofNat (8 + i)).toNat = 8 + i :=
    fun i hi => toNat_ofNat_byte (by omega)
  -- no alias in use is past the numbers, and the last key has the last of them
  apply le_antisymm
  · have hle : ∀ e ∈ s.entries, e.active = true → e.trackAlias.toNat < 8 + ks.length := by
      intro e he hactive
      have hview := hmem e he
      rw [view_eq_some.mpr ⟨hactive, rfl, rfl⟩] at hview
      cases hnamed : e.trackId.key.named with
      | true =>
        obtain ⟨hk, halias⟩ := (h.mem_iff _ _ hnamed).mp hview
        have hlt := List.idxOf_lt_length_of_mem hk
        rw [halias, hbyte _ (by omega)]
        omega
      | false =>
        rw [(h.unnamed _ _ hnamed hview).2]
        exact Nat.lt_of_lt_of_le (by decide) (Nat.le_add_right 8 ks.length)
    -- the fold stays below a bound of all aliases
    have key : ∀ (l : List TrackSubscription) (n : ℕ), n ≤ 8 + ks.length →
        (∀ e ∈ l, e.active = true → e.trackAlias.toNat < 8 + ks.length) →
        l.foldl (fun next e =>
          if e.active && decide (next ≤ e.trackAlias.toNat) then e.trackAlias.toNat + 1
          else next) n ≤ 8 + ks.length := by
      intro l
      induction l with
      | nil => exact fun n hn _ => hn
      | cons e l ih =>
        intro n hn hl
        rw [List.foldl_cons]
        apply ih _ ?_ fun e' he' => hl e' (List.mem_cons_of_mem e he')
        split
        · next hnext =>
          have hactive := (Bool.and_eq_true_iff.mp hnext).1
          have hlt := hl e List.mem_cons_self hactive
          omega
        · exact hn
    exact key s.entries 8 (Nat.le_add_right 8 _) hle
  · rcases List.eq_nil_or_concat ks with rfl | ⟨ks', k, heq⟩
    · exact eight_le_nextAlias s
    · rw [List.concat_eq_append] at heq
      have hk : k ∈ ks := by
        rw [heq]
        exact List.mem_append_right ks' List.mem_cons_self
      have hnew : k ∉ ks' := by
        rw [heq, ← List.concat_eq_append, List.nodup_concat] at hks
        exact hks.1
      have hidx : ks.idxOf k = ks'.length := by
        rw [heq, List.idxOf_append_of_notMem hnew, List.idxOf_cons_self, Nat.add_zero]
      have hlength : ks.length = ks'.length + 1 := by
        rw [heq, List.length_append, List.length_singleton]
      have hview := (h.mem_iff k _ (h.named k hk)).mpr ⟨hk, rfl⟩
      obtain ⟨e, he, hentry⟩ := List.mem_map.mp hview
      obtain ⟨hactive, -, halias⟩ := view_eq_some.mp hentry
      have hlt := alias_lt_nextAlias he hactive
      rw [halias, hbyte _ (by omega), hidx] at hlt
      omega

/-- The alias a SUBSCRIBE carries is the number the track has, or gets. -/
theorem subscribeAlias (h : NumbersNamed s ks) (hks : ks.Nodup) (hlen : ks.length ≤ 30)
    {track : MoqTrackId} (hnamed : track.named = true) :
    subscribeAlias s track = UInt8.ofNat (8 + ks.idxOf track.key) := by
  rw [Bishlink.subscribeAlias, h.findAliasByTrack hnamed]
  by_cases hk : track.key ∈ ks
  · rw [if_pos hk]
  · rw [if_neg hk]
    dsimp only
    rw [if_pos hnamed, h.nextAlias_eq hks hlen, List.idxOf_eq_length hk]

/-- An alias from 8 on stands for the track that has its number. -/
theorem findSubscriptionByAlias (h : NumbersNamed s ks) (hks : ks.Nodup) (hlen : ks.length ≤ 30)
    {trackAlias : UInt8} (halias : 8 ≤ trackAlias) (out : MoqTrackId) :
    (findSubscriptionByAlias s trackAlias out).map MoqTrackId.key = ks[trackAlias.toNat - 8]? := by
  have height : 8 ≤ trackAlias.toNat := UInt8.le_iff_toNat_le.mp halias
  have hback : UInt8.ofNat (8 + (trackAlias.toNat - 8)) = trackAlias := by
    rw [Nat.add_sub_cancel' height, UInt8.ofNat_toNat]
  rw [Bishlink.findSubscriptionByAlias, if_neg (UInt8.not_lt.mpr halias), Option.map_map]
  cases hfind : s.entries.find? (·.hasAlias trackAlias) with
  | none =>
    rw [Option.map_none]
    by_contra hne
    obtain ⟨k, hk⟩ := Option.ne_none_iff_exists'.mp (Ne.symm hne)
    obtain ⟨hlt, hget⟩ := List.getElem?_eq_some_iff.mp hk
    have hmem : k ∈ ks := hget ▸ List.getElem_mem hlt
    have hidx : ks.idxOf k = trackAlias.toNat - 8 := by
      rw [← hget]
      exact hks.idxOf_getElem _ hlt
    have hview := (h.mem_iff k trackAlias (h.named k hmem)).mpr ⟨hmem, by rw [hidx, hback]⟩
    obtain ⟨e, he, hentry⟩ := List.mem_map.mp hview
    obtain ⟨hactive, -, heq⟩ := view_eq_some.mp hentry
    exact absurd (TrackSubscription.hasAlias_iff.mpr ⟨hactive, heq⟩)
      (List.find?_eq_none.mp hfind e he)
  | some e =>
    obtain ⟨hactive, heq⟩ := TrackSubscription.hasAlias_iff.mp
      (List.find?_some (p := TrackSubscription.hasAlias trackAlias) hfind)
    have hview : some (e.trackId.key, trackAlias) ∈ s.views :=
      List.mem_map.mpr ⟨e, List.mem_of_find?_eq_some hfind, view_eq_some.mpr ⟨hactive, rfl, heq⟩⟩
    show some e.trackId.key = _
    cases hnamed : e.trackId.key.named with
    | true =>
      obtain ⟨hk, hnumber⟩ := (h.mem_iff _ _ hnamed).mp hview
      have hlt := List.idxOf_lt_length_of_mem hk
      have hnat : trackAlias.toNat = 8 + ks.idxOf e.trackId.key := by
        rw [hnumber, toNat_ofNat_byte (by omega)]
      rw [hnat, Nat.add_sub_cancel_left, List.getElem?_idxOf hk]
    | false =>
      have hdata := (h.unnamed _ _ hnamed hview).2
      rw [hdata] at halias
      exact absurd halias (by decide)

/-! ## Operations -/

/-- `add_subscription` with the number the track has, or gets, learns the track. -/
theorem addSubscription (h : NumbersNamed s ks) {track : MoqTrackId} {trackAlias : UInt8}
    (hnamed : track.named = true) (hnew : track.key ∉ ks → ks.length < 30)
    (hlen : ks.length ≤ 30) (halias : trackAlias = UInt8.ofNat (8 + ks.idxOf track.key)) :
    NumbersNamed (addSubscription s track.type track.flags track.name trackAlias)
      (learn 30 ks track.key) := by
  have hroom := h.hasRoom hlen track.key
  have hadd : ∀ k a, some (k, a) ∈
      (Bishlink.addSubscription s track.type track.flags track.name trackAlias).views ↔
        (k = track.key ∧ a = trackAlias) ∨ (k ≠ track.key ∧ some (k, a) ∈ s.views) := by
    intro k a
    rw [views_addSubscription]
    exact mem_add h.nodup hroom
  have hkeys : ∀ k, k ∈ learn 30 ks track.key ↔ k = track.key ∨ k ∈ ks := by
    intro k
    by_cases hk : track.key ∈ ks
    · rw [learn_of_mem hk]
      exact ⟨Or.inr, fun hor => hor.elim (fun heq => heq ▸ hk) id⟩
    · rw [learn_of_new hk (hnew hk), List.mem_append, List.mem_singleton, or_comm]
  -- keys that have a number keep it
  have hidx : ∀ k ∈ ks, (learn 30 ks track.key).idxOf k = ks.idxOf k := fun k hk =>
    idxOf_of_isPrefix (prefix_learn 30 ks track.key) hk
  have hself : (learn 30 ks track.key).idxOf track.key = ks.idxOf track.key := by
    by_cases hk : track.key ∈ ks
    · exact hidx _ hk
    · rw [learn_of_new hk (hnew hk), List.idxOf_append_of_notMem hk, List.idxOf_cons_self,
        Nat.add_zero, List.idxOf_eq_length hk]
  refine ⟨?_, ?_, ?_, ?_⟩
  · rw [views_addSubscription]
    exact nodup_add trackAlias h.nodup hroom
  · intro k a hk
    rw [hadd, hkeys]
    by_cases heq : k = track.key
    · subst heq
      rw [hself, ← halias]
      simp
    · rw [h.mem_iff k a hk]
      constructor
      · rintro (⟨hsame, -⟩ | ⟨-, hmem, ha⟩)
        · exact absurd hsame heq
        · exact ⟨Or.inr hmem, by rw [hidx k hmem, ha]⟩
      · rintro ⟨hor, ha⟩
        have hmem := hor.resolve_left heq
        exact Or.inr ⟨heq, hmem, by rw [ha, hidx k hmem]⟩
  · intro k a hk hmem
    rcases (hadd k a).mp hmem with ⟨rfl, -⟩ | ⟨-, hold⟩
    · rw [MoqTrackId.named_key, hnamed] at hk
      exact absurd hk (by decide)
    · exact h.unnamed k a hk hold
  · intro k hk
    rcases (hkeys k).mp hk with rfl | hk
    · exact hnamed
    · exact h.named k hk

/-- `add_subscription` for the unnamed DATA track. -/
theorem addUnnamed (h : NumbersNamed s ks) {track : MoqTrackId} (hkey : track.key = unnamedData)
    (hlen : ks.length ≤ 30) :
    NumbersNamed (Bishlink.addSubscription s track.type track.flags track.name MOQ_TRACK_DATA)
      ks := by
  have hroom := h.hasRoom hlen track.key
  have hadd : ∀ k a, some (k, a) ∈
      (Bishlink.addSubscription s track.type track.flags track.name MOQ_TRACK_DATA).views ↔
        (k = unnamedData ∧ a = MOQ_TRACK_DATA) ∨ (k ≠ unnamedData ∧ some (k, a) ∈ s.views) := by
    intro k a
    rw [views_addSubscription, ← hkey]
    exact mem_add h.nodup hroom
  refine ⟨?_, fun k a hk => ?_, fun k a hk hmem => ?_, h.named⟩
  · rw [views_addSubscription]
    exact nodup_add _ h.nodup hroom
  · have hne : k ≠ unnamedData := by
      rintro rfl
      exact absurd hk (by decide)
    rw [hadd, ← h.mem_iff k a hk]
    simp [hne]
  · rcases (hadd k a).mp hmem with hnew | ⟨-, hold⟩
    · exact hnew
    · exact h.unnamed k a hk hold

/-- `transport_subscribe` learns the track. -/
theorem subscribeTable (h : NumbersNamed s ks) (hks : ks.Nodup) {track : MoqTrackId}
    (hnamed : track.named = true) (hnew : track.key ∉ ks → ks.length < 30)
    (hlen : ks.length ≤ 30) :
    NumbersNamed (subscribeTable s track) (learn 30 ks track.key) := by
  rw [Bishlink.subscribeTable, h.findAliasByTrack hnamed]
  by_cases hk : track.key ∈ ks
  · rw [if_pos hk, learn_of_mem hk]
    exact h
  · rw [if_neg hk, Option.isNone_none, if_pos rfl]
    exact h.addSubscription hnamed hnew hlen (h.subscribeAlias hks hlen hnamed)

end NumbersNamed

/-- `transport_subscribe` leaves the table as it is for an unnamed track. -/
theorem subscribeTable_unnamed (s : Subscriptions) {track : MoqTrackId}
    (h : track.named = false) : subscribeTable s track = s := by
  have hsome : findAliasByTrack s track = some track.type := by
    rw [findAliasByTrack, if_neg (by rw [h]; exact Bool.false_ne_true)]
  simp only [subscribeTable, hsome, Option.isNone_some, Bool.false_eq_true, if_false]

theorem subscribeAlias_unnamed (s : Subscriptions) {track : MoqTrackId}
    (h : track.named = false) : subscribeAlias s track = track.type := by
  rw [subscribeAlias, findAliasByTrack, if_neg (by rw [h]; exact Bool.false_ne_true)]

end Bishlink
