import Bishlink.AliasAgreement
import Bishlink.Lib.BoundedMap
import Bishlink.Lib.LastWrite

/-!
# The subscription table as a map

What the table of a connection is for: a map from tracks to an alias, the flags and a stream,
with room for 32 tracks. `add_subscription` and `remove_subscription` are the operations of
that map on every table whose active entries are for different tracks
(`represents_addSubscription`, `represents_removeSubscription`), and they keep it so. An
inactive entry keeps its old alias and name, which nothing reads.
-/

namespace Bishlink

open FirstMatch SlotTable LastWrite

/-! ## Entries as slots -/

/-- What an active entry says about its track. -/
structure SubscriptionRecord where
  trackAlias : UInt8
  flags : UInt8
  stream : Option ℕ
deriving DecidableEq

/-- An entry as a slot of a table. -/
def TrackSubscription.slot (e : TrackSubscription) : Option (TrackKey × SubscriptionRecord) :=
  if e.active then some (e.trackId.key, ⟨e.trackAlias, e.trackId.flags, e.stream⟩) else none

namespace Subscriptions

def slots (s : Subscriptions) : List (Option (TrackKey × SubscriptionRecord)) :=
  s.entries.map (·.slot)

/-- The tracks with an active entry, one for each such entry. -/
def activeKeys (s : Subscriptions) : List TrackKey := keys s.slots

/-- No entry is active; the other fields of an entry may be anything. -/
def Vacant (s : Subscriptions) : Prop := ∀ e ∈ s.entries, e.active = false

/-- The active entries of a track. -/
def entriesOf (s : Subscriptions) (k : TrackKey) : List TrackSubscription :=
  s.entries.filter (·.holds k.type k.name)

theorem vacant_empty : empty.Vacant := by
  intro e he
  rw [List.eq_of_mem_replicate he]
  rfl

theorem length_slots (s : Subscriptions) : s.slots.length = 32 := by
  rw [slots, List.length_map, s.length_entries]

end Subscriptions

theorem hasKey_slot (e : TrackSubscription) (k : TrackKey) :
    hasKey k e.slot = e.holds k.type k.name := by
  unfold TrackSubscription.slot
  split
  · next hactive =>
    rw [Bool.eq_iff_iff, TrackSubscription.holds_iff, hasKey, decide_eq_true_eq,
      TrackKey.ext_iff]
    exact ⟨fun h => ⟨hactive, h⟩, fun h => h.2⟩
  · next hactive => simp [hasKey, TrackSubscription.holds, hactive]

theorem isNone_slot (e : TrackSubscription) : e.slot.isNone = !e.active := by
  unfold TrackSubscription.slot
  cases e.active <;> rfl

theorem any_hasKey_slots (s : Subscriptions) (k : TrackKey) :
    s.slots.any (hasKey k) = s.entries.any (·.holds k.type k.name) := by
  rw [Subscriptions.slots, List.any_map]
  congr 1
  funext e
  exact hasKey_slot e k

theorem find?_hasKey_slots (s : Subscriptions) (k : TrackKey) :
    s.slots.find? (hasKey k) = (s.entries.find? (·.holds k.type k.name)).map (·.slot) := by
  rw [Subscriptions.slots, List.find?_map]
  congr 2
  funext e
  exact hasKey_slot e k

/-- `add_subscription` on the slots: the track keeps the stream that it has. -/
theorem slots_addSubscription (s : Subscriptions) (track : MoqTrackId) (trackAlias : UInt8) :
    (addSubscription s track.type track.flags track.name trackAlias).slots =
      add track.key ⟨trackAlias, track.flags,
        (s.entries.find? (·.holds track.type track.name)).bind (·.stream)⟩ s.slots := by
  unfold addSubscription add addsAt
  rw [any_hasKey_slots]
  show (if s.entries.any (·.holds track.key.type track.key.name) = true then _ else _ :
    Subscriptions).slots = _
  by_cases hany : s.entries.any (·.holds track.key.type track.key.name) = true
  · rw [if_pos hany, if_pos hany]
    have hfirst := @updateFirst_congr _ (·.holds track.type track.name)
      (fun e =>
        { e with trackAlias := trackAlias, trackId := { e.trackId with flags := track.flags } })
      (fun _ => ⟨track, trackAlias, true,
        (s.entries.find? (·.holds track.type track.name)).bind (·.stream)⟩) s.entries (by
        intro e he
        obtain ⟨hactive, htype, hname⟩ := TrackSubscription.holds_iff.mp (List.find?_some he)
        rw [he]
        dsimp only [Option.bind_some]
        rw [htype, hname, hactive])
    show (updateFirst _ _ s.entries).map (·.slot) = _
    rw [hfirst]
    exact map_updateFirst (fun e _ => hasKey_slot e track.key) fun _ _ _ => rfl
  · rw [if_neg hany, if_neg hany]
    have hnone : s.entries.find? (·.holds track.type track.name) = none := by
      rw [List.find?_eq_none]
      exact fun e he hholds => hany (List.any_eq_true.mpr ⟨e, he, hholds⟩)
    rw [hnone]
    exact map_updateFirst (fun e _ => isNone_slot e) fun _ _ _ => rfl

/-- `remove_subscription` on the slots. -/
theorem slots_removeSubscription (s : Subscriptions) (track : MoqTrackId) :
    (removeSubscription s track.type track.name).1.slots = remove track.key s.slots :=
  map_updateFirst (fun e _ => hasKey_slot e track.key) fun _ _ _ => rfl

/-! ## The map that a table stands for -/

/-- A map from tracks to what is known of their subscriptions, for 32 tracks at most. -/
abbrev SubscriptionMap := BoundedMap TrackKey SubscriptionRecord 32

/-- The table has at most one active entry for a track, and the map says what it is. -/
def Subscriptions.Is (s : Subscriptions) (m : SubscriptionMap) : Prop := Represents s.slots m

/-- Give a track an alias and flags, with its stream as it is. -/
def SubscriptionMap.subscribe (track : MoqTrackId) (trackAlias : UInt8) (m : SubscriptionMap) :
    SubscriptionMap :=
  m.put track.key ⟨trackAlias, track.flags, (m.lookup track.key).bind (·.stream)⟩

namespace Subscriptions

variable {s : Subscriptions} {m : SubscriptionMap}

theorem Is.empty (h : s.Vacant) : s.Is BoundedMap.empty := by
  refine Represents.empty ?_ s.length_slots
  intro x hx
  obtain ⟨e, he, rfl⟩ := List.mem_map.mp hx
  rw [TrackSubscription.slot, h e he]
  rfl

/-- Looking a track up in the table. -/
theorem Is.find?_holds (h : s.Is m) (k : TrackKey) :
    (s.entries.find? (·.holds k.type k.name)).map (fun e => (⟨e.trackAlias, e.trackId.flags,
      e.stream⟩ : SubscriptionRecord)) = m.lookup k := by
  have hfind := Represents.find?_hasKey h k
  rw [find?_hasKey_slots] at hfind
  cases hentry : s.entries.find? (·.holds k.type k.name) with
  | none =>
    rw [hentry] at hfind
    exact (Option.map_eq_none_iff.mp hfind.symm).symm
  | some e =>
    have hactive := (TrackSubscription.holds_iff.mp (List.find?_some hentry)).1
    rw [hentry, Option.map_some, TrackSubscription.slot, if_pos hactive] at hfind
    obtain ⟨v, hv, heq⟩ := Option.map_eq_some_iff.mp hfind.symm
    simp only [Option.some.injEq, Prod.mk.injEq] at heq
    rw [hv, Option.map_some, heq.2]

/-- `find_alias_by_track` reads the map. -/
theorem Is.findAliasByTrack (h : s.Is m) {track : MoqTrackId} (hnamed : track.named = true) :
    findAliasByTrack s track = (m.lookup track.key).map (·.trackAlias) := by
  rw [Bishlink.findAliasByTrack, if_pos hnamed, ← h.find?_holds, Option.map_map]
  rfl

/-- `add_subscription` is the map's operation. -/
theorem Is.add (h : s.Is m) (track : MoqTrackId) (trackAlias : UInt8) :
    (addSubscription s track.type track.flags track.name trackAlias).Is
      (m.subscribe track trackAlias) := by
  have hstream : (s.entries.find? (·.holds track.type track.name)).bind (·.stream) =
      (m.lookup track.key).bind (·.stream) := by
    rw [← h.find?_holds, Option.bind_map]
    rfl
  rw [Is, slots_addSubscription, hstream]
  exact Represents.add h _ _

/-- `remove_subscription` is the map's operation. -/
theorem Is.remove (h : s.Is m) (track : MoqTrackId) :
    (removeSubscription s track.type track.name).1.Is (m.erase track.key) := by
  rw [Is, slots_removeSubscription]
  exact Represents.remove h _

end Subscriptions

/-! ## Sequences of calls -/

/-- A call that adds a track under an alias, or one that removes a track. -/
inductive SubscriptionCall where
  | add (track : MoqTrackId) (trackAlias : UInt8)
  | remove (track : MoqTrackId)
deriving DecidableEq

namespace SubscriptionCall

/-- The track that the call is for. -/
def key : SubscriptionCall → TrackKey
  | add track _ => track.key
  | remove track => track.key

/-- The table after the call. -/
def apply (s : Subscriptions) : SubscriptionCall → Subscriptions
  | add track trackAlias => addSubscription s track.type track.flags track.name trackAlias
  | remove track => (removeSubscription s track.type track.name).1

/-- The map after the call. -/
def applyMap (m : SubscriptionMap) : SubscriptionCall → SubscriptionMap
  | add track trackAlias => m.subscribe track trackAlias
  | remove track => m.erase track.key

end SubscriptionCall

/-- The call leaves the table as it is, without an entry for the track. -/
def Ignored (s : Subscriptions) (track : MoqTrackId) (trackAlias : UInt8) : Prop :=
  addSubscription s track.type track.flags track.name trackAlias = s ∧
    s.entriesOf track.key = []

instance (s : Subscriptions) (track : MoqTrackId) (trackAlias : UInt8) :
    Decidable (Ignored s track trackAlias) :=
  inferInstanceAs (Decidable (_ ∧ _))

theorem entriesOf_eq_nil {s : Subscriptions} {k : TrackKey} :
    s.entriesOf k = [] ↔ k ∉ s.activeKeys := by
  rw [Subscriptions.activeKeys, ← any_hasKey, any_hasKey_slots, List.any_eq_true,
    Subscriptions.entriesOf, List.filter_eq_nil_iff]
  simp only [not_exists, not_and]

/-- An add is ignored when its track is new and the table is full. -/
theorem ignored_iff {s : Subscriptions} {track : MoqTrackId} {trackAlias : UInt8} :
    Ignored s track trackAlias ↔ track.key ∉ s.activeKeys ∧ s.activeKeys.length = 32 := by
  have hfull : none ∉ s.slots ↔ s.activeKeys.length = 32 := by
    rw [none_not_mem_iff, s.length_slots, Subscriptions.activeKeys]
  rw [Ignored, entriesOf_eq_nil, ← hfull]
  constructor
  · rintro ⟨hsame, hnew⟩
    refine ⟨hnew, ?_⟩
    intro hfree
    have hslots := slots_addSubscription s track trackAlias
    obtain ⟨pre, x, post, -, hadd, -⟩ := add_split (k := track.key) ⟨trackAlias, track.flags,
      (s.entries.find? (·.holds track.type track.name)).bind (·.stream)⟩ (Or.inr hfree)
    rw [hsame, hadd] at hslots
    apply hnew
    rw [Subscriptions.activeKeys, hslots, keys_append, keys_cons_some]
    exact List.mem_append_right _ List.mem_cons_self
  · rintro ⟨hnew, hfull⟩
    refine ⟨?_, hnew⟩
    have hany : ¬s.entries.any (·.holds track.type track.name) = true := by
      intro hany
      exact hnew (any_hasKey.mp ((any_hasKey_slots s track.key).trans hany))
    rw [addSubscription, if_neg hany]
    refine Subscriptions.ext (updateFirst_of_forall fun e he => ?_)
    rw [← isNone_slot, ← Bool.not_eq_true, Option.isNone_iff_eq_none]
    exact fun hnone => hfull (List.mem_map.mpr ⟨e, he, hnone⟩)

/-- The map ignores what the table ignores. -/
theorem Subscriptions.Is.ignored_iff {s : Subscriptions} {m : SubscriptionMap} (h : s.Is m)
    {track : MoqTrackId} {trackAlias : UInt8} :
    Ignored s track trackAlias ↔ ¬m.HasRoom track.key := by
  rw [Bishlink.ignored_iff, Represents.hasRoom_iff h, not_or, none_not_mem_iff,
    s.length_slots]
  rfl

/-- What a call does to the alias of a track: an accepted add for that track sets it, a
removal takes it away, and any other call leaves it. -/
def aliasWrite (k : TrackKey) (s : Subscriptions) : SubscriptionCall → Option (Option UInt8)
  | .add track trackAlias =>
    if track.key = k ∧ ¬Ignored s track trackAlias then some (some trackAlias) else none
  | .remove track => if track.key = k then some none else none

/-- A call refines the map's. -/
theorem Subscriptions.Is.apply {s : Subscriptions} {m : SubscriptionMap} (h : s.Is m)
    (c : SubscriptionCall) : (c.apply s).Is (c.applyMap m) := by
  cases c with
  | add track trackAlias => exact h.add track trackAlias
  | remove track => exact h.remove track

/-- A sequence of calls refines the map's. -/
theorem Subscriptions.Is.run {s : Subscriptions} {m : SubscriptionMap} (h : s.Is m)
    (calls : List SubscriptionCall) :
    (calls.foldl SubscriptionCall.apply s).Is (calls.foldl SubscriptionCall.applyMap m) := by
  induction calls generalizing s m with
  | nil => exact h
  | cons c calls ih => exact ih (h.apply c)

/-- What `find_alias_by_track` gives after a call. -/
theorem findAliasByTrack_apply {s : Subscriptions} {m : SubscriptionMap} (h : s.Is m)
    {track : MoqTrackId} (hnamed : track.named = true) (c : SubscriptionCall) :
    findAliasByTrack (c.apply s) track =
      (aliasWrite track.key s c).getD (findAliasByTrack s track) := by
  rw [(h.apply c).findAliasByTrack hnamed, h.findAliasByTrack hnamed]
  cases c with
  | add added trackAlias =>
    simp only [SubscriptionCall.applyMap, SubscriptionMap.subscribe, aliasWrite, h.ignored_iff]
    by_cases hkey : added.key = track.key
    · by_cases hroom : m.HasRoom added.key
      · rw [if_pos ⟨hkey, not_not_intro hroom⟩, ← hkey, BoundedMap.lookup_put_self hroom]
        rfl
      · rw [if_neg fun hc => hc.2 hroom, BoundedMap.put_of_not_hasRoom hroom]
        rfl
    · rw [if_neg fun hc => hkey hc.1, BoundedMap.lookup_put_of_ne (Ne.symm hkey)]
      rfl
  | remove removed =>
    rw [SubscriptionCall.applyMap, aliasWrite]
    by_cases hkey : removed.key = track.key
    · rw [if_pos hkey, hkey, BoundedMap.lookup_erase_self]
      rfl
    · rw [if_neg hkey, BoundedMap.lookup_erase_of_ne (Ne.symm hkey)]
      rfl

/-- The entries of the other tracks stay as they are, whatever the table. -/
theorem entriesOf_apply (s : Subscriptions) (c : SubscriptionCall) {k : TrackKey}
    (hk : k ≠ c.key) : (c.apply s).entriesOf k = s.entriesOf k := by
  have hother : ∀ (track : MoqTrackId) (e : TrackSubscription), k ≠ track.key →
      e.trackId.type = track.type → e.trackId.name = track.name →
        e.holds k.type k.name = false := by
    intro track e hne htype hname
    rw [← Bool.not_eq_true, TrackSubscription.holds_iff]
    rintro ⟨-, htype', hname'⟩
    exact hne (TrackKey.ext (htype'.symm.trans htype) (hname'.symm.trans hname))
  cases c with
  | add track trackAlias =>
    show (addSubscription s track.type track.flags track.name trackAlias).entriesOf k = _
    unfold addSubscription
    split
    · refine filter_updateFirst_of_not ?_ s.entries
      intro e he
      obtain ⟨-, htype, hname⟩ := TrackSubscription.holds_iff.mp he
      exact ⟨hother track e hk htype hname, hother track _ hk htype hname⟩
    · refine filter_updateFirst_of_not ?_ s.entries
      intro e he
      rw [Bool.not_eq_true'] at he
      exact ⟨by rw [TrackSubscription.holds, he]; rfl, hother track _ hk rfl rfl⟩
  | remove track =>
    refine filter_updateFirst_of_not ?_ s.entries
    intro e he
    obtain ⟨-, htype, hname⟩ := TrackSubscription.holds_iff.mp he
    exact ⟨hother track e hk htype hname, rfl⟩

/-- After any calls from an empty table: no two active entries are for one track; a named track
has the alias of the last accepted add for it that no removal followed, and none otherwise; the
next add is ignored exactly when its track is new and 32 tracks have an entry. And in every
table a call keeps the entries of the other tracks. -/
theorem subscriptions_bounded_map {s : Subscriptions} (hs : s.Vacant)
    (calls : List SubscriptionCall) :
    (calls.foldl SubscriptionCall.apply s).activeKeys.Nodup ∧
    (∀ track : MoqTrackId, track.named = true → ∀ trackAlias,
      findAliasByTrack (calls.foldl SubscriptionCall.apply s) track = some trackAlias ↔
        LastWrites SubscriptionCall.apply (aliasWrite track.key) s calls (some trackAlias)) ∧
    (∀ (track : MoqTrackId) (trackAlias : UInt8),
      Ignored (calls.foldl SubscriptionCall.apply s) track trackAlias ↔
        track.key ∉ (calls.foldl SubscriptionCall.apply s).activeKeys ∧
          (calls.foldl SubscriptionCall.apply s).activeKeys.length = 32) ∧
    ∀ (s' : Subscriptions) (c : SubscriptionCall) (k : TrackKey), k ≠ c.key →
      (c.apply s').entriesOf k = s'.entriesOf k := by
  have hempty := Subscriptions.Is.empty hs
  refine ⟨(hempty.run calls).nodup, ?_, fun _ _ => ignored_iff, fun s' c _ => entriesOf_apply s' c⟩
  intro track hnamed trackAlias
  refine read_eq_iff (fun s => findAliasByTrack s track) (fun s => ∃ m, s.Is m) ?_ ?_ ⟨_, hempty⟩
    ?_ calls trackAlias
  · rintro s c ⟨m, h⟩
    exact ⟨_, h.apply c⟩
  · rintro s c ⟨m, h⟩
    exact findAliasByTrack_apply h hnamed c
  · show findAliasByTrack s track = none
    rw [hempty.findAliasByTrack hnamed, BoundedMap.lookup_empty]
    rfl

/-- A track that is removed and added again, in the entry that it had before, has the new alias. -/
theorem subscriptions_bounded_map_reuse :
    let screen : MoqTrackId := ⟨MOQ_TRACK_VIDEO, 0, TrackName.ofBuffer [115]⟩
    let chat : MoqTrackId := ⟨MOQ_TRACK_TEXT, 0, TrackName.ofBuffer [99]⟩
    findAliasByTrack ([.add screen 8, .add chat 9, .remove screen, .add screen 10].foldl
      SubscriptionCall.apply Subscriptions.empty) screen = some 10 := by
  intro screen chat
  refine ((subscriptions_bounded_map Subscriptions.vacant_empty _).2.1 screen (by decide) 10).mpr ?_
  refine ⟨[.add screen 8, .add chat 9, .remove screen], .add screen 10, [], rfl, by decide, ?_⟩
  intro mid j rest hrest
  exact absurd hrest.symm (by simp)

end Bishlink
