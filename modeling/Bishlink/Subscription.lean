import Bishlink.Lib.FirstMatch
import Bishlink.Track

/-!
# The subscription table of a connection

`conn->subscriptions[32]` and the functions that read and write it. All of them scan
the array from the front and stop at the first entry that fits, so they are stated
through `FirstMatch.updateFirst` and `List.find?`.
-/

namespace Bishlink

open FirstMatch

/-- `track_subscription_t`. -/
structure TrackSubscription where
  trackId : MoqTrackId
  trackAlias : UInt8
  active : Bool
  stream : Option ℕ
deriving DecidableEq

/-- A zeroed entry. -/
def TrackSubscription.zero : TrackSubscription := ⟨MoqTrackId.zero, 0, false, none⟩

/-- `active && track_id.type == type && strcmp(track_id.name, name) == 0`. -/
def TrackSubscription.holds (type : MoqTrackType) (name : TrackName) (e : TrackSubscription) :
    Bool :=
  e.active && e.trackId.type == type && e.trackId.name == name

/-- `active && alias == alias`. -/
def TrackSubscription.hasAlias (trackAlias : UInt8) (e : TrackSubscription) : Bool :=
  e.active && e.trackAlias == trackAlias

theorem TrackSubscription.holds_iff {type : MoqTrackType} {name : TrackName}
    {e : TrackSubscription} :
    e.holds type name = true ↔
      e.active = true ∧ e.trackId.type = type ∧ e.trackId.name = name := by
  simp [holds, and_assoc]

theorem TrackSubscription.hasAlias_iff {trackAlias : UInt8} {e : TrackSubscription} :
    e.hasAlias trackAlias = true ↔ e.active = true ∧ e.trackAlias = trackAlias := by
  simp [hasAlias]

/-- `track_subscription_t subscriptions[32]`. -/
structure Subscriptions where
  entries : List TrackSubscription
  length_entries : entries.length = 32
deriving DecidableEq

namespace Subscriptions

theorem ext {s s' : Subscriptions} (h : s.entries = s'.entries) : s = s' := by
  cases s; cases s'; cases h; rfl

/-- The zeroed table of a new connection. -/
def empty : Subscriptions := ⟨List.replicate 32 TrackSubscription.zero, by simp⟩

/-- Rewrite the first entry that fits. -/
def update (s : Subscriptions) (p : TrackSubscription → Bool)
    (f : TrackSubscription → TrackSubscription) : Subscriptions :=
  ⟨updateFirst p f s.entries, by rw [length_updateFirst, s.length_entries]⟩

end Subscriptions

/-! ## Lookups -/

/-- `find_subscription_by_alias`. An alias below 8 stands for the unnamed track of that
type; only `type` and `name[0]` of `*out_track` are written then, its flags stay. -/
def findSubscriptionByAlias (s : Subscriptions) (trackAlias : UInt8) (outTrack : MoqTrackId) :
    Option MoqTrackId :=
  if trackAlias < 8 then
    some { outTrack with type := trackAlias, name := TrackName.empty }
  else
    (s.entries.find? (·.hasAlias trackAlias)).map (·.trackId)

/-- `find_alias_by_track`. -/
def findAliasByTrack (s : Subscriptions) (track : MoqTrackId) : Option UInt8 :=
  if track.named then
    (s.entries.find? (·.holds track.type track.name)).map (·.trackAlias)
  else
    some track.type

/-- `is_subscribed`. -/
def isSubscribed (s : Subscriptions) (track : MoqTrackId) : Bool :=
  (findAliasByTrack s track).isSome

/-- An unnamed track always counts as subscribed. -/
theorem isSubscribed_of_not_named {track : MoqTrackId} (h : track.named = false)
    (s : Subscriptions) : isSubscribed s track = true := by
  simp [isSubscribed, findAliasByTrack, h]

/-- A named track is subscribed when an active entry holds it. -/
theorem isSubscribed_iff {s : Subscriptions} {track : MoqTrackId} (h : track.named = true) :
    isSubscribed s track = true ↔ ∃ e ∈ s.entries, e.holds track.type track.name = true := by
  simp [isSubscribed, findAliasByTrack, h]

/-! ## Updates -/

/-- `add_subscription`: rewrite the alias and the flags of the entry that holds the track,
else take the first inactive entry; a full table ignores the call. -/
def addSubscription (s : Subscriptions) (type : MoqTrackType) (flags : UInt8) (name : TrackName)
    (trackAlias : UInt8) : Subscriptions :=
  if s.entries.any (·.holds type name) then
    s.update (·.holds type name) fun e =>
      { e with trackAlias := trackAlias, trackId := { e.trackId with flags := flags } }
  else
    s.update (!·.active) fun _ => ⟨⟨type, flags, name⟩, trackAlias, true, none⟩

/-- `remove_subscription`, with the stream it shuts down. -/
def removeSubscription (s : Subscriptions) (type : MoqTrackType) (name : TrackName) :
    Subscriptions × Option ℕ :=
  (s.update (·.holds type name) fun e => { e with active := false, stream := none },
    (s.entries.find? (·.holds type name)).bind (·.stream))

/-- The loop of `parse_track_stream_messages` that stores the stream of an incoming header
in the first active entry with its alias. -/
def mapStream (s : Subscriptions) (trackAlias : UInt8) (stream : ℕ) : Subscriptions :=
  s.update (·.hasAlias trackAlias) fun e => { e with stream := some stream }

/-- `clear_subscription_stream`. -/
def clearSubscriptionStream (s : Subscriptions) (stream : ℕ) : Subscriptions :=
  s.update (fun e => e.active && e.stream == some stream) fun e => { e with stream := none }

/-- The alias loop of `transport_subscribe`: one above the largest alias from 8 on. -/
def nextAlias (s : Subscriptions) : ℕ :=
  s.entries.foldl (fun next e =>
    if e.active && decide (next ≤ e.trackAlias.toNat) then e.trackAlias.toNat + 1 else next) 8

/-! ## What the updates do to an entry -/

/-- An active entry after `add_subscription` is an old active entry, or it holds the track
that was added, under the alias that was given. -/
theorem mem_addSubscription {s : Subscriptions} {type : MoqTrackType} {flags : UInt8}
    {name : TrackName} {trackAlias : UInt8} {e : TrackSubscription}
    (he : e ∈ (addSubscription s type flags name trackAlias).entries) (hactive : e.active = true) :
    (e ∈ s.entries ∧ e.active = true) ∨ (e.holds type name = true ∧ e.trackAlias = trackAlias) := by
  rw [addSubscription] at he
  split at he
  · rcases mem_updateFirst he with h | ⟨a, -, ha, rfl⟩
    · exact Or.inl ⟨h, hactive⟩
    · exact Or.inr ⟨ha, rfl⟩
  · rcases mem_updateFirst he with h | ⟨a, -, -, rfl⟩
    · exact Or.inl ⟨h, hactive⟩
    · exact Or.inr ⟨by simp [TrackSubscription.holds], rfl⟩

/-- A track that the table holds or has room for is there after `add_subscription`, with its alias
and its flags. -/
theorem exists_addSubscription {s : Subscriptions} {track : MoqTrackId} {trackAlias : UInt8}
    (hroom : ∃ e ∈ s.entries, e.active = false ∨ e.holds track.type track.name = true) :
    ∃ e ∈ (addSubscription s track.type track.flags track.name trackAlias).entries,
      e.active = true ∧ e.trackId = track ∧ e.trackAlias = trackAlias := by
  unfold addSubscription
  by_cases hheld : ∃ e ∈ s.entries, e.holds track.type track.name = true
  · rw [if_pos (List.any_eq_true.mpr hheld)]
    obtain ⟨e, hholds, hmem⟩ := mem_updateFirst_of_exists hheld fun e =>
      { e with trackAlias := trackAlias, trackId := { e.trackId with flags := track.flags } }
    obtain ⟨hactive, htype, hname⟩ := TrackSubscription.holds_iff.mp hholds
    refine ⟨_, hmem, hactive, ?_, rfl⟩
    dsimp only
    rw [htype, hname]
  · rw [if_neg (fun hany => hheld (List.any_eq_true.mp hany))]
    have hfree : ∃ e ∈ s.entries, (!e.active) = true := by
      obtain ⟨e, he, hinactive | hholds⟩ := hroom
      · exact ⟨e, he, by rw [hinactive]; rfl⟩
      · exact absurd ⟨e, he, hholds⟩ hheld
    obtain ⟨e, -, hmem⟩ := mem_updateFirst_of_exists hfree fun _ => ⟨track, trackAlias, true, none⟩
    exact ⟨_, hmem, rfl, rfl, rfl⟩

/-- What the table says apart from the streams. -/
def Subscriptions.mappings (s : Subscriptions) : List TrackSubscription :=
  s.entries.map fun e => { e with stream := none }

/-- Changing the stream of an entry leaves the mappings as they are. -/
theorem mappings_update_stream (s : Subscriptions) (p : TrackSubscription → Bool)
    (stream : Option ℕ) :
    (s.update p fun e => { e with stream := stream }).mappings = s.mappings := by
  rw [Subscriptions.mappings, Subscriptions.mappings, Subscriptions.update]
  dsimp only
  induction s.entries with
  | nil => rfl
  | cons e l ih =>
    rw [updateFirst_cons]
    split
    · simp
    · rw [List.map_cons, ih, List.map_cons]

/-- An entry of one table has its like in every table with the same mappings. -/
theorem mem_of_mappings_eq {s s' : Subscriptions} (h : s'.mappings = s.mappings)
    {e' : TrackSubscription} (he : e' ∈ s'.entries) :
    ∃ e ∈ s.entries, e.trackId = e'.trackId ∧ e.trackAlias = e'.trackAlias ∧
      e.active = e'.active := by
  have hmem : { e' with stream := none } ∈ s'.mappings := List.mem_map_of_mem he
  rw [h] at hmem
  obtain ⟨e, he, heq⟩ := List.mem_map.mp hmem
  simp only [TrackSubscription.mk.injEq] at heq
  exact ⟨e, he, heq.1, heq.2.1, heq.2.2.1⟩

/-- The lookup by alias does not look at the streams. -/
theorem findSubscriptionByAlias_of_mappings {s s' : Subscriptions} (h : s'.mappings = s.mappings)
    (trackAlias : UInt8) (outTrack : MoqTrackId) :
    findSubscriptionByAlias s' trackAlias outTrack =
      findSubscriptionByAlias s trackAlias outTrack := by
  have hfind : ∀ s : Subscriptions, (s.entries.find? (·.hasAlias trackAlias)).map (·.trackId) =
      (s.mappings.find? (·.hasAlias trackAlias)).map (·.trackId) := by
    intro s
    rw [Subscriptions.mappings, List.find?_map, Option.map_map]
    rfl
  unfold findSubscriptionByAlias
  rw [hfind, hfind, h]

/-- Mapping a stream changes nothing exactly when the first active entry with the alias, if
there is one, has that stream. -/
theorem mapStream_eq_self_iff {s : Subscriptions} {trackAlias : UInt8} {stream : ℕ} :
    mapStream s trackAlias stream = s ↔
      ∀ e, s.entries.find? (·.hasAlias trackAlias) = some e → e.stream = some stream := by
  have key : ∀ l : List TrackSubscription,
      updateFirst (·.hasAlias trackAlias) (fun e => { e with stream := some stream }) l = l ↔
        ∀ e, l.find? (·.hasAlias trackAlias) = some e → e.stream = some stream := by
    intro l
    induction l with
    | nil => simp
    | cons a l ih =>
      rw [updateFirst_cons]
      by_cases ha : a.hasAlias trackAlias = true
      · rw [if_pos ha, List.find?_cons_of_pos ha]
        cases a
        simp [eq_comm]
      · rw [if_neg ha, List.find?_cons_of_neg ha, List.cons.injEq, ih]
        simp
  rw [← key s.entries]
  exact ⟨fun h => congrArg Subscriptions.entries h, fun h => Subscriptions.ext h⟩

/-! ## The next alias -/

theorem nextAlias_foldl_le (l : List TrackSubscription) (n : ℕ) :
    n ≤ l.foldl (fun next e =>
      if e.active && decide (next ≤ e.trackAlias.toNat) then e.trackAlias.toNat + 1
      else next) n := by
  induction l generalizing n with
  | nil => exact le_refl n
  | cons e l ih =>
    rw [List.foldl_cons]
    split
    · rename_i h
      have hle : n ≤ e.trackAlias.toNat := by simpa using (Bool.and_eq_true_iff.mp h).2
      exact le_trans (by omega) (ih (e.trackAlias.toNat + 1))
    · exact ih n

/-- New aliases stay clear of the values below 8. -/
theorem eight_le_nextAlias (s : Subscriptions) : 8 ≤ nextAlias s :=
  nextAlias_foldl_le s.entries 8

/-- They fit a byte, but for the one after 255. -/
theorem nextAlias_le (s : Subscriptions) : nextAlias s ≤ 256 := by
  have key : ∀ (l : List TrackSubscription) (n : ℕ), n ≤ 256 →
      l.foldl (fun next e =>
        if e.active && decide (next ≤ e.trackAlias.toNat) then e.trackAlias.toNat + 1
        else next) n ≤ 256 := by
    intro l
    induction l with
    | nil => exact fun n h => h
    | cons e l ih =>
      intro n h
      rw [List.foldl_cons]
      apply ih
      split
      · have hbyte := e.trackAlias.toNat_lt
        omega
      · exact h
  exact key s.entries 8 (by decide)

/-- The next alias is above the alias of every active entry. -/
theorem alias_lt_nextAlias {s : Subscriptions} {e : TrackSubscription} (he : e ∈ s.entries)
    (hactive : e.active = true) : e.trackAlias.toNat < nextAlias s := by
  have key : ∀ (l : List TrackSubscription) (n : ℕ), e ∈ l →
      e.trackAlias.toNat < l.foldl (fun next e =>
        if e.active && decide (next ≤ e.trackAlias.toNat) then e.trackAlias.toNat + 1
        else next) n := by
    intro l
    induction l with
    | nil => intro n h; exact absurd h List.not_mem_nil
    | cons a l ih =>
      intro n h
      rw [List.foldl_cons]
      rcases List.mem_cons.mp h with rfl | h
      · refine lt_of_lt_of_le ?_ (nextAlias_foldl_le l _)
        rw [hactive, Bool.true_and]
        split
        · exact Nat.lt_succ_self _
        · rename_i hn
          simpa using hn
      · exact ih _ h
  exact key s.entries 8 he

end Bishlink
