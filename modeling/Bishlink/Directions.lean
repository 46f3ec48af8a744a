import Bishlink.AliasAgreement
import Bishlink.Lengths
import Bishlink.Disclosure
import Bishlink.Lib.SlotTable

/-!
# Two directions in one table

The table of a connection has one entry for a track, whether the peer subscribed to it or the
application did. `Watched` keeps the two directions apart: the tracks that the peer wants, by
its latest message, and the aliases that were announced to it. As long as the application
subscribes only to what the peer wants, and the peer keeps off the announced aliases, the one
table serves both (`watchInv_run`).
-/

namespace Bishlink

open ByteCodec SlotTable Runs

/-! ## The table as slots -/

/-- The entries as slots with a track and an alias. -/
def Subscriptions.views (s : Subscriptions) : List (Option (TrackKey × UInt8)) :=
  s.entries.map (·.view)

@[simp] theorem Subscriptions.length_views (s : Subscriptions) : s.views.length = 32 := by
  rw [views, List.length_map, s.length_entries]

theorem hasKey_view (e : TrackSubscription) (k : TrackKey) :
    hasKey k e.view = e.holds k.type k.name := by
  cases hview : e.view with
  | none =>
    have hfree := view_eq_none.mp hview
    simp [hasKey, TrackSubscription.holds, hfree]
  | some x =>
    obtain ⟨k', trackAlias⟩ := x
    rw [holds_of_view hview]
    rfl

theorem hasValue_view (e : TrackSubscription) (trackAlias : UInt8) :
    hasValue trackAlias e.view = e.hasAlias trackAlias := by
  cases hview : e.view with
  | none =>
    have hfree := view_eq_none.mp hview
    simp [hasValue, TrackSubscription.hasAlias, hfree]
  | some x =>
    obtain ⟨k', a⟩ := x
    rw [hasAlias_of_view hview]
    rfl

theorem isNone_view (e : TrackSubscription) : e.view.isNone = !e.active := by
  cases hactive : e.active with
  | false => rw [view_eq_none.mpr hactive]; rfl
  | true => rw [view_eq_some.mpr ⟨hactive, rfl, rfl⟩]; rfl

theorem any_hasKey_views (s : Subscriptions) (k : TrackKey) :
    s.views.any (hasKey k) = s.entries.any (·.holds k.type k.name) := by
  rw [Subscriptions.views, List.any_map]
  congr 1
  funext e
  exact hasKey_view e k

/-- `add_subscription` on the slots. -/
theorem views_addSubscription (s : Subscriptions) (track : MoqTrackId) (trackAlias : UInt8) :
    (addSubscription s track.type track.flags track.name trackAlias).views =
      add track.key trackAlias s.views := by
  unfold addSubscription add addsAt
  rw [any_hasKey_views]
  show (if s.entries.any (·.holds track.key.type track.key.name) = true then _ else _ :
    Subscriptions).views = _
  by_cases hany : s.entries.any (·.holds track.key.type track.key.name) = true
  · rw [if_pos hany, if_pos hany]
    refine FirstMatch.map_updateFirst (fun e _ => hasKey_view e track.key) ?_
    intro e _ hholds
    obtain ⟨hactive, htype, hname⟩ := TrackSubscription.holds_iff.mp hholds
    have hkey : e.trackId.key = track.key := by
      rw [MoqTrackId.key, MoqTrackId.key, htype, hname]
    exact view_eq_some.mpr ⟨hactive, hkey, rfl⟩
  · rw [if_neg hany, if_neg hany]
    refine FirstMatch.map_updateFirst (fun e _ => isNone_view e) ?_
    intro e _ _
    exact view_eq_some.mpr ⟨rfl, rfl, rfl⟩

/-- `remove_subscription` on the slots. -/
theorem views_removeSubscription (s : Subscriptions) (track : MoqTrackId) :
    (removeSubscription s track.type track.name).1.views = remove track.key s.views := by
  refine FirstMatch.map_updateFirst (fun e _ => hasKey_view e track.key) ?_
  intro e _ _
  exact view_eq_none.mpr rfl

/-- Tables that differ in streams only have the same slots. -/
theorem views_of_mappings {s s' : Subscriptions} (h : s'.mappings = s.mappings) :
    s'.views = s.views := by
  have hview : ∀ s : Subscriptions, s.views = s.mappings.map (·.view) := by
    intro s
    rw [Subscriptions.views, Subscriptions.mappings, List.map_map]
    rfl
  rw [hview, hview, h]

/-- A named track counts as subscribed when it has a slot. -/
theorem isSubscribed_iff_mem_keys {s : Subscriptions} {track : MoqTrackId}
    (hnamed : track.named = true) :
    isSubscribed s track = true ↔ track.key ∈ keys s.views := by
  rw [isSubscribed_iff hnamed, ← any_hasKey, any_hasKey_views, List.any_eq_true]
  rfl

/-- The track that an alias from 8 on stands for. -/
theorem findSubscriptionByAlias_of_first {s : Subscriptions} {trackAlias : UInt8} {k : TrackKey}
    (h : First k trackAlias s.views) (halias : 8 ≤ trackAlias) :
    ∃ track, track.key = k ∧ ∀ out, findSubscriptionByAlias s trackAlias out = some track := by
  have hfind : (s.entries.find? (·.hasAlias trackAlias)).map (·.view) =
      some (some (k, trackAlias)) := by
    rw [← h, Subscriptions.views, List.find?_map]
    congr 1
    congr 1
    funext e
    exact (hasValue_view e trackAlias).symm
  obtain ⟨e, he, hview⟩ := Option.map_eq_some_iff.mp hfind
  refine ⟨e.trackId, (view_eq_some.mp hview).2.1, fun out => ?_⟩
  rw [findSubscriptionByAlias, if_neg (by rw [UInt8.not_lt]; exact halias), he, Option.map_some]

/-! ## What happens to a table -/

/-- A message of the peer, or a call of the application with the alias that it announces. -/
inductive TableEvent where
  | peerSubscribes (trackAlias : UInt8) (track : MoqTrackId)
  | peerUnsubscribes (track : MoqTrackId)
  | subscribes (trackAlias : UInt8) (track : MoqTrackId)

/-- The message that an iteration on the control stream handles. -/
def messageEvent (t : Transport) (c : Conn) (s : Stream) : Option TableEvent :=
  if s.isControl then
    match parseControlMessage t.isServer c.authenticated s.ingress with
    | .item (.subscribe trackAlias track) _ => some (.peerSubscribes trackAlias track)
    | .item (.unsubscribe _ track) _ => some (.peerUnsubscribes track)
    | _ => none
  else none

/-- What a label does to the table of a connection. -/
def tableEvent (t : Transport) (c : Conn) : Label → Option TableEvent
  | .conn ptr (.iterate sid _) =>
    if ptr = c.ptr then (c.findStream sid).bind (messageEvent t c) else none
  | .subscribe track =>
    if c.controlOpen then some (.subscribes (subscribeAlias c.subscriptions track) track) else none
  | _ => none

/-- The table afterwards. -/
def eventTable (s : Subscriptions) : Option TableEvent → Subscriptions
  | none => s
  | some (.peerSubscribes trackAlias track) =>
    addSubscription s track.type track.flags track.name trackAlias
  | some (.peerUnsubscribes track) => (removeSubscription s track.type track.name).1
  | some (.subscribes _ track) => subscribeTable s track

theorem handleControlMessage_subscriptions (lib : FecLib) (io : ControlIO) (t : Transport)
    (c : Conn) (m : ControlMessage) :
    (handleControlMessage lib io t c m).2.1.subscriptions =
      eventTable c.subscriptions (match m with
        | .subscribe trackAlias track => some (.peerSubscribes trackAlias track)
        | .unsubscribe _ track => some (.peerUnsubscribes track)
        | _ => none) := by
  cases m with
  | data trackAlias payload =>
    simp only [handleControlMessage]
    split <;> rfl
  | nack trackAlias groupId objectId missing =>
    simp only [handleControlMessage]
    split
    · rfl
    · split <;> rfl
  | _ => rfl

/-- An iteration of a receive loop. -/
theorem views_streamIteration (lib : FecLib) (io : ControlIO) (t : Transport) (c : Conn)
    (s : Stream) :
    (streamIteration lib io t c s).conn.subscriptions.views =
      (eventTable c.subscriptions (messageEvent t c s)).views := by
  unfold streamIteration messageEvent
  split
  · unfold controlIteration
    cases parseControlMessage t.isServer c.authenticated s.ingress with
    | more => rfl
    | stop reason => rfl
    | item m consumed =>
      show (handleControlMessage lib io t c m).2.1.subscriptions.views = _
      rw [handleControlMessage_subscriptions]
      cases m <;> rfl
  · exact views_of_mappings (trackIteration_mappings t c s)

/-- Anything that happens to one connection. -/
theorem views_connStep {lib : FecLib} {t t' : Transport} {c c' : Conn} {l : ConnLabel}
    {o : List Effect} (h : connStep lib t c l = some (t', c', o)) :
    c'.subscriptions.views =
      (eventTable c.subscriptions (tableEvent t c (.conn c.ptr l))).views := by
  cases l with
  | openStream sid sendOpen =>
    simp only [connStep] at h
    split at h
    · exact absurd h (by simp)
    · simp only [Option.some.injEq, Prod.mk.injEq] at h
      rw [← h.2.1]
      rfl
  | destroyStream sid =>
    simp only [connStep, Option.some.injEq, Prod.mk.injEq] at h
    rw [← h.2.1]
    exact views_of_mappings (mappings_update_stream _ _ _)
  | iterate sid io =>
    simp only [connStep] at h
    cases hs : c.findStream sid with
    | none =>
      rw [hs] at h
      exact absurd h (by simp)
    | some s =>
      simp only [hs, Option.some.injEq, Prod.mk.injEq] at h
      rw [← h.2.1, tableEvent, if_pos rfl, hs, Option.bind_some]
      exact views_streamIteration lib io t c s
  | datagram io payload =>
    simp only [connStep] at h
    split at h
    · exact absurd h (by simp)
    · next r hr =>
      rw [Option.some.injEq] at h
      rw [h] at hr
      rcases onReceiveDatagramFrame_cases hr with ⟨rfl, -, -⟩ | ⟨-, _, _, -, -, -, rfl, -⟩
      · rfl
      · rfl
  | respondAuth success =>
    simp only [connStep, Option.some.injEq] at h
    have hc : c' = (transportRespondAuth c success).2.1 := (congrArg (fun r => r.2.1) h).symm
    rw [hc, transportRespondAuth]
    split
    · rfl
    · split <;> rfl
  | _ =>
    simp only [connStep, Option.some.injEq] at h
    exact congrArg Subscriptions.views (congrArg (fun r => r.2.1.subscriptions) h).symm

/-- A step of a server: a connection is new and its table is empty, or it was there and its
table changed as the label says. -/
theorem views_step {lib : FecLib} {s s' : System} {l : Label} {o : List Effect}
    (hserver : s.transport.isServer = true) (h : step lib s l = some (s', o)) {c' : Conn}
    (hc : c' ∈ s'.transport.conns) :
    (c'.ptr ∉ s.used ∧ c' = Conn.zero c'.ptr) ∨
      ∃ c ∈ s.transport.conns, c'.ptr = c.ptr ∧ c'.subscriptions.views =
        (eventTable c.subscriptions (tableEvent s.transport c l)).views := by
  cases l with
  | conn ptr l =>
    rcases step_eq_some h with ⟨_, hl, -⟩ | ⟨ht, -⟩
    · exact absurd hl (by simp)
    obtain ⟨c, t₁, c₁, hfind, hstep, htr⟩ := transportStep_conn.mp ht
    obtain ⟨fc, owd, rfl⟩ := connStep_transport hstep
    obtain ⟨hmem, rfl⟩ := Transport.findConn_eq_some hfind
    have hptr := connStep_ptr hstep
    rw [htr] at hc
    rcases Transport.mem_setConn hc with rfl | ⟨hc, hne⟩
    · exact Or.inr ⟨c, hmem, hptr, views_connStep hstep⟩
    · refine Or.inr ⟨c', hc, rfl, ?_⟩
      -- a step of one connection is no event for another
      have hnone : tableEvent s.transport c' (.conn c.ptr l) = none := by
        cases l with
        | iterate sid io => exact if_neg fun heq => hne (heq.symm.trans hptr.symm)
        | _ => rfl
      rw [hnone]
      rfl
  | subscribe track =>
    rcases step_eq_some h with ⟨_, hl, -⟩ | ⟨ht, -⟩
    · exact absurd hl (by simp)
    simp only [transportStep, Option.some.injEq] at ht
    have htr : s'.transport = (transportSubscribe s.transport track).2.1 := by rw [ht]
    rw [htr, transportSubscribe, if_pos hserver] at hc
    simp only [List.mem_map, exists_exists_and_eq_and] at hc
    obtain ⟨c, hmem, rfl⟩ := hc
    refine Or.inr ⟨c, hmem, ?_, ?_⟩
    · split <;> rfl
    · unfold tableEvent
      split <;> rfl
  | _ =>
    rcases step_conn h hc with ⟨-, hnew, hzero⟩ | ⟨c, hmem, hptr, hchange⟩
    · exact Or.inl ⟨hnew, hzero⟩
    · cases hchange with
      | same hsame => exact Or.inr ⟨c, hmem, hptr, views_of_mappings hsame.mappings⟩

/-! ## Who asked for what -/

/-- The tracks whose latest message from the peer is a SUBSCRIBE, and the aliases that the
application's calls announced. -/
structure Asked where
  wanted : List TrackKey
  announced : List (TrackKey × UInt8)

def Asked.record (a : Asked) : Option TableEvent → Asked
  | none => a
  | some (.peerSubscribes _ track) => { a with wanted := track.key :: a.wanted }
  | some (.peerUnsubscribes track) => { a with wanted := a.wanted.filter (· ≠ track.key) }
  | some (.subscribes trackAlias track) =>
    if track.named then { a with announced := (track.key, trackAlias) :: a.announced } else a

/-- The system, and who asked for what on one of its connections. -/
structure Watched where
  system : System
  asked : Asked

def Watched.init (links : List SockAddr) (mtu : ℕ) : Watched :=
  ⟨System.init true links mtu, ⟨[], []⟩⟩

/-- What a label does to the table of connection `ptr`, and the table. -/
def Watched.event (w : Watched) (ptr : ℕ) (l : Label) : Option (Subscriptions × TableEvent) :=
  (w.system.transport.findConn ptr).bind fun c =>
    (tableEvent w.system.transport c l).map fun e => (c.subscriptions, e)

def watchStep (lib : FecLib) (ptr : ℕ) (w : Watched) (l : Label) :
    Option (Watched × List Effect) :=
  (step lib w.system l).map fun r =>
    (⟨r.1, w.asked.record ((w.event ptr l).map Prod.snd)⟩, r.2)

/-- The peer subscribes to these tracks only. -/
def OnTracks (tracks : List TrackKey) (ptr : ℕ) (w : Watched) (l : Label) : Prop :=
  match w.event ptr l with
  | some (_, .peerSubscribes _ track) => track.key ∈ tracks
  | _ => True

/-- The application subscribes to a track only while the peer wants it, and announces an alias
that stands for it. The peer does not unsubscribe from a track that was announced, subscribes
to it under the announced alias only, and gives that alias to no track that takes an entry in
front of it. -/
def KeepsApart (s : Subscriptions) (a : Asked) : TableEvent → Prop
  | .subscribes trackAlias track => track.named = true →
    track.key ∈ a.wanted ∧
      (findSubscriptionByAlias s trackAlias MoqTrackId.zero).map MoqTrackId.key = some track.key
  | .peerSubscribes trackAlias track => ∀ x ∈ a.announced,
    (x.1 = track.key → x.2 = trackAlias) ∧ (x.1 ≠ track.key → x.2 = trackAlias →
      ∀ y ∈ before x.1 s.views, addsAt track.key s.views y = false)
  | .peerUnsubscribes track => ∀ x ∈ a.announced, x.1 ≠ track.key

def DirectionsApart (ptr : ℕ) (w : Watched) (l : Label) : Prop :=
  match w.event ptr l with
  | none => True
  | some (s, e) => KeepsApart s w.asked e

instance (tracks : List TrackKey) (ptr : ℕ) (w : Watched) (l : Label) :
    Decidable (OnTracks tracks ptr w l) := by
  unfold OnTracks
  split <;> infer_instance

instance (s : Subscriptions) (a : Asked) (e : TableEvent) : Decidable (KeepsApart s a e) := by
  unfold KeepsApart
  split <;> infer_instance

instance (ptr : ℕ) (w : Watched) (l : Label) : Decidable (DirectionsApart ptr w l) := by
  unfold DirectionsApart
  split <;> infer_instance

/-- The table has a slot for exactly what the peer wants, and the announced aliases stand for
their tracks. -/
structure Serves (tracks : List TrackKey) (s : Subscriptions) (a : Asked) : Prop where
  nodup : (keys s.views).Nodup
  wanted_iff : ∀ k, k ∈ keys s.views ↔ k ∈ a.wanted
  known : ∀ k ∈ a.wanted, k ∈ tracks
  announced : ∀ x ∈ a.announced, 8 ≤ x.2 ∧ First x.1 x.2 s.views

theorem serves_empty (tracks : List TrackKey) : Serves tracks Subscriptions.empty ⟨[], []⟩ := by
  have hkeys : keys Subscriptions.empty.views = [] := by
    have hviews : Subscriptions.empty.views = List.replicate 32 none := by
      rw [Subscriptions.views, Subscriptions.empty, List.map_replicate]
      rfl
    rw [hviews]
    rfl
  refine ⟨?_, ?_, by simp, by simp⟩
  · rw [hkeys]
    exact List.nodup_nil
  · intro k
    rw [hkeys]

theorem Serves.of_views {tracks : List TrackKey} {s s' : Subscriptions} {a : Asked}
    (h : Serves tracks s a) (hviews : s'.views = s.views) : Serves tracks s' a := by
  refine ⟨?_, ?_, h.known, ?_⟩
  · rw [hviews]
    exact h.nodup
  · rw [hviews]
    exact h.wanted_iff
  · rw [hviews]
    exact h.announced

/-- An alias that stands for a named track is no alias of an unnamed one. -/
theorem first_of_findSubscriptionByAlias {s : Subscriptions} {trackAlias : UInt8}
    {track : MoqTrackId} (hnamed : track.named = true)
    (h : (findSubscriptionByAlias s trackAlias MoqTrackId.zero).map MoqTrackId.key =
      some track.key) : 8 ≤ trackAlias ∧ First track.key trackAlias s.views := by
  unfold findSubscriptionByAlias at h
  split at h
  · simp only [Option.map_some, Option.some.injEq] at h
    have hname : TrackName.empty = track.name := congrArg TrackKey.name h
    unfold MoqTrackId.named at hnamed
    rw [← hname] at hnamed
    exact absurd hnamed (by decide)
  · next hlt =>
    refine ⟨UInt8.not_lt.mp hlt, ?_⟩
    rw [Option.map_map] at h
    obtain ⟨e, he, hkey⟩ := Option.map_eq_some_iff.mp h
    obtain ⟨hactive, halias⟩ := TrackSubscription.hasAlias_iff.mp
      (List.find?_some (p := TrackSubscription.hasAlias trackAlias) he)
    have hmap : s.views.find? (hasValue trackAlias) =
        (s.entries.find? (·.hasAlias trackAlias)).map (·.view) := by
      rw [Subscriptions.views, List.find?_map]
      congr 2
      funext e
      exact hasValue_view e trackAlias
    unfold First
    rw [hmap, he, Option.map_some, view_eq_some.mpr ⟨hactive, hkey, halias⟩]

/-- A call for a track that the peer wants changes nothing. -/
theorem Serves.subscribeTable_eq {tracks : List TrackKey} {s : Subscriptions} {a : Asked}
    (h : Serves tracks s a) {track : MoqTrackId}
    (hwanted : track.named = true → track.key ∈ a.wanted) : subscribeTable s track = s := by
  have hsome : isSubscribed s track = true := by
    by_cases hnamed : track.named = true
    · rw [isSubscribed_iff_mem_keys hnamed, h.wanted_iff]
      exact hwanted hnamed
    · exact isSubscribed_of_not_named (by simpa using hnamed) s
  unfold isSubscribed at hsome
  rw [subscribeTable, if_neg]
  rw [Option.isNone_iff_eq_none]
  intro hnone
  rw [hnone] at hsome
  exact Bool.false_ne_true hsome

/-- Every event that keeps the directions apart leaves a table that serves both. -/
theorem Serves.event {tracks : List TrackKey} (hlen : tracks.length ≤ 32) {s : Subscriptions}
    {a : Asked} {e : TableEvent} (h : Serves tracks s a) (hapart : KeepsApart s a e)
    (htracks : ∀ trackAlias track, e = .peerSubscribes trackAlias track → track.key ∈ tracks) :
    Serves tracks (eventTable s (some e)) (a.record (some e)) := by
  cases e with
  | peerSubscribes trackAlias track =>
    have hknown := htracks trackAlias track rfl
    -- the peer asks for at most 32 tracks, so an entry is free
    have hroom : track.key ∈ keys s.views ∨ none ∈ s.views := by
      by_cases hk : track.key ∈ keys s.views
      · exact Or.inl hk
      · refine Or.inr (none_mem_of_subset h.nodup ?_ ?_ hknown hk)
        · intro k hk
          exact h.known k ((h.wanted_iff k).mp hk)
        · rw [Subscriptions.length_views]
          exact hlen
    unfold eventTable
    refine ⟨?_, ?_, ?_, ?_⟩
    · rw [views_addSubscription]
      exact nodup_add trackAlias h.nodup hroom
    · intro k
      rw [views_addSubscription, mem_keys_add trackAlias h.nodup hroom, h.wanted_iff]
      exact List.mem_cons.symm
    · intro k hk
      rcases List.mem_cons.mp hk with rfl | hk
      · exact hknown
      · exact h.known k hk
    · intro x hx
      obtain ⟨halias, hfirst⟩ := h.announced x hx
      obtain ⟨hsame, hother⟩ := hapart x hx
      refine ⟨halias, ?_⟩
      rw [views_addSubscription]
      by_cases hkey : x.1 = track.key
      · rw [← hsame hkey, ← hkey]
        exact hfirst.add_self h.nodup
      · exact hfirst.add h.nodup (Ne.symm hkey) fun heq => hother hkey heq.symm
  | peerUnsubscribes track =>
    unfold eventTable
    refine ⟨?_, ?_, ?_, ?_⟩
    · rw [views_removeSubscription]
      exact nodup_remove h.nodup
    · intro k
      rw [views_removeSubscription, mem_keys_remove h.nodup, h.wanted_iff]
      show _ ↔ k ∈ a.wanted.filter (· ≠ track.key)
      rw [List.mem_filter, decide_eq_true_eq, and_comm]
    · intro k hk
      exact h.known k (List.mem_of_mem_filter hk)
    · intro x hx
      obtain ⟨halias, hfirst⟩ := h.announced x hx
      refine ⟨halias, ?_⟩
      rw [views_removeSubscription]
      exact hfirst.remove (Ne.symm (hapart x hx))
  | subscribes trackAlias track =>
    have htable : eventTable s (some (.subscribes trackAlias track)) = s :=
      h.subscribeTable_eq fun hnamed => (hapart hnamed).1
    rw [htable]
    simp only [Asked.record]
    by_cases hnamed : track.named = true
    · rw [if_pos hnamed]
      refine ⟨h.nodup, h.wanted_iff, h.known, ?_⟩
      intro x hx
      rcases List.mem_cons.mp hx with rfl | hx
      · exact first_of_findSubscriptionByAlias hnamed (hapart hnamed).2
      · exact h.announced x hx
    · rw [if_neg hnamed]
      exact h

/-! ## Runs -/

/-- What holds of the watched connection. -/
structure WatchInv (tracks : List TrackKey) (ptr : ℕ) (w : Watched) : Prop where
  server : w.system.transport.isServer = true
  ptrsOk : w.system.PtrsOk
  fresh : ptr ∉ w.system.used → w.asked = ⟨[], []⟩
  serves : ∀ c ∈ w.system.transport.conns, c.ptr = ptr → Serves tracks c.subscriptions w.asked

theorem watchInv_init (tracks : List TrackKey) (ptr : ℕ) (links : List SockAddr) (mtu : ℕ) :
    WatchInv tracks ptr (Watched.init links mtu) := by
  refine ⟨rfl, ptrsOk_init true links mtu, fun _ => rfl, ?_⟩
  intro c hc
  exact absurd hc List.not_mem_nil

/-- What the label does to the table of a connection that is there. -/
theorem Watched.event_eq {w : Watched} {ptr : ℕ} (hok : w.system.PtrsOk) {c : Conn}
    (hc : c ∈ w.system.transport.conns) (hptr : c.ptr = ptr) (l : Label) :
    w.event ptr l = (tableEvent w.system.transport c l).map fun e => (c.subscriptions, e) := by
  have hfind : w.system.transport.findConn ptr = some c := by
    cases h : w.system.transport.findConn ptr with
    | none =>
      have hne := List.find?_eq_none.mp h c hc
      simp [hptr] at hne
    | some c' =>
      obtain ⟨hmem, hptr'⟩ := Transport.findConn_eq_some h
      rw [hok.eq_of_ptr hmem hc (hptr'.trans hptr.symm)]
  rw [Watched.event, hfind, Option.bind_some]

/-- Nothing happens to a connection that was never there. -/
theorem Watched.event_of_unused {w : Watched} {ptr : ℕ} (hok : w.system.PtrsOk)
    (hunused : ptr ∉ w.system.used) (l : Label) : w.event ptr l = none := by
  have hfind : w.system.transport.findConn ptr = none := by
    rw [Transport.findConn, List.find?_eq_none]
    intro c hc heq
    exact hunused (hok.used ptr (List.mem_map.mpr ⟨c, hc, beq_iff_eq.mp heq⟩))
  rw [Watched.event, hfind, Option.bind_none]

/-- Every step that keeps the directions apart. -/
theorem watchInv_step {lib : FecLib} {tracks : List TrackKey} (hlen : tracks.length ≤ 32)
    {ptr : ℕ} {w w' : Watched} {l : Label} {o : List Effect} (hinv : WatchInv tracks ptr w)
    (htracks : OnTracks tracks ptr w l) (hapart : DirectionsApart ptr w l)
    (h : watchStep lib ptr w l = some (w', o)) : WatchInv tracks ptr w' := by
  obtain ⟨r, hstep, hr⟩ := Option.map_eq_some_iff.mp h
  obtain ⟨s', o'⟩ := r
  rw [Prod.mk.injEq] at hr
  obtain ⟨rfl, rfl⟩ := hr
  refine ⟨?_, ptrsOk_step hinv.ptrsOk hstep, ?_, ?_⟩
  · exact (step_isServer hstep).trans hinv.server
  -- the connection is not there yet, and nothing is on record
  · intro hunused
    have hbefore : ptr ∉ w.system.used := by
      intro hused
      rcases step_eq_some hstep with ⟨_, -, -, -, hcons, -⟩ | ⟨-, hsame⟩
      · exact hunused (by rw [hcons]; exact List.mem_cons_of_mem _ hused)
      · exact hunused (by rw [hsame]; exact hused)
    show w.asked.record ((w.event ptr l).map Prod.snd) = ⟨[], []⟩
    rw [Watched.event_of_unused hinv.ptrsOk hbefore, hinv.fresh hbefore]
    rfl
  · intro c' hc' hptr
    show Serves tracks c'.subscriptions (w.asked.record ((w.event ptr l).map Prod.snd))
    rcases views_step hinv.server hstep hc' with ⟨hnew, hzero⟩ | ⟨c, hc, hsame, hviews⟩
    · have hfresh : ptr ∉ w.system.used := hptr ▸ hnew
      rw [Watched.event_of_unused hinv.ptrsOk hfresh, hinv.fresh hfresh, hzero]
      exact serves_empty tracks
    · have hcptr : c.ptr = ptr := hsame.symm.trans hptr
      have hserves := hinv.serves c hc hcptr
      have hevent := Watched.event_eq hinv.ptrsOk hc hcptr l
      rw [hevent]
      refine Serves.of_views ?_ hviews
      cases he : tableEvent w.system.transport c l with
      | none => exact hserves
      | some e =>
        rw [he, Option.map_some] at hevent
        unfold DirectionsApart at hapart
        unfold OnTracks at htracks
        rw [hevent] at hapart htracks
        refine hserves.event hlen hapart ?_
        intro trackAlias track heq
        rw [heq] at htracks
        exact htracks

/-- Every run that keeps the directions apart. -/
theorem watchInv_run {lib : FecLib} {tracks : List TrackKey} (hlen : tracks.length ≤ 32)
    {ptr : ℕ} {links : List SockAddr} {mtu : ℕ} {labels : List Label} {w : Watched}
    {o : List Effect}
    (htracks : Along (watchStep lib ptr) (OnTracks tracks ptr) (Watched.init links mtu) labels)
    (hapart : Along (watchStep lib ptr) (DirectionsApart ptr) (Watched.init links mtu) labels)
    (hrun : run (watchStep lib ptr) (Watched.init links mtu) labels = some (w, o)) :
    WatchInv tracks ptr w :=
  invariant_along (I := WatchInv tracks ptr) (watchInv_init tracks ptr links mtu)
    (fun _ _ _ _ hinv hguard hstep => watchInv_step hlen hinv hguard.1 hguard.2 hstep)
    labels w o (along_and htracks hapart) hrun

end Bishlink
