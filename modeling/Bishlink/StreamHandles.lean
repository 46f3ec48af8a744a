import Bishlink.System

/-!
# Stream handles

A connection keeps stream handles in 33 places: `conn->stream` and one in each entry of its
table. Opens, header bytes, publishes and UNSUBSCRIBE messages store and clear them, and
`on_stream_destroy` is to clear them when QUIC takes a stream away.

* `HandlesOk` is what every step but one keeps: no handle dangles, and no stream is in two
  entries;
* `handles_live_iff`: no handle ever dangles exactly in the runs that destroy no control stream,
  because `on_stream_destroy` does not look at `conn->stream`.
-/

namespace Bishlink

open FirstMatch

/-! ## The handles of a connection -/

/-- The stream an active entry refers to. -/
def TrackSubscription.handle (e : TrackSubscription) : Option ℕ :=
  if e.active then e.stream else none

/-- The streams of the active entries. -/
def Subscriptions.handles (s : Subscriptions) : List ℕ := s.entries.filterMap (·.handle)

/-- Every handle leads to a stream that was opened and not destroyed yet. -/
structure Conn.HandlesLive (c : Conn) : Prop where
  control : ∀ sid, c.stream = some sid → (c.findStream sid).isSome = true
  tracks : ∀ sid ∈ c.subscriptions.handles, (c.findStream sid).isSome = true

def System.HandlesLive (s : System) : Prop := ∀ c ∈ s.transport.conns, c.HandlesLive

/-! ## What the operations do to the handles -/

/-- An update of the table changes one handle at most. -/
theorem handles_update (s : Subscriptions) (p : TrackSubscription → Bool)
    (f : TrackSubscription → TrackSubscription) :
    ((∀ e ∈ s.entries, p e = false) ∧ (s.update p f).handles = s.handles) ∨
      ∃ A e B, p e = true ∧ s.handles = A ++ e.handle.toList ++ B ∧
        (s.update p f).handles = A ++ (f e).handle.toList ++ B := by
  by_cases h : ∃ e ∈ s.entries, p e = true
  · obtain ⟨pre, e, post, hsplit, hp, -, hupdate⟩ := updateFirst_split h
    refine Or.inr ⟨pre.filterMap (·.handle), e, post.filterMap (·.handle), hp, ?_, ?_⟩
    · rw [Subscriptions.handles, hsplit, List.filterMap_append, List.filterMap_cons]
      cases e.handle <;> simp
    · show (updateFirst p f s.entries).filterMap (·.handle) = _
      rw [hupdate f, List.filterMap_append, List.filterMap_cons]
      cases (f e).handle <;> simp
  · have hnot : ∀ e ∈ s.entries, p e = false := by
      intro e he
      rw [← Bool.not_eq_true]
      exact fun hp => h ⟨e, he, hp⟩
    refine Or.inl ⟨hnot, ?_⟩
    show (updateFirst p f s.entries).filterMap (·.handle) = _
    rw [updateFirst_of_forall hnot]
    rfl

/-- An update that drops a handle or keeps it. -/
theorem handles_update_sublist (s : Subscriptions) {p : TrackSubscription → Bool}
    {f : TrackSubscription → TrackSubscription}
    (hf : ∀ e, p e = true → (f e).handle = e.handle ∨ (f e).handle = none) :
    (s.update p f).handles.Sublist s.handles := by
  rcases handles_update s p f with ⟨-, hsame⟩ | ⟨A, e, B, hp, hold, hnew⟩
  · rw [hsame]
  · rw [hold, hnew]
    rcases hf e hp with hkeep | hdrop
    · rw [hkeep]
    · rw [hdrop, Option.toList_none, List.append_nil]
      exact (List.sublist_append_left A _).append (List.Sublist.refl B)

theorem handles_addSubscription (s : Subscriptions) (type : MoqTrackType) (flags : UInt8)
    (name : TrackName) (trackAlias : UInt8) :
    (addSubscription s type flags name trackAlias).handles.Sublist s.handles := by
  rw [addSubscription]
  split
  · exact handles_update_sublist s fun e _ => Or.inl rfl
  · exact handles_update_sublist s fun e _ => Or.inr rfl

theorem handles_removeSubscription (s : Subscriptions) (type : MoqTrackType) (name : TrackName) :
    (removeSubscription s type name).1.handles.Sublist s.handles :=
  handles_update_sublist s fun _ _ => Or.inr rfl

theorem handles_subscribeTable (s : Subscriptions) (track : MoqTrackId) :
    (subscribeTable s track).handles.Sublist s.handles := by
  rw [subscribeTable]
  split
  · exact handles_addSubscription s _ _ _ _
  · exact List.Sublist.refl _

/-- A stream that no entry refers to is put into one. -/
theorem handles_update_insert {s : Subscriptions} {p : TrackSubscription → Bool} {sid : ℕ}
    (hnew : sid ∉ s.handles) (hnodup : s.handles.Nodup) :
    (∀ sid' ∈ (s.update p fun e => { e with stream := some sid }).handles,
        sid' = sid ∨ sid' ∈ s.handles) ∧
      (s.update p fun e => { e with stream := some sid }).handles.Nodup := by
  rcases handles_update s p (fun e => { e with stream := some sid }) with
    ⟨-, hsame⟩ | ⟨A, e, B, -, hold, hupdate⟩
  · rw [hsame]
    exact ⟨fun sid' h => Or.inr h, hnodup⟩
  rw [hold] at hnew hnodup
  rw [hupdate, hold]
  have hrest : (A ++ B).Nodup := by
    refine hnodup.sublist ?_
    exact (List.sublist_append_left A _).append (List.Sublist.refl B)
  by_cases hactive : e.active = true
  · have hhandle : TrackSubscription.handle { e with stream := some sid } = some sid :=
      if_pos hactive
    rw [hhandle, Option.toList_some, List.append_assoc, List.singleton_append]
    constructor
    · intro sid' h
      rw [List.mem_append, List.mem_cons] at h
      rcases h with h | rfl | h
      · exact Or.inr (by simp [h])
      · exact Or.inl rfl
      · exact Or.inr (by simp [h])
    · refine (List.perm_middle.nodup_iff).mpr (List.nodup_cons.mpr ⟨?_, hrest⟩)
      intro h
      rcases List.mem_append.mp h with h | h
      · exact hnew (by simp [h])
      · exact hnew (by simp [h])
  · have hhandle : TrackSubscription.handle { e with stream := some sid } = none := if_neg hactive
    rw [hhandle, Option.toList_none, List.append_nil]
    refine ⟨fun sid' h => Or.inr ?_, hrest⟩
    rcases List.mem_append.mp h with h | h
    · simp [h]
    · simp [h]

/-- `clear_subscription_stream` stops at the first entry, which is enough when there is one. -/
theorem not_mem_clearSubscriptionStream {s : Subscriptions} (hnodup : s.handles.Nodup) (sid : ℕ) :
    sid ∉ (clearSubscriptionStream s sid).handles := by
  have hp : ∀ e : TrackSubscription, (e.active && e.stream == some sid) = true ↔
      e.handle = some sid := by
    intro e
    rw [Bool.and_eq_true, beq_iff_eq, TrackSubscription.handle]
    split
    · next hactive => exact and_iff_right hactive
    · next hactive => exact iff_of_false (fun h => hactive h.1) (by simp)
  intro hmem
  rcases handles_update s (fun e => e.active && e.stream == some sid)
      (fun e => { e with stream := none }) with ⟨hnone, hsame⟩ | ⟨A, e, B, he, hold, hnew⟩
  · rw [clearSubscriptionStream, hsame] at hmem
    obtain ⟨e, he, hhandle⟩ := List.mem_filterMap.mp hmem
    have hfound := (hp e).mpr hhandle
    rw [hnone e he] at hfound
    exact Bool.false_ne_true hfound
  · have hhandle : TrackSubscription.handle { e with stream := none } = none := by
      rw [TrackSubscription.handle]
      split <;> rfl
    rw [clearSubscriptionStream, hnew, hhandle, Option.toList_none, List.append_nil] at hmem
    rw [hold, (hp e).mp he, Option.toList_some, List.append_assoc, List.singleton_append,
      List.perm_middle.nodup_iff, List.nodup_cons] at hnodup
    exact hnodup.1 hmem

theorem handles_clearSubscriptionStream (s : Subscriptions) (sid : ℕ) :
    (clearSubscriptionStream s sid).handles.Sublist s.handles := by
  refine handles_update_sublist s fun e _ => Or.inr ?_
  rw [TrackSubscription.handle]
  split <;> rfl

/-! ## The invariant -/

/-- The ids of the unidirectional streams an end opens itself. -/
def ownUni (isServer : Bool) (sid : ℕ) : Bool := sid % 4 == if isServer then 3 else 2

/-- No handle dangles. No stream is in two entries: a stream of its own is put into one when it
is opened and never gets a header, and the peer's streams when their header is read, which
happens once. -/
structure Conn.HandlesOk (isServer : Bool) (c : Conn) : Prop where
  live : c.HandlesLive
  once : c.subscriptions.handles.Nodup
  silent : ∀ s ∈ c.streams, ownUni isServer s.id = true → s.ingress = []
  read : ∀ s ∈ c.streams, ownUni isServer s.id = false → s.id ∈ c.subscriptions.handles →
    s.headerReceived = true

namespace Conn.HandlesOk

variable {isServer : Bool} {c : Conn}

theorem zero (isServer : Bool) (ptr : ℕ) : (Conn.zero ptr).HandlesOk isServer := by
  have hnil : (Conn.zero ptr).subscriptions.handles = [] := by
    show (List.replicate 32 TrackSubscription.zero).filterMap (·.handle) = []
    rw [List.filterMap_eq_nil_iff]
    intro e he
    rw [List.eq_of_mem_replicate he]
    rfl
  refine ⟨⟨fun sid h => ?_, fun sid h => ?_⟩, ?_, fun s hs => ?_, fun s hs => ?_⟩
  · exact absurd h (by simp [Conn.zero])
  · rw [hnil] at h
    exact absurd h List.not_mem_nil
  · rw [hnil]
    exact List.nodup_nil
  · exact absurd hs List.not_mem_nil
  · exact absurd hs List.not_mem_nil

/-- Handles may go away. -/
theorem of_sublist {c' : Conn} (h : c.HandlesOk isServer) (hstreams : c'.streams = c.streams)
    (hcontrol : c'.stream = c.stream)
    (hsub : c'.subscriptions.handles.Sublist c.subscriptions.handles) :
    c'.HandlesOk isServer := by
  have hfind : ∀ sid, c'.findStream sid = c.findStream sid := by
    intro sid
    rw [Conn.findStream, Conn.findStream, hstreams]
  refine ⟨⟨fun sid hs => ?_, fun sid hs => ?_⟩, h.once.sublist hsub, fun s hs => ?_,
    fun s hs hown hmem => ?_⟩
  · rw [hfind]
    exact h.live.control sid (hcontrol ▸ hs)
  · rw [hfind]
    exact h.live.tracks sid (hsub.subset hs)
  · exact h.silent s (hstreams ▸ hs)
  · exact h.read s (hstreams ▸ hs) hown (hsub.subset hmem)

/-- A stream changes, but for its id. -/
theorem updateStream (h : c.HandlesOk isServer) {sid : ℕ} {f : Stream → Stream}
    (hid : ∀ s, (f s).id = s.id)
    (hread : ∀ s, s.headerReceived = true → (f s).headerReceived = true)
    (hsilent : ∀ s, ownUni isServer sid = true → s.ingress = [] → (f s).ingress = []) :
    (c.updateStream sid f).HandlesOk isServer := by
  have hfind : ∀ sid', (c.findStream sid').isSome = true →
      ((c.updateStream sid f).findStream sid').isSome = true := by
    intro sid' hsome
    by_cases heq : sid' = sid
    · rw [heq, Conn.findStream_updateStream hid, Option.isSome_map, ← heq]
      exact hsome
    · rw [Conn.findStream_updateStream_of_ne hid heq]
      exact hsome
  refine ⟨⟨fun sid' hs => hfind sid' (h.live.control sid' hs),
    fun sid' hs => hfind sid' (h.live.tracks sid' hs)⟩, h.once, ?_, ?_⟩
  · intro s' hs' hown
    obtain ⟨s, hs, rfl⟩ := List.mem_map.mp hs'
    by_cases heq : s.id = sid
    · rw [if_pos heq] at hown ⊢
      rw [hid] at hown
      exact hsilent s (heq ▸ hown) (h.silent s hs hown)
    · rw [if_neg heq] at hown ⊢
      exact h.silent s hs hown
  · intro s' hs' hown hmem
    obtain ⟨s, hs, rfl⟩ := List.mem_map.mp hs'
    by_cases heq : s.id = sid
    · rw [if_pos heq] at hown hmem ⊢
      rw [hid] at hown hmem
      exact hread s (h.read s hs hown hmem)
    · rw [if_neg heq] at hown hmem ⊢
      exact h.read s hs hown hmem

theorem shift (h : c.HandlesOk isServer) (sid consumed : ℕ) :
    (c.shift sid consumed).HandlesOk isServer :=
  h.updateStream (fun _ => rfl) (fun _ hread => hread) fun s _ hnil => by
    show s.ingress.drop consumed = []
    rw [hnil, List.drop_nil]

/-- QUIC opens a stream. -/
theorem onStreamOpen (h : c.HandlesOk isServer) {sid : ℕ} (hnew : c.findStream sid = none)
    (sendOpen : Bool) : (onStreamOpen c sid sendOpen).HandlesOk isServer := by
  have hfind : ∀ sid', (c.findStream sid').isSome = true →
      ((Bishlink.onStreamOpen c sid sendOpen).findStream sid').isSome = true := by
    intro sid' hsome
    show ((c.streams ++ _).find? _).isSome = true
    rw [List.find?_append, Option.isSome_or, Bool.or_eq_true]
    exact Or.inl hsome
  refine ⟨⟨fun sid' hs => ?_, fun sid' hs => hfind sid' (h.live.tracks sid' hs)⟩, h.once, ?_, ?_⟩
  · simp only [Bishlink.onStreamOpen] at hs
    split at hs
    · next hzero =>
      obtain rfl := Option.some.inj hs
      show ((c.streams ++ _).find? _).isSome = true
      rw [List.find?_append, Option.isSome_or, Bool.or_eq_true]
      exact Or.inr (by simp)
    · exact hfind sid' (h.live.control sid' hs)
  · intro s hs hown
    rcases List.mem_append.mp hs with hs | hs
    · exact h.silent s hs hown
    · rw [List.mem_singleton.mp hs]
  · intro s hs hown hmem
    rcases List.mem_append.mp hs with hs | hs
    · exact h.read s hs hown hmem
    · -- a handle of the new stream would have dangled
      rw [List.mem_singleton.mp hs] at hmem
      have hlive := h.live.tracks sid hmem
      rw [hnew] at hlive
      exact absurd hlive Bool.false_ne_true

/-- A publish puts the stream it opens into the entry of the track. -/
theorem openTrack (h : c.HandlesOk isServer) {sid : ℕ} (hnew : c.findStream sid = none)
    (hown : ownUni isServer sid = true) (p : TrackSubscription → Bool) (sendOpen : Bool) :
    (Bishlink.onStreamOpen { c with
      subscriptions := c.subscriptions.update p fun e => { e with stream := some sid } } sid
      sendOpen).HandlesOk isServer := by
  have hnot : sid ∉ c.subscriptions.handles := by
    intro hmem
    have hlive := h.live.tracks sid hmem
    rw [hnew] at hlive
    exact absurd hlive Bool.false_ne_true
  obtain ⟨hmem, honce⟩ := handles_update_insert (p := p) hnot h.once
  have hopen := h.onStreamOpen hnew sendOpen
  refine ⟨⟨hopen.live.control, fun sid' hs => ?_⟩, honce, hopen.silent, fun s hs hpeer hs' => ?_⟩
  · rcases hmem sid' hs with rfl | hold
    · show ((c.streams ++ _).find? _).isSome = true
      rw [List.find?_append, Option.isSome_or, Bool.or_eq_true]
      exact Or.inr (by simp)
    · exact hopen.live.tracks sid' hold
  · rcases hmem s.id hs' with heq | hold
    · rw [heq, hown] at hpeer
      exact absurd hpeer (by decide)
    · exact hopen.read s hs hpeer hold

/-- QUIC takes a stream away that is not the control stream of the connection. -/
theorem onStreamDestroy (h : c.HandlesOk isServer) {sid : ℕ} (hcontrol : c.stream ≠ some sid) :
    (onStreamDestroy c sid).HandlesOk isServer := by
  have hsub := handles_clearSubscriptionStream c.subscriptions sid
  have hfind : ∀ sid', sid' ≠ sid → (c.findStream sid').isSome = true →
      ((Bishlink.onStreamDestroy c sid).findStream sid').isSome = true := by
    intro sid' hne hsome
    obtain ⟨s, hs⟩ := Option.isSome_iff_exists.mp hsome
    have hid : s.id = sid' := by simpa using List.find?_some hs
    rw [Conn.findStream, List.find?_isSome]
    refine ⟨s, List.mem_filter.mpr ⟨List.mem_of_find?_eq_some hs, ?_⟩, by simp [hid]⟩
    rw [decide_eq_true_iff, hid]
    exact hne
  refine ⟨⟨fun sid' hs => ?_, fun sid' hs => ?_⟩, h.once.sublist hsub, ?_, ?_⟩
  · refine hfind sid' ?_ (h.live.control sid' hs)
    rintro rfl
    exact hcontrol hs
  · refine hfind sid' ?_ (h.live.tracks sid' (hsub.subset hs))
    rintro rfl
    exact not_mem_clearSubscriptionStream h.once sid' hs
  · exact fun s hs => h.silent s (List.mem_of_mem_filter hs)
  · exact fun s hs hown hmem => h.read s (List.mem_of_mem_filter hs) hown (hsub.subset hmem)

/-- The header of a track stream puts the stream into the entry with its alias. -/
theorem receiveStreamHeader (h : c.HandlesOk isServer) {s : Stream} (hs : s ∈ c.streams)
    (hinput : s.ingress ≠ []) (hunread : s.headerReceived = false) (b : UInt8) :
    (receiveStreamHeader c s.id b).HandlesOk isServer := by
  have hpeer : ownUni isServer s.id = false := by
    rw [← Bool.not_eq_true]
    exact fun hown => hinput (h.silent s hs hown)
  have hnot : s.id ∉ c.subscriptions.handles := by
    intro hmem
    rw [h.read s hs hpeer hmem] at hunread
    exact absurd hunread (by decide)
  obtain ⟨hmem, honce⟩ := handles_update_insert (p := (·.hasAlias b)) hnot h.once
  have hid : ∀ s : Stream, ({ s with
      trackAlias := b, headerReceived := true, ingress := s.ingress.drop 1 }).id = s.id :=
    fun _ => rfl
  have hupdate := h.updateStream hid (fun _ _ => rfl) fun s' hown _ => by
    rw [hpeer] at hown
    exact absurd hown (by decide)
  refine ⟨⟨hupdate.live.control, fun sid' hs' => ?_⟩, honce, hupdate.silent,
    fun s' hs' hown hs'' => ?_⟩
  · rcases hmem sid' hs' with rfl | hold
    · show ((c.updateStream s.id _).findStream s.id).isSome = true
      rw [Conn.findStream_updateStream hid, Option.isSome_map, Conn.findStream,
        List.find?_isSome]
      exact ⟨s, hs, beq_self_eq_true s.id⟩
    · exact hupdate.live.tracks sid' hold
  · rcases hmem s'.id hs'' with heq | hold
    · obtain ⟨a, ha, rfl⟩ := List.mem_map.mp hs'
      by_cases hid : a.id = s.id
      · rw [if_pos hid]
      · rw [if_neg hid] at heq
        exact absurd heq hid
    · exact hupdate.read s' hs' hown hold

end Conn.HandlesOk

/-! ## One step -/

/-- What an iteration on a message leaves of the handles. -/
theorem handlesOk_control {isServer : Bool} {c : Conn} (h : c.HandlesOk isServer) (lib : FecLib)
    (io : ControlIO) (t : Transport) (sid : ℕ) (input : Bytes) :
    (controlIteration lib io t c sid input).conn.HandlesOk isServer := by
  have same : ∀ {c' : Conn}, c'.streams = c.streams → c'.stream = c.stream →
      c'.subscriptions = c.subscriptions → c'.HandlesOk isServer := by
    intro c' hstreams hstream hsubs
    exact h.of_sublist hstreams hstream (by rw [hsubs])
  rw [controlIteration]
  split
  · exact h
  · exact same rfl rfl rfl
  · next m _ _ =>
    refine Conn.HandlesOk.shift ?_ sid _
    cases m with
    | subscribe trackAlias track =>
      exact h.of_sublist rfl rfl (handles_addSubscription c.subscriptions _ _ _ _)
    | unsubscribe trackAlias track =>
      exact h.of_sublist rfl rfl (handles_removeSubscription c.subscriptions _ _)
    | data trackAlias payload =>
      simp only [handleControlMessage]
      split <;> exact h
    | nack trackAlias groupId objectId missing =>
      simp only [handleControlMessage]
      split
      · exact h
      · split <;> exact h
    | _ => exact same rfl rfl rfl

theorem handlesOk_trackObject {isServer : Bool} {c : Conn} (h : c.HandlesOk isServer)
    (t : Transport) (sid : ℕ) (trackAlias : UInt8) (input : Bytes) :
    (trackObjectIteration t c sid trackAlias input).conn.HandlesOk isServer := by
  rw [trackObjectIteration]
  split
  · exact h
  dsimp only
  split
  · exact h
  split
  · exact h.of_sublist rfl rfl (List.Sublist.refl _)
  · exact h.shift sid _

theorem handlesOk_stream {isServer : Bool} {c : Conn} (h : c.HandlesOk isServer) (lib : FecLib)
    (io : ControlIO) (t : Transport) {sid : ℕ} {s : Stream} (hs : c.findStream sid = some s) :
    (streamIteration lib io t c s).conn.HandlesOk isServer := by
  rw [streamIteration]
  split
  · exact handlesOk_control h lib io t s.id s.ingress
  rw [trackIteration]
  split
  · exact h
  · next b rest hinput =>
    split
    · exact handlesOk_trackObject h t _ _ _
    · next hunread =>
      refine handlesOk_trackObject ?_ t _ _ _
      refine h.receiveStreamHeader (List.mem_of_find?_eq_some hs) ?_ (by simpa using hunread) b
      rw [hinput]
      exact List.cons_ne_nil b rest

theorem handlesOk_published {io : PublishIO} {isServer : Bool} {c c' : Conn}
    (h : c.HandlesOk isServer) (hnew : ∀ sid, io.openStream c.ptr = some sid →
      ownUni isServer sid = true ∧ c.findStream sid = none)
    (hpub : Published io isServer c c') : c'.HandlesOk isServer := by
  rcases hpub with rfl | ⟨obj, rfl⟩
  · exact h
  rw [publishReliableConn]
  split
  · exact h
  split
  · exact h
  dsimp only
  split
  · exact h
  split
  · refine h.of_sublist rfl rfl (handles_update_sublist _ fun e _ => Or.inr ?_)
    rw [TrackSubscription.handle]
    split <;> rfl
  · next sid hsid =>
    obtain ⟨hown, hfresh⟩ := hnew sid hsid
    exact h.openTrack hfresh hown _ true

/-! ## Whole runs -/

/-- A publish that opens a stream gets a new one, with an id of its own kind. -/
def PublishIO.OpensNew (io : PublishIO) (t : Transport) : Prop :=
  ∀ c ∈ t.conns, ∀ sid ∈ io.openStream c.ptr,
    ownUni t.isServer sid = true ∧ c.findStream sid = none

/-- What QUIC promises: the streams it opens are new, and the peer sends nothing on a
unidirectional stream that this end opened. -/
def Label.Quic (s : System) : Label → Prop
  | .conn _ (.receive sid _) => ownUni s.transport.isServer sid = false
  | .publish io _ => io.OpensNew s.transport
  | .tick io => io.OpensNew s.transport
  | _ => True

/-- The label does not destroy the control stream of a connection. -/
def Label.KeepsControl (s : System) : Label → Prop
  | .conn ptr (.destroyStream sid) =>
    ∀ c ∈ s.transport.findConn ptr, c.stream ≠ some sid
  | _ => True

instance (io : PublishIO) (t : Transport) : Decidable (io.OpensNew t) := by
  unfold PublishIO.OpensNew
  infer_instance

instance (s : System) (l : Label) : Decidable (l.Quic s) := by
  unfold Label.Quic
  split <;> infer_instance

instance (s : System) (l : Label) : Decidable (l.KeepsControl s) := by
  unfold Label.KeepsControl
  split <;> infer_instance

def System.HandlesOk (s : System) : Prop :=
  ∀ c ∈ s.transport.conns, c.HandlesOk s.transport.isServer

/-- One step on one connection. -/
theorem handlesOk_conn {lib : FecLib} {s : System} {t' : Transport} {c c' : Conn} {l : ConnLabel}
    {o : List Effect} (h : c.HandlesOk s.transport.isServer)
    (hquic : Label.Quic s (.conn c.ptr l)) (hkeeps : Label.KeepsControl s (.conn c.ptr l))
    (hfind : s.transport.findConn c.ptr = some c)
    (hstep : connStep lib s.transport c l = some (t', c', o)) :
    c'.HandlesOk s.transport.isServer := by
  -- what leaves streams, handle and table alone keeps them
  have same : c'.streams = c.streams → c'.stream = c.stream → c'.subscriptions = c.subscriptions →
      c'.HandlesOk s.transport.isServer :=
    fun hstreams hstream hsubs => h.of_sublist hstreams hstream (by rw [hsubs])
  cases l with
  | openStream sid sendOpen =>
    simp only [connStep] at hstep
    split at hstep
    · exact absurd hstep (by simp)
    · next hnew =>
      simp only [Option.some.injEq, Prod.mk.injEq] at hstep
      rw [← hstep.2.1]
      exact h.onStreamOpen (by simpa using hnew) sendOpen
  | closeSend sid =>
    simp only [connStep, Option.some.injEq, Prod.mk.injEq] at hstep
    rw [← hstep.2.1]
    exact h.updateStream (fun _ => rfl) (fun _ hread => hread) fun _ _ hnil => hnil
  | destroyStream sid =>
    simp only [connStep, Option.some.injEq, Prod.mk.injEq] at hstep
    rw [← hstep.2.1]
    exact h.onStreamDestroy (hkeeps c hfind)
  | receive sid bytes =>
    simp only [connStep, Option.some.injEq, Prod.mk.injEq] at hstep
    rw [← hstep.2.1]
    refine h.updateStream (fun _ => rfl) (fun _ hread => hread) fun _ hown _ => ?_
    exact absurd (hown.symm.trans hquic) (by decide)
  | iterate sid io =>
    simp only [connStep] at hstep
    split at hstep
    · exact absurd hstep (by simp)
    · next st hst =>
      simp only [Option.some.injEq, Prod.mk.injEq] at hstep
      rw [← hstep.2.1]
      exact handlesOk_stream h lib io s.transport hst
  | datagram io payload =>
    simp only [connStep] at hstep
    split at hstep
    · exact absurd hstep (by simp)
    · next r hr =>
      rw [Option.some.injEq] at hstep
      rw [hstep] at hr
      rcases onReceiveDatagramFrame_cases hr with ⟨rfl, -, -⟩ | ⟨-, _, r, -, -, -, rfl, -⟩
      · exact h
      · exact same rfl rfl rfl
  | respondAuth success =>
    simp only [connStep, Option.some.injEq] at hstep
    have hc : c' = (transportRespondAuth c success).2.1 := (congrArg (fun r => r.2.1) hstep).symm
    rw [hc, transportRespondAuth]
    split
    · exact h
    · split <;> exact h.of_sublist rfl rfl (List.Sublist.refl _)
  | _ =>
    simp only [connStep, Option.some.injEq] at hstep
    have hc := congrArg (fun r => r.2.1) hstep
    dsimp only [transportCloseConn] at hc
    rw [← hc]
    exact h.of_sublist rfl rfl (List.Sublist.refl _)

/-- A step that destroys no control stream keeps the invariant. -/
theorem handlesOk_step {lib : FecLib} {s s' : System} {l : Label} {o : List Effect}
    (hok : s.HandlesOk) (hquic : l.Quic s) (hkeeps : l.KeepsControl s)
    (h : step lib s l = some (s', o)) : s'.HandlesOk := by
  intro c' hc'
  rw [step_isServer h]
  rcases step_becomes h hc' with ⟨-, -, hzero⟩ | ⟨c, hmem, -, hbecomes⟩
  · rw [hzero]
    exact Conn.HandlesOk.zero _ _
  cases hbecomes with
  | kept => exact hok c' hmem
  | @subscribe track _ hopen =>
    exact (hok c hmem).of_sublist rfl rfl (handles_subscribeTable c.subscriptions track)
  | publish hpub => exact handlesOk_published (hok c hmem) (hquic c hmem) hpub
  | tick hpub => exact handlesOk_published (hok c hmem) (hquic c hmem) hpub
  | conn hfind hstep => exact handlesOk_conn (hok c hmem) hquic hkeeps hfind hstep

/-- Destroying the control stream leaves its handle behind. -/
theorem dangles_of_destroy {lib : FecLib} {s : System} {l : Label} (h : ¬l.KeepsControl s) :
    ∃ s' o, step lib s l = some (s', o) ∧ ¬s'.HandlesLive := by
  cases l with
  | conn ptr l =>
    cases l with
    | destroyStream sid =>
      simp only [Label.KeepsControl, not_forall, not_not] at h
      obtain ⟨c, hfind, hcontrol⟩ := h
      obtain ⟨hmem, rfl⟩ := Transport.findConn_eq_some hfind
      refine ⟨⟨s.transport.setConn (onStreamDestroy c sid), s.used⟩, [], ?_, fun hlive => ?_⟩
      · have hsome : s.transport.findConn c.ptr = some c := hfind
        simp only [step, transportStep, connStep, hsome, Option.map_some]
      have hmem' : onStreamDestroy c sid ∈ (s.transport.setConn (onStreamDestroy c sid)).conns :=
        List.mem_map.mpr ⟨c, hmem, if_pos rfl⟩
      have hfound := (hlive _ hmem').control sid hcontrol
      rw [Conn.findStream, List.find?_isSome] at hfound
      obtain ⟨st, hst, hid⟩ := hfound
      have hkept := (List.mem_filter.mp hst).2
      rw [decide_eq_true_iff] at hkept
      exact hkept (beq_iff_eq.mp hid)
    | _ => exact absurd trivial h
  | _ => exact absurd trivial h

/-- In every run in which QUIC keeps its promises, no handle of any connection dangles in any
state, exactly when no control stream is destroyed while its connection is in the table. -/
theorem handles_live_iff (lib : FecLib) (isServer : Bool) (links : List SockAddr)
    (maxUdpPayloadSize : ℕ) (labels : List Label)
    (hquic : Runs.Along (step lib) (fun s l => l.Quic s)
      (System.init isServer links maxUdpPayloadSize) labels) :
    (∀ pre s o, pre <+: labels →
        Runs.run (step lib) (System.init isServer links maxUdpPayloadSize) pre = some (s, o) →
        s.HandlesLive) ↔
      Runs.Along (step lib) (fun s l => l.KeepsControl s)
        (System.init isServer links maxUdpPayloadSize) labels := by
  refine Runs.safe_iff_along (J := System.HandlesOk) (fun s hok c hc => (hok c hc).live)
    (fun s l s' o hok hquic hkeeps hstep => handlesOk_step hok hquic hkeeps hstep)
    (fun s l _ hnot => dangles_of_destroy hnot) ?_ hquic
  exact fun c hc => absurd hc List.not_mem_nil

/-- A client subscribes to a track, maps the server's stream of it, and QUIC destroys stream
`destroyed`. -/
def destroyRun (destroyed : ℕ) : List Label :=
  [.connect 1, .conn 1 (.openStream 0 true),
    .subscribe ⟨MOQ_TRACK_VIDEO, 0, TrackName.ofBuffer [97]⟩,
    .conn 1 (.openStream 3 false), .conn 1 (.receive 3 [8]), .conn 1 (.iterate 3 ControlIO.still),
    .conn 1 (.destroyStream destroyed)]

set_option maxRecDepth 4000 in
/-- The stream of a track is destroyed, and nothing refers to it any more. -/
theorem handles_live_iff_track :
    (∃ s o, Runs.run (step FecLib.unavailable) (System.init false [] 1280) (destroyRun 3) =
        some (s, o)) ∧
      ∀ pre s o, pre <+: destroyRun 3 →
        Runs.run (step FecLib.unavailable) (System.init false [] 1280) pre = some (s, o) →
        s.HandlesLive :=
  ⟨⟨_, _, rfl⟩, (handles_live_iff FecLib.unavailable false [] 1280 (destroyRun 3)
    (by decide)).mpr (by decide)⟩

set_option maxRecDepth 4000 in
/-- The control stream is destroyed, and the connection still refers to it. -/
theorem control_handle_dangles :
    Runs.Along (step FecLib.unavailable) (fun s l => l.Quic s) (System.init false [] 1280)
        (destroyRun 0) ∧
      ∃ s o c, Runs.run (step FecLib.unavailable) (System.init false [] 1280) (destroyRun 0) =
          some (s, o) ∧
        c ∈ s.transport.conns ∧ c.stream = some 0 ∧ c.findStream 0 = none ∧ ¬s.HandlesLive := by
  refine ⟨by decide, _, _, _, rfl, List.mem_singleton_self _, rfl, rfl, fun hlive => ?_⟩
  exact absurd ((hlive _ (List.mem_singleton_self _)).control 0 rfl) (by decide)

end Bishlink
