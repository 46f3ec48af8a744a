import Bishlink.SendSides
import Bishlink.Shutdowns

/-!
# Streams that are shut down

`remove_subscription` shuts down the stream of the entry it takes away and does not ask whether the
stream has a send side, as `transport_publish` does. The shutdowns of a run are in order exactly
when no entry is taken away while it has a unidirectional stream of the peer, or a stream whose
send side was closed (`shutdowns_open_iff`).
-/

namespace Bishlink

/-! ## The stream of the entry -/

/-- The stream of an entry that is taken away is one of the handles of the connection. -/
theorem unsubscribedStream_eq_some {s : System} {l : Label} {ptr sid : ℕ}
    (h : unsubscribedStream s l = some (ptr, sid)) :
    ∃ control io c st, l = .conn ptr (.iterate control io) ∧ s.transport.findConn ptr = some c ∧
      c.findStream control = some st ∧ sid ∈ c.subscriptions.handles := by
  cases l with
  | conn ptr' l =>
    cases l with
    | iterate control io =>
      unfold unsubscribedStream at h
      obtain ⟨c, hfind, h⟩ := Option.bind_eq_some_iff.mp h
      obtain ⟨st, hst, h⟩ := Option.bind_eq_some_iff.mp h
      split at h
      · split at h
        · obtain ⟨e, hentry, hstream⟩ := Option.bind_eq_some_iff.mp h
          obtain ⟨sid', hsid', heq⟩ := Option.map_eq_some_iff.mp hstream
          obtain ⟨rfl, rfl⟩ := Prod.mk.inj heq
          refine ⟨control, io, c, st, rfl, hfind, hst, ?_⟩
          have hholds := List.find?_some hentry
          refine List.mem_filterMap.mpr ⟨e, List.mem_of_find?_eq_some hentry, ?_⟩
          unfold TrackSubscription.handle
          rw [if_pos (TrackSubscription.holds_iff.mp hholds).1, hsid']
        · exact absurd h (by simp)
      · exact absurd h (by simp)
    | _ => exact absurd h (by simp [unsubscribedStream])
  | _ => exact absurd h (by simp [unsubscribedStream])

/-! ## Whole runs -/

/-- Whatever stream the step shuts down has an open send side. -/
def Label.ShutsOpen (lib : FecLib) (s : System) (l : Label) : Prop :=
  ∀ s' o, step lib s l = some (s', o) → ∀ ptr sid, .streamShutdown ptr sid ∈ o →
    ∃ c, s.transport.findConn ptr = some c ∧ c.sendOpen (some sid) = true

/-- An entry that the step takes away has no unidirectional stream of the peer, and no stream whose
send side was closed. -/
def Label.TakesUsable (labels : List Label) (s : System) (l : Label) : Prop :=
  ∀ p ∈ unsubscribedStream s l,
    peerUni s.transport.isServer p.2 = false ∧ ¬ClosedIn labels p.1 p.2

instance (labels : List Label) (s : System) (l : Label) : Decidable (l.TakesUsable labels s) := by
  unfold Label.TakesUsable
  infer_instance

/-- The handles of the tables and the send sides, after the labels of a run. -/
structure System.SidesOk (labels : List Label) (s : System) : Prop where
  tracks : ∀ c ∈ s.transport.conns, c.TracksOk s.transport.isServer
  sides : ∀ c ∈ s.transport.conns, c.SendSides s.transport.isServer labels

/-- What a handle says about the send side. -/
theorem sendOpen_iff {isServer : Bool} {labels : List Label} {c : Conn} {sid : ℕ}
    (htracks : c.TracksOk isServer) (hsides : c.SendSides isServer labels)
    (hsid : sid ∈ c.subscriptions.handles) :
    c.sendOpen (some sid) = true ↔ peerUni isServer sid = false ∧ ¬ClosedIn labels c.ptr sid := by
  obtain ⟨st, hst⟩ := Option.isSome_iff_exists.mp (htracks.live.tracks sid hsid)
  have hfound : c.findStream sid = some st := hst
  have hid : st.id = sid := by simpa using List.find?_some hfound
  unfold Conn.sendOpen
  dsimp only
  rw [hfound, ← hid]
  exact hsides st (List.mem_of_find?_eq_some hfound)

theorem shutsOpen_iff {lib : FecLib} {s : System} {l : Label} {labels : List Label}
    (h : s.SidesOk labels) : l.ShutsOpen lib s ↔ l.TakesUsable labels s := by
  constructor
  · rintro hopen ⟨ptr, sid⟩ hsid
    obtain ⟨control, io, c, st, rfl, hfind, hst, hmem⟩ := unsubscribedStream_eq_some hsid
    obtain ⟨hc, rfl⟩ := Transport.findConn_eq_some hfind
    obtain ⟨s', o, hstep⟩ : ∃ s' o, step lib s (.conn c.ptr (.iterate control io)) =
        some (s', o) := by
      simp [step, transportStep, hfind, connStep, hst]
    obtain ⟨c', hfind', hsend⟩ := hopen s' o hstep c.ptr sid ((shutdown_mem_iff hstep).mpr hsid)
    obtain rfl := Option.some.inj (hfind.symm.trans hfind')
    exact (sendOpen_iff (h.tracks c hc) (h.sides c hc) hmem).mp hsend
  · intro husable s' o hstep ptr sid hmem
    have hsid := (shutdown_mem_iff hstep).mp hmem
    obtain ⟨control, io, c, st, rfl, hfind, -, hhandle⟩ := unsubscribedStream_eq_some hsid
    obtain ⟨hc, rfl⟩ := Transport.findConn_eq_some hfind
    exact ⟨c, hfind, (sendOpen_iff (h.tracks c hc) (h.sides c hc) hhandle).mpr
      (husable (c.ptr, sid) hsid)⟩

/-- The account of the send sides along a run in which QUIC keeps its promises. -/
theorem sidesOk_run {lib : FecLib} {isServer : Bool} {links : List SockAddr}
    {maxUdpPayloadSize : ℕ} :
    ∀ labels s o, Runs.AlongHistory (step lib) (fun pre s l => l.Quic s ∧ l.OpensSides pre s)
        (System.init isServer links maxUdpPayloadSize) labels →
      Runs.run (step lib) (System.init isServer links maxUdpPayloadSize) labels = some (s, o) →
      s.SidesOk labels := by
  intro labels s o hquic hrun
  refine Runs.run_induction (step lib) (P := fun labels s _ =>
    Runs.AlongHistory (step lib) (fun pre s l => l.Quic s ∧ l.OpensSides pre s)
      (System.init isServer links maxUdpPayloadSize) labels → s.SidesOk labels)
    ?_ ?_ labels s o hrun hquic
  · exact fun _ => ⟨fun c hc => absurd hc List.not_mem_nil, fun c hc => absurd hc List.not_mem_nil⟩
  · intro pre s o l s' o' hrun ih hstep hquic
    obtain ⟨hfront, hlast⟩ := Runs.alongHistory_concat.mp hquic
    obtain ⟨htracks, hsides⟩ := ih hfront
    obtain ⟨hl, hopens⟩ := hlast s o hrun
    exact ⟨tracksOk_step htracks hl hstep, sendSides_step hsides hl hopens hstep⟩

/-- In every run in which QUIC keeps its promises, each stream that is shut down has an open send
side exactly when no entry is taken away while it has a unidirectional stream of the peer or a
stream whose send side was closed. -/
theorem shutdowns_open_iff (lib : FecLib) (isServer : Bool) (links : List SockAddr)
    (maxUdpPayloadSize : ℕ) (labels : List Label)
    (hquic : Runs.AlongHistory (step lib) (fun pre s l => l.Quic s ∧ l.OpensSides pre s)
      (System.init isServer links maxUdpPayloadSize) labels) :
    Runs.AlongHistory (step lib) (fun _ s l => l.ShutsOpen lib s)
        (System.init isServer links maxUdpPayloadSize) labels ↔
      Runs.AlongHistory (step lib) (fun pre s l => l.TakesUsable pre s)
        (System.init isServer links maxUdpPayloadSize) labels := by
  have hok : ∀ pre l post, labels = pre ++ l :: post → ∀ s o,
      Runs.run (step lib) (System.init isServer links maxUdpPayloadSize) pre = some (s, o) →
      (l.ShutsOpen lib s ↔ l.TakesUsable pre s) := by
    rintro pre l post rfl s o hrun
    refine shutsOpen_iff (sidesOk_run pre s o ?_ hrun)
    rintro pre' l' post' rfl
    exact hquic pre' l' (post' ++ l :: post) (by simp)
  constructor
  · intro h pre l post heq s o hrun
    exact (hok pre l post heq s o hrun).mp (h pre l post heq s o hrun)
  · intro h pre l post heq s o hrun
    exact (hok pre l post heq s o hrun).mpr (h pre l post heq s o hrun)

/-! ## A track that is subscribed to and taken away -/

/-- A reliable track. -/
def streamedTrack : MoqTrackId :=
  ⟨MOQ_TRACK_VIDEO, MOQ_TRACK_FLAG_RELIABLE, TrackName.ofBuffer [97]⟩

/-- A client subscribes to the track on a server, and takes the subscription back; `between` happens
in the meantime. -/
def subscribedRun (between : List Label) : List Label :=
  [.connect 1, .conn 1 (.openStream 0 true), .conn 1 (.respondAuth true),
    .conn 1 (.receive 0 (encodeTrackMessage 0x01 8 streamedTrack)),
    .conn 1 (.iterate 0 ControlIO.still)] ++ between ++
  [.conn 1 (.receive 0 (encodeTrackMessage 0x02 8 streamedTrack)),
    .conn 1 (.iterate 0 ControlIO.still)]

/-- The server publishes an object of one byte, on a stream of its own. -/
def publishOnStream : Label :=
  .publish { publishAt 0 with openStream := fun _ => some 3 } ⟨streamedTrack, 0, 0, [42], true, 0⟩

/-- The stream that the server opened for the track is shut down. -/
theorem shutdowns_open_own :
    Runs.AlongHistory (step FecLib.unavailable) (fun _ s l => l.ShutsOpen FecLib.unavailable s)
      (System.init true [] 1280) (subscribedRun [publishOnStream]) :=
  (shutdowns_open_iff FecLib.unavailable true [] 1280 (subscribedRun [publishOnStream])
    (by decide)).mpr (by decide)

/-- The client publishes on the track itself: it opens a stream with the alias of the track. -/
def clientPublishes : List Label :=
  [.conn 1 (.openStream 2 false), .conn 1 (.receive 2 [8]), .conn 1 (.iterate 2 ControlIO.still)]

/-- The server shuts down the stream of the client. -/
theorem client_stream_shut_down :
    Runs.AlongHistory (step FecLib.unavailable) (fun pre s l => l.Quic s ∧ l.OpensSides pre s)
        (System.init true [] 1280) (subscribedRun clientPublishes) ∧
      ¬Runs.AlongHistory (step FecLib.unavailable)
        (fun _ s l => l.ShutsOpen FecLib.unavailable s)
        (System.init true [] 1280) (subscribedRun clientPublishes) := by
  refine ⟨by decide, fun h => ?_⟩
  obtain ⟨c, hfind, hopen⟩ := h ((subscribedRun clientPublishes).take 9)
    (.conn 1 (.iterate 0 ControlIO.still)) [] rfl _ _ rfl _ _ rfl 1 2 List.mem_cons_self
  obtain rfl := Option.some.inj hfind
  exact absurd hopen (by decide)

end Bishlink
