import Bishlink.ControlChunks
import Bishlink.Handshake

/-!
# Two daemons get to know each other

`Link` is a client daemon and a server daemon with the bytes of the control stream that are under
way. The bytes arrive in any pieces, other peers of the server come in between, and what does not
concern the control stream goes on beside it.

`daemons_agree`: neither daemon gives the connection up, no alias means two tracks, and once all has
arrived both ends are authenticated and know all tracks of both under the same aliases.
-/

namespace Bishlink

open Framing Numbering Runs

/-! ## The link -/

/-- The transports of two daemons, and the bytes of the control stream that an end has written and
that have not arrived at the other one. `handshakeComplete` is that of the client's connection. -/
structure Link where
  client : Reception
  server : Reception
  toServer : Bytes
  toClient : Bytes
  handshakeComplete : Bool

/-- What the code reads of a connection when it serves the control stream. -/
structure ControlState where
  closing : Bool
  authenticated : Bool
  stream : Option ℕ
  views : List (Option (TrackKey × UInt8))
  found : Option Stream
deriving DecidableEq

def Conn.control (c : Conn) : ControlState :=
  ⟨c.closing, c.authenticated, c.stream, c.subscriptions.views, c.findStream 0⟩

/-- A transport after something that leaves the control channel of a connection alone. -/
def Transport.Beside (ptr : ℕ) (t t' : Transport) : Prop :=
  t'.isServer = t.isServer ∧ t'.ptrs.Nodup ∧
    (t'.findConn ptr).map (·.control) = (t.findConn ptr).map (·.control) ∧
    (t'.findConn ptr).all (fun c => decide (c.streams.map (·.id)).Nodup) = true ∧
    (t.isServer = false → t'.ptrs = t.ptrs)

instance (ptr : ℕ) (t t' : Transport) : Decidable (t.Beside ptr t') := by
  unfold Transport.Beside
  infer_instance

/-- What can happen to the two daemons. -/
inductive LinkLabel where
  /-- the client's connection is ready -/
  | connected
  /-- `on_stream_open` for the control stream on the server -/
  | openStream
  /-- bytes of the control stream arrive at the server -/
  | atServer (n : ℕ) (io : ℕ → ControlIO)
  /-- bytes of the control stream arrive at the client -/
  | atClient (n : ℕ) (io : ℕ → ControlIO)
  /-- another connection of the server raises an event -/
  | otherPeer (conn : ℕ) (ev : TransportEvent)
  | besideServer (t : Transport)
  | besideClient (t : Transport)

variable (lib : FecLib) (e : DaemonPair)

/-- The control stream of the server's connection is there. -/
def Link.streamThere (l : Link) : Bool :=
  ((l.server.transport.findConn e.serverPtr).bind (·.findStream 0)).isSome

/-- One step of the two daemons. -/
def linkStep (l : Link) : LinkLabel → Option (Link × List Unit)
  | .connected =>
    if l.handshakeComplete then none
    else
      let r := deliver lib (daemonApp e.client false) l.client [.event e.clientPtr .connected]
      some ({ l with
        client := r.1
        toServer := l.toServer ++ written e.clientPtr 0 r.2
        handshakeComplete := true }, [])
  | .openStream =>
    if l.streamThere e then none
    else
      (l.server.transport.findConn e.serverPtr).map fun c =>
        ({ l with
          server := { l.server with
            transport := l.server.transport.setConn (onStreamOpen c 0 true) } }, [])
  | .atServer n io =>
    if l.streamThere e then
      let r := onReceive lib io (daemonApp e.server true) e.serverPtr 0 l.server (l.toServer.take n)
      some ({ l with
        server := r.1
        toServer := l.toServer.drop n
        toClient := l.toClient ++ written e.serverPtr 0 r.2 }, [])
    else none
  | .atClient n io =>
    let r := onReceive lib io (daemonApp e.client false) e.clientPtr 0 l.client (l.toClient.take n)
    some ({ l with
      client := r.1
      toClient := l.toClient.drop n
      toServer := l.toServer ++ written e.clientPtr 0 r.2 }, [])
  | .otherPeer conn ev =>
    if conn = e.serverPtr then none
    else
      let r := deliver lib (daemonApp e.server true) l.server [.event conn ev]
      some ({ l with server := r.1, toClient := l.toClient ++ written e.serverPtr 0 r.2 }, [])
  | .besideServer t =>
    if l.server.transport.Beside e.serverPtr t then
      some ({ l with server := { l.server with transport := t } }, [])
    else none
  | .besideClient t =>
    if l.client.transport.Beside e.clientPtr t then
      some ({ l with client := { l.client with transport := t } }, [])
    else none

variable {lib e}

/-- A client that has just called `quicly_connect` and `quicly_open_stream`, and a server that has
just accepted. -/
structure Link.Starts (e : DaemonPair) (l : Link) : Prop where
  client : l.client.transport.HasConn false e.clientPtr
    (onStreamOpen (Conn.zero e.clientPtr) 0 true)
  server : l.server.transport.HasConn true e.serverPtr (Conn.zero e.serverPtr)
  quiet : l.toServer = [] ∧ l.toClient = []
  fresh : l.handshakeComplete = false

/-! ## Reading at both ends -/

theorem Conn.Answers.findStream {c : Conn} (h : c.Answers) : ∃ s, c.findStream 0 = some s := by
  obtain ⟨hstream, hopen⟩ := h
  rw [Conn.controlOpen, hstream, Conn.sendOpen] at hopen
  cases hfind : c.findStream 0 with
  | none =>
    rw [hfind] at hopen
    exact absurd hopen Bool.false_ne_true
  | some s => exact ⟨s, rfl⟩

theorem controlParse_nil (conn sid : ℕ) (q : Reception) : controlParse conn sid q [] = .more := by
  unfold controlParse
  split
  · rfl
  · split <;> rfl

section Reads

variable {q r : Transport} {greeted : Bool} {up down : List ControlMessage} {c d : Conn}
  {h : Turns TrackKey}

variable (lib) in
/-- The server reads the next message of the client. -/
theorem Shaking.serverAct (io : ℕ → ControlIO) {p : Reception} {m : ControlMessage}
    (hs : Shaking e q p.transport greeted (m :: up) down c d h) (hanswers : d.Answers) :
    controlParse e.serverPtr 0 p m.encode = .item m m.encode.length ∧
      ∃ d' h' more, Shaking e q
          (controlAct lib io (daemonApp e.server true) e.serverPtr p m).1.transport greeted up
          (down ++ more) c d' h' ∧ d'.Answers ∧ d'.streams = d.streams ∧
        written e.serverPtr 0 (controlAct lib io (daemonApp e.server true) e.serverPtr p m).2 =
          more.flatMap ControlMessage.encode := by
  have hfind := hs.server.find
  have hptr := hs.server.ptr_eq
  obtain ⟨hm, -⟩ := List.forall_mem_cons.mp hs.up_ok
  have hparse : controlParse e.serverPtr 0 p m.encode =
      parseControlMessage true d.authenticated m.encode := by
    obtain ⟨s, hstream⟩ := hanswers.findStream
    rw [controlParse, hfind]
    dsimp only
    rw [hstream, hs.server.role]
  rw [hparse]
  cases m with
  | auth token =>
    obtain rfl : token = AUTH_TOKEN := hm
    refine ⟨parseControlMessage_token true d.authenticated, ?_⟩
    have hhandle : handleControlMessage lib (io p.handled) p.transport d (.auth AUTH_TOKEN) =
        (p.transport, d, [.event e.serverPtr (.auth AUTH_TOKEN)]) := by
      rw [← hptr]
      rfl
    obtain ⟨htransport, hwritten⟩ := controlAct_event e.server true hfind hhandle
    rw [htransport, hwritten, setConn_self hs.server.nodup hfind]
    -- the server announces its own tracks, and approves the client after that
    have hcalls : onTransportEvent e.server true e.serverPtr (.auth AUTH_TOKEN) =
        subscribeToTracks e.server ++ [.respondAuth e.serverPtr true] := by
      unfold onTransportEvent
      dsimp only
      rw [if_pos rfl, if_pos rfl]
    have hsubscribed : written e.serverPtr 0
        (p.transport.calls lib (subscribeToTracks e.server)).2 = _ :=
      ((hs.server.subscribeTracks lib e.server.tracks).1 hanswers).2
    rw [hcalls, calls_append, calls_singleton]
    dsimp only
    rw [written_append, hsubscribed]
    obtain ⟨h₁, hs₁, hknown⟩ := hs.announce lib hanswers
    have hanswers₁ := hs₁.serverLive.2.resolve_right fun hnone => by
      exact absurd (hnone.1.symm.trans hanswers.1) (by simp)
    rw [(hs₁.server.approve lib hanswers₁).2]
    refine ⟨{ d with
        subscriptions := (subscribeAll d.subscriptions e.server.tracks).1
        authenticated := true }, h₁.handOver,
      (subscribeAll d.subscriptions e.server.tracks).2 ++ [.authResponse 1], ?_,
      hanswers.of_streams rfl rfl, rfl, ?_⟩
    · rw [← List.append_assoc]
      exact (hs₁.approve lib hanswers₁ hknown).dropAuth rfl
    · rw [List.flatMap_append]
      rfl
  | subscribe trackAlias track =>
    -- a SUBSCRIBE comes behind the AUTH
    have happroved : d.authenticated = true := by
      by_contra hnot
      have hfirst := (hs.guest (by simpa using hnot)).2.1 _ List.mem_cons_self
      exact absurd hfirst (by simp)
    refine ⟨parseControlMessage_encode hm.encodable (by rw [happroved]; rfl), ?_⟩
    have hhandle :
        handleControlMessage lib (io p.handled) p.transport d (.subscribe trackAlias track) =
        (p.transport, d.learns trackAlias track, [.event e.serverPtr (.subscribe track)]) := by
      rw [← hptr]
      rfl
    obtain ⟨htransport, hwritten⟩ := controlAct_event e.server true hfind hhandle
    rw [htransport, hwritten]
    obtain ⟨h', hs'⟩ := hs.learnServer
    refine ⟨d.learns trackAlias track, h', [], ?_, hanswers.of_streams rfl rfl, rfl, rfl⟩
    rw [List.append_nil]
    exact hs'
  | _ => exact absurd hm id

variable (lib) in
/-- The client reads the next message of the server. -/
theorem Shaking.clientAct (io : ℕ → ControlIO) {p : Reception} {m : ControlMessage}
    (hs : Shaking e p.transport r greeted up (m :: down) c d h) :
    controlParse e.clientPtr 0 p m.encode = .item m m.encode.length ∧
      ∃ c' h' more, Shaking e
          (controlAct lib io (daemonApp e.client false) e.clientPtr p m).1.transport r greeted
          (up ++ more) down c' d h' ∧ c'.streams = c.streams ∧
        written e.clientPtr 0 (controlAct lib io (daemonApp e.client false) e.clientPtr p m).2 =
          more.flatMap ControlMessage.encode := by
  have hfind := hs.client.find
  have hptr := hs.client.ptr_eq
  have hanswers := hs.clientLive.2
  obtain ⟨hm, -⟩ := List.forall_mem_cons.mp hs.down_ok
  constructor
  · obtain ⟨s, hstream⟩ := hanswers.findStream
    rw [controlParse, hfind]
    dsimp only
    rw [hstream, hs.client.role]
    exact parseControlMessage_encode hm.encodable rfl
  cases m with
  | subscribe trackAlias track =>
    have hhandle :
        handleControlMessage lib (io p.handled) p.transport c (.subscribe trackAlias track) =
        (p.transport, c.learns trackAlias track, [.event e.clientPtr (.subscribe track)]) := by
      rw [← hptr]
      rfl
    obtain ⟨htransport, hwritten⟩ := controlAct_event e.client false hfind hhandle
    rw [htransport, hwritten]
    obtain ⟨h', hs'⟩ := hs.learnClient
    refine ⟨c.learns trackAlias track, h', [], ?_, rfl, rfl⟩
    rw [List.append_nil]
    exact hs'
  | authResponse status =>
    obtain rfl : status = 1 := hm
    have hhandle : handleControlMessage lib (io p.handled) p.transport c (.authResponse 1) =
        (p.transport, { c with authenticated := true },
          [.event e.clientPtr (.authComplete true)]) := by
      rw [← hptr, handleControlMessage, show ((1 : UInt8) == 1) = true from rfl, Bool.or_true]
    obtain ⟨htransport, hwritten⟩ := controlAct_event e.client false hfind hhandle
    rw [htransport, hwritten]
    -- the client answers with its own tracks
    have hset : (p.transport.setConn { c with authenticated := true }).HasConn false e.clientPtr
        { c with authenticated := true } := hs.client.setConn hptr
    obtain ⟨h', hs'⟩ := hs.authComplete lib
    exact ⟨_, h', _, hs', rfl,
      ((hset.subscribeTracks lib e.client.tracks).1 (hanswers.of_streams rfl rfl)).2⟩
  | _ => exact absurd hm id

variable (lib) in
/-- The server reads a part of what the client has written. -/
theorem Shaking.serverReads (io : ℕ → ControlIO) {p : Reception} {bs rest : Bytes}
    (hs : Shaking e q p.transport greeted up down c d h) (hanswers : d.Answers)
    (hbs : bs ++ rest = up.flatMap ControlMessage.encode) :
    let w := (controlReader lib io (daemonApp e.server true) e.serverPtr 0).read p bs
    ∃ up' more d' h', Shaking e q w.state.transport greeted up' (down ++ more) c d' h' ∧
      d'.Answers ∧ d'.streams = d.streams ∧ w.rest ++ rest = up'.flatMap ControlMessage.encode ∧
      (rest = [] → up' = []) ∧
      written e.serverPtr 0 w.out = more.flatMap ControlMessage.encode := by
  intro w
  -- what holds between two messages
  let J : Reception → List Effect → List ControlMessage → Prop := fun p o ms =>
    ∃ more d' h', Shaking e q p.transport greeted ms (down ++ more) c d' h' ∧ d'.Answers ∧
      d'.streams = d.streams ∧ written e.serverPtr 0 o = more.flatMap ControlMessage.encode
  have hstart : J p [] up := ⟨[], d, h, by rwa [List.append_nil], hanswers, rfl, rfl⟩
  have hact : ∀ p o m ms, J p o (m :: ms) →
      controlParse e.serverPtr 0 p m.encode = .item m m.encode.length ∧
        J (controlAct lib io (daemonApp e.server true) e.serverPtr p m).1
          (o ++ (controlAct lib io (daemonApp e.server true) e.serverPtr p m).2) ms := by
    rintro p o m ms ⟨more, d', h', hs', hanswers', hstreams, hout⟩
    obtain ⟨hparse, d₁, h₁, more₁, hs₁, hanswers₁, hstreams₁, hout₁⟩ :=
      hs'.serverAct lib io hanswers'
    refine ⟨hparse, more ++ more₁, d₁, h₁, ?_, hanswers₁, hstreams₁.trans hstreams, ?_⟩
    · rwa [← List.append_assoc]
    · rw [written_append, hout, hout₁, List.flatMap_append]
  obtain ⟨left, ⟨more, d', h', hs', hanswers', hstreams, hout⟩, hrest, hdone⟩ :=
    Reader.read_encoded (controlReader_lawful lib io (daemonApp e.server true) e.serverPtr 0)
      (controlParse_nil e.serverPtr 0) (fun p o m ms hJ => (hact p o m ms hJ).1)
      (fun p o m ms hJ => (hact p o m ms hJ).2) hstart hbs
  exact ⟨left, more, d', h', hs', hanswers', hstreams, hrest, hdone, hout⟩

variable (lib) in
/-- The client reads a part of what the server has written. -/
theorem Shaking.clientReads (io : ℕ → ControlIO) {p : Reception} {bs rest : Bytes}
    (hs : Shaking e p.transport r greeted up down c d h)
    (hbs : bs ++ rest = down.flatMap ControlMessage.encode) :
    let w := (controlReader lib io (daemonApp e.client false) e.clientPtr 0).read p bs
    ∃ down' more c' h', Shaking e w.state.transport r greeted (up ++ more) down' c' d h' ∧
      c'.streams = c.streams ∧ w.rest ++ rest = down'.flatMap ControlMessage.encode ∧
      (rest = [] → down' = []) ∧
      written e.clientPtr 0 w.out = more.flatMap ControlMessage.encode := by
  intro w
  let J : Reception → List Effect → List ControlMessage → Prop := fun p o ms =>
    ∃ more c' h', Shaking e p.transport r greeted (up ++ more) ms c' d h' ∧
      c'.streams = c.streams ∧ written e.clientPtr 0 o = more.flatMap ControlMessage.encode
  have hstart : J p [] down := ⟨[], c, h, by rwa [List.append_nil], rfl, rfl⟩
  have hact : ∀ p o m ms, J p o (m :: ms) →
      controlParse e.clientPtr 0 p m.encode = .item m m.encode.length ∧
        J (controlAct lib io (daemonApp e.client false) e.clientPtr p m).1
          (o ++ (controlAct lib io (daemonApp e.client false) e.clientPtr p m).2) ms := by
    rintro p o m ms ⟨more, c', h', hs', hstreams, hout⟩
    obtain ⟨hparse, c₁, h₁, more₁, hs₁, hstreams₁, hout₁⟩ := hs'.clientAct lib io
    refine ⟨hparse, more ++ more₁, c₁, h₁, ?_, hstreams₁.trans hstreams, ?_⟩
    · rwa [← List.append_assoc]
    · rw [written_append, hout, hout₁, List.flatMap_append]
  obtain ⟨left, ⟨more, c', h', hs', hstreams, hout⟩, hrest, hdone⟩ :=
    Reader.read_encoded (controlReader_lawful lib io (daemonApp e.client false) e.clientPtr 0)
      (controlParse_nil e.clientPtr 0) (fun p o m ms hJ => (hact p o m ms hJ).1)
      (fun p o m ms hJ => (hact p o m ms hJ).2) hstart hbs
  exact ⟨left, more, c', h', hs', hstreams, hrest, hdone, hout⟩

variable (lib) in
/-- The server subscribes to its tracks: it announces them, if it can. -/
theorem Shaking.serverSubscribes (hs : Shaking e q r greeted up down c d h) :
    ∃ more d' h',
      Shaking e q (r.calls lib (subscribeToTracks e.server)).1 greeted up (down ++ more) c
        d' h' ∧ d'.streams = d.streams ∧
      written e.serverPtr 0 (r.calls lib (subscribeToTracks e.server)).2 =
        more.flatMap ControlMessage.encode := by
  obtain ⟨hopen, hclosed⟩ := hs.server.subscribeTracks lib e.server.tracks
  rcases hs.serverLive.2 with hanswers | ⟨hstream, hnone⟩
  · obtain ⟨h', hs', -⟩ := hs.announce lib hanswers
    exact ⟨_, _, h', hs', rfl, (hopen hanswers).2⟩
  · have hshut : d.controlOpen = false := by
      rw [Conn.controlOpen, hstream]
      rfl
    obtain ⟨hconn, hnothing⟩ := hclosed hshut
    refine ⟨[], d, h, ?_, rfl, hnothing⟩
    rw [List.append_nil]
    exact hs.of_server hconn rfl rfl rfl (Or.inr ⟨hstream, hnone⟩)

variable (lib) in
/-- The calls of the server for another peer. -/
theorem Shaking.serverCalls (hs : Shaking e q r greeted up down c d h) {conn : ℕ}
    (hne : conn ≠ e.serverPtr) (ev : TransportEvent) :
    ∃ more d' h', Shaking e q (r.calls lib (onTransportEvent e.server true conn ev)).1 greeted up
        (down ++ more) c d' h' ∧ d'.streams = d.streams ∧
      written e.serverPtr 0 (r.calls lib (onTransportEvent e.server true conn ev)).2 =
        more.flatMap ControlMessage.encode := by
  have hquiet : ∃ more d' h', Shaking e q (r.calls lib []).1 greeted up (down ++ more) c d' h' ∧
      d'.streams = d.streams ∧
      written e.serverPtr 0 (r.calls lib []).2 = more.flatMap ControlMessage.encode :=
    ⟨[], d, h, by rwa [List.append_nil], rfl, rfl⟩
  cases ev with
  | auth token =>
    unfold onTransportEvent
    dsimp only
    rw [if_pos rfl]
    by_cases htoken : token = AUTH_TOKEN
    · obtain ⟨more, d', h', hs', hstreams, hwritten⟩ := hs.serverSubscribes lib
      obtain ⟨hconn, hnothing⟩ := hs'.server.respond_other lib hne true
      rw [if_pos htoken, calls_append, calls_singleton]
      refine ⟨more, d', h', hs'.of_server hconn rfl rfl rfl hs'.serverLive.2, hstreams, ?_⟩
      dsimp only
      rw [written_append, hnothing, List.append_nil, hwritten]
    · obtain ⟨hconn, hnothing⟩ := hs.server.respond_other lib hne false
      rw [if_neg htoken, calls_singleton]
      refine ⟨[], d, h, ?_, rfl, hnothing⟩
      rw [List.append_nil]
      exact hs.of_server hconn rfl rfl rfl hs.serverLive.2
  | authComplete success =>
    cases success with
    | false => exact hquiet
    | true => exact hs.serverSubscribes lib
  | _ => exact hquiet

end Reads

/-! ## The invariant of the link -/

/-- These bytes of the control stream wait at an end. -/
structure Conn.Waits (c : Conn) (bs : Bytes) : Prop where
  nodup : (c.streams.map (·.id)).Nodup
  find : ∃ s, c.findStream 0 = some s ∧ s.isControl = true ∧ s.ingress = bs

theorem Conn.Waits.of_streams {c c' : Conn} {bs : Bytes} (h : c.Waits bs)
    (hstreams : c'.streams = c.streams) : c'.Waits bs := by
  refine ⟨hstreams ▸ h.nodup, ?_⟩
  unfold Conn.findStream
  rw [hstreams]
  exact h.find

/-- What waits is what is left over. -/
theorem Transport.HasConn.control {q : Reception} {isServer : Bool} {ptr : ℕ} {c : Conn}
    {bs : Bytes}
    (h : q.transport.HasConn isServer ptr c) (hwaits : c.Waits bs) (rest : Bytes) :
    (q.control ptr 0 rest).transport.HasConn isServer ptr
        (c.updateAt ptr 0 (Stream.control rest)) ∧
      (c.updateAt ptr 0 (Stream.control rest)).Waits rest := by
  have hptr := h.ptr_eq
  refine ⟨⟨h.role, ?_, ?_, fun hclient => ?_⟩, ?_, ?_⟩
  · show ((q.transport.conns.map (Conn.updateAt ptr 0 (Stream.control rest))).map (·.ptr)).Nodup
    rw [ptrs_map fun c _ => updateAt_ptr c]
    exact h.nodup
  · show (q.transport.updateStream ptr 0 (Stream.control rest)).findConn ptr = _
    rw [findConn_updateStream, h.find, Option.map_some]
  · show q.transport.conns.map _ = _
    rw [h.only hclient, List.map_singleton]
  · rw [Conn.updateAt, if_pos hptr, Conn.updateStream, List.map_map]
    have hids : (c.streams.map fun s => if s.id = 0 then s.control rest else s).map (·.id) =
        c.streams.map (·.id) := by
      rw [List.map_map]
      refine List.map_congr_left fun s _ => ?_
      dsimp only [Function.comp]
      split <;> rfl
    rw [← List.map_map, hids]
    exact hwaits.nodup
  · obtain ⟨s, hfind, -, -⟩ := hwaits.find
    refine ⟨s.control rest, ?_, rfl, rfl⟩
    rw [findStream_updateAt (unseen_control rest) hptr, hfind, Option.map_some]

/-- The control stream with the bytes that wait on it anyway. -/
theorem Transport.HasConn.control_self {q : Reception} {isServer : Bool} {ptr : ℕ} {c : Conn}
    {bs : Bytes} (h : q.transport.HasConn isServer ptr c) (hwaits : c.Waits bs) :
    q.control ptr 0 bs = q := by
  obtain ⟨s, hfind, hcontrol, rfl⟩ := hwaits.find
  have hsame : s.control s.ingress = s := by
    unfold Stream.control
    rw [← hcontrol]
  have hself := updateStream_self h.nodup hwaits.nodup h.find hfind hsame
  exact congrArg (fun t : Transport => ({ q with transport := t } : Reception)) hself

theorem Conn.Answers.control {c : Conn} (h : c.Answers) (ptr : ℕ) (bs : Bytes) :
    (c.updateAt ptr 0 (Stream.control bs)).Answers := by
  refine ⟨(updateAt_stream c).trans h.1, ?_⟩
  rw [updateAt_controlOpen (unseen_control bs)]
  exact h.2

theorem ControlMessage.encode_ne_nil (m : ControlMessage) : m.encode ≠ [] := by
  cases m <;> simp [encode, encodeTrackMessage]

theorem eq_nil_of_encoded {ms : List ControlMessage}
    (h : ms.flatMap ControlMessage.encode = []) : ms = [] := by
  cases ms with
  | nil => rfl
  | cons m ms =>
    rw [List.flatMap_cons] at h
    exact absurd (List.append_eq_nil_iff.mp h).1 m.encode_ne_nil

/-- What the messages under way look like in bytes, and what they say. -/
structure LinkInv (e : DaemonPair) (l : Link) (up down : List ControlMessage) (c d : Conn)
    (h : Turns TrackKey) : Prop where
  shaking : Shaking e l.client.transport l.server.transport l.handshakeComplete up down c d h
  client : ∃ bs, c.Waits bs ∧ bs ++ l.toClient = down.flatMap ControlMessage.encode
  server : (d.findStream 0 = none ∧ (d.streams.map (·.id)).Nodup ∧
      l.toServer = up.flatMap ControlMessage.encode) ∨
    ∃ bs, d.Waits bs ∧ bs ++ l.toServer = up.flatMap ControlMessage.encode
  clientDone : l.toClient = [] → down = []
  serverDone : l.toServer = [] → up = []

namespace LinkInv

variable {l l' : Link} {up down : List ControlMessage} {c d : Conn} {h : Turns TrackKey}
  {out : List Unit}

/-- Nothing was said yet. -/
theorem start (hl : l.Starts e) :
    LinkInv e l [] [] (onStreamOpen (Conn.zero e.clientPtr) 0 true) (Conn.zero e.serverPtr)
      Turns.start where
  shaking :=
    { client := hl.client
      server := hl.server
      clientLive := ⟨rfl, rfl, rfl⟩
      serverLive := ⟨rfl, Or.inr ⟨rfl, rfl⟩⟩
      turns := Turns.ordered_start 30 _ _
      serverTable := numbersNamed_empty
      clientTable := numbersNamed_empty
      down_eq := rfl
      up_eq := rfl
      down_ok := fun _ hm => absurd hm List.not_mem_nil
      up_ok := fun _ hm => absurd hm List.not_mem_nil
      handed := rfl
      guest := fun _ => ⟨rfl, fun _ hm => absurd hm List.not_mem_nil,
        fun _ hm => absurd hm List.not_mem_nil⟩
      approved := fun ha => absurd ha Bool.false_ne_true
      answered := fun ha => absurd ha Bool.false_ne_true
      asked := fun hg => absurd (hl.fresh.symm.trans hg) Bool.false_ne_true }
  client := ⟨[], ⟨List.nodup_singleton _, _, rfl, rfl, rfl⟩, hl.quiet.2⟩
  server := Or.inl ⟨rfl, List.nodup_nil, hl.quiet.1⟩
  clientDone _ := rfl
  serverDone _ := rfl

/-- More bytes behind those under way. -/
theorem server_append (hinv : LinkInv e l up down c d h) (more : List ControlMessage) :
    (d.findStream 0 = none ∧ (d.streams.map (·.id)).Nodup ∧
      l.toServer ++ more.flatMap ControlMessage.encode =
        (up ++ more).flatMap ControlMessage.encode) ∨
    ∃ bs, d.Waits bs ∧ bs ++ (l.toServer ++ more.flatMap ControlMessage.encode) =
      (up ++ more).flatMap ControlMessage.encode := by
  rw [List.flatMap_append]
  rcases hinv.server with ⟨hnone, hids, heq⟩ | ⟨bs, hwaits, heq⟩
  · exact Or.inl ⟨hnone, hids, by rw [heq]⟩
  · exact Or.inr ⟨bs, hwaits, by rw [← heq, List.append_assoc]⟩

theorem serverDone_append (hinv : LinkInv e l up down c d h) {more : List ControlMessage}
    (hnil : l.toServer ++ more.flatMap ControlMessage.encode = []) : up ++ more = [] := by
  obtain ⟨hquiet, hmore⟩ := List.append_eq_nil_iff.mp hnil
  rw [hinv.serverDone hquiet, eq_nil_of_encoded hmore]
  rfl

theorem client_append (hinv : LinkInv e l up down c d h) (more : List ControlMessage) :
    ∃ bs, c.Waits bs ∧ bs ++ (l.toClient ++ more.flatMap ControlMessage.encode) =
      (down ++ more).flatMap ControlMessage.encode := by
  obtain ⟨bs, hwaits, heq⟩ := hinv.client
  exact ⟨bs, hwaits, by rw [List.flatMap_append, ← heq, List.append_assoc]⟩

theorem clientDone_append (hinv : LinkInv e l up down c d h) {more : List ControlMessage}
    (hnil : l.toClient ++ more.flatMap ControlMessage.encode = []) : down ++ more = [] := by
  obtain ⟨hquiet, hmore⟩ := List.append_eq_nil_iff.mp hnil
  rw [hinv.clientDone hquiet, eq_nil_of_encoded hmore]
  rfl

/-- The client is connected. -/
theorem connected (hinv : LinkInv e l up down c d h)
    (hstep : linkStep lib e l .connected = some (l', out)) :
    LinkInv e l' (up ++ [.auth AUTH_TOKEN]) down c d h := by
  have hanswers := hinv.shaking.clientLive.2
  simp only [linkStep] at hstep
  split at hstep
  · exact absurd hstep (by simp)
  · have hdeliver : (deliver lib (daemonApp e.client false) l.client
        [.event e.clientPtr .connected]).1.transport =
          (l.client.transport.call lib (.sendAuth e.clientPtr AUTH_TOKEN)).1 ∧
        written e.clientPtr 0 (deliver lib (daemonApp e.client false) l.client
          [.event e.clientPtr .connected]).2 =
          ([ControlMessage.auth AUTH_TOKEN]).flatMap ControlMessage.encode := by
      unfold deliver
      dsimp only [deliver]
      rw [daemonApp_concat, List.append_nil]
      have hcalls : onTransportEvent e.client false e.clientPtr .connected =
          [.sendAuth e.clientPtr AUTH_TOKEN] := rfl
      rw [hcalls, calls_singleton]
      refine ⟨rfl, ?_⟩
      rw [List.flatMap_singleton, ← (hinv.shaking.client.sendAuth lib hanswers).2]
      rfl
    simp only [Option.some.injEq, Prod.mk.injEq] at hstep
    obtain ⟨rfl, -⟩ := hstep
    refine ⟨?_, hinv.client, ?_, hinv.clientDone, ?_⟩
    · dsimp only
      rw [hdeliver.1]
      exact hinv.shaking.greet lib
    · dsimp only
      rw [hdeliver.2]
      exact hinv.server_append [.auth AUTH_TOKEN]
    · dsimp only
      rw [hdeliver.2]
      exact hinv.serverDone_append

/-- The control stream reaches the server. -/
theorem openStream (hinv : LinkInv e l up down c d h)
    (hstep : linkStep lib e l .openStream = some (l', out)) :
    LinkInv e l' up down c (onStreamOpen d 0 true) h := by
  have hserver := hinv.shaking.server
  simp only [linkStep] at hstep
  split at hstep
  · exact absurd hstep (by simp)
  next hthere =>
  -- nothing of the stream has arrived yet
  have hnone : d.findStream 0 = none := by
    unfold Link.streamThere at hthere
    rw [hserver.find, Option.bind_some] at hthere
    simpa using hthere
  rw [hserver.find, Option.map_some] at hstep
  simp only [Option.some.injEq, Prod.mk.injEq] at hstep
  obtain ⟨rfl, -⟩ := hstep
  have hfound : (onStreamOpen d 0 true).findStream 0 = some ⟨0, true, false, 0, [], true⟩ := by
    unfold onStreamOpen Conn.findStream at *
    dsimp only
    rw [List.find?_append, hnone]
    rfl
  have hids : ((onStreamOpen d 0 true).streams.map (·.id)).Nodup := by
    have hold : (d.streams.map (·.id)).Nodup := by
      rcases hinv.server with ⟨-, hids, -⟩ | ⟨bs, hwaits, -⟩
      · exact hids
      · exact hwaits.nodup
    unfold onStreamOpen
    dsimp only
    rw [List.map_append, List.map_singleton, List.nodup_append]
    refine ⟨hold, List.nodup_singleton _, fun i hi j hj heq => ?_⟩
    obtain ⟨s, hs, rfl⟩ := List.mem_map.mp hi
    rw [List.mem_singleton.mp hj] at heq
    exact absurd (beq_iff_eq.mpr heq) (List.find?_eq_none.mp hnone s hs)
  have hanswers : (onStreamOpen d 0 true).Answers := by
    refine ⟨rfl, ?_⟩
    show (((onStreamOpen d 0 true).findStream 0).map (·.sendOpen)).getD false = true
    rw [hfound]
    rfl
  refine ⟨?_, hinv.client, Or.inr ⟨[], ⟨hids, _, hfound, rfl, rfl⟩, ?_⟩, hinv.clientDone,
    hinv.serverDone⟩
  · exact hinv.shaking.of_server (hserver.setConn hserver.ptr_eq) rfl rfl rfl (Or.inl hanswers)
  · rcases hinv.server with ⟨-, -, heq⟩ | ⟨bs, hwaits, -⟩
    · exact heq
    · obtain ⟨s, hfind, -⟩ := hwaits.find
      exact absurd (hnone.symm.trans hfind) (by simp)

/-- Bytes arrive at the server. -/
theorem atServer (hinv : LinkInv e l up down c d h) {n : ℕ} {io : ℕ → ControlIO}
    (hstep : linkStep lib e l (.atServer n io) = some (l', out)) :
    ∃ up' down' d' h', LinkInv e l' up' down' c d' h' := by
  have hserver := hinv.shaking.server
  simp only [linkStep] at hstep
  split at hstep
  case isFalse => exact absurd hstep (by simp)
  next hthere =>
  unfold Link.streamThere at hthere
  rw [hserver.find, Option.bind_some] at hthere
  obtain ⟨bs, hwaits, hbytes⟩ := hinv.server.resolve_left fun hnone => by
    rw [hnone.1] at hthere
    exact absurd hthere Bool.false_ne_true
  have hanswers : d.Answers := hinv.shaking.serverLive.2.resolve_right fun hnone => by
    rw [hnone.2] at hthere
    exact absurd hthere Bool.false_ne_true
  have hsplit : (bs ++ l.toServer.take n) ++ l.toServer.drop n =
      up.flatMap ControlMessage.encode := by
    rw [List.append_assoc, List.take_append_drop, hbytes]
  obtain ⟨up', more, d', h', hs, hanswers', hstreams, hrest, hdone, hwritten⟩ :=
    hinv.shaking.serverReads lib io hanswers hsplit
  have hreceive := onReceive_control lib io (daemonApp_spares e.server true e.serverPtr 0)
    hserver.nodup bs (l.toServer.take n)
  rw [hserver.control_self hwaits] at hreceive
  rw [hreceive] at hstep
  simp only [Option.some.injEq, Prod.mk.injEq] at hstep
  obtain ⟨rfl, -⟩ := hstep
  have hwaits' := hwaits.of_streams hstreams
  obtain ⟨hconn, hleft⟩ := hs.server.control hwaits' _
  refine ⟨up', down ++ more, _, h', ?_, ?_, Or.inr ⟨_, hleft, hrest⟩, ?_, hdone⟩
  · exact hs.of_server hconn (updateAt_closing d') (updateAt_authenticated d')
      (by rw [updateAt_subscriptions]) (Or.inl (hanswers'.control e.serverPtr _))
  · dsimp only
    rw [hwritten]
    exact hinv.client_append more
  · dsimp only
    rw [hwritten]
    exact hinv.clientDone_append

/-- Bytes arrive at the client. -/
theorem atClient (hinv : LinkInv e l up down c d h) {n : ℕ} {io : ℕ → ControlIO}
    (hstep : linkStep lib e l (.atClient n io) = some (l', out)) :
    ∃ up' down' c' h', LinkInv e l' up' down' c' d h' := by
  have hclient := hinv.shaking.client
  obtain ⟨bs, hwaits, hbytes⟩ := hinv.client
  have hsplit : (bs ++ l.toClient.take n) ++ l.toClient.drop n =
      down.flatMap ControlMessage.encode := by
    rw [List.append_assoc, List.take_append_drop, hbytes]
  obtain ⟨down', more, c', h', hs, hstreams, hrest, hdone, hwritten⟩ :=
    hinv.shaking.clientReads lib io hsplit
  have hreceive := onReceive_control lib io (daemonApp_spares e.client false e.clientPtr 0)
    hclient.nodup bs (l.toClient.take n)
  rw [hclient.control_self hwaits] at hreceive
  simp only [linkStep] at hstep
  rw [hreceive] at hstep
  simp only [Option.some.injEq, Prod.mk.injEq] at hstep
  obtain ⟨rfl, -⟩ := hstep
  have hwaits' := hwaits.of_streams hstreams
  obtain ⟨hconn, hleft⟩ := hs.client.control hwaits' _
  refine ⟨up ++ more, down', _, h', ?_, ⟨_, hleft, hrest⟩, ?_, hdone, ?_⟩
  · exact hs.of_client hconn (updateAt_closing c') (updateAt_authenticated c')
      (by rw [updateAt_subscriptions]) (hs.clientLive.2.control e.clientPtr _)
  · dsimp only
    rw [hwritten]
    exact hinv.server_append more
  · dsimp only
    rw [hwritten]
    exact hinv.serverDone_append

/-- Another peer makes the server announce its tracks, or gets an answer. -/
theorem otherPeer (hinv : LinkInv e l up down c d h) {conn : ℕ} {ev : TransportEvent}
    (hstep : linkStep lib e l (.otherPeer conn ev) = some (l', out)) :
    ∃ down' d' h', LinkInv e l' up down' c d' h' := by
  simp only [linkStep] at hstep
  split at hstep
  case isTrue => exact absurd hstep (by simp)
  next hne =>
  obtain ⟨more, d', h', hs, hstreams, hwritten⟩ := hinv.shaking.serverCalls lib hne ev
  have hdeliver : (deliver lib (daemonApp e.server true) l.server [.event conn ev]).1.transport =
      (l.server.transport.calls lib (onTransportEvent e.server true conn ev)).1 ∧
      written e.serverPtr 0 (deliver lib (daemonApp e.server true) l.server [.event conn ev]).2 =
        more.flatMap ControlMessage.encode := by
    rw [← hwritten]
    unfold deliver
    dsimp only [deliver]
    rw [daemonApp_concat, List.append_nil]
    exact ⟨rfl, rfl⟩
  simp only [Option.some.injEq, Prod.mk.injEq] at hstep
  obtain ⟨rfl, -⟩ := hstep
  refine ⟨down ++ more, d', h', ?_, ?_, ?_, ?_, hinv.serverDone⟩
  · dsimp only
    rw [hdeliver.1]
    exact hs
  · dsimp only
    rw [hdeliver.2]
    exact hinv.client_append more
  · dsimp only
    unfold Conn.findStream
    rw [hstreams]
    rcases hinv.server with hnone | ⟨bs, hwaits, heq⟩
    · exact Or.inl hnone
    · exact Or.inr ⟨bs, hwaits.of_streams hstreams, heq⟩
  · dsimp only
    rw [hdeliver.2]
    exact hinv.clientDone_append

/-- A connection with the same control channel. -/
theorem waits_of_control {c' : Conn} {bs : Bytes} (hwaits : c.Waits bs)
    (hcontrol : c'.control = c.control) (hids : (c'.streams.map (·.id)).Nodup) : c'.Waits bs := by
  have hfind : c'.findStream 0 = c.findStream 0 := congrArg ControlState.found hcontrol
  refine ⟨hids, ?_⟩
  rw [hfind]
  exact hwaits.find

theorem answers_of_control {c' : Conn} (hanswers : c.Answers) (hcontrol : c'.control = c.control) :
    c'.Answers := by
  have hstream : c'.stream = c.stream := congrArg ControlState.stream hcontrol
  have hfind : c'.findStream 0 = c.findStream 0 := congrArg ControlState.found hcontrol
  have hopen := hanswers.2
  refine ⟨hstream.trans hanswers.1, ?_⟩
  unfold Conn.controlOpen Conn.sendOpen at hopen ⊢
  rw [hstream]
  rw [hanswers.1] at hopen ⊢
  dsimp only at hopen ⊢
  rw [hfind]
  exact hopen

/-- What is beside the control channel of a connection. -/
theorem hasConn_beside {t t' : Transport} {isServer : Bool} {ptr : ℕ} {c : Conn}
    (hconn : t.HasConn isServer ptr c) (hbeside : t.Beside ptr t') :
    ∃ c', t'.HasConn isServer ptr c' ∧ c'.control = c.control ∧
      (c'.streams.map (·.id)).Nodup := by
  obtain ⟨hrole, hnodup, hsame, hids, hptrs⟩ := hbeside
  rw [hconn.find, Option.map_some] at hsame
  obtain ⟨c', hfind, hcontrol⟩ := Option.map_eq_some_iff.mp hsame
  rw [hfind] at hids
  refine ⟨c', ⟨hrole.trans hconn.role, hnodup, hfind, fun hclient => ?_⟩, hcontrol,
    of_decide_eq_true hids⟩
  have hlist := hptrs (hconn.role.trans hclient)
  unfold Transport.ptrs at hlist
  rw [hconn.only hclient, List.map_singleton] at hlist
  obtain ⟨x, hx, -⟩ := List.map_eq_singleton_iff.mp hlist
  have hmem := (Transport.findConn_eq_some hfind).1
  rw [hx] at hmem ⊢
  rw [List.mem_singleton.mp hmem]

/-- Each step of the link keeps the invariant. -/
theorem step (hinv : LinkInv e l up down c d h) {label : LinkLabel}
    (hstep : linkStep lib e l label = some (l', out)) :
    ∃ up' down' c' d' h', LinkInv e l' up' down' c' d' h' := by
  cases label with
  | connected => exact ⟨_, down, c, d, h, hinv.connected hstep⟩
  | openStream => exact ⟨up, down, c, _, h, hinv.openStream hstep⟩
  | atServer n io =>
    obtain ⟨up', down', d', h', hinv'⟩ := hinv.atServer hstep
    exact ⟨up', down', c, d', h', hinv'⟩
  | atClient n io =>
    obtain ⟨up', down', c', h', hinv'⟩ := hinv.atClient hstep
    exact ⟨up', down', c', d, h', hinv'⟩
  | otherPeer conn ev =>
    obtain ⟨down', d', h', hinv'⟩ := hinv.otherPeer hstep
    exact ⟨up, down', c, d', h', hinv'⟩
  | besideServer t =>
    simp only [linkStep] at hstep
    split at hstep
    case isFalse => exact absurd hstep (by simp)
    next hbeside =>
    simp only [Option.some.injEq, Prod.mk.injEq] at hstep
    obtain ⟨rfl, -⟩ := hstep
    obtain ⟨d', hconn, hcontrol, hids⟩ := hasConn_beside hinv.shaking.server hbeside
    -- a call beside the control stream changes nothing that the handshake looks at
    have hfind : d'.findStream 0 = d.findStream 0 := congrArg ControlState.found hcontrol
    have hstream : d'.stream = d.stream := congrArg ControlState.stream hcontrol
    have hanswers : d'.Answers ∨ (d'.stream = none ∧ d'.findStream 0 = none) := by
      rw [hfind, hstream]
      exact hinv.shaking.serverLive.2.imp_left fun ha => answers_of_control ha hcontrol
    refine ⟨up, down, c, d', h, ?_, hinv.client, ?_, hinv.clientDone, hinv.serverDone⟩
    · exact hinv.shaking.of_server hconn (congrArg ControlState.closing hcontrol)
        (congrArg ControlState.authenticated hcontrol)
        (congrArg ControlState.views hcontrol) hanswers
    · rcases hinv.server with ⟨hnone, -, heq⟩ | ⟨bs, hwaits, heq⟩
      · exact Or.inl ⟨hfind.trans hnone, hids, heq⟩
      · exact Or.inr ⟨bs, waits_of_control hwaits hcontrol hids, heq⟩
  | besideClient t =>
    simp only [linkStep] at hstep
    split at hstep
    case isFalse => exact absurd hstep (by simp)
    next hbeside =>
    simp only [Option.some.injEq, Prod.mk.injEq] at hstep
    obtain ⟨rfl, -⟩ := hstep
    obtain ⟨c', hconn, hcontrol, hids⟩ := hasConn_beside hinv.shaking.client hbeside
    obtain ⟨bs, hwaits, heq⟩ := hinv.client
    refine ⟨up, down, c', d, h, ?_, ⟨bs, waits_of_control hwaits hcontrol hids, heq⟩, hinv.server,
      hinv.clientDone, hinv.serverDone⟩
    exact hinv.shaking.of_client hconn (congrArg ControlState.closing hcontrol)
      (congrArg ControlState.authenticated hcontrol) (congrArg ControlState.views hcontrol)
      (answers_of_control hinv.shaking.clientLive.2 hcontrol)

/-- And so does a whole run. -/
theorem of_run (hstart : l.Starts e) {labels : List LinkLabel}
    (hrun : run (linkStep lib e) l labels = some (l', out)) :
    ∃ up down c d h, LinkInv e l' up down c d h := by
  refine run_induction (linkStep lib e)
    (P := fun _ l _ => ∃ up down c d h, LinkInv e l up down c d h)
    ⟨[], [], _, _, _, start hstart⟩ ?_ labels l' out hrun
  rintro _ l _ _ l' _ _ ⟨up, down, c, d, h, hinv⟩ hstep
  obtain ⟨up', down', c', d', h', hinv'⟩ := hinv.step hstep
  exact ⟨up', down', c', d', h', hinv'⟩

end LinkInv

/-! ## Agreement -/

/-- A track is known at an end under this alias. -/
def Conn.Knows (c : Conn) (track : MoqTrackId) (trackAlias : UInt8) : Prop :=
  findAliasByTrack c.subscriptions track = some trackAlias ∧
    ∀ out, (findSubscriptionByAlias c.subscriptions trackAlias out).map MoqTrackId.key =
      some track.key

/-- A track that is numbered is known under its number. -/
theorem NumbersNamed.knows {c : Conn} {ks : List TrackKey} (h : NumbersNamed c.subscriptions ks)
    (hks : ks.Nodup) (hlen : ks.length ≤ 30) {track : MoqTrackId} (hnamed : track.named = true)
    (hkey : track.key ∈ ks) : c.Knows track (UInt8.ofNat (8 + ks.idxOf track.key)) := by
  have hlt := List.idxOf_lt_length_of_mem hkey
  have hnat : (UInt8.ofNat (8 + ks.idxOf track.key)).toNat = 8 + ks.idxOf track.key :=
    toNat_ofNat_byte (by omega)
  have halias : 8 ≤ UInt8.ofNat (8 + ks.idxOf track.key) := by
    rw [UInt8.le_iff_toNat_le, hnat]
    exact Nat.le_add_right 8 _
  constructor
  · rw [h.findAliasByTrack hnamed, if_pos hkey]
  · intro out
    rw [h.findSubscriptionByAlias hks hlen halias, hnat, Nat.add_sub_cancel_left,
      List.getElem?_idxOf hkey]

/-- The connections of two daemons stay, no alias of a named track means another track at the other
end, and the server approves first. Once the client was connected and all has arrived, both have
approved, and each named track of either daemon is known at both ends under one alias. -/
theorem daemons_agree (lib : FecLib) {e : DaemonPair} {l l' : Link} (hstart : l.Starts e)
    {labels : List LinkLabel} {out : List Unit}
    (hrun : run (linkStep lib e) l labels = some (l', out)) :
    ∃ c d, l'.client.transport.findConn e.clientPtr = some c ∧
      l'.server.transport.findConn e.serverPtr = some d ∧
      c.closing = false ∧ d.closing = false ∧
      (c.authenticated = true → d.authenticated = true) ∧
      (∀ trackAlias, 8 ≤ trackAlias → ∀ o o' t t',
        findSubscriptionByAlias c.subscriptions trackAlias o = some t →
        findSubscriptionByAlias d.subscriptions trackAlias o' = some t' → t.key = t'.key) ∧
      (l'.handshakeComplete = true → l'.toServer = [] → l'.toClient = [] →
        c.authenticated = true ∧ d.authenticated = true ∧
        ∀ track ∈ e.client.tracks ++ e.server.tracks, track.named = true →
          ∃ trackAlias, c.Knows track trackAlias ∧ d.Knows track trackAlias) := by
  obtain ⟨up, down, c, d, h, hinv⟩ := LinkInv.of_run hstart hrun
  have hs := hinv.shaking
  have hfirst := hs.turns.agree.nodup_left
  have hsecond := hs.turns.agree.nodup_right
  refine ⟨c, d, hs.client.find, hs.server.find, hs.clientLive.1, hs.serverLive.1, ?_, ?_, ?_⟩
  · intro hclient
    by_contra hnot
    have hguest := (hs.guest (by simpa using hnot)).1
    exact absurd (hclient.symm.trans hguest) (by decide)
  · intro trackAlias halias o o' t t' ht ht'
    -- an alias is the position of a track in one numbering, which both ends share
    have hc := hs.clientTable.findSubscriptionByAlias hsecond hs.length_second halias o
    have hd := hs.serverTable.findSubscriptionByAlias hfirst hs.length_first halias o'
    rw [ht, Option.map_some] at hc
    rw [ht', Option.map_some] at hd
    exact (hs.turns.getElem?_eq hd.symm hc.symm).symm
  · intro hgreeted hup hdown
    have hupNil := hinv.serverDone hup
    have hdownNil := hinv.clientDone hdown
    have happroved : d.authenticated = true := by
      rcases hs.asked hgreeted with ha | hmem
      · exact ha
      · rw [hupNil] at hmem
        exact absurd hmem List.not_mem_nil
    obtain ⟨hserver, hresponse⟩ := hs.approved happroved
    have hclient : c.authenticated = true := by
      rcases hresponse with ha | hmem
      · exact ha
      · rw [hdownNil] at hmem
        exact absurd hmem List.not_mem_nil
    refine ⟨hclient, happroved, fun track htrack hnamed => ?_⟩
    -- nothing is under way, so both ends know the same tracks
    have hsame : h.first = h.second := by
      refine hs.turns.agree.eq_of_quiet ?_ ?_
      · have hto := hs.down_eq
        rw [hdownNil] at hto
        show h.toSecond.reduceOption = []
        rw [← hto]
        rfl
      · have hto := hs.up_eq
        rw [hupNil, List.filterMap_nil, eq_comm, List.map_eq_nil_iff] at hto
        exact hto
    have hkey : track.key ∈ h.first := by
      have hnamedKeys : ∀ {tracks : List MoqTrackId}, track ∈ tracks →
        track.key ∈ namedKeys tracks :=
        fun hmem => List.mem_map_of_mem (List.mem_filter.mpr ⟨hmem, hnamed⟩)
      rcases List.mem_append.mp htrack with hmem | hmem
      · rw [hsame]
        exact hs.answered hclient (hnamedKeys hmem)
      · exact hserver (hnamedKeys hmem)
    refine ⟨_, ?_, hs.serverTable.knows hfirst hs.length_first hnamed hkey⟩
    rw [hsame] at hkey ⊢
    exact hs.clientTable.knows hsecond hs.length_second hnamed hkey

/-- Two daemons without arguments. -/
def defaultDaemons : DaemonPair := ⟨DaemonConfig.ofArguments [], DaemonConfig.ofArguments [], 1, 2⟩

/-- The client has opened the control stream, the server has accepted. -/
def acceptedLink : Link where
  client :=
    ⟨{ Transport.init false [] 1280 with conns := [onStreamOpen (Conn.zero 1) 0 true] }, [], 0⟩
  server := ⟨{ Transport.init true [] 1280 with conns := [Conn.zero 2] }, [], 0⟩
  toServer := []
  toClient := []
  handshakeComplete := false

theorem starts_acceptedLink : acceptedLink.Starts defaultDaemons where
  client := ⟨rfl, List.nodup_singleton _, rfl, fun _ => rfl⟩
  server := ⟨rfl, List.nodup_singleton _, rfl, fun h => absurd h (by decide)⟩
  quiet := ⟨rfl, rfl⟩
  fresh := rfl

/-- The token comes in two parts, and so does what the server answers. -/
def handshakeLabels : List LinkLabel :=
  let io := fun _ => ControlIO.still
  [.connected, .openStream, .atServer 7 io, .atServer 12 io, .atClient 25 io, .atClient 15 io,
    .atServer 38 io]

theorem daemons_agree_defaults :
    ∃ r, run (linkStep FecLib.unavailable defaultDaemons) acceptedLink handshakeLabels = some r ∧
      ∃ c d, r.1.client.transport.findConn 1 = some c ∧ r.1.server.transport.findConn 2 = some d ∧
        c.authenticated = true ∧ d.authenticated = true ∧
        ∀ track ∈ defaultDaemons.client.tracks, track.named = true →
          ∃ trackAlias, c.Knows track trackAlias ∧ d.Knows track trackAlias := by
  have hquiet : ((run (linkStep FecLib.unavailable defaultDaemons) acceptedLink
      handshakeLabels).any fun r =>
        r.1.handshakeComplete && r.1.toServer.isEmpty && r.1.toClient.isEmpty) = true := by
    decide +kernel
  cases hrun : run (linkStep FecLib.unavailable defaultDaemons) acceptedLink handshakeLabels with
  | none =>
    rw [hrun] at hquiet
    exact absurd hquiet Bool.false_ne_true
  | some r =>
  rw [hrun, Option.any_some, Bool.and_eq_true, Bool.and_eq_true, List.isEmpty_iff,
    List.isEmpty_iff] at hquiet
  obtain ⟨⟨hgreeted, hup⟩, hdown⟩ := hquiet
  obtain ⟨c, d, hc, hd, -, -, -, -, hall⟩ :=
    daemons_agree FecLib.unavailable starts_acceptedLink hrun
  obtain ⟨hclient, hserver, hknown⟩ := hall hgreeted hup hdown
  exact ⟨r, rfl, c, d, hc, hd, hclient, hserver,
    fun track htrack hnamed => hknown track (List.mem_append_left _ htrack) hnamed⟩

end Bishlink
