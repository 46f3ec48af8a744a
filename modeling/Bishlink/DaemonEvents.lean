import Bishlink.Callback
import Bishlink.TrackNumbers
import Bishlink.TrackStreams

/-!
# The daemon as an application

What the daemon does when a transport tells it of a connection: `on_transport_event` with
`subscribe_to_tracks`, and the arguments of `main` that these read. A client sends the token when it
is connected; a server that gets the token subscribes to its tracks and then approves; both
subscribe when they are told that they are authenticated.

The second part says what the calls of a daemon make of one connection, and what they write to its
control stream.
-/

namespace Bishlink

open SlotTable Numbering

/-- A C string of the source. -/
def cString (s : String) : Bytes := s.toList.map fun c => UInt8.ofNat c.toNat

/-! ## Arguments -/

/-- `MAX_TRANSPORTS`. -/
def MAX_TRANSPORTS : ℕ := 16

/-- How many tracks `main` takes. -/
def MAX_SUBSCRIBE_TRACKS : ℕ := 15

/-- `peers[]`, and `subscribe_tracks[]` and `use_reliable` of `daemon_ctx_t`. -/
structure DaemonConfig where
  peers : List Bytes
  subscribeTracks : List TrackName
  useReliable : Bool
  length_peers : peers.length ≤ MAX_TRANSPORTS - 1
  length_tracks : subscribeTracks.length ≤ MAX_SUBSCRIBE_TRACKS

namespace DaemonConfig

def empty : DaemonConfig := ⟨[], [], false, Nat.zero_le _, Nat.zero_le _⟩

/-- `--peer`, with room for it. -/
def addPeer (cfg : DaemonConfig) (peer : Bytes) (h : cfg.peers.length < MAX_TRANSPORTS - 1) :
    DaemonConfig :=
  { cfg with
    peers := cfg.peers ++ [peer]
    length_peers := by rw [List.length_append, List.length_singleton]; omega }

/-- `--track`, with room for it. -/
def addTrack (cfg : DaemonConfig) (name : Bytes)
    (h : cfg.subscribeTracks.length < MAX_SUBSCRIBE_TRACKS) : DaemonConfig :=
  { cfg with
    subscribeTracks := cfg.subscribeTracks ++ [TrackName.ofBuffer name]
    length_tracks := by rw [List.length_append, List.length_singleton]; omega }

/-- The options with a value that the callbacks do not read. -/
def otherOptions : List Bytes :=
  [cString "--listen", cString "--bind", cString "--cert", cString "--key", cString "--ca",
    cString "--socket", cString "-s"]

/-- The loop over `argv`. A value for which there is no room is looked at again as an option. -/
def parseArguments : List Bytes → DaemonConfig → DaemonConfig
  | [], cfg => cfg
  | [arg], cfg => if arg = cString "--reliable" then { cfg with useReliable := true } else cfg
  | arg :: value :: rest, cfg =>
    if arg ∈ otherOptions then parseArguments rest cfg
    else if arg = cString "--peer" then
      if h : cfg.peers.length < MAX_TRANSPORTS - 1 then parseArguments rest (cfg.addPeer value h)
      else parseArguments (value :: rest) cfg
    else if arg = cString "--track" then
      if h : cfg.subscribeTracks.length < MAX_SUBSCRIBE_TRACKS then
        parseArguments rest (cfg.addTrack value h)
      else parseArguments (value :: rest) cfg
    else if arg = cString "--reliable" then
      parseArguments (value :: rest) { cfg with useReliable := true }
    else parseArguments (value :: rest) cfg

/-- The tracks of a daemon without `--track`. -/
def defaultTracks : List TrackName :=
  [TrackName.ofBuffer (cString "bishnc/default"), TrackName.ofBuffer (cString "tund/tun0"),
    TrackName.empty]

/-- What `main` makes of its arguments. -/
def ofArguments (args : List Bytes) : DaemonConfig :=
  let cfg := parseArguments args empty
  if cfg.subscribeTracks = [] then
    { cfg with subscribeTracks := defaultTracks, length_tracks := by decide }
  else cfg

/-- `t_data` of `subscribe_to_tracks`. -/
def track (cfg : DaemonConfig) (name : TrackName) : MoqTrackId :=
  ⟨MOQ_TRACK_DATA, if cfg.useReliable then MOQ_TRACK_FLAG_RELIABLE else MOQ_TRACK_FLAG_FEC_ENABLED,
    name⟩

/-- The tracks of the calls of `subscribe_to_tracks`. -/
def tracks (cfg : DaemonConfig) : List MoqTrackId := cfg.subscribeTracks.map cfg.track

end DaemonConfig

/-! ## Events -/

/-- The token of `transport_send_auth`. -/
def AUTH_TOKEN : Bytes := cString "secret_token_123"

/-- `subscribe_to_tracks`. -/
def subscribeToTracks (cfg : DaemonConfig) : List Call := cfg.tracks.map .subscribe

/-- The calls of the transport that `on_transport_event` makes; objects go to the helpers. -/
def onTransportEvent (cfg : DaemonConfig) (isServer : Bool) (conn : ℕ) :
    TransportEvent → List Call
  | .connected => if isServer then [] else [.sendAuth conn AUTH_TOKEN]
  | .auth token =>
    if isServer then
      if token = AUTH_TOKEN then subscribeToTracks cfg ++ [.respondAuth conn true]
      else [.respondAuth conn false]
    else []
  | .authComplete success => if success then subscribeToTracks cfg else []
  | _ => []

/-- The daemon as the application of a transport. -/
def daemonApp (cfg : DaemonConfig) (isServer : Bool) : Application := fun seen =>
  match seen.getLast? with
  | none => []
  | some (conn, ev) => onTransportEvent cfg isServer conn ev

theorem daemonApp_concat (cfg : DaemonConfig) (isServer : Bool) (seen : List (ℕ × TransportEvent))
    (conn : ℕ) (ev : TransportEvent) :
    daemonApp cfg isServer (seen ++ [(conn, ev)]) = onTransportEvent cfg isServer conn ev := by
  rw [daemonApp, List.getLast?_concat]

/-- The daemon publishes nothing in the callback. -/
theorem daemonApp_spares (cfg : DaemonConfig) (isServer : Bool) (conn sid : ℕ) :
    ∀ seen, ∀ call ∈ daemonApp cfg isServer seen, call.Spares conn sid := by
  have hsubscribe : ∀ call ∈ subscribeToTracks cfg, call.Spares conn sid := by
    intro call hcall
    obtain ⟨track, -, rfl⟩ := List.mem_map.mp hcall
    trivial
  intro seen call hcall
  unfold daemonApp at hcall
  split at hcall
  · exact absurd hcall List.not_mem_nil
  · unfold onTransportEvent at hcall
    split at hcall
    · split at hcall
      · exact absurd hcall List.not_mem_nil
      · rw [List.mem_singleton.mp hcall]
        trivial
    · split at hcall
      · split at hcall
        · rcases List.mem_append.mp hcall with hcall | hcall
          · exact hsubscribe call hcall
          · rw [List.mem_singleton.mp hcall]
            trivial
        · rw [List.mem_singleton.mp hcall]
          trivial
      · exact absurd hcall List.not_mem_nil
    · split at hcall
      · exact hsubscribe call hcall
      · exact absurd hcall List.not_mem_nil
    · exact absurd hcall List.not_mem_nil

/-! ## What the calls do to a connection -/

/-- The connection is there under its pointer; a client has no other one. -/
structure Transport.HasConn (t : Transport) (isServer : Bool) (ptr : ℕ) (c : Conn) : Prop where
  role : t.isServer = isServer
  nodup : t.ptrs.Nodup
  find : t.findConn ptr = some c
  only : isServer = false → t.conns = [c]

/-- The control stream can be written to; its id is 0. -/
def Conn.Answers (c : Conn) : Prop := c.stream = some 0 ∧ c.controlOpen = true

/-- Subscribing to tracks one after the other: the table, and the messages. -/
def subscribeAll : Subscriptions → List MoqTrackId → Subscriptions × List ControlMessage
  | s, [] => (s, [])
  | s, track :: tracks =>
    let r := subscribeAll (subscribeTable s track) tracks
    (r.1, .subscribe (subscribeAlias s track) track :: r.2)

section Calls

variable {lib : FecLib} {t : Transport} {isServer : Bool} {ptr : ℕ} {c : Conn}

theorem Transport.HasConn.ptr_eq (h : t.HasConn isServer ptr c) : c.ptr = ptr :=
  (Transport.findConn_eq_some h.find).2

theorem Transport.HasConn.setConn (h : t.HasConn isServer ptr c) {c' : Conn} (hptr : c'.ptr = ptr) :
    (t.setConn c').HasConn isServer ptr c' := by
  have hself := h.ptr_eq
  refine ⟨h.role, (ptrs_setConn t c').symm ▸ h.nodup, ?_, fun hclient => ?_⟩
  · have hfind : t.findConn c'.ptr = some c := hptr.symm ▸ h.find
    exact hptr ▸ Transport.findConn_setConn hfind
  · unfold Transport.setConn
    rw [h.only hclient, List.map_singleton, if_pos (hself.trans hptr.symm)]

/-- A table and an approval do not open or close the control stream. -/
theorem Conn.Answers.of_streams {c' : Conn} (h : c.Answers) (hstream : c'.stream = c.stream)
    (hstreams : c'.streams = c.streams) : c'.Answers := by
  refine ⟨hstream.trans h.1, ?_⟩
  have hopen := h.2
  unfold Conn.controlOpen Conn.sendOpen Conn.findStream at hopen ⊢
  rw [hstream, hstreams]
  exact hopen

theorem written_writeControl (h : c.stream = some 0) (bytes : Bytes) :
    written c.ptr 0 (c.writeControl bytes) = bytes := by
  simp [Conn.writeControl, h, written]

/-- A write to the control stream is about the connection. -/
theorem conn_writeControl {bytes : Bytes} {e : Effect} (he : e ∈ c.writeControl bytes) :
    e.conn = c.ptr := by
  unfold Conn.writeControl at he
  split at he
  · exact absurd he List.not_mem_nil
  · rw [List.mem_singleton.mp he]
    rfl

theorem conn_subscribeConn {track : MoqTrackId} {e : Effect} (he : e ∈ (subscribeConn c track).2) :
    e.conn = c.ptr := by
  rcases List.mem_append.mp he with he | he
  · exact conn_writeControl he
  · split at he
    · exact conn_writeControl he
    · exact absurd he List.not_mem_nil

theorem written_subscribe (h : c.stream = some 0) (track : MoqTrackId) (trackAlias : UInt8) :
    written c.ptr 0 (writeTrackMessage c 0x01 trackAlias track) =
      (ControlMessage.subscribe trackAlias track).encode := by
  rw [writeTrackMessage, written_append, written_writeControl h, ControlMessage.encode,
    encodeTrackMessage]
  by_cases hname : 0 < track.name.bytes.length
  · rw [if_pos hname, written_writeControl h]
  · have hnil : track.name.bytes = [] := List.eq_nil_of_length_eq_zero (by omega)
    rw [if_neg hname, hnil]
    rfl

/-- `transport_subscribe`, seen from one connection. -/
theorem Transport.HasConn.subscribe (h : t.HasConn isServer ptr c) (lib : FecLib)
    (track : MoqTrackId) :
    (c.Answers → (t.call lib (.subscribe track)).1.HasConn isServer ptr (subscribeConn c track).1 ∧
      written ptr 0 (t.call lib (.subscribe track)).2 =
        (ControlMessage.subscribe (subscribeAlias c.subscriptions track) track).encode) ∧
    (c.controlOpen = false → (t.call lib (.subscribe track)).1.HasConn isServer ptr c ∧
      written ptr 0 (t.call lib (.subscribe track)).2 = []) := by
  have hcall : t.call lib (.subscribe track) = (transportSubscribe t track).2 := rfl
  obtain ⟨hmem, hptr⟩ := Transport.findConn_eq_some h.find
  have hmessage : c.Answers → written ptr 0 (subscribeConn c track).2 =
      (ControlMessage.subscribe (subscribeAlias c.subscriptions track) track).encode := by
    intro hopen
    rw [← hptr]
    exact written_subscribe hopen.1 track _
  rw [hcall]
  unfold transportSubscribe
  cases hserver : isServer with
  -- a client has this one connection
  | false =>
    have hrole : t.isServer = false := h.role.trans hserver
    rw [if_neg (by rw [hrole]; exact Bool.false_ne_true), h.only hserver]
    dsimp only
    constructor
    · intro hopen
      rw [if_pos hopen.2]
      refine ⟨⟨hrole, List.nodup_singleton _, ?_, fun _ => rfl⟩, hmessage hopen⟩
      exact List.find?_cons_of_pos (beq_iff_eq.mpr hptr)
    · intro hclosed
      rw [if_neg (by rw [hclosed]; exact Bool.false_ne_true)]
      exact ⟨hserver ▸ h, rfl⟩
  | true =>
    have hrole : t.isServer = true := h.role.trans hserver
    rw [if_pos hrole]
    dsimp only
    -- what the loop makes of each connection
    generalize hg : (fun c : Conn =>
      if c.controlOpen = true then subscribeConn c track else (c, [])) = g
    have hgptr : ∀ x, (g x).1.ptr = x.ptr := by
      intro x
      rw [← hg]
      dsimp only
      split <;> rfl
    have hgconn : ∀ x ∈ t.conns, ∀ e ∈ (g x).2, e.conn = x.ptr := by
      intro x _ e he
      rw [← hg] at he
      dsimp only at he
      split at he
      · exact conn_subscribeConn he
      · exact absurd he List.not_mem_nil
    have hptrs : ((t.conns.map g).map Prod.fst).map (·.ptr) = t.ptrs := by
      rw [List.map_map, List.map_map]
      exact List.map_congr_left fun x _ => hgptr x
    have hfind : ((t.conns.map g).map Prod.fst).find? (·.ptr == ptr) = some (g c).1 := by
      have hsame : (fun x : Conn => x.ptr == ptr) ∘ (Prod.fst ∘ g) = fun x => x.ptr == ptr := by
        funext x
        exact congrArg (· == ptr) (hgptr x)
      rw [List.map_map, List.find?_map, hsame]
      exact congrArg (Option.map (Prod.fst ∘ g)) h.find
    have hwritten : written ptr 0 ((t.conns.map g).flatMap Prod.snd) = written ptr 0 (g c).2 := by
      rw [List.flatMap_map]
      exact written_flatMap 0 hgconn h.nodup hmem hptr
    have hserves : ({ t with conns := (t.conns.map g).map Prod.fst } : Transport).HasConn true ptr
        (g c).1 := by
      refine ⟨hrole, ?_, hfind, fun hfalse => absurd hfalse (by decide)⟩
      show (((t.conns.map g).map Prod.fst).map (·.ptr)).Nodup
      rw [hptrs]
      exact h.nodup
    constructor
    · intro hopen
      have hgc : g c = subscribeConn c track := by
        rw [← hg]
        dsimp only
        rw [if_pos hopen.2]
      rw [hgc] at hserves
      rw [hwritten, hgc]
      exact ⟨hserves, hmessage hopen⟩
    · intro hclosed
      have hgc : g c = (c, []) := by
        rw [← hg]
        dsimp only
        rw [if_neg (by rw [hclosed]; exact Bool.false_ne_true)]
      rw [hgc] at hserves
      rw [hwritten, hgc]
      exact ⟨hserves, rfl⟩

/-- Subscribing to many tracks. -/
theorem Transport.HasConn.subscribeTracks (h : t.HasConn isServer ptr c) (lib : FecLib)
    (tracks : List MoqTrackId) :
    (c.Answers →
      (t.calls lib (tracks.map .subscribe)).1.HasConn isServer ptr
        { c with subscriptions := (subscribeAll c.subscriptions tracks).1 } ∧
      written ptr 0 (t.calls lib (tracks.map .subscribe)).2 =
        (subscribeAll c.subscriptions tracks).2.flatMap ControlMessage.encode) ∧
    (c.controlOpen = false → (t.calls lib (tracks.map .subscribe)).1.HasConn isServer ptr c ∧
      written ptr 0 (t.calls lib (tracks.map .subscribe)).2 = []) := by
  induction tracks generalizing t c with
  | nil => exact ⟨fun _ => ⟨h, rfl⟩, fun _ => ⟨h, rfl⟩⟩
  | cons track tracks ih =>
    obtain ⟨hopen, hclosed⟩ := h.subscribe lib track
    rw [List.map_cons, Transport.calls]
    dsimp only
    rw [written_append]
    constructor
    · intro hanswers
      obtain ⟨hconn, hmessage⟩ := hopen hanswers
      obtain ⟨hall, hmessages⟩ := (ih hconn).1 (hanswers.of_streams rfl rfl)
      refine ⟨hall, ?_⟩
      rw [hmessage, hmessages]
      rfl
    · intro hshut
      obtain ⟨hconn, hnothing⟩ := hclosed hshut
      obtain ⟨hall, hnothing'⟩ := (ih hconn).2 hshut
      refine ⟨hall, ?_⟩
      rw [hnothing, hnothing']
      rfl

/-- Calls are made one after the other. -/
theorem calls_append (lib : FecLib) (t : Transport) (calls calls' : List Call) :
    t.calls lib (calls ++ calls') =
      (((t.calls lib calls).1.calls lib calls').1,
        (t.calls lib calls).2 ++ ((t.calls lib calls).1.calls lib calls').2) := by
  induction calls generalizing t with
  | nil => rfl
  | cons call calls ih =>
    rw [List.cons_append, Transport.calls, Transport.calls]
    dsimp only
    rw [ih, List.append_assoc]

theorem calls_singleton (lib : FecLib) (t : Transport) (call : Call) :
    t.calls lib [call] = t.call lib call := by
  show ((t.call lib call).1, (t.call lib call).2 ++ []) = _
  rw [List.append_nil]

theorem call_respondAuth (lib : FecLib) (h : t.findConn ptr = some c) (success : Bool) :
    t.call lib (.respondAuth ptr success) =
      (t.setConn (transportRespondAuth c success).2.1, (transportRespondAuth c success).2.2) := by
  show (transportStep lib t (.conn ptr (.respondAuth success))).getD (t, []) = _
  simp only [transportStep, h, connStep, Option.getD_some]

theorem call_sendAuth (lib : FecLib) (h : t.findConn ptr = some c) (token : Bytes) :
    t.call lib (.sendAuth ptr token) = (t.setConn c, (transportSendAuth c token).2) := by
  show (transportStep lib t (.conn ptr (.sendAuth token))).getD (t, []) = _
  simp only [transportStep, h, connStep, Option.getD_some]

/-- `transport_respond_auth` approves the connection. -/
theorem Transport.HasConn.approve (h : t.HasConn isServer ptr c) (lib : FecLib)
    (hanswers : c.Answers) :
    (t.call lib (.respondAuth ptr true)).1.HasConn isServer ptr { c with authenticated := true } ∧
      written ptr 0 (t.call lib (.respondAuth ptr true)).2 =
        (ControlMessage.authResponse 1).encode := by
  have hrespond : (transportRespondAuth c true).2 =
      ({ c with authenticated := true }, c.writeControl [0x05, 1]) := by
    unfold transportRespondAuth
    rw [if_neg (fun hnot => hnot hanswers.2)]
    rfl
  rw [call_respondAuth lib h.find, hrespond]
  refine ⟨h.setConn h.ptr_eq, ?_⟩
  dsimp only
  rw [← h.ptr_eq, written_writeControl hanswers.1]
  rfl

/-- What `transport_respond_auth` does is about its connection. -/
theorem transportRespondAuth_conn (c : Conn) (success : Bool) :
    (transportRespondAuth c success).2.1.ptr = c.ptr ∧
      ∀ e ∈ (transportRespondAuth c success).2.2, e.conn = c.ptr := by
  unfold transportRespondAuth
  split
  · exact ⟨rfl, fun e he => absurd he List.not_mem_nil⟩
  · dsimp only
    split
    · exact ⟨rfl, fun e he => conn_writeControl he⟩
    · refine ⟨rfl, fun e he => ?_⟩
      rcases List.mem_append.mp he with he | he
      · exact conn_writeControl he
      · rw [List.mem_singleton.mp he]
        rfl

/-- A connection is found as before when another one is written back. -/
theorem findConn_setConn_of_ne (t : Transport) {c' : Conn} (hne : c'.ptr ≠ ptr) :
    (t.setConn c').findConn ptr = t.findConn ptr := by
  unfold Transport.findConn Transport.setConn
  induction t.conns with
  | nil => rfl
  | cons x xs ih =>
    rw [List.map_cons]
    by_cases hx : x.ptr = c'.ptr
    · have hnot : ∀ y : Conn, y.ptr = c'.ptr → ¬(y.ptr == ptr) = true := by
        intro y hy
        rw [beq_iff_eq, hy]
        exact hne
      rw [if_pos hx, List.find?_cons_of_neg (p := fun y : Conn => y.ptr == ptr) (hnot c' rfl),
        List.find?_cons_of_neg (p := fun y : Conn => y.ptr == ptr) (hnot x hx)]
      exact ih
    · rw [if_neg hx, List.find?_cons, List.find?_cons]
      split
      · rfl
      · exact ih

/-- The answer to another peer. -/
theorem Transport.HasConn.respond_other (h : t.HasConn true ptr c) (lib : FecLib) {other : ℕ}
    (hne : other ≠ ptr) (success : Bool) :
    (t.call lib (.respondAuth other success)).1.HasConn true ptr c ∧
      written ptr 0 (t.call lib (.respondAuth other success)).2 = [] := by
  cases hfind : t.findConn other with
  | none =>
    have hcall : t.call lib (.respondAuth other success) = (t, []) := by
      show (transportStep lib t (.conn other (.respondAuth success))).getD (t, []) = _
      simp only [transportStep, hfind, Option.getD_none]
    rw [hcall]
    exact ⟨h, rfl⟩
  | some c' =>
    have hptr := (Transport.findConn_eq_some hfind).2
    obtain ⟨hkept, heffects⟩ := transportRespondAuth_conn c' success
    rw [hptr] at hkept heffects
    rw [call_respondAuth lib hfind]
    refine ⟨⟨h.role, ?_, ?_, fun hclient => absurd hclient (by decide)⟩, ?_⟩
    · rw [ptrs_setConn]
      exact h.nodup
    · rw [findConn_setConn_of_ne t (by rw [hkept]; exact hne)]
      exact h.find
    · exact written_of_ne 0 fun e he heq => hne ((heffects e he).symm.trans heq)

/-- `transport_send_auth`. -/
theorem Transport.HasConn.sendAuth (h : t.HasConn isServer ptr c) (lib : FecLib)
    (hanswers : c.Answers) :
    (t.call lib (.sendAuth ptr AUTH_TOKEN)).1.HasConn isServer ptr c ∧
      written ptr 0 (t.call lib (.sendAuth ptr AUTH_TOKEN)).2 =
        (ControlMessage.auth AUTH_TOKEN).encode := by
  rw [call_sendAuth lib h.find]
  refine ⟨h.setConn h.ptr_eq, ?_⟩
  unfold transportSendAuth
  rw [if_neg (fun hnot => hnot hanswers.2), if_neg (by decide), if_pos (by decide)]
  dsimp only
  rw [← h.ptr_eq, written_append, written_writeControl hanswers.1, written_writeControl hanswers.1]
  rfl

end Calls

end Bishlink
