import Bishlink.ControlMessage

/-!
# Sending control messages

The calls that write to the control stream: `transport_subscribe`,
`transport_request_keyframe`, `transport_send_unicast`, `transport_send_auth`,
`transport_respond_auth` and `send_nack`. Each is refused when the control stream is not
there or its send side is closed.
-/

namespace Bishlink

open ByteCodec

/-- `conn->stream && quicly_sendstate_is_open(&conn->stream->sendstate)`. -/
def Conn.controlOpen (c : Conn) : Bool := c.sendOpen c.stream

/-- `send_nack`. -/
def sendNack (c : Conn) (trackAlias : UInt8) (groupId objectId : UInt32) (missing : List ℕ) :
    List Effect :=
  if c.controlOpen then
    c.writeControl
      ([0x08, trackAlias] ++ toBE 4 groupId.toNat ++ toBE 4 objectId.toNat ++
        toBE 2 missing.length ++ missing.flatMap fun i => toBE 2 i)
  else []

/-- The track messages of the API: a five byte header, then the name if it is not empty. -/
def writeTrackMessage (c : Conn) (type trackAlias : UInt8) (trackId : MoqTrackId) :
    List Effect :=
  c.writeControl
      [type, trackAlias, trackId.type, trackId.flags, UInt8.ofNat trackId.name.bytes.length] ++
    if 0 < trackId.name.bytes.length then c.writeControl trackId.name.bytes else []

/-- The alias `transport_subscribe` sends for a track: the one in the table, or for a track
that is not there its type when it is unnamed and else the next alias, cut to a byte. -/
def subscribeAlias (s : Subscriptions) (trackId : MoqTrackId) : UInt8 :=
  match findAliasByTrack s trackId with
  | some trackAlias => trackAlias
  | none => if trackId.named then UInt8.ofNat (nextAlias s) else trackId.type

/-- The table after `transport_subscribe`: a track that is not there is added. -/
def subscribeTable (s : Subscriptions) (trackId : MoqTrackId) : Subscriptions :=
  if (findAliasByTrack s trackId).isNone then
    addSubscription s trackId.type trackId.flags trackId.name (subscribeAlias s trackId)
  else s

/-- The body of `transport_subscribe` for one connection with an open control stream. -/
def subscribeConn (c : Conn) (trackId : MoqTrackId) : Conn × List Effect :=
  ({ c with subscriptions := subscribeTable c.subscriptions trackId },
    writeTrackMessage c 0x01 (subscribeAlias c.subscriptions trackId) trackId)

/-- `transport_subscribe`. A server goes through all its connections and skips those whose
control stream is not open; a client fails without an open control stream. -/
def transportSubscribe (t : Transport) (trackId : MoqTrackId) :
    Bool × Transport × List Effect :=
  if t.isServer then
    let r := t.conns.map fun c => if c.controlOpen then subscribeConn c trackId else (c, [])
    (true, { t with conns := r.map Prod.fst }, r.flatMap Prod.snd)
  else
    match t.conns with
    | [] => (false, t, [])
    | c :: cs =>
      if c.controlOpen then
        let r := subscribeConn c trackId
        (true, { t with conns := r.1 :: cs }, r.2)
      else (false, t, [])

/-- `transport_request_keyframe`. -/
def transportRequestKeyframe (t : Transport) (trackId : MoqTrackId) : Bool × List Effect :=
  match t.conns with
  | [] => (false, [])
  | c :: _ =>
    if t.isServer ∨ ¬c.controlOpen then (false, [])
    else (true, writeTrackMessage c 0x06 0 trackId)

/-- `transport_send_unicast`. The size goes into four bytes. -/
def transportSendUnicast (c : Conn) (data : Bytes) : Bool × List Effect :=
  if c.controlOpen then
    (true, c.writeControl (0x03 :: toBE 4 data.length) ++ c.writeControl data)
  else (false, [])

/-- `transport_send_auth`. -/
def transportSendAuth (c : Conn) (token : Bytes) : Bool × List Effect :=
  if ¬c.controlOpen then (false, [])
  else if 65535 < token.length then (false, [])
  else
    (true, c.writeControl (0x04 :: toBE 2 token.length) ++
      if 0 < token.length then c.writeControl token else [])

/-- `transport_respond_auth`. -/
def transportRespondAuth (c : Conn) (success : Bool) : Bool × Conn × List Effect :=
  if ¬c.controlOpen then (false, c, [])
  else
    let resp := c.writeControl [0x05, if success then 1 else 0]
    if success then (true, { c with authenticated := true }, resp)
    else (true, { c with closing := true },
      resp ++ [.close c.ptr "authentication failed"])

/-- `transport_close_conn`. -/
def transportCloseConn (c : Conn) : Conn × List Effect :=
  ({ c with closing := true }, [.close c.ptr ""])

end Bishlink
