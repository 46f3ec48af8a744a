import Bishlink.Datagram
import Bishlink.Publish

/-!
# Receiving on streams

`parse_control_messages` and `parse_track_stream_messages`, one iteration of their loops at
a time: `controlIteration` and `trackIteration` say what an iteration does and whether the
loop goes on. `parseControlMessages` is the first of the loops.

The callback is called in an iteration after everything else but the shift of the input,
which no call of the transport can see, so what the application does in it is a call
between two iterations.
-/

namespace Bishlink

open ByteCodec

/-- What the handling of one control message reads from the outside. -/
structure ControlIO where
  uninitTrack : MoqTrackId
  fecTimeNs : ℕ
  sendTimeNs : ℕ → UInt64

/-- What a control message reads from the outside when clocks stand still. -/
def ControlIO.still : ControlIO := ⟨MoqTrackId.zero, 0, fun _ => 0⟩

/-! ## Retransmission -/

/-- The copy in the sent cache that a NACK asks for. -/
def SentCache.find (sc : SentCache) (track : MoqTrackId) (groupId objectId : UInt32) :
    Option (SentObject × Bytes) :=
  sc.slots.findSome? fun o =>
    match o.data with
    | none => none
    | some data =>
      if o.trackId.sameTrack track ∧ o.groupId = groupId ∧ o.objectId = objectId then
        some (o, data)
      else none

/-- Data block `i` of a cached object, padded with zeros. -/
def cachedBlock (data : Bytes) (symbolSize i : ℕ) : Bytes :=
  writeAt (List.replicate symbolSize 0) 0 (slice (i * symbolSize) symbolSize data)

/-- The symbols of a cached object, encoded again. The code goes by the total alone here,
not by the type of the track. -/
def cachedSymbols (lib : FecLib) (cache : FecCache) (io : ControlIO) (o : SentObject)
    (data : Bytes) : (List Bytes × List Bytes) × FecCache :=
  let d := o.dataSymbols.toNat
  let total := o.totalSymbols.toNat
  let p := paritySymbols total d
  let size := o.symbolSize.toNat
  let dataBlocks := (List.range d).map (cachedBlock data size)
  let blank := List.replicate p (List.replicate size 0)
  if 0 < p then
    let r := getCachedFec lib cache io.fecTimeNs
      -- the ring holds DATA objects only, and the type is not looked at again
      ⟨if 255 < total then .FEC_RAPTORQ else .FEC_REED_SOLOMON, d, p, size⟩
    match r.1 with
    -- no context: the parity stays zero, and is sent so
    | none => ((dataBlocks, blank), r.2)
    | some fec => ((dataBlocks, fecEncode lib fec dataBlocks blank), r.2)
  else ((dataBlocks, blank), cache)

/-- The header of a retransmitted symbol; `k` counts the requested indices. -/
def cachedHeader (io : ControlIO) (o : SentObject) (data : Bytes) (trackAlias : UInt8)
    (k : ℕ) (s : UInt16) : FecPacketHeader where
  trackId := trackAlias
  isKeyframe := if o.isKeyframe then 1 else 0
  priority := o.priority
  groupId := o.groupId
  objectId := o.objectId
  symbolIndex := s
  totalSymbols := o.totalSymbols
  dataSymbols := o.dataSymbols
  symbolSize := o.symbolSize
  originalSize := UInt32.ofNat data.length
  pathId := 0
  sendTimeNs := io.sendTimeNs k

/-- The datagrams that answer a NACK for a cached object: the requested symbols below the
total, on the default path. -/
def retransmit (lib : FecLib) (cache : FecCache) (io : ControlIO) (c : Conn) (o : SentObject)
    (data : Bytes) (trackAlias : UInt8) (missing : List UInt16) : List Effect × FecCache :=
  let r := cachedSymbols lib cache io o data
  let d := o.dataSymbols.toNat
  let send (k : ℕ) (s : UInt16) : Option Effect :=
    if o.totalSymbols ≤ s then none
    else
      let symbol := if s.toNat < d then r.1.1.getD s.toNat [] else r.1.2.getD (s.toNat - d) []
      some (.datagram c.ptr 0 ((cachedHeader io o data trackAlias k s).encode ++ symbol))
  ((missing.mapIdx send).reduceOption, r.2)

/-! ## Control messages -/

/-- The flags of the track of an object on the control stream. -/
def controlFlags (flags : UInt8) : UInt8 :=
  (flags &&& ~~~MOQ_TRACK_FLAG_FEC_ENABLED) ||| MOQ_TRACK_FLAG_RELIABLE

/-- The event for an object that came without ids. -/
def streamObjectEvent (c : Conn) (track : MoqTrackId) (data : Bytes) (isKeyframe : Bool) :
    Effect :=
  .event c.ptr (.object track ⟨track, 0, 0, data, isKeyframe, 0⟩)

/-- What an iteration of `parse_control_messages` does with a message. -/
def handleControlMessage (lib : FecLib) (io : ControlIO) (t : Transport) (c : Conn) :
    ControlMessage → Transport × Conn × List Effect
  | .subscribe trackAlias track =>
    (t, { c with subscriptions :=
        addSubscription c.subscriptions track.type track.flags track.name trackAlias },
      [.event c.ptr (.subscribe track)])
  | .unsubscribe _ track =>
    let r := removeSubscription c.subscriptions track.type track.name
    (t, { c with subscriptions := r.1 },
      (match r.2 with
        | none => []
        | some sid => [.streamShutdown c.ptr sid]) ++ [.event c.ptr (.unsubscribe track)])
  | .keyframeRequest _ track => (t, c, [.event c.ptr (.keyframeRequest track)])
  | .unicast payload =>
    (t, c, [streamObjectEvent c { MoqTrackId.zero with type := MOQ_TRACK_INPUT } payload false])
  | .auth token => (t, c, [.event c.ptr (.auth token)])
  -- the role of this end is not looked at
  | .authResponse status =>
    (t, { c with authenticated := c.authenticated || status == 1 },
      [.event c.ptr (.authComplete (status == 1))])
  | .data trackAlias payload =>
    match findSubscriptionByAlias c.subscriptions trackAlias MoqTrackId.zero with
    | none => (t, c, [])
    | some track =>
      (t, c, [streamObjectEvent c { track with flags := controlFlags track.flags } payload true])
  | .nack trackAlias groupId objectId missing =>
    match findSubscriptionByAlias c.subscriptions trackAlias io.uninitTrack with
    | none => (t, c, [])
    | some track =>
      match t.sentCache.find track groupId objectId with
      | none => (t, c, [])
      | some (o, data) =>
        let r := retransmit lib t.fecCache io c o data trackAlias missing
        ({ t with fecCache := r.2 }, c, r.1)
  | .unknown _ => (t, c, [])

/-- What an iteration of a receive loop leads to, and whether the loop goes on. -/
structure Iteration where
  transport : Transport
  conn : Conn
  effects : List Effect
  goesOn : Bool

/-- `quicly_streambuf_ingress_shift`. -/
def Conn.shift (c : Conn) (sid consumed : ℕ) : Conn :=
  c.updateStream sid fun s => { s with ingress := s.ingress.drop consumed }

/-- `quicly_close(conn->quic, 0, reason)`. -/
def Conn.close (c : Conn) (reason : String) : Conn × List Effect :=
  ({ c with closing := true }, [.close c.ptr reason])

/-- One iteration of `parse_control_messages` on the input of stream `sid`. -/
def controlIteration (lib : FecLib) (io : ControlIO) (t : Transport) (c : Conn) (sid : ℕ)
    (input : Bytes) : Iteration :=
  match parseControlMessage t.isServer c.authenticated input with
  | .more => ⟨t, c, [], false⟩
  | .stop reason => ⟨t, (c.close reason).1, (c.close reason).2, false⟩
  | .item m consumed =>
    let r := handleControlMessage lib io t c m
    ⟨r.1, r.2.1.shift sid consumed, r.2.2, true⟩

/-! ## Track streams -/

/-- The header byte of a track stream: it is kept as the alias of the stream, and the first
active entry with that alias gets the stream. -/
def receiveStreamHeader (c : Conn) (sid : ℕ) (trackAlias : UInt8) : Conn :=
  let c := c.updateStream sid fun s =>
    { s with trackAlias := trackAlias, headerReceived := true, ingress := s.ingress.drop 1 }
  { c with subscriptions := mapStream c.subscriptions trackAlias sid }

/-- An iteration of `parse_track_stream_messages` once the header is there. -/
def trackObjectIteration (t : Transport) (c : Conn) (sid : ℕ) (trackAlias : UInt8)
    (input : Bytes) : Iteration :=
  if input.length < 4 then ⟨t, c, [], false⟩
  else
    let payloadSize := ofBE (slice 0 4 input)
    if input.length < 4 + payloadSize then ⟨t, c, [], false⟩
    -- refused only when an object is there whole
    else if t.isServer ∧ ¬c.authenticated then
      ⟨t, (c.close "unauthorized").1, (c.close "unauthorized").2, false⟩
    else
      let effects :=
        match findSubscriptionByAlias c.subscriptions trackAlias MoqTrackId.zero with
        | none => []
        | some track => [streamObjectEvent c track (slice 4 payloadSize input) true]
      -- the length to shift is computed in 32 bits
      ⟨t, c.shift sid ((4 + payloadSize) % 2 ^ 32), effects, true⟩

/-- One iteration of `parse_track_stream_messages`. -/
def trackIteration (t : Transport) (c : Conn) (s : Stream) : Iteration :=
  match s.ingress with
  | [] => ⟨t, c, [], false⟩
  | b :: rest =>
    if s.headerReceived then trackObjectIteration t c s.id s.trackAlias s.ingress
    else trackObjectIteration t (receiveStreamHeader c s.id b) s.id b rest

/-! ## The loops -/

/-- What the loop of `parse_control_messages` leads to, with the messages it handled. -/
structure ControlLoop where
  transport : Transport
  conn : Conn
  messages : List ControlMessage
  effects : List Effect

/-- The message an iteration handles. -/
def recognised (t : Transport) (c : Conn) (input : Bytes) : List ControlMessage :=
  match parseControlMessage t.isServer c.authenticated input with
  | .item m _ => [m]
  | _ => []

/-- `parse_control_messages`; `io k` is what the message reads with `k` iterations left. -/
def parseControlMessages (lib : FecLib) (io : ℕ → ControlIO) (sid : ℕ) :
    (fuel : ℕ) → Transport → Conn → ControlLoop
  | 0, t, c => ⟨t, c, [], []⟩
  | fuel + 1, t, c =>
    match c.findStream sid with
    | none => ⟨t, c, [], []⟩
    | some s =>
      let r := controlIteration lib (io fuel) t c sid s.ingress
      if r.goesOn then
        let q := parseControlMessages lib io sid fuel r.transport r.conn
        { q with
          messages := recognised t c s.ingress ++ q.messages
          effects := r.effects ++ q.effects }
      else ⟨r.transport, r.conn, [], r.effects⟩

/-- One iteration of the receive loop of a stream: of `parse_control_messages` on the control
stream, of `parse_track_stream_messages` on the others. -/
def streamIteration (lib : FecLib) (io : ControlIO) (t : Transport) (c : Conn) (s : Stream) :
    Iteration :=
  if s.isControl then controlIteration lib io t c s.id s.ingress else trackIteration t c s

/-- `on_receive`, the first part: the new bytes are appended to the input of the stream. -/
def Conn.receive (c : Conn) (sid : ℕ) (bytes : Bytes) : Conn :=
  c.updateStream sid fun s => { s with ingress := s.ingress ++ bytes }

/-- `on_receive` for the control stream: append the bytes, then parse. A message takes a byte
at least, so there are no more iterations than bytes, and one to stop. -/
def onReceiveControl (lib : FecLib) (io : ℕ → ControlIO) (sid : ℕ) (t : Transport) (c : Conn)
    (bytes : Bytes) : ControlLoop :=
  let c := c.receive sid bytes
  match c.findStream sid with
  | none => ⟨t, c, [], []⟩
  | some s => parseControlMessages lib io sid (s.ingress.length + 1) t c

end Bishlink
