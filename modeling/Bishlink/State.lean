import Bishlink.Assembler

/-!
# Connections and transports

`transport_conn_t`, `transport_t` and the parts of a `quicly_stream_t` the code reads. A
pointer to a connection or a stream is a number; following it is a lookup.
-/

namespace Bishlink

/-! ## Streams and connections -/

/-- A `quicly_stream_t` with its `stream_ctx_t`: the bytes received and not yet consumed,
and whether `quicly_sendstate_is_open` holds. -/
structure Stream where
  id : ℕ
  isControl : Bool
  headerReceived : Bool
  trackAlias : UInt8
  ingress : Bytes
  sendOpen : Bool
deriving DecidableEq

/-- `transport_conn_t`. `closing` is `quicly_get_state(conn->quic) >= QUICLY_STATE_CLOSING`,
`streams` are the streams QUIC keeps for the connection, `stream` is the control stream. -/
structure Conn where
  ptr : ℕ
  closing : Bool
  subscriptions : Subscriptions
  authenticated : Bool
  stream : Option ℕ
  assemblers : AssemblerCache
  streams : List Stream
deriving DecidableEq

namespace Conn

/-- A connection as `calloc` leaves it. -/
def zero (ptr : ℕ) : Conn :=
  ⟨ptr, false, Subscriptions.empty, false, none, AssemblerCache.empty, []⟩

/-- The stream a handle leads to. -/
def findStream (c : Conn) (sid : ℕ) : Option Stream := c.streams.find? (·.id == sid)

/-- `stream && quicly_sendstate_is_open(&stream->sendstate)`. -/
def sendOpen (c : Conn) (handle : Option ℕ) : Bool :=
  match handle with
  | none => false
  | some sid => ((c.findStream sid).map (·.sendOpen)).getD false

/-- Change one stream of the connection. -/
def updateStream (c : Conn) (sid : ℕ) (f : Stream → Stream) : Conn :=
  { c with streams := c.streams.map fun s => if s.id = sid then f s else s }

/-- Changing a stream in a way that keeps its id. -/
theorem findStream_updateStream {c : Conn} {sid : ℕ} {f : Stream → Stream}
    (hf : ∀ s, (f s).id = s.id) :
    (c.updateStream sid f).findStream sid = (c.findStream sid).map f := by
  rw [findStream, findStream, updateStream]
  dsimp only
  rw [List.find?_map]
  have hsame : ((fun x : Stream => x.id == sid) ∘ fun x => if x.id = sid then f x else x) =
      fun x => x.id == sid := by
    funext x
    by_cases hx : x.id = sid <;> simp [hx, hf]
  rw [hsame]
  cases hfind : c.streams.find? (·.id == sid) with
  | none => rfl
  | some s =>
    have hs : s.id = sid := by simpa using List.find?_some hfind
    simp [hs]

theorem findStream_updateStream_of_ne {c : Conn} {sid sid' : ℕ} {f : Stream → Stream}
    (hf : ∀ s, (f s).id = s.id) (hne : sid' ≠ sid) :
    (c.updateStream sid f).findStream sid' = c.findStream sid' := by
  unfold findStream updateStream
  dsimp only
  rw [List.find?_map]
  have hsame : ((fun x : Stream => x.id == sid') ∘ fun x => if x.id = sid then f x else x) =
      fun x => x.id == sid' := by
    funext x
    by_cases hx : x.id = sid <;> simp [hx, hf]
  rw [hsame]
  cases hfind : c.streams.find? (·.id == sid') with
  | none => rfl
  | some s =>
    have hs : s.id = sid' := by simpa using List.find?_some hfind
    rw [Option.map_some, if_neg (fun h => hne (hs.symm.trans h))]

/-- A write to the control stream. -/
def writeControl (c : Conn) (bytes : Bytes) : List Effect :=
  match c.stream with
  | none => []
  | some sid => [.streamWrite c.ptr sid bytes]

end Conn

/-! ## Transports -/

/-- A bound local address, as far as the code compares them. -/
inductive SockAddr where
  | inet (addr : UInt32) (port : UInt16)
  | inet6 (addr : Bytes) (port : UInt16)
deriving DecidableEq

/-- The one-way-delay state of a path: `min_owd_ns`, the relative delay in microseconds
behind `latest_owd_fp`, and the time stamps of the last telemetry. -/
structure PathOwd where
  minOwdNs : Int64
  relativeOwdUs : UInt32
  lastSendNs : UInt64
  lastRecvNs : UInt64
deriving DecidableEq

/-- `TRANSPORT_MAX_PATHS`. -/
def TRANSPORT_MAX_PATHS : ℕ := 4

/-- `sent_object_cache_t`; `data` is `none` for a slot that holds no copy. -/
structure SentObject where
  trackId : MoqTrackId
  groupId : UInt32
  objectId : UInt32
  data : Option Bytes
  priority : UInt8
  isKeyframe : Bool
  totalSymbols : UInt16
  dataSymbols : UInt16
  symbolSize : UInt16
deriving DecidableEq

def SentObject.zero : SentObject := ⟨MoqTrackId.zero, 0, 0, none, 0, false, 0, 0, 0⟩

/-- `SENT_CACHE_SIZE`. -/
def SENT_CACHE_SIZE : ℕ := 32

/-- `t->sent_cache` and `t->sent_cache_index`. -/
structure SentCache where
  slots : List SentObject
  index : ℕ
  length_slots : slots.length = SENT_CACHE_SIZE
  index_lt : index < SENT_CACHE_SIZE
deriving DecidableEq

def SentCache.empty : SentCache where
  slots := List.replicate SENT_CACHE_SIZE SentObject.zero
  index := 0
  length_slots := by simp
  index_lt := by decide

/-- Overwrite the slot at the index and step the index around the ring. -/
def SentCache.push (c : SentCache) (o : SentObject) : SentCache where
  slots := c.slots.set c.index o
  index := (c.index + 1) % SENT_CACHE_SIZE
  length_slots := by rw [List.length_set, c.length_slots]
  index_lt := Nat.mod_lt _ (by decide)

/-- The packet grouping buffer: `fec_buf[0 .. fec_buf_len)`, its capacity, and what was
recorded when the buffer was empty. -/
structure FecBuffer where
  buf : Bytes
  cap : ℕ
  firstPktTime : UInt64
  trackId : MoqTrackId
  objectId : UInt32
  pktCount : ℕ
  priority : UInt8
  inFlush : Bool
deriving DecidableEq

def FecBuffer.empty : FecBuffer := ⟨[], 0, 0, MoqTrackId.zero, 0, 0, 0, false⟩

/-- `transport_t`. `conns` are the active connections: `conns[0 .. conn_count)` of a server,
`client_conn` of a client; `links` is `local_addrs[0 .. num_fds)`. -/
structure Transport where
  isServer : Bool
  conns : List Conn
  links : List SockAddr
  maxUdpPayloadSize : ℕ
  owd : List PathOwd
  sentCache : SentCache
  fec : FecBuffer
  fecCache : FecCache
deriving DecidableEq

namespace Transport

/-- A transport without connections. -/
def init (isServer : Bool) (links : List SockAddr) (maxUdpPayloadSize : ℕ) : Transport where
  isServer := isServer
  conns := []
  links := links
  maxUdpPayloadSize := maxUdpPayloadSize
  owd := List.replicate TRANSPORT_MAX_PATHS ⟨0, 0, 0, 0⟩
  sentCache := SentCache.empty
  fec := FecBuffer.empty
  fecCache := FecCache.empty

/-- The connection a pointer leads to. -/
def findConn (t : Transport) (ptr : ℕ) : Option Conn := t.conns.find? (·.ptr == ptr)

/-- Write a connection back through its pointer. -/
def setConn (t : Transport) (c : Conn) : Transport :=
  { t with conns := t.conns.map fun c' => if c'.ptr = c.ptr then c else c' }

/-- The symbol size `transport_publish` and `transport_tick` derive from the QUIC context. -/
def symbolSize (t : Transport) : ℕ :=
  let s := if 80 < t.maxUdpPayloadSize then t.maxUdpPayloadSize - 80 else 1100
  if s < 1000 then 1000 else s

theorem symbolSize_ge (t : Transport) : 1000 ≤ t.symbolSize := by
  simp only [symbolSize]
  split <;> split <;> omega

end Transport

end Bishlink
