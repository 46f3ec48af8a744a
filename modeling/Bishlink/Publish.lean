import Bishlink.Send

/-!
# Publishing

`transport_publish` with its three ways out: DATA packets are grouped in the transport's
buffer while a subscriber wants FEC (`groupPacket`, `flushFecBuffer`), objects on reliable
tracks are written to a stream of each subscriber (`publishReliable`), all others are cut
into symbols and sent as datagrams (`publishDatagrams`).

What a call reads from the outside (clocks, `malloc`, QUIC, the path allocation of
`pathflow_optimize`) is a `PublishIO`.
-/

namespace Bishlink

open ByteCodec

/-- What one call of `transport_publish` or `flush_fec_buffer` reads from the outside. -/
structure PublishIO where
  /-- `ptls_get_time`, in milliseconds -/
  timeMs : UInt64
  /-- `get_time_ns` in `get_cached_fec` -/
  fecTimeNs : ℕ
  /-- `get_time_ns` for a datagram, by connection and symbol -/
  sendTimeNs : ℕ → ℕ → UInt64
  /-- the `realloc` of the grouping buffer succeeds -/
  reallocOk : Bool
  /-- the `malloc` of the copy for the sent cache succeeds -/
  cacheCopyOk : Bool
  /-- the stream `quicly_open_stream` opens on a connection -/
  openStream : ℕ → Option ℕ
  /-- the local address `quicly_get_path_stats` reports for a path of a connection -/
  pathStats : ℕ → ℕ → Option SockAddr
  /-- `x` and `m` of each link after `pathflow_optimize` -/
  pathflow : ℕ → ℕ × ℕ
  /-- the static `rr_path` -/
  rrPath : ℕ
  /-- the bytes of the `k`-th block the arena takes from `malloc` -/
  arenaJunk : ℕ → ℕ → UInt8

/-- An environment in which nothing fails, at a given time in milliseconds: streams get the
id 4, and each link has room for one symbol more than it needs. -/
def publishAt (timeMs : UInt64) : PublishIO where
  timeMs := timeMs
  fecTimeNs := 0
  sendTimeNs _ _ := 0
  reallocOk := true
  cacheCopyOk := true
  openStream _ := some 4
  pathStats _ _ := none
  pathflow _ := (1, 0)
  rrPath := 0
  arenaJunk _ _ := 0

/-! ## The arena -/

/-- `arena_t`: capacity, offset and number of blocks from `malloc`. -/
structure Arena where
  capacity : ℕ
  offset : ℕ
  fallbackCount : ℕ

/-- The arena of a transport after `arena_reset`, which ends every use of it. -/
def Arena.reset : Arena := ⟨16 * 1024 * 1024, 0, 0⟩

/-- `arena_alloc`: zeroed memory from the arena, or unwritten memory from `malloc` once the
arena is used up. -/
def arenaAlloc (io : PublishIO) (a : Arena) (size : ℕ) : Bytes × Arena :=
  let aligned := (size + 7) / 8 * 8
  if a.capacity < a.offset + aligned then
    ((List.range size).map (io.arenaJunk a.fallbackCount),
      { a with fallbackCount := a.fallbackCount + 1 })
  else (List.replicate size 0, { a with offset := a.offset + aligned })

@[simp] theorem length_arenaAlloc (io : PublishIO) (a : Arena) (size : ℕ) :
    (arenaAlloc io a size).1.length = size := by
  rw [arenaAlloc]
  split <;> simp

/-! ## Cutting an object into symbols -/

/-- The number of data symbols of an object, at least one. -/
def dataSymbolCount (size symbolSize : ℕ) : ℕ :=
  let n := (size + symbolSize - 1) / symbolSize
  if n = 0 then 1 else n

theorem dataSymbolCount_pos (size symbolSize : ℕ) : 0 < dataSymbolCount size symbolSize := by
  unfold dataSymbolCount
  dsimp only
  split
  · exact Nat.one_pos
  · next h => exact Nat.pos_of_ne_zero h

/-- The `n` data blocks from block `i` on. A full block is the object's own memory, the rest
of the object is copied to the start of a block from the arena. -/
def shardData (io : PublishIO) (data : Bytes) (symbolSize : ℕ) :
    (i n : ℕ) → Arena → List Bytes × Arena
  | _, 0, a => ([], a)
  | i, n + 1, a =>
    let offset := i * symbolSize
    let chunk := data.length - offset
    if symbolSize ≤ chunk then
      let r := shardData io data symbolSize (i + 1) n a
      (slice offset symbolSize data :: r.1, r.2)
    else
      -- only the last symbol is a copy, the others point into the object
      let b := arenaAlloc io a symbolSize
      let r := shardData io data symbolSize (i + 1) n b.2
      (writeAt b.1 0 (slice offset chunk data) :: r.1, r.2)

/-- There are `n` data blocks, as long as a symbol. -/
theorem length_shardData (io : PublishIO) (data : Bytes) (symbolSize i n : ℕ) (a : Arena) :
    (shardData io data symbolSize i n a).1.length = n ∧
      ∀ b ∈ (shardData io data symbolSize i n a).1, b.length = symbolSize := by
  induction n generalizing i a with
  | zero => exact ⟨rfl, by simp [shardData]⟩
  | succ n ih =>
    simp only [shardData]
    split
    · next hfull =>
      obtain ⟨hlen, hall⟩ := ih (i + 1) a
      refine ⟨by rw [List.length_cons, hlen], ?_⟩
      intro b hb
      rcases List.mem_cons.mp hb with rfl | hb
      · rw [length_slice]
        omega
      · exact hall b hb
    · next hpart =>
      obtain ⟨hlen, hall⟩ := ih (i + 1) (arenaAlloc io a symbolSize).2
      refine ⟨by rw [List.length_cons, hlen], ?_⟩
      intro b hb
      rcases List.mem_cons.mp hb with rfl | hb
      · rw [length_writeAt, length_arenaAlloc]
        rw [length_slice, length_arenaAlloc]
        omega
      · exact hall b hb

/-- The parity blocks before the encoder runs. -/
def parityBlocks (io : PublishIO) (symbolSize : ℕ) : ℕ → Arena → List Bytes
  | 0, _ => []
  | n + 1, a =>
    let b := arenaAlloc io a symbolSize
    b.1 :: parityBlocks io symbolSize n b.2

theorem length_parityBlocks (io : PublishIO) (symbolSize n : ℕ) (a : Arena) :
    (parityBlocks io symbolSize n a).length = n ∧
      ∀ b ∈ parityBlocks io symbolSize n a, b.length = symbolSize := by
  induction n generalizing a with
  | zero => exact ⟨rfl, fun b hb => absurd hb List.not_mem_nil⟩
  | succ n ih =>
    obtain ⟨hlen, hall⟩ := ih (arenaAlloc io a symbolSize).2
    refine ⟨congrArg (· + 1) hlen, fun b hb => ?_⟩
    rcases List.mem_cons.mp hb with rfl | hb
    · exact length_arenaAlloc io a symbolSize
    · exact hall b hb

/-! ## Allocation of symbols to links -/

/-- How many symbols each link gets (`paths_array[i].x`) and the parity count. -/
def allocateSymbols (t : Transport) (io : PublishIO) (fecEnabled : Bool) (dataSymbols : ℕ) :
    List ℕ × ℕ :=
  let numFds := t.links.length
  if ¬fecEnabled then
    ((List.range dataSymbols).foldl
      (fun xs s => xs.modify (if 0 < numFds then s % numFds else 0) (· + 1))
      (List.replicate TRANSPORT_MAX_PATHS 0), 0)
  else if 1 < dataSymbols then
    -- parity is what the optimizer adds on each link, and one symbol where it adds none
    let paths := (List.range numFds).map io.pathflow
    let parity := (paths.map fun p => if p.2 < p.1 then p.1 - p.2 else 0).sum
    (paths.map Prod.fst, if parity = 0 then 1 else parity)
  else
    -- a single symbol has no parity, and the links take turns with it
    ((List.replicate TRANSPORT_MAX_PATHS 0).set
      (if 0 < numFds then io.rrPath % numFds else 0) 1, 0)

/-- The link of a symbol: the first one whose running total is above the index. -/
def pathOfSymbol : (xs : List ℕ) → (i accumulated s : ℕ) → ℕ
  | [], _, _, _ => 0
  | x :: xs, i, accumulated, s =>
    if s < accumulated + x then i else pathOfSymbol xs (i + 1) (accumulated + x) s

/-- `find_path_index_by_link`. -/
def findPathIndexByLink (t : Transport) (pathStats : ℕ → Option SockAddr) (link : ℕ) : ℕ :=
  match t.links[link]? with
  | some (.inet addr _) =>
    ((List.range 8).find? fun p =>
      match pathStats p with
      | some (.inet addr' _) => addr' == addr
      | _ => false).getD 0
  | _ => 0

/-! ## Datagrams -/

/-- The erasure code the sender picks. -/
def senderFecType (type : MoqTrackType) (dataSymbols paritySymbols : ℕ) : FecType :=
  if type = MOQ_TRACK_DATA ∧ 255 < dataSymbols + paritySymbols then .FEC_RAPTORQ
  else .FEC_REED_SOLOMON

/-- An object cut into symbols: the header fields all its datagrams share, and the symbols
with their parity. -/
structure ShardedObject where
  dataSymbols : ℕ
  paritySymbols : ℕ
  symbolSize : ℕ
  dataBlocks : List Bytes
  parityBlocks : List Bytes
  xs : List ℕ

/-- `total_symbols`. -/
def ShardedObject.totalSymbols (o : ShardedObject) : ℕ := o.dataSymbols + o.paritySymbols

/-- The symbol that goes into datagram `s`. -/
def ShardedObject.symbol (o : ShardedObject) (s : ℕ) : Bytes :=
  if s < o.dataSymbols then (o.dataBlocks.getD s []).take o.symbolSize
  else (o.parityBlocks.getD (s - o.dataSymbols) []).take o.symbolSize

/-- Cutting an object into symbols and encoding the parity. When no context can be had the
parity blocks are sent as the allocator left them. -/
def shardObject (lib : FecLib) (io : PublishIO) (t : Transport) (obj : MoqObject) :
    ShardedObject × FecCache :=
  let symbolSize := t.symbolSize
  let d := dataSymbolCount obj.data.length symbolSize
  let alloc := allocateSymbols t io (getTrackProfile obj.trackId).fecEnabled d
  let p := alloc.2
  let a₁ := (arenaAlloc io Arena.reset (d * 8)).2
  let a₂ := (arenaAlloc io a₁ (p * 8)).2
  let shards := shardData io obj.data symbolSize 0 d a₂
  let blank := parityBlocks io symbolSize p shards.2
  if 0 < p then
    let r := getCachedFec lib t.fecCache io.fecTimeNs
      ⟨senderFecType obj.trackId.type d p, d, p, symbolSize⟩
    let parity :=
      match r.1 with
      -- no context: the blocks are sent as they were allocated
      | none => blank
      | some fec => fecEncode lib fec shards.1 blank
    (⟨d, p, symbolSize, shards.1, parity, alloc.1⟩, r.2)
  else (⟨d, p, symbolSize, shards.1, blank, alloc.1⟩, t.fecCache)

/-- The header of datagram `s` of an object; the counts are cut to 16 bits, the ids and the
size to 32. -/
def datagramHeader (obj : MoqObject) (o : ShardedObject) (trackAlias : UInt8) (s pathId : ℕ)
    (sendTimeNs : UInt64) : FecPacketHeader where
  trackId := trackAlias
  isKeyframe := if obj.isKeyframe then 1 else 0
  priority := obj.priority
  groupId := obj.groupId.toUInt32
  objectId := obj.objectId.toUInt32
  symbolIndex := UInt16.ofNat s
  totalSymbols := UInt16.ofNat o.totalSymbols
  dataSymbols := UInt16.ofNat o.dataSymbols
  symbolSize := UInt16.ofNat o.symbolSize
  originalSize := UInt32.ofNat obj.data.length
  pathId := UInt8.ofNat pathId
  sendTimeNs := sendTimeNs

/-- The QUIC path of symbol `s` on a connection. -/
def symbolPath (t : Transport) (io : PublishIO) (o : ShardedObject) (c : Conn) (s : ℕ) : ℕ :=
  findPathIndexByLink t (io.pathStats c.ptr) (pathOfSymbol (o.xs.take t.links.length) 0 0 s)

/-- Datagram `s` of an object for a connection. -/
def symbolDatagram (t : Transport) (io : PublishIO) (obj : MoqObject) (o : ShardedObject)
    (c : Conn) (trackAlias : UInt8) (s : ℕ) : Bytes :=
  (datagramHeader obj o trackAlias s (symbolPath t io o c s) (io.sendTimeNs c.ptr s)).encode ++
    o.symbol s

/-- The datagrams of an object for one connection: none when it is closing, not subscribed
to the track on a server, or has no alias for it. -/
def sendDatagrams (t : Transport) (io : PublishIO) (obj : MoqObject) (o : ShardedObject)
    (c : Conn) : List Effect :=
  if c.closing ∨ (t.isServer ∧ ¬isSubscribed c.subscriptions obj.trackId) then []
  else
    match findAliasByTrack c.subscriptions obj.trackId with
    | none => []
    | some trackAlias =>
      (List.range o.totalSymbols).map fun s =>
        .datagram c.ptr (symbolPath t io o c s) (symbolDatagram t io obj o c trackAlias s)

/-- What the NACK cache keeps of a DATA object. -/
def sentObject (io : PublishIO) (obj : MoqObject) (o : ShardedObject) : SentObject where
  trackId := obj.trackId
  groupId := obj.groupId.toUInt32
  objectId := obj.objectId.toUInt32
  data := if io.cacheCopyOk then some obj.data else none
  priority := obj.priority
  isKeyframe := obj.isKeyframe
  totalSymbols := UInt16.ofNat o.totalSymbols
  dataSymbols := UInt16.ofNat o.dataSymbols
  symbolSize := UInt16.ofNat o.symbolSize

/-- The datagram branch of `transport_publish`. -/
def publishDatagrams (lib : FecLib) (io : PublishIO) (t : Transport) (obj : MoqObject) :
    Transport × List Effect :=
  let r := shardObject lib io t obj
  let effects := t.conns.flatMap (sendDatagrams t io obj r.1)
  let sentCache :=
    if obj.trackId.type = MOQ_TRACK_DATA then t.sentCache.push (sentObject io obj r.1)
    else t.sentCache
  ({ t with fecCache := r.2, sentCache := sentCache }, effects)

/-! ## Reliable streams -/

/-- `on_stream_open` for a stream of the connection. -/
def onStreamOpen (c : Conn) (sid : ℕ) (sendOpen : Bool) : Conn :=
  { c with
    streams := c.streams ++ [⟨sid, decide (sid = 0), false, 0, [], sendOpen⟩]
    stream := if sid = 0 then some sid else c.stream }

/-- The two writes of an object to a track stream. -/
def writeObject (c : Conn) (sid : ℕ) (data : Bytes) : List Effect :=
  [.streamWrite c.ptr sid (toBE 4 data.length), .streamWrite c.ptr sid data]

/-- The reliable branch of `transport_publish` for one connection. -/
def publishReliableConn (io : PublishIO) (isServer : Bool) (obj : MoqObject) (c : Conn) :
    Conn × List Effect :=
  if c.closing ∨ (isServer ∧ ¬isSubscribed c.subscriptions obj.trackId) then (c, [])
  else
    match c.subscriptions.entries.find? (·.holds obj.trackId.type obj.trackId.name) with
    -- a client without an entry for the track sends on the control stream
    | none => (c, (transportSendUnicast c obj.data).2)
    | some sub =>
      let setStream (stream : Option ℕ) : Conn :=
        { c with
          subscriptions := c.subscriptions.update (·.holds obj.trackId.type obj.trackId.name)
            (fun e => { e with stream := stream }) }
      match sub.stream, c.sendOpen sub.stream with
      | some sid, true => (c, writeObject c sid obj.data)
      | _, _ =>
        match io.openStream c.ptr with
        -- `sub->stream` is cleared before the stream is opened
        | none => (setStream none, [])
        | some sid =>
          (onStreamOpen (setStream (some sid)) sid true,
            .streamWrite c.ptr sid [sub.trackAlias] :: writeObject c sid obj.data)

/-- The reliable branch of `transport_publish`. -/
def publishReliable (io : PublishIO) (t : Transport) (obj : MoqObject) :
    Transport × List Effect :=
  let r := t.conns.map (publishReliableConn io t.isServer obj)
  ({ t with conns := r.map Prod.fst }, r.flatMap Prod.snd)

/-- `transport_publish` past the grouping block. -/
def publishDirect (lib : FecLib) (io : PublishIO) (t : Transport) (obj : MoqObject) :
    Transport × List Effect :=
  if (getTrackProfile obj.trackId).reliable then publishReliable io t obj
  else publishDatagrams lib io t obj

/-! ## Grouping -/

/-- The object `flush_fec_buffer` publishes. -/
def groupedObject (t : Transport) : MoqObject where
  trackId := t.fec.trackId
  groupId := 0
  objectId := t.fec.objectId.toUInt64
  data := t.fec.buf
  isKeyframe := false
  priority := t.fec.priority

/-- `flush_fec_buffer`. With `fec_in_flush` set, `transport_publish` skips the grouping
block (`transportPublish_of_inFlush`). -/
def flushFecBuffer (lib : FecLib) (io : PublishIO) (t : Transport) : Transport × List Effect :=
  if t.fec.buf = [] then (t, [])
  else
    let t₁ := { t with fec := { t.fec with objectId := t.fec.objectId + 1, inFlush := true } }
    let r := publishDirect lib io t₁ (groupedObject t)
    ({ r.1 with fec := { r.1.fec with
        inFlush := false, buf := [], firstPktTime := 0, pktCount := 0 } }, r.2)

/-- Some live connection subscribes to the track with the FEC flag. A client does not look
at the state of its connection here. -/
def useFec (t : Transport) (track : MoqTrackId) : Bool :=
  t.conns.any fun c =>
    (!t.isServer || !c.closing) && c.subscriptions.entries.any fun e =>
      e.holds track.type track.name && (getTrackProfile e.trackId).fecEnabled

/-- The capacity the grouping buffer grows to: doubled until it is large enough. -/
def growCap (needed : ℕ) : (fuel cap : ℕ) → ℕ
  | 0, cap => cap
  | fuel + 1, cap => if cap < needed then growCap needed fuel (cap * 2) else cap

/-- An empty buffer records the time, the track and the priority of the packet. -/
def FecBuffer.record (fec : FecBuffer) (io : PublishIO) (obj : MoqObject) : FecBuffer :=
  if fec.buf = [] then
    { fec with firstPktTime := io.timeMs, trackId := obj.trackId, priority := obj.priority }
  else fec

/-- A packet as it stands in the buffer, behind two bytes of length. -/
def packetFrame (data : Bytes) : Bytes := toBE 2 data.length ++ data

/-- Append a packet; `none` when the buffer cannot grow. -/
def FecBuffer.append (fec : FecBuffer) (io : PublishIO) (obj : MoqObject) : Option FecBuffer :=
  let needed := fec.buf.length + 2 + obj.data.length
  if fec.cap < needed ∧ ¬io.reallocOk then none
  else
    some { fec with
      cap :=
        if fec.cap < needed then growCap needed needed (if fec.cap = 0 then 4096 else fec.cap * 2)
        else fec.cap
      buf := fec.buf ++ packetFrame obj.data
      pktCount := fec.pktCount + 1 }

/-- The group is flushed at once. -/
def FecBuffer.full (fec : FecBuffer) : Bool :=
  decide (4 ≤ fec.pktCount) || decide (4000 ≤ fec.buf.length)

/-- The grouping block: append the packet with its length prefix, and flush when the group
is full. -/
def groupPacket (lib : FecLib) (io : PublishIO) (t : Transport) (obj : MoqObject) :
    Bool × Transport × List Effect :=
  let fec := t.fec.record io obj
  match fec.append io obj with
  | none => (false, { t with fec := fec }, [])
  | some fec =>
    if fec.full then
      let r := flushFecBuffer lib io { t with fec := fec }
      (true, r.1, r.2)
    else (true, { t with fec := fec }, [])

/-- The test at the head of `transport_publish`: the object goes to the grouping buffer. -/
def routedToGroup (t : Transport) (obj : MoqObject) : Bool :=
  obj.trackId.type == MOQ_TRACK_DATA && !t.fec.inFlush && useFec t obj.trackId

/-- `transport_publish`. -/
def transportPublish (lib : FecLib) (io : PublishIO) (t : Transport) (obj : MoqObject) :
    Bool × Transport × List Effect :=
  if routedToGroup t obj then groupPacket lib io t obj
  else
    let r := publishDirect lib io t obj
    (true, r.1, r.2)

/-- The publish inside a flush goes straight to the stream or datagram branch. -/
theorem transportPublish_of_inFlush {t : Transport} (h : t.fec.inFlush = true) (lib : FecLib)
    (io : PublishIO) (obj : MoqObject) :
    transportPublish lib io t obj = (true, publishDirect lib io t obj) := by
  simp [transportPublish, routedToGroup, h]

/-- The head of `transport_tick`: a group older than three milliseconds is flushed. -/
def tickFecBuffer (lib : FecLib) (io : PublishIO) (t : Transport) : Transport × List Effect :=
  if t.fec.buf ≠ [] ∧ 3 ≤ io.timeMs - t.fec.firstPktTime then flushFecBuffer lib io t
  else (t, [])

end Bishlink
