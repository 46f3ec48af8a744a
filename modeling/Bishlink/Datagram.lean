import Bishlink.Send

/-!
# Receiving datagrams

`on_receive_datagram_frame`. `completeObject`, `receiveSymbol` and `assemble` are its parts
from the inside out: what happens once enough symbols are there, what happens in the slot of
the object, and which slot that is. A step that touches memory out of range is a `Fault`.
-/

namespace Bishlink

open ByteCodec Checked

/-- What one call of `on_receive_datagram_frame` reads from the outside: two clocks, and
memory nobody wrote, in the two local `resolved_track` and in the new `full_data`. -/
structure ReceiveIO where
  recvTimeNs : UInt64
  fecTimeNs : ℕ
  uninitTrack : MoqTrackId
  uninitLost : MoqTrackId
  junk : ℕ → UInt8

/-! ## Completing an object -/

/-- What a datagram does to the slot of its object. -/
structure SlotResult where
  slot : FrameAssembler
  nack : Option (List ℕ)
  fullData : Option Bytes
  fecCache : FecCache

/-- `success` of the handler with what it leaves to write into the buffers: nothing when all
data symbols are there, else what the decoder restores. -/
def obtainSymbols (lib : FecLib) (cache : FecCache) (io : ReceiveIO) (type : MoqTrackType)
    (st : SymbolStore) (h : FecPacketHeader) :
    Except Fault (Option (ℕ → Option Bytes) × FecCache) := do
  let gotAll ← gotAllData st.receivedMask 0 h.dataSymbols.toNat
  if gotAll then .ok (some fun _ => none, cache)
  else
    recoverSymbols lib cache io.fecTimeNs type st h.totalSymbols.toNat h.dataSymbols.toNat
      h.symbolSize.toNat

/-- The part of the handler after the NACK: with enough symbols there, take the data symbols
or restore them, and copy the object out. `h` is the header of the last datagram. -/
def completeObject (lib : FecLib) (cache : FecCache) (io : ReceiveIO) (type : MoqTrackType)
    (a : FrameAssembler) (h : FecPacketHeader) : Except Fault SlotResult :=
  if a.receivedCount < h.dataSymbols.toNat then .ok ⟨a, none, none, cache⟩
  else do
    let r ← obtainSymbols lib cache io type a.store h
    match r.1 with
    | none => .ok ⟨a, none, none, r.2⟩
    | some symbols => do
      let store := a.store.overwrite symbols
      let fullData ← copyObject store.buffers h.symbolSize.toNat 0 h.dataSymbols.toNat
        h.originalSize.toNat ((List.range h.originalSize.toNat).map io.junk)
      .ok ⟨{ a with store := store, decoded := true, totalSymbols_le := a.totalSymbols_le },
        none, some fullData, r.2⟩

/-- The part of the handler that works on the slot of the object. -/
def receiveSymbol (lib : FecLib) (cache : FecCache) (io : ReceiveIO) (type : MoqTrackType)
    (a : FrameAssembler) (h : FecPacketHeader) (symbol : Bytes) : Except Fault SlotResult :=
  if a.decoded then .ok ⟨a, none, none, cache⟩
  else if h.totalSymbols ≤ h.symbolIndex then .ok ⟨a, none, none, cache⟩
  else do
    let stored ← a.storeSymbol h.symbolIndex.toNat h.symbolSize.toNat symbol
    let requested ← stored.requestMissing type
    let r ← completeObject lib cache io type requested.1 h
    .ok { r with nack := requested.2 }

/-! ## The slot of an object -/

/-- What a datagram does to the ring of slots. -/
structure AssembleResult where
  cache : AssemblerCache
  evicted : Option FrameAssembler
  priority : UInt8
  nack : Option (List ℕ)
  fullData : Option Bytes
  fecCache : FecCache

/-- The slot of the header's object in the ring, after the slot at the index was given to it
if there was none. -/
def AssemblerCache.locate (s : AssemblerCache) (h : FecPacketHeader) : AssemblerCache × ℕ :=
  match s.find h with
  | some i => (s, i)
  | none => (s.evict h, s.index)

/-- The incomplete object whose slot the header's object takes. -/
def AssemblerCache.evicted (s : AssemblerCache) (h : FecPacketHeader) : Option FrameAssembler :=
  match s.find h with
  | some _ => none
  | none =>
    let old := s.slot s.index
    if 0 < old.totalSymbols ∧ old.decoded = false then some old else none

/-- The handler from the slot lookup on. -/
def assemble (lib : FecLib) (cache : FecCache) (io : ReceiveIO) (type : MoqTrackType)
    (s : AssemblerCache) (h : FecPacketHeader) (symbol : Bytes) :
    Except Fault AssembleResult := do
  let located := s.locate h
  let r ← receiveSymbol lib cache io type (located.1.slot located.2) h symbol
  .ok ⟨located.1.set located.2 r.slot, s.evicted h, r.slot.priority, r.nack, r.fullData,
    r.fecCache⟩

/-! ## The handler -/

/-- The delay state of a path after the telemetry of a datagram. -/
def PathOwd.update (o : PathOwd) (d : TelemetryDatagram) : PathOwd :=
  let current := d.recvTimeNs.toInt64 - d.sendTimeNs.toInt64
  let minOwd := if o.minOwdNs = 0 ∨ current < o.minOwdNs then current else o.minOwdNs
  { minOwdNs := minOwd
    relativeOwdUs := ((current - minOwd) / 1000).toUInt64.toUInt32
    lastSendNs := d.sendTimeNs
    lastRecvNs := d.recvTimeNs }

/-- The telemetry branch. -/
def receiveTelemetry (owd : List PathOwd) (payload : Bytes) : List PathOwd :=
  if payload.length < TelemetryDatagram.size then owd
  else
    let d := TelemetryDatagram.decode payload
    if d.pathId.toNat < TRANSPORT_MAX_PATHS then owd.modify d.pathId.toNat (·.update d) else owd

/-- The telemetry the handler sends back for every symbol. -/
def telemetryReply (io : ReceiveIO) (h : FecPacketHeader) : TelemetryDatagram :=
  ⟨MOQ_TRACK_TELEMETRY, h.pathId, h.sendTimeNs, io.recvTimeNs⟩

/-- The flags a datagram forces on the track of its object. -/
def datagramFlags (flags : UInt8) : UInt8 :=
  (flags ||| MOQ_TRACK_FLAG_FEC_ENABLED) &&& ~~~MOQ_TRACK_FLAG_RELIABLE

/-- The event for an object that lost its slot. -/
def objectLost (io : ReceiveIO) (c : Conn) (a : FrameAssembler) : List Effect :=
  match findSubscriptionByAlias c.subscriptions a.trackId io.uninitLost with
  | none => []
  | some track => [.event c.ptr (.objectLost track a.groupId.toUInt64 a.objectId.toUInt64)]

/-- The event for a complete object. -/
def objectEvent (c : Conn) (track : MoqTrackId) (h : FecPacketHeader) (priority : UInt8)
    (fullData : Bytes) : Effect :=
  let track := { track with flags := datagramFlags track.flags }
  .event c.ptr (.object track
    { trackId := track
      groupId := h.groupId.toUInt64
      objectId := h.objectId.toUInt64
      data := fullData
      isKeyframe := h.isKeyframe ≠ 0
      priority := priority })

/-- What the handler does outside the tables for a symbol that reached a slot. -/
def assembleEffects (io : ReceiveIO) (c : Conn) (track : MoqTrackId) (h : FecPacketHeader)
    (r : AssembleResult) : List Effect :=
  (match r.evicted with
    | none => []
    | some a => objectLost io c a) ++
  (match r.nack with
    | none => []
    | some missing => sendNack c h.trackId h.groupId h.objectId missing) ++
  match r.fullData with
  | none => []
  | some fullData => [objectEvent c track h r.priority fullData]

/-- `on_receive_datagram_frame`. -/
def onReceiveDatagramFrame (lib : FecLib) (io : ReceiveIO) (t : Transport) (c : Conn)
    (payload : Bytes) : Except Fault (Transport × Conn × List Effect) :=
  if t.isServer ∧ ¬c.authenticated then .ok (t, c, [])
  else
    match payload with
    | [] => .ok (t, c, [])
    | trackId :: _ =>
      if trackId = MOQ_TRACK_TELEMETRY then
        .ok ({ t with owd := receiveTelemetry t.owd payload }, c, [])
      else if payload.length < FecPacketHeader.size then .ok (t, c, [])
      else
        match findSubscriptionByAlias c.subscriptions trackId io.uninitTrack with
        | none => .ok (t, c, [])
        | some track =>
          let h := FecPacketHeader.decode payload
          let reply := Effect.datagram c.ptr h.pathId.toNat (telemetryReply io h).encode
          if 16384 < h.totalSymbols ∨ 4096 < h.symbolSize then .ok (t, c, [reply])
          else if payload.length < FecPacketHeader.size + h.symbolSize.toNat then
            .ok (t, c, [reply])
          else do
            let r ← assemble lib t.fecCache io track.type c.assemblers h
              (payload.drop FecPacketHeader.size)
            .ok ({ t with fecCache := r.fecCache }, { c with assemblers := r.cache },
              reply :: assembleEffects io c track h r)

end Bishlink
