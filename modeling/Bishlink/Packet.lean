import Bishlink.Lib.ByteCodec
import Bishlink.Track

/-!
# Datagram headers

The two packed structs that start a datagram: `fec_packet_header_t` (32 bytes) in front
of a symbol and `telemetry_datagram_t` (18 bytes), both with big-endian fields.
-/

namespace Bishlink

open ByteCodec

/-- `fec_packet_header_t`, its fields in host order. -/
structure FecPacketHeader where
  trackId : UInt8
  isKeyframe : UInt8
  priority : UInt8
  groupId : UInt32
  objectId : UInt32
  symbolIndex : UInt16
  totalSymbols : UInt16
  dataSymbols : UInt16
  symbolSize : UInt16
  originalSize : UInt32
  pathId : UInt8
  sendTimeNs : UInt64
deriving DecidableEq

/-- `sizeof(fec_packet_header_t)`. -/
def FecPacketHeader.size : ℕ := 32

/-- `telemetry_datagram_t`, its fields in host order. -/
structure TelemetryDatagram where
  trackId : UInt8
  pathId : UInt8
  sendTimeNs : UInt64
  recvTimeNs : UInt64
deriving DecidableEq

/-- `sizeof(telemetry_datagram_t)`. -/
def TelemetryDatagram.size : ℕ := 18

def FecPacketHeader.encode (h : FecPacketHeader) : Bytes :=
  [h.trackId, h.isKeyframe, h.priority] ++ toBE 4 h.groupId.toNat ++ toBE 4 h.objectId.toNat ++
    toBE 2 h.symbolIndex.toNat ++ toBE 2 h.totalSymbols.toNat ++ toBE 2 h.dataSymbols.toNat ++
    toBE 2 h.symbolSize.toNat ++ toBE 4 h.originalSize.toNat ++ [h.pathId] ++
    toBE 8 h.sendTimeNs.toNat

/-- The header overlaid on the first 32 bytes of a payload. -/
def FecPacketHeader.decode (bs : Bytes) : FecPacketHeader where
  trackId := bs.getD 0 0
  isKeyframe := bs.getD 1 0
  priority := bs.getD 2 0
  groupId := UInt32.ofNat (ofBE (slice 3 4 bs))
  objectId := UInt32.ofNat (ofBE (slice 7 4 bs))
  symbolIndex := UInt16.ofNat (ofBE (slice 11 2 bs))
  totalSymbols := UInt16.ofNat (ofBE (slice 13 2 bs))
  dataSymbols := UInt16.ofNat (ofBE (slice 15 2 bs))
  symbolSize := UInt16.ofNat (ofBE (slice 17 2 bs))
  originalSize := UInt32.ofNat (ofBE (slice 19 4 bs))
  pathId := bs.getD 23 0
  sendTimeNs := UInt64.ofNat (ofBE (slice 24 8 bs))

def TelemetryDatagram.encode (d : TelemetryDatagram) : Bytes :=
  [d.trackId, d.pathId] ++ toBE 8 d.sendTimeNs.toNat ++ toBE 8 d.recvTimeNs.toNat

def TelemetryDatagram.decode (bs : Bytes) : TelemetryDatagram where
  trackId := bs.getD 0 0
  pathId := bs.getD 1 0
  sendTimeNs := UInt64.ofNat (ofBE (slice 2 8 bs))
  recvTimeNs := UInt64.ofNat (ofBE (slice 10 8 bs))

/-! ## Round trip -/

lemma uint16_ofBE_toBE (x : UInt16) : UInt16.ofNat (ofBE (toBE 2 x.toNat)) = x := by
  rw [ofBE_toBE_of_lt (by simpa using x.toNat_lt), UInt16.ofNat_toNat]

lemma uint32_ofBE_toBE (x : UInt32) : UInt32.ofNat (ofBE (toBE 4 x.toNat)) = x := by
  rw [ofBE_toBE_of_lt (by simpa using x.toNat_lt), UInt32.ofNat_toNat]

lemma uint64_ofBE_toBE (x : UInt64) : UInt64.ofNat (ofBE (toBE 8 x.toNat)) = x := by
  rw [ofBE_toBE_of_lt (by simpa using x.toNat_lt), UInt64.ofNat_toNat]

@[simp] theorem FecPacketHeader.length_encode (h : FecPacketHeader) :
    h.encode.length = FecPacketHeader.size := by
  simp [encode, FecPacketHeader.size]

@[simp] theorem TelemetryDatagram.length_encode (d : TelemetryDatagram) :
    d.encode.length = TelemetryDatagram.size := by
  simp [encode, TelemetryDatagram.size]

/-- The receiver reads the header the sender wrote, whatever symbol follows it. -/
@[simp] theorem FecPacketHeader.decode_encode (h : FecPacketHeader) (symbol : Bytes) :
    FecPacketHeader.decode (h.encode ++ symbol) = h := by
  have hgroup : slice 3 4 (h.encode ++ symbol) = toBE 4 h.groupId.toNat := rfl
  have hobject : slice 7 4 (h.encode ++ symbol) = toBE 4 h.objectId.toNat := rfl
  have hindex : slice 11 2 (h.encode ++ symbol) = toBE 2 h.symbolIndex.toNat := rfl
  have htotal : slice 13 2 (h.encode ++ symbol) = toBE 2 h.totalSymbols.toNat := rfl
  have hdata : slice 15 2 (h.encode ++ symbol) = toBE 2 h.dataSymbols.toNat := rfl
  have hsize : slice 17 2 (h.encode ++ symbol) = toBE 2 h.symbolSize.toNat := rfl
  have horig : slice 19 4 (h.encode ++ symbol) = toBE 4 h.originalSize.toNat := rfl
  have htime : slice 24 8 (h.encode ++ symbol) = toBE 8 h.sendTimeNs.toNat := rfl
  rw [decode, hgroup, hobject, hindex, htotal, hdata, hsize, horig, htime]
  simp only [uint16_ofBE_toBE, uint32_ofBE_toBE, uint64_ofBE_toBE]
  rfl

/-- Telemetry is read as it was sent. -/
@[simp] theorem TelemetryDatagram.decode_encode (d : TelemetryDatagram) :
    TelemetryDatagram.decode d.encode = d := by
  have hsend : slice 2 8 d.encode = toBE 8 d.sendTimeNs.toNat := rfl
  have hrecv : slice 10 8 d.encode = toBE 8 d.recvTimeNs.toNat := rfl
  rw [decode, hsend, hrecv]
  simp only [uint64_ofBE_toBE]
  rfl

/-- What follows the header of a datagram is the symbol. -/
@[simp] theorem FecPacketHeader.drop_encode (h : FecPacketHeader) (symbol : Bytes) :
    (h.encode ++ symbol).drop FecPacketHeader.size = symbol :=
  List.drop_left' h.length_encode

end Bishlink
