import Mathlib.Data.List.TakeWhile

/-!
# Tracks, objects and events

The data types of `transport.h`. A track is named by a type and a C string of at most
63 bytes; an object is a byte string published on a track under a group and an object
id; an event is what the callback of the transport is told.

`Effect` collects what a call does outside the tables of the transport: the events it
raises and what it hands to QUIC, in the order the code does it.
-/

namespace Bishlink

abbrev Bytes := List UInt8

/-! ## Track names -/

/-- The C string in a `char name[64]`: at most 63 bytes, none of them NUL. -/
structure TrackName where
  bytes : Bytes
  length_le : bytes.length ≤ 63
  nul_free : (0 : UInt8) ∉ bytes
deriving DecidableEq

/-- The C string that starts a buffer, cut to what `char name[64]` can hold. -/
def TrackName.ofBuffer (bs : Bytes) : TrackName where
  bytes := (bs.take 63).takeWhile (· ≠ 0)
  length_le := by
    have h := (List.takeWhile_sublist (fun b : UInt8 => decide (b ≠ 0)) (l := bs.take 63)).length_le
    rw [List.length_take] at h
    omega
  nul_free := by
    intro h
    simpa using List.mem_takeWhile_imp h

/-- The empty name, `name[0] == '\0'`. -/
def TrackName.empty : TrackName := ⟨[], by simp, by simp⟩

theorem TrackName.ext {a b : TrackName} (h : a.bytes = b.bytes) : a = b := by
  cases a; cases b; cases h; rfl

/-- A name read back from its own bytes is the name. -/
@[simp] theorem TrackName.ofBuffer_bytes (n : TrackName) : TrackName.ofBuffer n.bytes = n := by
  apply TrackName.ext
  have htake : n.bytes.take 63 = n.bytes := List.take_of_length_le n.length_le
  show (n.bytes.take 63).takeWhile (· ≠ 0) = n.bytes
  rw [htake, List.takeWhile_eq_self_iff]
  intro b hb
  simpa using fun h0 : b = 0 => n.nul_free (h0 ▸ hb)

/-! ## Tracks -/

/-- `moq_track_type_t`. The wire carries any byte, so values without a name are kept. -/
abbrev MoqTrackType := UInt8

def MOQ_TRACK_VIDEO : MoqTrackType := 0
def MOQ_TRACK_AUDIO : MoqTrackType := 1
def MOQ_TRACK_INPUT : MoqTrackType := 2
def MOQ_TRACK_TEXT : MoqTrackType := 3
def MOQ_TRACK_DATA : MoqTrackType := 4
def MOQ_TRACK_TELEMETRY : MoqTrackType := 6

def MOQ_TRACK_FLAG_RELIABLE : UInt8 := 1
def MOQ_TRACK_FLAG_FEC_ENABLED : UInt8 := 2

/-- `moq_track_id_t`. -/
structure MoqTrackId where
  type : MoqTrackType
  flags : UInt8
  name : TrackName
deriving DecidableEq

/-- A zeroed `moq_track_id_t`. -/
def MoqTrackId.zero : MoqTrackId := ⟨0, 0, TrackName.empty⟩

/-- Same type and `strcmp(..) == 0`: the test by which all tables compare tracks. -/
def MoqTrackId.sameTrack (a b : MoqTrackId) : Bool := a.type == b.type && a.name == b.name

/-- `track->name[0] != '\0'`. -/
def MoqTrackId.named (a : MoqTrackId) : Bool := a.name != TrackName.empty

theorem MoqTrackId.sameTrack_iff (a b : MoqTrackId) :
    a.sameTrack b = true ↔ a.type = b.type ∧ a.name = b.name := by
  simp [sameTrack]

theorem MoqTrackId.sameTrack_comm {a b : MoqTrackId} :
    a.sameTrack b = true ↔ b.sameTrack a = true := by
  rw [sameTrack_iff, sameTrack_iff]
  exact ⟨fun h => ⟨h.1.symm, h.2.symm⟩, fun h => ⟨h.1.symm, h.2.symm⟩⟩

/-- `track_delivery_profile_t`. -/
structure TrackDeliveryProfile where
  reliable : Bool
  fecEnabled : Bool
deriving DecidableEq

/-- `get_track_profile`: the two delivery flags of a track. -/
def getTrackProfile (track : MoqTrackId) : TrackDeliveryProfile where
  reliable := track.flags &&& MOQ_TRACK_FLAG_RELIABLE != 0
  fecEnabled := track.flags &&& MOQ_TRACK_FLAG_FEC_ENABLED != 0

/-! ## Objects and events -/

/-- `moq_object_t`; `size` is the length of `data`. -/
structure MoqObject where
  trackId : MoqTrackId
  groupId : UInt64
  objectId : UInt64
  data : Bytes
  isKeyframe : Bool
  priority : UInt8
deriving DecidableEq

/-- `(group_id, object_id)` in the header of a datagram and in the NACK cache. -/
structure ObjectKey where
  groupId : UInt32
  objectId : UInt32
deriving DecidableEq

def MoqObject.key (obj : MoqObject) : ObjectKey := ⟨obj.groupId.toUInt32, obj.objectId.toUInt32⟩

/-- `transport_event_t`, one constructor for each `transport_event_type_t` with the fields
that are valid for it. -/
inductive TransportEvent where
  | connected
  | disconnected
  | subscribe (trackId : MoqTrackId)
  | unsubscribe (trackId : MoqTrackId)
  | object (trackId : MoqTrackId) (object : MoqObject)
  | auth (token : Bytes)
  | authComplete (success : Bool)
  | keyframeRequest (trackId : MoqTrackId)
  | objectLost (trackId : MoqTrackId) (groupId objectId : UInt64)
deriving DecidableEq

/-- What a call does outside the transport's own tables. A connection is named by its
`transport_conn_t` pointer, a stream by its id. -/
inductive Effect where
  /-- `t->callback(t->user_data, &ev)` with `ev.conn` the connection -/
  | event (conn : ℕ) (ev : TransportEvent)
  /-- `quicly_streambuf_egress_write` -/
  | streamWrite (conn stream : ℕ) (bytes : Bytes)
  /-- `quicly_streambuf_egress_shutdown` -/
  | streamShutdown (conn stream : ℕ)
  /-- `quicly_send_datagram_frames` and its `_path` form -/
  | datagram (conn path : ℕ) (bytes : Bytes)
  /-- `quicly_close` with its reason phrase -/
  | close (conn : ℕ) (reason : String)
deriving DecidableEq

/-- The connection an effect is about. -/
def Effect.conn : Effect → ℕ
  | .event c _ => c
  | .streamWrite c _ _ => c
  | .streamShutdown c _ => c
  | .datagram c _ _ => c
  | .close c _ => c

end Bishlink
