import Bishlink.DataUds
import Bishlink.Lib.ByteSource
import Bishlink.Lib.Checked

/-!
# What the helpers send

`data_uds_tick`: a new helper is accepted into a free slot, then each helper that was polled before
is read from, one frame at most. What `accept`, `poll`, `read`, `realloc` and the readiness callback
give is the environment's (`UdsTickIO`). A registration that does not fit `name[64]` is a `Fault`.
-/

namespace Bishlink

open ByteCodec ByteSource Checked

/-! ## Reading -/

/-- A read without bytes: the end of the stream, `EINTR`, `EAGAIN` with the poll that follows, or
another error. -/
inductive ReadFailure where
  | eof
  | interrupted
  | wouldBlock (poll : PollOutcome)
  | failed
deriving DecidableEq

/-- `read_exact_timeout` reads again. -/
def ReadFailure.retried : ReadFailure → Bool
  | .interrupted => true
  | .wouldBlock .ready => true
  | .wouldBlock .interrupted => true
  | _ => false

/-- What the reads of a helper's socket give, one after the other. -/
abbrev UdsSource := List (Outcome ReadFailure)

/-- `read_exact_timeout`. -/
def readExactTimeout (source : UdsSource) (size : ℕ) : Read ReadFailure :=
  readExact ReadFailure.retried source size

/-- The bytes of a socket up to its end, or to the first stall of 10 ms. -/
def udsFlow (source : UdsSource) : Bytes := flow ReadFailure.retried source

/-! ## The state -/

/-- An active `uds_client_t`: which connection it is, its track, and what is still to come. -/
structure UdsHelper where
  helper : ℕ
  trackId : MoqTrackId
  source : UdsSource
deriving DecidableEq

/-- A call of the data callback. -/
structure HelperInput where
  helper : ℕ
  trackId : MoqTrackId
  packet : HelperPacket
deriving DecidableEq

/-- A helper that has registered, and the bytes that follow its registration. -/
structure UdsConnection where
  trackId : MoqTrackId
  input : Bytes
deriving DecidableEq

/-- `MAX_UDS_CLIENTS`. -/
def MAX_UDS_CLIENTS : ℕ := 16

/-- `data_uds_t`; `payloadBuf` says that `payload_buf` is not `NULL`. `connected` and `passed`
record the helpers that ever registered and the calls of the callback. -/
structure DataUds where
  clients : List (Option UdsHelper)
  payloadBuf : Bool
  payloadBufCapacity : ℕ
  connected : List UdsConnection
  passed : List HelperInput
  length_clients : clients.length = MAX_UDS_CLIENTS

/-- What one call of `data_uds_tick` reads from the outside, by slot where there is one for each. -/
structure UdsTickIO where
  /-- the socket `accept` gives -/
  accepted : Option UdsSource
  /-- the answer of the readiness callback -/
  isReady : ℕ → Bool
  /-- `poll` reports `POLLIN` -/
  arrived : ℕ → Bool
  /-- the `realloc` of the payload buffer succeeds -/
  reallocOk : ℕ → Bool

/-! ## Registration -/

/-- `char name[64]`. -/
def UDS_NAME_SIZE : ℕ := 64

/-- The header of a new connection: `none` when it does not come completely. -/
def readRegistration (source : UdsSource) : Except Fault (Option (MoqTrackId × UdsSource)) :=
  let header := readExactTimeout source 3
  if header.complete then
    let nameLen := (header.got.getD 2 0).toNat
    let copyLen := if nameLen < 63 then nameLen else 63
    -- all `name_len` bytes are read, and the length is cut to 63 after that
    let name := readExactTimeout header.rest nameLen
    if UDS_NAME_SIZE < name.got.length then .error (.copy name.got.length UDS_NAME_SIZE)
    else if name.complete then
      .ok (some (⟨header.got.getD 0 0, header.got.getD 1 0,
        TrackName.ofBuffer (name.got.take copyLen)⟩, name.rest))
    else .ok none
  else .ok none

namespace DataUds

/-- `data_uds_create`. -/
def create : DataUds :=
  ⟨List.replicate MAX_UDS_CLIENTS none, false, 0, [], [], List.length_replicate⟩

/-- A slot changes. -/
def setClient (s : DataUds) (i : ℕ) (c : Option UdsHelper) : DataUds :=
  { s with
    clients := s.clients.set i c
    length_clients := by rw [List.length_set, s.length_clients] }

/-- A new connection: it takes the first free slot, or is closed. -/
def accept (s : DataUds) (source : UdsSource) : Except Fault DataUds :=
  match readRegistration source with
  | .error e => .error e
  | .ok none => .ok s
  | .ok (some (track, rest)) =>
    match s.clients.findIdx? (·.isNone) with
    | none => .ok s
    | some slot =>
      .ok { s.setClient slot (some ⟨s.connected.length, track, rest⟩) with
        connected := s.connected ++ [⟨track, udsFlow rest⟩] }

/-- The payload buffer before a payload of `size` bytes is read. -/
def reserve (s : DataUds) (reallocOk : Bool) (size : ℕ) : DataUds :=
  if s.payloadBufCapacity < size then
    { s with payloadBufCapacity := size, payloadBuf := reallocOk }
  else s

/-- The turn of slot `i` in the loop over the polled clients. A read into `NULL` fails. -/
def serve (io : UdsTickIO) (s : DataUds) (i : ℕ) : DataUds :=
  match s.clients.getD i none with
  | none => s
  | some c =>
    let size := readExactTimeout c.source 4
    let priority := readExactTimeout size.rest 1
    let payloadSize := ofHostBytes size.got
    if ¬size.complete ∨ ¬priority.complete then s.setClient i none
    else if payloadSize = 0 then s.setClient i (some { c with source := priority.rest })
    else
      let payload := readExactTimeout priority.rest payloadSize
      -- the capacity is set before `realloc`, whose result is not looked at
      let s := s.reserve (io.reallocOk i) payloadSize
      if s.payloadBuf ∧ payload.complete then
        { s.setClient i (some { c with source := payload.rest }) with
          passed := s.passed ++ [⟨c.helper, c.trackId, ⟨priority.got.getD 0 1, payload.got⟩⟩] }
      else s.setClient i none

/-- The slots that are read from: active and ready when the poll array is filled, and `poll` reports
them. -/
def polled (s : DataUds) (io : UdsTickIO) : List ℕ :=
  (List.range MAX_UDS_CLIENTS).filter fun i =>
    (s.clients.getD i none).isSome && io.isReady i && io.arrived i

/-- The listener's part of a tick. -/
def listen (s : DataUds) (io : UdsTickIO) : Except Fault DataUds :=
  match io.accepted with
  | none => .ok s
  | some source => s.accept source

end DataUds

/-- `data_uds_tick`. -/
def dataUdsTick (io : UdsTickIO) (s : DataUds) : Except Fault DataUds :=
  match s.listen io with
  | .error e => .error e
  | .ok s' => .ok ((s.polled io).foldl (DataUds.serve io) s')

end Bishlink
