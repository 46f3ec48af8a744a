import Bishlink.Lib.Framing
import Bishlink.State

/-!
# Control stream messages

The messages of the control stream. `ControlMessage.encode` is the byte layout the senders
write; `parseControlMessage` is the reading half of one iteration of
`parse_control_messages`, in the order the code makes its checks: how much of the message
is there, the limits on its length, and whether a server has authenticated the peer. What
the iteration then does with a message is in `Control`.
-/

namespace Bishlink

open ByteCodec Framing

/-- A message of the control stream with the fields its branch reads. -/
inductive ControlMessage where
  | subscribe (trackAlias : UInt8) (trackId : MoqTrackId)
  | unsubscribe (trackAlias : UInt8) (trackId : MoqTrackId)
  | keyframeRequest (trackAlias : UInt8) (trackId : MoqTrackId)
  | unicast (payload : Bytes)
  | auth (token : Bytes)
  | authResponse (status : UInt8)
  | data (trackAlias : UInt8) (payload : Bytes)
  | nack (trackAlias : UInt8) (groupId objectId : UInt32) (missing : List UInt16)
  | unknown (type : UInt8)
deriving DecidableEq

/-- A track header: type byte, alias, track type, flags, name length, name. -/
def encodeTrackMessage (type trackAlias : UInt8) (trackId : MoqTrackId) : Bytes :=
  [type, trackAlias, trackId.type, trackId.flags, UInt8.ofNat trackId.name.bytes.length] ++
    trackId.name.bytes

def ControlMessage.encode : ControlMessage → Bytes
  | .subscribe trackAlias trackId => encodeTrackMessage 0x01 trackAlias trackId
  | .unsubscribe trackAlias trackId => encodeTrackMessage 0x02 trackAlias trackId
  | .keyframeRequest trackAlias trackId => encodeTrackMessage 0x06 trackAlias trackId
  | .unicast payload => 0x03 :: toBE 4 payload.length ++ payload
  | .auth token => 0x04 :: toBE 2 token.length ++ token
  | .authResponse status => [0x05, status]
  | .data trackAlias payload => 0x07 :: trackAlias :: toBE 4 payload.length ++ payload
  | .nack trackAlias groupId objectId missing =>
    0x08 :: trackAlias :: toBE 4 groupId.toNat ++ toBE 4 objectId.toNat ++
      toBE 2 missing.length ++ missing.flatMap fun i => toBE 2 i.toNat
  | .unknown type => [type]

/-- What one iteration finds at the start of the input: too few bytes (`break`), a reason
to close the connection, or a message and the number of bytes it consumes. -/
abbrev ControlParse := Parsed ControlMessage String

/-- The largest payload of a unicast or data message. -/
def MAX_CONTROL_PAYLOAD : ℕ := 1048576

/-- Entry `i` of the index list of a NACK. -/
def nackIndex (input : Bytes) (i : ℕ) : UInt16 := UInt16.ofNat (ofBE (slice (12 + i * 2) 2 input))

/-- Types 0x01, 0x02 and 0x06: a track header. `refused` is the test of the gate. -/
def parseTrackMessage (refused : Bool) (type : UInt8) (input : Bytes) : ControlParse :=
  if input.length < 5 then .more
  -- a peer is refused before the name is there
  else if refused then .stop "unauthorized"
  else
    let nameLen := (input.getD 4 0).toNat
    if input.length < 5 + nameLen then .more
    else
      let track : MoqTrackId :=
        ⟨input.getD 2 0, input.getD 3 0, TrackName.ofBuffer (slice 5 nameLen input)⟩
      let m :=
        if type = 0x01 then .subscribe (input.getD 1 0) track
        else if type = 0x02 then .unsubscribe (input.getD 1 0) track
        else .keyframeRequest (input.getD 1 0) track
      .item m (5 + nameLen)

/-- Type 0x03. -/
def parseUnicast (refused : Bool) (input : Bytes) : ControlParse :=
  if input.length < 5 then .more
  else
    let payloadSize := ofBE (slice 1 4 input)
    if MAX_CONTROL_PAYLOAD < payloadSize then .stop "protocol error: payload too large"
    else if input.length < 5 + payloadSize then .more
    else if refused then .stop "unauthorized"
    else .item (.unicast (slice 5 payloadSize input)) (5 + payloadSize)

/-- Type 0x04. -/
def parseAuth (input : Bytes) : ControlParse :=
  if input.length < 3 then .more
  else
    let tokenLen := ofBE (slice 1 2 input)
    if input.length < 3 + tokenLen then .more
    else .item (.auth (slice 3 tokenLen input)) (3 + tokenLen)

/-- Type 0x05. -/
def parseAuthResponse (input : Bytes) : ControlParse :=
  if input.length < 2 then .more else .item (.authResponse (input.getD 1 0)) 2

/-- Type 0x07. -/
def parseData (refused : Bool) (input : Bytes) : ControlParse :=
  if input.length < 6 then .more
  else
    let payloadSize := ofBE (slice 2 4 input)
    if MAX_CONTROL_PAYLOAD < payloadSize then .stop "protocol error: payload too large"
    else if input.length < 6 + payloadSize then .more
    else if refused then .stop "unauthorized"
    else .item (.data (input.getD 1 0) (slice 6 payloadSize input)) (6 + payloadSize)

/-- Type 0x08. -/
def parseNack (refused : Bool) (input : Bytes) : ControlParse :=
  if input.length < 12 then .more
  else
    let count := ofBE (slice 10 2 input)
    if input.length < 12 + count * 2 then .more
    -- here it is refused once the whole message is there
    else if refused then .stop "unauthorized"
    else
      -- `missing_count` is cut to the local array before the consumed length is computed
      let count := if 256 < count then 256 else count
      .item (.nack (input.getD 1 0) (UInt32.ofNat (ofBE (slice 2 4 input)))
        (UInt32.ofNat (ofBE (slice 6 4 input))) ((List.range count).map (nackIndex input)))
        (12 + count * 2)

/-- The reading half of an iteration of `parse_control_messages`. -/
def parseControlMessage (isServer authenticated : Bool) (input : Bytes) : ControlParse :=
  let refused := isServer && !authenticated
  match input with
  | [] => .more
  | type :: _ =>
    if type = 0x01 ∨ type = 0x02 ∨ type = 0x06 then parseTrackMessage refused type input
    else if type = 0x03 then parseUnicast refused input
    else if type = 0x04 then parseAuth input
    else if type = 0x05 then parseAuthResponse input
    else if type = 0x07 then parseData refused input
    else if type = 0x08 then parseNack refused input
    -- an unknown type is skipped, one byte at a time
    else .item (.unknown type) 1

end Bishlink
