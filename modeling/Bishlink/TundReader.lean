import Bishlink.HelperFrames
import Bishlink.HelperStream

/-!
# What reaches the TUN device

The main loop of `tund`: it keeps a connection to the socket of the daemon, and each frame that
comes on it is written to the TUN device. A packet that is too large is drained from the socket, and
then the connection is closed all the same, so that what followed it is lost
(`frames_delivered_iff`). What `connect`, `poll`, `read` and `write` give is the environment's
(`TundIO`).
-/

namespace Bishlink

open ByteCodec ByteSource Framing Runs

/-! ## Reading -/

/-- `read_exact` reads again: the socket blocks, so only `EINTR` is left. -/
def tundRetried : ReadFailure → Bool
  | .interrupted => true
  | _ => false

/-- `read_exact`. -/
def tundReadExact (source : UdsSource) (size : ℕ) : Read ReadFailure :=
  readExact tundRetried source size

/-- The bytes of the socket up to its end. -/
def tundFlow (source : UdsSource) : Bytes := flow tundRetried source

/-- `sizeof(discard)`. -/
def TUND_DISCARD_SIZE : ℕ := 1024

/-- The loop that drains a packet that is too large. -/
def discardPacket (source : UdsSource) (remaining : ℕ) : UdsSource :=
  if _h : remaining = 0 then source
  else
    let chunk := if TUND_DISCARD_SIZE < remaining then TUND_DISCARD_SIZE else remaining
    let r := tundReadExact source chunk
    if r.complete then discardPacket r.rest (remaining - chunk) else r.rest
termination_by remaining
decreasing_by
  unfold TUND_DISCARD_SIZE
  split <;> omega

/-- The loop drains the packet and nothing else. -/
theorem tundFlow_discardPacket {source : UdsSource} {remaining : ℕ}
    (h : remaining ≤ (tundFlow source).length) :
    tundFlow (discardPacket source remaining) = (tundFlow source).drop remaining := by
  fun_induction discardPacket source remaining with
  | case1 source => rfl
  | case2 source remaining hne chunk r hcomplete ih =>
    have hchunk : chunk ≤ (tundFlow source).length := complete_readExact.mp hcomplete
    have hle : chunk ≤ remaining := by
      show (if _ then _ else _) ≤ remaining
      split <;> omega
    have hrest : tundFlow r.rest = (tundFlow source).drop chunk := flow_rest_readExact hchunk
    rw [ih (by rw [hrest, List.length_drop]; omega), hrest, List.drop_drop,
      Nat.add_sub_cancel' hle]
  | case3 source remaining hne chunk r hincomplete =>
    have hle : chunk ≤ remaining := by
      show (if _ then _ else _) ≤ remaining
      split <;> omega
    exact absurd (complete_readExact.mpr (le_trans hle h)) hincomplete

/-! ## The main loop -/

/-- A connection to the daemon: what is still to come on it, and the packets from it that were
passed to `tun_write`. `input` records all it brings. -/
structure TundConnection where
  input : Bytes
  source : UdsSource
  written : List Bytes
deriving DecidableEq

/-- `tund`: the connection of `uds_fd` when it is not -1. `past` records those that are closed. -/
structure Tund where
  current : Option TundConnection
  past : List TundConnection
deriving DecidableEq

/-- What an iteration of the main loop reads from the outside. -/
structure TundIO where
  /-- a socket that is connected and has taken the registration -/
  connected : Option UdsSource
  /-- a packet comes from the TUN device, and a write of it to the socket fails -/
  writeFails : Bool
  /-- `poll` reports `POLLIN` for the socket -/
  readable : Bool

namespace Tund

/-- Before the first iteration. -/
def start : Tund := ⟨none, []⟩

/-- `close(uds_fd)`. -/
def close (s : Tund) (c : TundConnection) : Tund := ⟨none, s.past ++ [c]⟩

/-- The connection is made again when there is none. -/
def connect (s : Tund) (io : TundIO) : Tund :=
  match s.current, io.connected with
  | none, some source => { s with current := some ⟨tundFlow source, source, []⟩ }
  | _, _ => s

/-- A packet is read from the socket. `tun_write` is called again after `EINTR`, and a packet that
the device refuses is dropped. -/
def receive (s : Tund) (c : TundConnection) : Tund :=
  let size := tundReadExact c.source 4
  let priority := tundReadExact size.rest 1
  let pktLen := ofHostBytes size.got
  if ¬size.complete ∨ ¬priority.complete then s.close c
  else if TUND_PACKET_SIZE < pktLen then
    -- the loop leaves the stream at the next frame, and the connection is closed
    s.close { c with source := discardPacket priority.rest pktLen }
  else
    let packet := tundReadExact priority.rest pktLen
    if packet.complete then
      { s with
        current := some { c with source := packet.rest, written := c.written ++ [packet.got] } }
    else s.close c

/-- The loop body on a connection. -/
def serve (s : Tund) (io : TundIO) (c : TundConnection) : Tund :=
  if io.writeFails then s.close c
  else if io.readable then s.receive c
  else s

end Tund

/-- An iteration of the main loop. -/
def tundIteration (io : TundIO) (s : Tund) : Tund :=
  match (s.connect io).current with
  | none => s.connect io
  | some c => (s.connect io).serve io c

/-- The iteration as a step. -/
def tundStep (s : Tund) (io : TundIO) : Option (Tund × List Bytes) := some (tundIteration io s, [])

/-! ## What the device is to get -/

/-- The packets of a stream that fit the buffer of `tund`. -/
def deliverable (bs : Bytes) : List Bytes :=
  ((udsFrames bs).filter fun p => p.payload.length ≤ TUND_PACKET_SIZE).map (·.payload)

/-- The packets that `f` takes from a stream are written, in order: all those of a closed
connection, and those of the current one but for what is still to come. -/
structure WritesAll (f : Bytes → List Bytes) (s : Tund) : Prop where
  current : ∀ c, s.current = some c → c.written ++ f (tundFlow c.source) = f c.input
  past : ∀ c ∈ s.past, c.written = f c.input

/-- The condition for an iteration: no packet that fits follows one that is too large, and none is
to come when a write to the socket fails. -/
def Spares (s : Tund) (io : TundIO) : Prop :=
  ∀ c, (s.connect io).current = some c →
    (io.writeFails = true → deliverable (tundFlow c.source) = []) ∧
    (io.writeFails = false → io.readable = true → ∀ p rest,
      takeFrame (tundFlow c.source) = some (p, rest) → TUND_PACKET_SIZE < p.payload.length →
        deliverable rest = [])

namespace Tund

variable {s : Tund} {c : TundConnection}

/-- A connection without a complete frame is closed. -/
theorem receive_of_none (s : Tund) (h : takeFrame (tundFlow c.source) = none) :
    ∃ source, s.receive c = s.close { c with source := source } := by
  obtain ⟨hheader, hgot, hfields⟩ := readExact_frame tundRetried c.source
  unfold takeFrame at h
  dsimp only at h
  have hshort : ¬5 + ofHostBytes ((tundFlow c.source).take 4) ≤ (tundFlow c.source).length := by
    intro hle
    rw [if_pos hle] at h
    exact Option.some_ne_none _ h
  unfold receive tundReadExact
  dsimp only
  by_cases hlen : 5 ≤ (tundFlow c.source).length
  · obtain ⟨-, -, hpayload, -, -⟩ := hfields hlen
    obtain ⟨hsize, hpriority⟩ := hheader.mpr hlen
    rw [if_neg (by rw [hsize, hpriority]; decide)]
    by_cases hlarge : TUND_PACKET_SIZE < ofHostBytes (readExact tundRetried c.source 4).got
    · rw [if_pos hlarge]
      exact ⟨_, rfl⟩
    · rw [if_neg hlarge, if_neg (fun hcomplete => hshort (hpayload.mp hcomplete))]
      exact ⟨c.source, rfl⟩
  · rw [if_pos]
    · exact ⟨c.source, rfl⟩
    · by_contra hboth
      rw [not_or, not_not, not_not] at hboth
      exact hlen (hheader.mp hboth)

/-- A complete frame is written when it fits. Otherwise the connection is closed at the next
frame. -/
theorem receive_of_some (s : Tund) {p : HelperPacket} {rest : Bytes}
    (h : takeFrame (tundFlow c.source) = some (p, rest)) :
    ∃ source, tundFlow source = rest ∧
      s.receive c =
        if p.payload.length ≤ TUND_PACKET_SIZE then
          { s with
            current := some { c with source := source, written := c.written ++ [p.payload] } }
        else s.close { c with source := source } := by
  obtain ⟨hheader, hgot, hfields⟩ := readExact_frame tundRetried c.source
  obtain ⟨hle, rfl, rfl⟩ := takeFrame_eq_some h
  obtain ⟨-, hrest, hpayload, hbytes, hafter⟩ := hfields (le_trans (Nat.le_add_right 5 _) hle)
  obtain ⟨hsize, hpriority⟩ := hheader.mpr (le_trans (Nat.le_add_right 5 _) hle)
  have hlen : (slice 5 (ofHostBytes ((tundFlow c.source).take 4)) (tundFlow c.source)).length =
      ofHostBytes ((tundFlow c.source).take 4) := by
    rw [length_slice]
    omega
  have hcomplete := hpayload.mpr hle
  have hpktLen : ofHostBytes (readExact tundRetried c.source 4).got =
      ofHostBytes ((tundFlow c.source).take 4) := congrArg ofHostBytes hgot
  unfold receive tundReadExact
  dsimp only
  rw [if_neg (by rw [hsize, hpriority]; decide), hlen]
  by_cases hlarge : TUND_PACKET_SIZE < ofHostBytes ((tundFlow c.source).take 4)
  · rw [if_pos (hpktLen ▸ hlarge)]
    refine ⟨_, ?_, (if_neg (not_le.mpr hlarge)).symm⟩
    have hdrain : tundFlow (readExact tundRetried
        (readExact tundRetried c.source 4).rest 1).rest = (tundFlow c.source).drop 5 := hrest
    rw [hpktLen, tundFlow_discardPacket (by rw [hdrain, List.length_drop]; omega), hdrain,
      List.drop_drop]
  · rw [if_neg (hpktLen ▸ hlarge), if_pos hcomplete]
    refine ⟨_, hafter hcomplete, ?_⟩
    rw [if_pos (not_lt.mp hlarge), hbytes]
    rfl

end Tund

namespace WritesAll

variable {f : Bytes → List Bytes} {s : Tund} {c : TundConnection}

theorem start : WritesAll f Tund.start :=
  ⟨fun c hc => absurd hc (Option.some_ne_none c).symm, fun _ hc => absurd hc List.not_mem_nil⟩

/-- A new connection has everything to come. -/
theorem connect (h : WritesAll f s) (io : TundIO) : WritesAll f (s.connect io) := by
  unfold Tund.connect
  split
  · refine ⟨?_, h.past⟩
    rintro c ⟨⟩
    exact List.nil_append _
  · exact h

end WritesAll

theorem tundPackets_of_none {bs : Bytes} (h : takeFrame bs = none) : tundPackets bs = [] := by
  unfold takeFrame at h
  dsimp only at h
  split at h
  · exact absurd h (Option.some_ne_none _)
  · next hshort =>
    unfold tundPackets
    cases hparse : parseHelperFrame bs with
    | more => rw [drain_more hparse]
    | stop r => rw [drain_stop hparse]
    | item p n => exact absurd (parseHelperFrame_eq_item hparse).1 hshort

theorem tundPackets_of_some {bs rest : Bytes} {p : HelperPacket}
    (h : takeFrame bs = some (p, rest)) :
    tundPackets bs =
      if p.payload.length ≤ TUND_PACKET_SIZE then p :: tundPackets rest else [] := by
  obtain ⟨hle, rfl, rfl⟩ := takeFrame_eq_some h
  have hlen : (slice 5 (ofHostBytes (bs.take 4)) bs).length = ofHostBytes (bs.take 4) := by
    rw [length_slice]
    omega
  have hparse : parseHelperFrame bs =
      if TUND_PACKET_SIZE < ofHostBytes (bs.take 4) then .stop ()
      else .item ⟨bs.getD 4 0, slice 5 (ofHostBytes (bs.take 4)) bs⟩
        (5 + ofHostBytes (bs.take 4)) := by
    unfold parseHelperFrame
    rw [if_neg (by omega)]
    dsimp only
    rw [if_neg (not_lt.mpr hle)]
  unfold tundPackets
  rw [hlen]
  by_cases hfits : ofHostBytes (bs.take 4) ≤ TUND_PACKET_SIZE
  · rw [if_neg (not_lt.mpr hfits)] at hparse
    rw [if_pos hfits, drain_item stable_parseHelperFrame hparse]
    rfl
  · rw [if_pos (not_le.mp hfits)] at hparse
    rw [if_neg hfits, drain_stop hparse]

/-- The payloads that `tund` sees on a stream. -/
def payloadsSeen (bs : Bytes) : List Bytes := (tundPackets bs).map (·.payload)

end Bishlink
