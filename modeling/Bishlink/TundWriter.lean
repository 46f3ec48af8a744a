import Bishlink.TrackHeader
import Bishlink.TundReader

/-!
# The whole loop of `tund`

`Tund` is what the loop reads from the daemon. Here is the loop with both directions: it connects
and registers, takes a packet from the TUN device, writes its frame to the socket, and reads a frame
from it. What it reads is as before (`reader_tundLoopStep`); what it writes is the registration and
the frames of the packets it took (`framed_run`), so that the callback of `data_uds_tick` gets these
packets and no others (`tun_packets_passed`).
-/

namespace Bishlink

open ByteCodec ByteSource DataUds Framing Runs

/-! ## Writing -/

/-- What a `write` on the blocking socket gives. -/
inductive TundWrite where
  | wrote (n : ℕ)
  | interrupted
  | failed
deriving DecidableEq

namespace TundWrite

/-- The bytes that the socket has taken. -/
def sent : TundWrite → Bytes → Bytes
  | .wrote n, buf => buf.take n
  | .interrupted, _ => []
  | .failed, _ => []

/-- `wret < 0`. -/
def negative : TundWrite → Bool
  | .wrote _ => false
  | .interrupted => true
  | .failed => true

/-- The socket has taken all of it. -/
def whole : TundWrite → Bytes → Bool
  | .wrote n, buf => decide (buf.length ≤ n)
  | .interrupted, _ => false
  | .failed, _ => false

end TundWrite

/-- The loop over `written`: what the socket has taken, and whether no write has failed. Without a
result the last `write` has not returned. -/
def writeTunPacket : List TundWrite → Bytes → Option (Bytes × Bool)
  | _, [] => some ([], true)
  | [], _ :: _ => none
  | .wrote n :: writes, buf =>
    (writeTunPacket writes (buf.drop n)).map fun r => (buf.take n ++ r.1, r.2)
  | .interrupted :: writes, buf => writeTunPacket writes buf
  | .failed :: _, _ => some ([], false)

/-! ## The state -/

/-- The arguments of `tund` that the loop uses. -/
structure TundConfig where
  trackName : Bytes
  priority : UInt8
  useReliable : Bool
  length_trackName : trackName.length < 64
deriving DecidableEq

/-- What `reg_hdr` and `track_name` say. -/
def TundConfig.header (cfg : TundConfig) : TrackHeader where
  type := MOQ_TRACK_DATA
  flags := if cfg.useReliable then MOQ_TRACK_FLAG_RELIABLE else MOQ_TRACK_FLAG_FEC_ENABLED
  name := cfg.trackName
  length_name := lt_trans cfg.length_trackName (by decide)

/-- A connection that has registered. `sent` records what the socket has taken, `taken` the packets
from the TUN device that the loop has begun to write. -/
structure TundLink where
  reader : TundConnection
  sent : Bytes
  taken : List Bytes
deriving DecidableEq

/-- The whole loop: the connection of `uds_fd` when it is not -1, and those that are closed. -/
structure TundLoop where
  current : Option TundLink
  past : List TundLink
deriving DecidableEq

/-- What `socket`, `connect` and the writes of the registration give. -/
inductive TundSocket where
  | noSocket
  | refused
  | connected (source : UdsSource) (header name : TundWrite)

/-- What an iteration reads from the outside. -/
structure TundLoopIO where
  socket : TundSocket
  /-- `poll` gives `EINTR` -/
  pollInterrupted : Bool
  /-- the packet that the TUN device has, and none when it is empty -/
  tun : Bytes
  sizeWrite : TundWrite
  priorityWrite : TundWrite
  packetWrites : List TundWrite
  /-- `poll` reports `POLLIN` for the socket -/
  readable : Bool

namespace TundLoop

/-- Before the first iteration. -/
def start : TundLoop := ⟨none, []⟩

/-- `close(uds_fd)`. -/
def close (s : TundLoop) (l : TundLink) : TundLoop := ⟨none, s.past ++ [l]⟩

/-- All connections. -/
def links (s : TundLoop) : List TundLink := s.past ++ s.current.toList

/-- The head of the loop, and whether the iteration goes on to `poll`. -/
def connect (s : TundLoop) (cfg : TundConfig) (socket : TundSocket) : TundLoop × Bool :=
  match s.current, socket with
  | some _, _ => (s, true)
  | none, .noSocket => (s, true)
  | none, .refused => (s, false)
  | none, .connected source header name =>
    if header.whole (cfg.header.registration.take 3) && name.whole cfg.trackName then
      ({ s with current := some ⟨⟨tundFlow source, source, []⟩, cfg.header.registration, []⟩ },
        true)
    else (s, false)

end TundLoop

namespace TundLink

/-- A packet from the TUN device goes to the socket: the connection then, and whether it is open. A
`write` of the size or of the priority that takes less is not seen. -/
def sendPacket (l : TundLink) (cfg : TundConfig) (io : TundLoopIO) (packet : Bytes) :
    Option (TundLink × Bool) :=
  let size := l.sent ++ io.sizeWrite.sent (hostBytes packet.length)
  let priority := size ++ io.priorityWrite.sent [cfg.priority]
  let taken := l.taken ++ [packet]
  if io.sizeWrite.negative then some ({ l with sent := size, taken := taken }, false)
  else if io.priorityWrite.negative then some ({ l with sent := priority, taken := taken }, false)
  else
    (writeTunPacket io.packetWrites packet).map fun r =>
      ({ l with sent := priority ++ r.1, taken := taken }, r.2)

/-- A frame is read from the socket, as `Tund.receive` does. -/
def receive (l : TundLink) : TundLink × Bool :=
  let r := Tund.start.receive l.reader
  match r.current with
  | some reader => ({ l with reader := reader }, true)
  | none => ({ l with reader := r.past.headD l.reader }, false)

end TundLink

namespace TundLoop

/-- The connection goes on, or is closed. -/
def settle (s : TundLoop) (r : TundLink × Bool) : TundLoop :=
  if r.2 then { s with current := some r.1 } else s.close r.1

/-- The loop body behind `poll`, on a connection. After a failed write there is nothing to read. -/
def serve (s : TundLoop) (cfg : TundConfig) (io : TundLoopIO) (l : TundLink) : Option TundLoop :=
  let packet := io.tun.take TUND_PACKET_SIZE
  let r := if packet = [] then some (l, true) else l.sendPacket cfg io packet
  r.map fun r => if r.2 && io.readable then s.settle r.1.receive else s.settle r

end TundLoop

/-- An iteration of the main loop. Without a connection a packet from the TUN device is dropped. -/
def tundLoopStep (cfg : TundConfig) (s : TundLoop) (io : TundLoopIO) :
    Option (TundLoop × List Bytes) :=
  let r := s.connect cfg io.socket
  if r.2 && !io.pollInterrupted then
    match r.1.current with
    | none => some (r.1, [])
    | some l => (r.1.serve cfg io l).map fun s' => (s', [])
  else some (r.1, [])

/-! ## The reading half -/

/-- What the iteration is for the reader. -/
def TundLoopIO.observed (io : TundLoopIO) (cfg : TundConfig) : TundIO where
  connected :=
    match io.socket with
    | .connected source header name =>
      if header.whole (cfg.header.registration.take 3) && name.whole cfg.trackName then some source
      else none
    | _ => none
  -- the writes come before the read of the same pass
  writeFails :=
    !io.pollInterrupted && !(io.tun.take TUND_PACKET_SIZE).isEmpty &&
      (io.sizeWrite.negative || io.priorityWrite.negative ||
        (writeTunPacket io.packetWrites (io.tun.take TUND_PACKET_SIZE)).any fun r => !r.2)
  readable := !io.pollInterrupted && io.readable

namespace TundLoop

/-- What the reader sees of the loop. -/
def tund (s : TundLoop) : Tund := ⟨s.current.map (·.reader), s.past.map (·.reader)⟩

theorem tund_close (s : TundLoop) (l : TundLink) : (s.close l).tund = s.tund.close l.reader := by
  unfold tund close Tund.close
  rw [List.map_append]
  rfl

theorem tund_connect (s : TundLoop) (cfg : TundConfig) (io : TundLoopIO) :
    (s.connect cfg io.socket).1.tund = s.tund.connect (io.observed cfg) := by
  unfold connect Tund.connect TundLoopIO.observed
  cases hcurrent : s.current with
  | some l => simp [tund, hcurrent]
  | none =>
    cases io.socket with
    | noSocket => simp [tund, hcurrent]
    | refused => simp [tund, hcurrent]
    | connected source header name =>
      dsimp only
      split <;> simp [tund, hcurrent]

/-- A read leaves the connection open, or closes it, whatever connections there were before. -/
theorem receive_cases (c : TundConnection) : ∃ c',
    (∀ s : Tund, s.receive c = { s with current := some c' }) ∨
      ∀ s : Tund, s.receive c = s.close c' := by
  unfold Tund.receive
  dsimp only
  by_cases hheader : ¬(tundReadExact c.source 4).complete = true ∨
      ¬(tundReadExact (tundReadExact c.source 4).rest 1).complete = true
  · exact ⟨c, Or.inr fun s => if_pos hheader⟩
  simp only [if_neg hheader]
  by_cases hlarge : TUND_PACKET_SIZE < ofHostBytes (tundReadExact c.source 4).got
  · simp only [if_pos hlarge]
    exact ⟨_, Or.inr fun s => rfl⟩
  simp only [if_neg hlarge]
  by_cases hpacket : (tundReadExact (tundReadExact (tundReadExact c.source 4).rest 1).rest
      (ofHostBytes (tundReadExact c.source 4).got)).complete = true
  · simp only [if_pos hpacket]
    exact ⟨_, Or.inl fun s => rfl⟩
  · simp only [if_neg hpacket]
    exact ⟨c, Or.inr fun s => rfl⟩

/-- A frame that is read is read as by `Tund`, and nothing is written. -/
theorem receive_spec (l : TundLink) : (∃ reader, l.receive.1 = { l with reader := reader }) ∧
    ∀ s : TundLoop, (s.settle l.receive).tund = s.tund.receive l.reader := by
  obtain ⟨c', hopen | hclosed⟩ := receive_cases l.reader
  · have hreceive : l.receive = ({ l with reader := c' }, true) := by
      unfold TundLink.receive
      rw [hopen]
    rw [hreceive]
    refine ⟨⟨c', rfl⟩, fun s => ?_⟩
    rw [hopen]
    rfl
  · have hreceive : l.receive = ({ l with reader := c' }, false) := by
      unfold TundLink.receive
      rw [hclosed]
      rfl
    rw [hreceive]
    refine ⟨⟨c', rfl⟩, fun s => ?_⟩
    rw [hclosed]
    exact s.tund_close _

end TundLoop

/-! ## The writing half -/

/-- The frame of a packet from the TUN device. -/
def TundConfig.frame (cfg : TundConfig) (packet : Bytes) : Bytes :=
  helperFrame ⟨cfg.priority, packet⟩

/-- A `write` of these bytes that does not fail takes all of them. -/
def TundWrite.AllOrNothing (w : TundWrite) (len : ℕ) : Prop := ∀ n, w = .wrote n → len ≤ n

theorem TundWrite.AllOrNothing.sent_eq {w : TundWrite} {buf : Bytes}
    (h : w.AllOrNothing buf.length) :
    (w.negative = true → w.sent buf = []) ∧ (w.negative = false → w.sent buf = buf) := by
  cases w with
  | wrote n => exact ⟨fun hneg => absurd hneg.symm (by simp [negative]),
      fun _ => List.take_of_length_le (h n rfl)⟩
  | interrupted => exact ⟨fun _ => rfl, fun hneg => absurd hneg (by simp [negative])⟩
  | failed => exact ⟨fun _ => rfl, fun hneg => absurd hneg (by simp [negative])⟩

/-- The loop over `written` takes a front part of the packet, and all of it unless a write fails. -/
theorem writeTunPacket_spec {writes : List TundWrite} {buf : Bytes} {r : Bytes × Bool}
    (h : writeTunPacket writes buf = some r) : r.1 <+: buf ∧ (r.2 = true → r.1 = buf) := by
  fun_induction writeTunPacket writes buf generalizing r with
  | case1 writes =>
    rw [← Option.some.inj h]
    exact ⟨List.nil_prefix, fun _ => rfl⟩
  | case2 b bs => exact absurd h.symm (Option.some_ne_none _)
  | case3 n writes buf hbuf ih =>
    obtain ⟨r', hr', rfl⟩ := Option.map_eq_some_iff.mp h
    obtain ⟨hpre, hall⟩ := ih hr'
    have hsplit := List.take_append_drop n buf
    constructor
    · have htaken := (List.prefix_append_right_inj (buf.take n)).mpr hpre
      rw [hsplit] at htaken
      exact htaken
    · intro hopen
      show buf.take n ++ r'.1 = buf
      rw [hall hopen, hsplit]
  | case4 writes buf hbuf ih => exact ih h
  | case5 writes buf hbuf =>
    rw [← Option.some.inj h]
    exact ⟨List.nil_prefix, fun hopen => absurd hopen Bool.false_ne_true⟩

/-- The writes of the size and of the priority take all of it, or fail. -/
def TundLoopIO.HeadersWhole (io : TundLoopIO) : Prop :=
  io.sizeWrite.AllOrNothing 4 ∧ io.priorityWrite.AllOrNothing 1

/-- A front part of the frame goes to the socket, and all of it when the connection stays open. -/
theorem TundLink.sendPacket_spec {l l' : TundLink} {cfg : TundConfig} {io : TundLoopIO}
    {packet : Bytes} {stays : Bool} (h : l.sendPacket cfg io packet = some (l', stays))
    (hwhole : io.HeadersWhole) :
    l'.reader = l.reader ∧ l'.taken = l.taken ++ [packet] ∧
      ∃ part, l'.sent = l.sent ++ part ∧ part <+: cfg.frame packet ∧
        (stays = true → part = cfg.frame packet) := by
  obtain ⟨hsize, hpriority⟩ := hwhole
  rw [← length_hostBytes packet.length] at hsize
  have hsize := hsize.sent_eq
  have hpriority : io.priorityWrite.AllOrNothing [cfg.priority].length := hpriority
  have hpriority := hpriority.sent_eq
  have hframe : cfg.frame packet = hostBytes packet.length ++ ([cfg.priority] ++ packet) :=
    List.append_assoc _ _ _
  unfold sendPacket at h
  dsimp only at h
  -- the size, the priority, and the packet in as many writes as it takes
  cases hneg : io.sizeWrite.negative with
  | true =>
    rw [if_pos hneg, hsize.1 hneg, Option.some.injEq, Prod.mk.injEq] at h
    obtain ⟨rfl, rfl⟩ := h
    exact ⟨rfl, rfl, [], rfl, List.nil_prefix, fun h => absurd h Bool.false_ne_true⟩
  | false =>
    rw [if_neg (by rw [hneg]; exact Bool.false_ne_true), hsize.2 hneg] at h
    cases hneg' : io.priorityWrite.negative with
    | true =>
      rw [if_pos hneg', hpriority.1 hneg', List.append_nil, Option.some.injEq, Prod.mk.injEq] at h
      obtain ⟨rfl, rfl⟩ := h
      refine ⟨rfl, rfl, _, rfl, ?_, fun h => absurd h Bool.false_ne_true⟩
      rw [hframe]
      exact List.prefix_append _ _
    | false =>
      rw [if_neg (by rw [hneg']; exact Bool.false_ne_true), hpriority.2 hneg'] at h
      obtain ⟨r, hr, hmk⟩ := Option.map_eq_some_iff.mp h
      obtain ⟨rfl, rfl⟩ := Prod.mk.inj hmk
      obtain ⟨hpre, hall⟩ := writeTunPacket_spec hr
      refine ⟨rfl, rfl, hostBytes packet.length ++ ([cfg.priority] ++ r.1), ?_, ?_, ?_⟩
      · simp only [List.append_assoc]
      · rw [hframe]
        exact (List.prefix_append_right_inj _).mpr ((List.prefix_append_right_inj _).mpr hpre)
      · intro hstays
        rw [hframe, hall hstays]

/-- What a connection has been given: the registration, and the frames of all packets that were
taken but for a part of the last one. -/
structure TundLink.Framed (cfg : TundConfig) (l : TundLink) : Prop where
  lower : cfg.header.registration ++ l.taken.dropLast.flatMap cfg.frame <+: l.sent
  upper : l.sent <+: cfg.header.registration ++ l.taken.flatMap cfg.frame
  sizes : ∀ packet ∈ l.taken, packet ≠ [] ∧ packet.length ≤ TUND_PACKET_SIZE

/-- The connection that is open has been given all frames. -/
structure TundLink.Whole (cfg : TundConfig) (l : TundLink) : Prop where
  sent_eq : l.sent = cfg.header.registration ++ l.taken.flatMap cfg.frame
  sizes : ∀ packet ∈ l.taken, packet ≠ [] ∧ packet.length ≤ TUND_PACKET_SIZE

theorem TundLink.Whole.framed {cfg : TundConfig} {l : TundLink} (h : l.Whole cfg) :
    l.Framed cfg := by
  refine ⟨?_, h.sent_eq ▸ List.prefix_refl _, h.sizes⟩
  rw [h.sent_eq, List.prefix_append_right_inj]
  obtain ⟨last, hlast⟩ := List.dropLast_prefix l.taken
  conv_rhs => rw [← hlast, List.flatMap_append]
  exact List.prefix_append _ _

/-- Both, for all connections of the loop. -/
structure TundLoop.Framed (cfg : TundConfig) (s : TundLoop) : Prop where
  current : ∀ l, s.current = some l → l.Whole cfg
  past : ∀ l ∈ s.past, l.Framed cfg

namespace TundLoop

variable {cfg : TundConfig} {s : TundLoop}

theorem framed_start (cfg : TundConfig) : TundLoop.start.Framed cfg :=
  ⟨fun l hl => absurd hl.symm (Option.some_ne_none l), fun _ hl => absurd hl List.not_mem_nil⟩

theorem Framed.connect (h : s.Framed cfg) (socket : TundSocket) :
    (s.connect cfg socket).1.Framed cfg := by
  unfold TundLoop.connect
  split
  · exact h
  · exact h
  · exact h
  · split
    · refine ⟨?_, h.past⟩
      rintro l ⟨⟩
      exact ⟨(List.append_nil _).symm, fun _ hp => absurd hp List.not_mem_nil⟩
    · exact h

/-- A connection that goes on has been given all, one that is closed all but a part. -/
theorem Framed.settle (h : s.Framed cfg) {r : TundLink × Bool} (hopen : r.2 = true → r.1.Whole cfg)
    (hclosed : r.1.Framed cfg) : (s.settle r).Framed cfg := by
  unfold TundLoop.settle
  by_cases hr : r.2 = true
  · rw [if_pos hr]
    refine ⟨?_, h.past⟩
    rintro l ⟨⟩
    exact hopen hr
  · rw [if_neg hr]
    refine ⟨fun l hl => absurd hl.symm (Option.some_ne_none l), fun l hl => ?_⟩
    rcases List.mem_append.mp hl with hl | hl
    · exact h.past l hl
    · rw [List.mem_singleton.mp hl]
      exact hclosed

/-- The loop body: what the socket is given, and how the reader sees it. -/
theorem Framed.serve {s' : TundLoop} {io : TundLoopIO} {l : TundLink} (h : s.Framed cfg)
    (hl : s.current = some l) (hwhole : io.HeadersWhole) (hserve : s.serve cfg io l = some s') :
    s'.Framed cfg := by
  have hthis := h.current l hl
  unfold TundLoop.serve at hserve
  dsimp only at hserve
  obtain ⟨r, hr, rfl⟩ := Option.map_eq_some_iff.mp hserve
  have hsent : (r.2 = true → r.1.Whole cfg) ∧ r.1.Framed cfg := by
    by_cases hpacket : io.tun.take TUND_PACKET_SIZE = []
    · rw [if_pos hpacket, Option.some.injEq] at hr
      rw [← hr]
      exact ⟨fun _ => hthis, hthis.framed⟩
    · rw [if_neg hpacket] at hr
      obtain ⟨-, htaken, part, hsent, hpart, hall⟩ := TundLink.sendPacket_spec hr hwhole
      have hsizes : ∀ packet ∈ r.1.taken, packet ≠ [] ∧ packet.length ≤ TUND_PACKET_SIZE := by
        intro packet hmem
        rw [htaken] at hmem
        rcases List.mem_append.mp hmem with hmem | hmem
        · exact hthis.sizes packet hmem
        · rw [List.mem_singleton.mp hmem]
          exact ⟨hpacket, List.length_take_le _ _⟩
      -- with the packet of this round the frames are those before it and its own
      have hframes : cfg.header.registration ++ r.1.taken.flatMap cfg.frame =
          l.sent ++ cfg.frame (io.tun.take TUND_PACKET_SIZE) := by
        rw [htaken, List.flatMap_append, List.flatMap_singleton, ← List.append_assoc,
          ← hthis.sent_eq]
      refine ⟨fun hstays => ⟨?_, hsizes⟩, ?_, ?_, hsizes⟩
      · rw [hsent, hall hstays, hframes]
      · rw [htaken, List.dropLast_concat, ← hthis.sent_eq, hsent]
        exact List.prefix_append _ _
      · rw [hframes, hsent]
        exact (List.prefix_append_right_inj _).mpr hpart
  by_cases hreads : (r.2 && io.readable) = true
  · rw [if_pos hreads]
    -- a read changes only the reader
    obtain ⟨reader, hreader⟩ := (receive_spec r.1).1
    have hopen := hsent.1 (Bool.and_eq_true_iff.mp hreads).1
    have hkept : r.1.receive.1.Whole cfg := by
      rw [hreader]
      exact ⟨hopen.sent_eq, hopen.sizes⟩
    exact h.settle (fun _ => hkept) hkept.framed
  · rw [if_neg hreads]
    exact h.settle hsent.1 hsent.2

/-- An iteration gives each connection frames. -/
theorem Framed.step {s' : TundLoop} {io : TundLoopIO} {o : List Bytes} (h : s.Framed cfg)
    (hwhole : io.HeadersWhole) (hstep : tundLoopStep cfg s io = some (s', o)) : s'.Framed cfg := by
  have hconnect := h.connect io.socket
  unfold tundLoopStep at hstep
  dsimp only at hstep
  split at hstep
  · split at hstep
    · rw [← (Prod.mk.inj (Option.some.inj hstep)).1]
      exact hconnect
    next l hl =>
      obtain ⟨t, ht, hmk⟩ := Option.map_eq_some_iff.mp hstep
      rw [← (Prod.mk.inj hmk).1]
      exact hconnect.serve hl hwhole ht
  · rw [← (Prod.mk.inj (Option.some.inj hstep)).1]
    exact hconnect

/-- In every state of a run the connections have been given frames. -/
theorem framed_run {ios : List TundLoopIO} {o : List Bytes} (hwhole : ∀ io ∈ ios, io.HeadersWhole)
    (hrun : run (tundLoopStep cfg) TundLoop.start ios = some (s, o)) : s.Framed cfg :=
  invariant_along (G := fun _ io => io.HeadersWhole) (framed_start cfg)
    (fun _ _ _ _ h hwhole hstep => h.step hwhole hstep) ios s o
    (along_of_mem (fun io hio _ => hwhole io hio) _) hrun

/-- Whether the connection stays open. -/
theorem sendPacket_stays {l l' : TundLink} {io : TundLoopIO} {packet : Bytes} {stays : Bool}
    (h : l.sendPacket cfg io packet = some (l', stays)) :
    l'.reader = l.reader ∧ stays = !(io.sizeWrite.negative || io.priorityWrite.negative ||
      (writeTunPacket io.packetWrites packet).any fun r => !r.2) := by
  unfold TundLink.sendPacket at h
  dsimp only at h
  cases hsize : io.sizeWrite.negative with
  | true =>
    rw [if_pos hsize, Option.some.injEq, Prod.mk.injEq] at h
    obtain ⟨rfl, rfl⟩ := h
    exact ⟨rfl, rfl⟩
  | false =>
    rw [if_neg (by rw [hsize]; exact Bool.false_ne_true)] at h
    cases hpriority : io.priorityWrite.negative with
    | true =>
      rw [if_pos hpriority, Option.some.injEq, Prod.mk.injEq] at h
      obtain ⟨rfl, rfl⟩ := h
      exact ⟨rfl, rfl⟩
    | false =>
      rw [if_neg (by rw [hpriority]; exact Bool.false_ne_true)] at h
      obtain ⟨r, hr, hmk⟩ := Option.map_eq_some_iff.mp h
      obtain ⟨rfl, rfl⟩ := Prod.mk.inj hmk
      refine ⟨rfl, ?_⟩
      rw [hr, Option.any_some, Bool.false_or, Bool.false_or, Bool.not_not]

/-- The loop body on a connection is the reader's. -/
theorem tund_serve {s' : TundLoop} {io : TundLoopIO} {l : TundLink}
    (hl : s.current = some l) (hpoll : io.pollInterrupted = false)
    (hserve : s.serve cfg io l = some s') : s'.tund = s.tund.serve (io.observed cfg) l.reader := by
  unfold TundLoop.serve at hserve
  dsimp only at hserve
  obtain ⟨r, hr, rfl⟩ := Option.map_eq_some_iff.mp hserve
  have hstays : r.1.reader = l.reader ∧ r.2 = !(io.observed cfg).writeFails := by
    by_cases hpacket : io.tun.take TUND_PACKET_SIZE = []
    · rw [if_pos hpacket, Option.some.injEq] at hr
      rw [← hr, TundLoopIO.observed, hpacket]
      exact ⟨rfl, by simp⟩
    · rw [if_neg hpacket] at hr
      obtain ⟨hreader, hopen⟩ := sendPacket_stays hr
      refine ⟨hreader, hopen.trans ?_⟩
      unfold TundLoopIO.observed
      rw [hpoll, List.isEmpty_eq_false_iff.mpr hpacket]
      rfl
  have hreadable : (io.observed cfg).readable = io.readable := by
    unfold TundLoopIO.observed
    rw [hpoll]
    rfl
  unfold Tund.serve
  rw [hstays.2, hreadable]
  cases hfails : (io.observed cfg).writeFails with
  | true =>
    rw [if_neg (by simp), if_pos rfl, settle, hstays.2, hfails, if_neg (by simp), tund_close,
      hstays.1]
  | false =>
    rw [if_neg Bool.false_ne_true]
    cases hread : io.readable with
    | true =>
      rw [if_pos (by decide), if_pos rfl, (receive_spec r.1).2, hstays.1]
    | false =>
      rw [if_neg (by decide), if_neg Bool.false_ne_true, settle, hstays.2, hfails,
        if_pos (by decide), tund, tund, hl, Option.map_some, Option.map_some, hstays.1]

/-- Without a connection to go on with the iteration ends at once. -/
theorem goes_of_current {socket : TundSocket} {l : TundLink}
    (h : (s.connect cfg socket).1.current = some l) : (s.connect cfg socket).2 = true := by
  unfold TundLoop.connect at h ⊢
  cases hs : s.current with
  | some l' => rfl
  | none =>
    rw [hs] at h
    cases socket with
    | noSocket => rfl
    | refused => exact absurd (hs.symm.trans h) (Option.some_ne_none l).symm
    | connected source header name =>
      dsimp only at h ⊢
      split
      · rfl
      · next hnot =>
        rw [if_neg hnot] at h
        exact absurd (hs.symm.trans h) (Option.some_ne_none l).symm

/-- The iteration is the reader's. -/
theorem reader_tundLoopStep {s' : TundLoop} {io : TundLoopIO} {o : List Bytes}
    (hstep : tundLoopStep cfg s io = some (s', o)) :
    s'.tund = tundIteration (io.observed cfg) s.tund := by
  have hconnect := s.tund_connect cfg io
  unfold tundLoopStep at hstep
  dsimp only at hstep
  unfold tundIteration
  rw [← hconnect]
  by_cases hgoes : ((s.connect cfg io.socket).2 && !io.pollInterrupted) = true
  · rw [if_pos hgoes] at hstep
    obtain ⟨-, hpoll⟩ := Bool.and_eq_true_iff.mp hgoes
    rw [Bool.not_eq_true'] at hpoll
    cases hl : (s.connect cfg io.socket).1.current with
    | none =>
      rw [hl] at hstep
      obtain rfl := (Prod.mk.inj (Option.some.inj hstep)).1
      unfold tund
      rw [hl]
      rfl
    | some l =>
      rw [hl] at hstep
      obtain ⟨t, ht, hmk⟩ := Option.map_eq_some_iff.mp hstep
      rw [← (Prod.mk.inj hmk).1, tund_serve hl hpoll ht]
      have hcurrent : (s.connect cfg io.socket).1.tund.current = some l.reader := by
        rw [tund, hl]
        rfl
      rw [hcurrent]
  · rw [if_neg hgoes] at hstep
    obtain rfl := (Prod.mk.inj (Option.some.inj hstep)).1
    cases hl : (s.connect cfg io.socket).1.current with
    | none =>
      unfold tund
      rw [hl]
      rfl
    | some l =>
      -- `poll` was interrupted, and the connection is left as it is
      have hpoll : io.pollInterrupted = true := by
        by_contra hnot
        refine hgoes (Bool.and_eq_true_iff.mpr ⟨goes_of_current hl, ?_⟩)
        rw [Bool.eq_false_iff.mpr hnot]
        rfl
      have hcurrent : (s.connect cfg io.socket).1.tund.current = some l.reader := by
        rw [tund, hl]
        rfl
      rw [hcurrent]
      show _ = Tund.serve _ (io.observed cfg) l.reader
      unfold Tund.serve TundLoopIO.observed
      rw [hpoll]
      rfl

/-- The reader of a run has run as well. -/
theorem reader_run {ios : List TundLoopIO} {o : List Bytes} :
    run (tundLoopStep cfg) TundLoop.start ios = some (s, o) →
      run tundStep Tund.start (ios.map (·.observed cfg)) = some (s.tund, []) := by
  refine run_induction (tundLoopStep cfg) (P := fun ios s _ =>
    run tundStep Tund.start (ios.map (·.observed cfg)) = some (s.tund, [])) rfl ?_ ios s o
  intro ios s o io s' o' _ ih hstep
  rw [List.map_append, reader_tundLoopStep hstep]
  exact run_concat.mpr ⟨s.tund, [], [], ih, rfl, rfl⟩

theorem Framed.links (h : s.Framed cfg) {l : TundLink} (hl : l ∈ s.links) : l.Framed cfg := by
  rcases List.mem_append.mp hl with hl | hl
  · exact h.past l hl
  · exact (h.current l (Option.mem_toList.mp hl)).framed

end TundLoop

/-! ## What the daemon gets -/

/-- The start of a frame is no frame. -/
theorem takeFrame_of_prefix {p : HelperPacket} (h : p.payload.length < 2 ^ 32) {tail : Bytes}
    (hpre : tail <+: helperFrame p) (hne : tail ≠ helperFrame p) : takeFrame tail = none := by
  have hshort : tail.length < 5 + p.payload.length := by
    rw [← length_helperFrame]
    exact lt_of_le_of_ne hpre.length_le fun hlen => hne (hpre.eq_of_length hlen)
  cases hframe : takeFrame tail with
  | none => rfl
  | some r =>
    obtain ⟨hlen, -⟩ := takeFrame_eq_some hframe
    rw [take_helperFrame (Or.inr ⟨hpre, by omega⟩), ofHostBytes_hostBytes h] at hlen
    omega

/-- What the first bytes of a sequence of frames hold. -/
theorem udsFrames_front {packets : List HelperPacket}
    (hsize : ∀ p ∈ packets, p.payload.length < 2 ^ 32) {bs : Bytes}
    (hfront : bs <+: packets.flatMap helperFrame) :
    ∃ tail, udsFrames bs <+: packets ∧ bs = (udsFrames bs).flatMap helperFrame ++ tail ∧
      takeFrame tail = none := by
  rw [← List.append_nil (packets.flatMap helperFrame)] at hfront
  obtain ⟨packets', tail, hpackets, rfl, htail⟩ := prefix_flatMap hfront
  have hnone : takeFrame tail = none := by
    rcases htail with htail | ⟨p, hp, hpre, hne⟩
    · rw [List.prefix_nil.mp htail]
      rfl
    · exact takeFrame_of_prefix (hsize p hp) hpre hne
  rw [udsFrames_frames (fun p hp => hsize p (hpackets.subset hp)) hnone]
  exact ⟨tail, hpackets, rfl, hnone⟩

/-- A front part of the frames with all of the first packets holds these packets. -/
theorem udsFrames_between {packets most : List HelperPacket}
    (hsize : ∀ p ∈ packets, p.payload.length < 2 ^ 32) {bs : Bytes}
    (hfront : bs <+: packets.flatMap helperFrame) (hmost : most <+: packets)
    (hback : most.flatMap helperFrame <+: bs) : most <+: udsFrames bs := by
  obtain ⟨tail, hpackets, hbs, hnone⟩ := udsFrames_front hsize hfront
  rcases List.prefix_or_prefix_of_prefix hmost hpackets with h | ⟨more, hmore⟩
  · exact h
  cases more with
  | nil =>
    rw [List.append_nil] at hmore
    exact hmore ▸ List.prefix_refl _
  | cons p more =>
    -- another frame would be there whole
    rw [hbs, ← hmore, List.flatMap_append, List.prefix_append_right_inj, List.flatMap_cons] at hback
    obtain ⟨rest, rfl⟩ := hback
    have hp : p ∈ packets := hmost.subset (by rw [← hmore]; simp)
    rw [List.append_assoc, takeFrame_helperFrame (hsize p hp)] at hnone
    exact absurd hnone (Option.some_ne_none _)

namespace DataUds

variable {d d' : DataUds} {io : UdsTickIO}

theorem connected_serve (io : UdsTickIO) (d : DataUds) (i : ℕ) :
    (d.serve io i).connected = d.connected := by
  by_cases hslot : ∃ c, d.Has i c
  · obtain ⟨c, hc⟩ := hslot
    obtain ⟨next, news, hturn, -, -⟩ := turn_serve io hc
    exact hturn.connected
  · rw [serve_of_free io hslot]

theorem connected_turns (io : UdsTickIO) (is : List ℕ) (d : DataUds) :
    (is.foldl (serve io) d).connected = d.connected := by
  induction is generalizing d with
  | nil => rfl
  | cons i is ih => rw [List.foldl_cons, ih, connected_serve]

theorem connected_tick (h : dataUdsTick io d = .ok d') :
    ∃ d₁, d.listen io = .ok d₁ ∧ d'.connected = d₁.connected := by
  unfold dataUdsTick at h
  split at h
  · exact absurd h (by simp)
  next d₁ hlisten =>
    rw [← Except.ok.inj h]
    exact ⟨d₁, hlisten, connected_turns io _ d₁⟩

/-- The record of the helpers only grows. -/
theorem connected_prefix {ticks : List UdsTickIO} {o : List HelperInput}
    (h : run udsStep d ticks = some (d', o)) : d.connected <+: d'.connected := by
  refine invariant (I := fun d' => d.connected <+: d'.connected) (List.prefix_refl _) ?_ ticks d'
    o h
  intro s io s' o' hpre hstep
  obtain ⟨s₁, hlisten, hconnected⟩ := connected_tick (udsStep_eq_some hstep)
  rw [hconnected]
  refine hpre.trans ?_
  unfold listen at hlisten
  split at hlisten
  · exact Except.ok.inj hlisten ▸ List.prefix_refl _
  · rcases accept_cases hlisten with rfl | ⟨slot, track, rest, -, rfl⟩
    · exact List.prefix_refl _
    · exact List.prefix_append _ _

/-- A registration that comes completely is put into the record. -/
theorem connected_registration {h : TrackHeader} (hfits : h.name.length ≤ UDS_NAME_SIZE)
    {source : UdsSource} {rest : Bytes} (haccepted : io.accepted = some source)
    (hflow : udsFlow source = h.registration ++ rest) (hfree : none ∈ d.clients)
    (htick : dataUdsTick io d = .ok d') :
    d'.connected = d.connected ++ [⟨h.trackId, rest⟩] := by
  have hread := readRegistration_registration h hflow
  rw [if_pos hfits] at hread
  obtain ⟨source', hread, rfl⟩ := hread
  obtain ⟨d₁, hlisten, hconnected⟩ := connected_tick htick
  rw [hconnected]
  unfold listen accept at hlisten
  rw [haccepted] at hlisten
  dsimp only at hlisten
  rw [hread] at hlisten
  dsimp only at hlisten
  cases hslot : d.clients.findIdx? (·.isNone) with
  | none => exact absurd (List.findIdx?_eq_none_iff.mp hslot none hfree) (by decide)
  | some slot =>
    rw [hslot] at hlisten
    rw [← Except.ok.inj hlisten]

/-! ## The payload buffer -/

/-- There is a buffer when one was asked for. -/
def HasBuffer (d : DataUds) : Prop := d.payloadBufCapacity = 0 ∨ d.payloadBuf = true

theorem HasBuffer.reserve (h : d.HasBuffer) {size : ℕ} :
    (d.reserve true size).HasBuffer ∧ (size ≠ 0 → (d.reserve true size).payloadBuf = true) := by
  unfold DataUds.reserve
  split
  · exact ⟨Or.inr rfl, fun _ => rfl⟩
  · next hroom =>
    refine ⟨h, fun hsize => ?_⟩
    rcases h with hzero | hbuf
    · omega
    · exact hbuf

theorem HasBuffer.buffered (h : d.HasBuffer) {i : ℕ} (hrealloc : io.reallocOk i = true) :
    Buffered io d i := by
  intro c _ p rest _ hpayload
  rw [hrealloc]
  exact h.reserve.2 fun hzero => hpayload (List.eq_nil_of_length_eq_zero hzero)

theorem HasBuffer.serve (h : d.HasBuffer) {i : ℕ} (hrealloc : io.reallocOk i = true) :
    (d.serve io i).HasBuffer := by
  unfold DataUds.serve
  split
  · exact h
  dsimp only
  split
  · exact h
  split
  · exact h
  split
  · rw [hrealloc]
    exact h.reserve.1
  · rw [hrealloc]
    exact h.reserve.1

/-- When every `realloc` succeeds, each frame finds a buffer. -/
theorem along_buffered {ticks : List UdsTickIO}
    (hrealloc : ∀ io ∈ ticks, ∀ i, io.reallocOk i = true) :
    ∀ {d : DataUds}, d.HasBuffer → Along udsStep TickBuffered d ticks := by
  -- a buffer that is there stays: `realloc` does not fail
  have hturns : ∀ {io : UdsTickIO}, (∀ i, io.reallocOk i = true) → ∀ (is : List ℕ) {d : DataUds},
      d.HasBuffer →
        Along (serveStep io) (Buffered io) d is ∧ (is.foldl (serve io) d).HasBuffer := by
    intro io hio is
    induction is with
    | nil => exact fun h => ⟨trivial, h⟩
    | cons i is ih =>
      intro d h
      have hnext := ih (h.serve (hio i))
      refine ⟨⟨h.buffered (hio i), fun d' o hstep => ?_⟩, hnext.2⟩
      rw [← (Prod.mk.inj (Option.some.inj hstep)).1]
      exact hnext.1
  have hlisten : ∀ {io : UdsTickIO} {d d' : DataUds}, d.listen io = .ok d' → d.HasBuffer →
      d'.HasBuffer := by
    intro io d d' heq h
    unfold listen at heq
    split at heq
    · rw [← Except.ok.inj heq]
      exact h
    · rcases accept_cases heq with rfl | ⟨slot, track, rest, -, rfl⟩
      · exact h
      · exact h
  induction ticks with
  | nil =>
    intro d _
    exact trivial
  | cons io ticks ih =>
    intro d h
    have hio := hrealloc io List.mem_cons_self
    refine ⟨fun d' hd' => (hturns hio _ (hlisten hd' h)).1, fun d' o hstep => ?_⟩
    apply ih fun io hio => hrealloc io (List.mem_cons_of_mem _ hio)
    have htick := udsStep_eq_some hstep
    unfold dataUdsTick at htick
    split at htick
    · exact absurd htick (by simp)
    next d₁ hd₁ =>
      rw [← Except.ok.inj htick]
      exact (hturns hio _ (hlisten hd₁ h)).2

end DataUds

/-- The records of a run of ticks in which each frame finds a buffer agree with each other. -/
theorem udsInv_run {ticks : List UdsTickIO} {d : DataUds} {o : List HelperInput}
    (hbuffered : Along udsStep TickBuffered create ticks)
    (hrun : run udsStep create ticks = some (d, o)) : UdsInv d :=
  invariant_along udsInv_create (fun _ _ s' o' h hb hstep => (dataUdsTick_kept h).1 s' o' hb hstep)
    ticks d o hbuffered hrun

/-- What the callback got from a helper that has registered: all that was there, when no frame of it
is still to be read. -/
theorem DataUds.UdsInv.inputs {d : DataUds} (h : UdsInv d) {k : ℕ} {conn : UdsConnection}
    (hconn : d.connected[k]? = some conn) :
    d.inputsOf k <+: inputsFrom k conn.trackId conn.input ∧
      ((∀ i c, d.Has i c → c.helper = k → takeFrame (udsFlow c.source) = none) →
        d.inputsOf k = inputsFrom k conn.trackId conn.input) := by
  by_cases hthere : ∃ i c, d.Has i c ∧ c.helper = k
  · obtain ⟨i, c, hc, rfl⟩ := hthere
    obtain ⟨conn', hconn', -, hinputs⟩ := h.kept.active i c hc
    obtain rfl := Option.some.inj (hconn.symm.trans hconn')
    rw [← hinputs]
    refine ⟨List.prefix_append _ _, fun hread => ?_⟩
    rw [inputsFrom, udsFrames_of_none (hread i c hc rfl)]
    exact (List.append_nil _).symm
  · have hgone := h.kept.gone k conn hconn fun i c hc heq => hthere ⟨i, c, hc, heq⟩
    exact ⟨hgone ▸ List.prefix_refl _, fun _ => hgone⟩

/-- Packets of a device are not empty. -/
theorem inputsFrom_eq_map {k : ℕ} {track : MoqTrackId} {bs : Bytes}
    (h : ∀ p ∈ udsFrames bs, p.payload ≠ []) :
    inputsFrom k track bs = (udsFrames bs).map (HelperInput.mk k track) := by
  unfold inputsFrom
  rw [List.filter_eq_self.mpr]
  intro p hp
  rw [List.isEmpty_eq_false_iff.mpr (h p hp)]
  rfl

/-- The packets in the bytes of a connection that have arrived behind the registration. -/
theorem TundLink.Framed.packets {cfg : TundConfig} {l : TundLink} (h : l.Framed cfg) {rest : Bytes}
    (harrived : cfg.header.registration ++ rest <+: l.sent) :
    udsFrames rest <+: l.taken.map (HelperPacket.mk cfg.priority) ∧
      (cfg.header.registration ++ rest = l.sent →
        l.taken.dropLast.map (HelperPacket.mk cfg.priority) <+: udsFrames rest ∧
          (l.Whole cfg → udsFrames rest = l.taken.map (HelperPacket.mk cfg.priority))) := by
  have hframes : ∀ packets : List Bytes, packets.flatMap cfg.frame =
      (packets.map (HelperPacket.mk cfg.priority)).flatMap helperFrame :=
    fun packets => by rw [List.flatMap_map]; rfl
  have hsize : ∀ p ∈ l.taken.map (HelperPacket.mk cfg.priority), p.payload.length < 2 ^ 32 := by
    intro p hp
    obtain ⟨packet, hpacket, rfl⟩ := List.mem_map.mp hp
    exact lt_of_le_of_lt (h.sizes packet hpacket).2 (by decide)
  have hupper := harrived.trans h.upper
  rw [List.prefix_append_right_inj, hframes] at hupper
  obtain ⟨-, hpackets, -, -⟩ := udsFrames_front hsize hupper
  refine ⟨hpackets, fun hall => ⟨?_, fun hwhole => ?_⟩⟩
  · have hlower := h.lower
    rw [← hall, List.prefix_append_right_inj, hframes] at hlower
    exact udsFrames_between hsize hupper ((List.dropLast_prefix _).map _) hlower
  · have hsent := hwhole.sent_eq
    rw [← hall, List.append_cancel_left_eq, hframes] at hsent
    have hnone : takeFrame [] = none := rfl
    rw [hsent, ← List.append_nil (List.flatMap _ _)]
    exact udsFrames_frames hsize hnone

/-- What the callback got from a connection: packets from the TUN device, in order. When no frame is
still to be read and all bytes have arrived, none is missing but for the last one, if it was not
written as a whole. -/
theorem TundLink.Framed.inputs {cfg : TundConfig} {l : TundLink} (h : l.Framed cfg) {rest : Bytes}
    (harrived : cfg.header.registration ++ rest <+: l.sent) {d : DataUds} (hd : UdsInv d) {k : ℕ}
    (hconn : d.connected[k]? = some ⟨cfg.header.trackId, rest⟩) :
    ∃ packets left, l.taken = packets ++ left ∧
      d.inputsOf k =
        packets.map (fun packet => ⟨k, cfg.header.trackId, ⟨cfg.priority, packet⟩⟩) ∧
      ((∀ i c, d.Has i c → c.helper = k → takeFrame (udsFlow c.source) = none) →
        cfg.header.registration ++ rest = l.sent →
          left.length ≤ 1 ∧ (l.Whole cfg → left = [])) := by
  obtain ⟨hpackets, hall⟩ := h.packets harrived
  obtain ⟨hinputs, hread⟩ := hd.inputs hconn
  have hfull : ∀ p ∈ udsFrames rest, p.payload ≠ [] := by
    intro p hp
    obtain ⟨packet, hpacket, rfl⟩ := List.mem_map.mp (hpackets.subset hp)
    exact (h.sizes packet hpacket).1
  rw [inputsFrom_eq_map hfull] at hinputs hread
  -- the callback got a front part of the packets
  have hfront := hinputs.trans (hpackets.map (HelperInput.mk k cfg.header.trackId))
  rw [List.map_map] at hfront
  refine ⟨l.taken.take (d.inputsOf k).length, l.taken.drop (d.inputsOf k).length,
    (List.take_append_drop _ _).symm, ?_, ?_⟩
  · rw [List.map_take]
    exact List.prefix_iff_eq_take.mp hfront
  · intro hnone hall'
    obtain ⟨hlower, hcomplete⟩ := hall hall'
    have hlength : (d.inputsOf k).length = (udsFrames rest).length := by
      rw [hread hnone, List.length_map]
    rw [hlength, List.length_drop]
    constructor
    · have hle := hlower.length_le
      rw [List.length_map, List.length_dropLast] at hle
      omega
    · intro hwhole
      have heq := congrArg List.length (hcomplete hwhole)
      rw [List.length_map] at heq
      rw [heq, List.drop_length]

/-- What the daemon's callback gets from `tund` on a connection, in a run of ticks in which each
frame finds a buffer: the packets from the TUN device, in order and each of them whole, under the
track of the registration. When the slot is free again and all bytes have arrived, none is missing
but for the last one, if the connection broke on it. -/
theorem tun_packets_passed {cfg : TundConfig} {ios : List TundLoopIO} {s : TundLoop}
    {o : List Bytes}
    (hwhole : ∀ io ∈ ios, io.HeadersWhole)
    (hrun : run (tundLoopStep cfg) TundLoop.start ios = some (s, o)) {l : TundLink}
    (hl : l ∈ s.links) {before after : List UdsTickIO} {tick : UdsTickIO} {source : UdsSource}
    {d d' : DataUds} {o₁ o₂ : List HelperInput} (hbefore : run udsStep create before = some (d, o₁))
    (haccepted : tick.accepted = some source) (hfree : none ∈ d.clients)
    (hregistered : cfg.header.registration <+: udsFlow source)
    (harrived : udsFlow source <+: l.sent)
    (hafter : run udsStep d (tick :: after) = some (d', o₂))
    (hbuffered : Along udsStep TickBuffered create (before ++ tick :: after)) :
    ∃ packets left, l.taken = packets ++ left ∧
      d'.inputsOf d.connected.length = packets.map (fun packet =>
        ⟨d.connected.length, cfg.header.trackId, ⟨cfg.priority, packet⟩⟩) ∧
      ((∀ i c, d'.Has i c → c.helper ≠ d.connected.length) → udsFlow source = l.sent →
        left.length ≤ 1 ∧ (s.current = some l → left = [])) := by
  obtain ⟨rest, hrest⟩ := hregistered
  have hframed := TundLoop.framed_run hwhole hrun
  have hfront : cfg.header.registration ++ rest <+: l.sent := hrest ▸ harrived
  -- the record of the helper
  obtain ⟨d₁, o₃, o₄, htick, hlater, -⟩ := run_cons.mp hafter
  have hfits : cfg.header.name.length ≤ UDS_NAME_SIZE := Nat.le_of_lt cfg.length_trackName
  have hconnected := connected_registration hfits haccepted hrest.symm hfree
    (udsStep_eq_some htick)
  have hconn : d'.connected[d.connected.length]? = some ⟨cfg.header.trackId, rest⟩ := by
    obtain ⟨more, hmore⟩ := connected_prefix hlater
    rw [← hmore, hconnected, List.append_assoc, List.getElem?_append_right (le_refl _),
      Nat.sub_self]
    rfl
  have hinv : UdsInv d' := udsInv_run hbuffered
    (run_append.mpr ⟨d, o₁, o₂, hbefore, hafter, rfl⟩)
  obtain ⟨packets, left, htaken, hinputs, hall⟩ := (hframed.links hl).inputs hfront hinv hconn
  refine ⟨packets, left, htaken, hinputs, fun hgone hsent => ?_⟩
  obtain ⟨hle, hwhole⟩ := hall (fun i c hc heq => absurd heq (hgone i c hc)) (hrest.trans hsent)
  exact ⟨hle, fun hcurrent => hwhole (hframed.current l hcurrent)⟩

/-- `tund` on a track of one letter. -/
def tunConfig : TundConfig := ⟨[97], 1, false, by decide⟩

/-- An iteration that takes a packet from the device. -/
def takes (packet : Bytes) (packetWrites : List TundWrite) : TundLoopIO where
  socket := .connected [] (.wrote 3) (.wrote 1)
  pollInterrupted := false
  tun := packet
  sizeWrite := .wrote 4
  priorityWrite := .wrote 1
  packetWrites := packetWrites
  readable := false

/-- The second packet breaks off. -/
def brokenLoop : List TundLoopIO :=
  [takes [10, 20] [.wrote 1, .interrupted, .wrote 1], takes [30, 40] [.wrote 1, .failed]]

/-- All of it arrives in two parts, and two ticks read from the helper. -/
def brokenTick (l : TundLink) : UdsTickIO where
  accepted := some [.bytes (l.sent.take 7), .bytes (l.sent.drop 7)]
  isReady _ := true
  arrived _ := true
  reallocOk _ := true

/-- The connection of `brokenLoop`. -/
def brokenLink : TundLink :=
  ⟨⟨[], [], []⟩, tunConfig.header.registration ++ tunConfig.frame [10, 20] ++ [2, 0, 0, 0, 1, 30],
    [[10, 20], [30, 40]]⟩

/-- Both packets were taken, and the callback gets the first one. -/
theorem tun_packets_passed_broken :
    ∃ d', run udsStep create (brokenTick brokenLink ::
        List.replicate 2 { brokenTick brokenLink with accepted := none }) = some (d', []) ∧
      ∃ packets left, [[10, 20], [30, 40]] = packets ++ left ∧
        d'.inputsOf 0 = packets.map (fun packet =>
          ⟨0, tunConfig.header.trackId, ⟨1, packet⟩⟩) ∧ left.length ≤ 1 := by
  have hwhole : ∀ io ∈ brokenLoop, io.HeadersWhole := by
    intro io hio
    simp only [brokenLoop, List.mem_cons, List.not_mem_nil, or_false] at hio
    rcases hio with rfl | rfl
    · exact ⟨by rintro n ⟨⟩; decide, by rintro n ⟨⟩; decide⟩
    · exact ⟨by rintro n ⟨⟩; decide, by rintro n ⟨⟩; decide⟩
  have hrun : run (tundLoopStep tunConfig) TundLoop.start brokenLoop =
      some (⟨none, [brokenLink]⟩, []) := by decide
  obtain ⟨d', hticks, hclients⟩ : ∃ d', run udsStep create (brokenTick brokenLink ::
      List.replicate 2 { brokenTick brokenLink with accepted := none }) = some (d', []) ∧
      d'.clients = List.replicate MAX_UDS_CLIENTS none := ⟨_, rfl, by decide⟩
  have hbuffered : Along udsStep TickBuffered create ([] ++ brokenTick brokenLink ::
      List.replicate 2 { brokenTick brokenLink with accepted := none }) := by
    refine along_buffered (fun io hio i => ?_) (Or.inl rfl)
    rcases List.mem_cons.mp hio with rfl | hio
    · rfl
    · rw [List.eq_of_mem_replicate hio]
      rfl
  obtain ⟨packets, left, htaken, hinputs, hall⟩ := tun_packets_passed hwhole hrun
    (List.mem_singleton_self _) (l := brokenLink) rfl rfl (by decide) (by decide) (by decide)
    hticks hbuffered
  refine ⟨_, hticks, packets, left, htaken, hinputs, (hall ?_ rfl).1⟩
  intro i c hc
  have hmem := List.mem_of_getElem? hc
  rw [hclients] at hmem
  exact absurd (List.eq_of_mem_replicate hmem) (Option.some_ne_none c)

end Bishlink
