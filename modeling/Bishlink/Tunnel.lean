import Bishlink.DaemonEvents
import Bishlink.Forwarding
import Bishlink.TundWriter

/-!
# From one TUN device to another

The whole way of the packets on a reliable track. `tund` takes them from its device and frames them
for the daemon (`Uplink`); the daemon publishes them on a stream, and the far daemon reads the
stream (`Crossing`); the far daemon frames the packets of its events for the helper of the track,
and the far `tund` gives them to its own device (`Downlink`). Each part passes on what it has been
given, in order: at any time the far device has got the first packets that the near one gave
(`tunnel_in_order`), and when nothing is under way it has got all of them.
-/

namespace Bishlink

open DataUds Framing Runs

/-! ## The near host -/

/-- `tund` on a track, and the daemon in whose record of helpers the `k`-th has brought the bytes
`rest` of the connection. -/
structure Uplink (cfg : TundConfig) (s : TundLoop) (l : TundLink) (d : DataUds) (k : ℕ)
    (rest : Bytes) : Prop where
  loop : ∃ ios o, (∀ io ∈ ios, io.HeadersWhole) ∧
    run (tundLoopStep cfg) TundLoop.start ios = some (s, o)
  mem : l ∈ s.links
  ticks : ∃ ios o, Along udsStep TickBuffered create ios ∧ run udsStep create ios = some (d, o)
  helper : d.connected[k]? = some ⟨cfg.header.trackId, rest⟩
  arrived : cfg.header.registration ++ rest <+: l.sent

/-- All bytes have arrived, and the daemon has read all frames. -/
structure Uplink.Done (cfg : TundConfig) (l : TundLink) (d : DataUds) (k : ℕ) (rest : Bytes) :
    Prop where
  arrived : cfg.header.registration ++ rest = l.sent
  read : ∀ i c, d.Has i c → c.helper = k → takeFrame (udsFlow c.source) = none

/-- The packets that the callback got. -/
theorem Uplink.packets {cfg : TundConfig} {s : TundLoop} {l : TundLink} {d : DataUds} {k : ℕ}
    {rest : Bytes} (h : Uplink cfg s l d k rest) :
    ∃ packets left, l.taken = packets ++ left ∧ (d.inputsOf k).map (·.packet.payload) = packets ∧
      (∀ packet ∈ packets, packet.length ≤ TUND_PACKET_SIZE) ∧
      (Uplink.Done cfg l d k rest → left.length ≤ 1 ∧ (s.current = some l → left = [])) := by
  obtain ⟨ios, o, hwhole, hrun⟩ := h.loop
  obtain ⟨ticks, o', hbuffered, hticks⟩ := h.ticks
  have hframed := TundLoop.framed_run hwhole hrun
  obtain ⟨packets, left, htaken, hinputs, hall⟩ :=
    (hframed.links h.mem).inputs h.arrived (udsInv_run hbuffered hticks) h.helper
  refine ⟨packets, left, htaken, ?_, fun packet hpacket => ?_, fun hdone => ?_⟩
  · rw [hinputs, List.map_map]
    exact List.map_id _
  · refine ((hframed.links h.mem).sizes packet ?_).2
    rw [htaken]
    exact List.mem_append_left left hpacket
  · obtain ⟨hle, hnone⟩ := hall hdone.read hdone.arrived
    exact ⟨hle, fun hcurrent => hnone (hframed.current l hcurrent)⟩

/-! ## Between the daemons -/

/-- The packets `packets` go through `on_data_packet` and on a stream to the far daemon, whose entry
for the track is `heard`; the chunks have arrived there and have raised the events. -/
structure Crossing (lib : FecLib) (track heard : MoqTrackId) (f : Feed) (ls : List FeedLabel)
    (packets : List Bytes) (c : Conn) (trackAlias : UInt8) (sid : ℕ) (chunks : List Bytes)
    (evs : List (ℕ × TransportEvent)) : Prop where
  packets_eq : helperPackets ls = packets
  idle : f.transport.fec.buf = [] ∧ f.transport.fec.inFlush = false
  io : ∀ l ∈ ls, l.io.reallocOk = true ∧ l.io.OpensStream c
  streams : f.transport.Streams c track trackAlias
  /-- the stream that QUIC has opened -/
  opened : ∀ e ∈ (feedRun lib track f ls).2, e.conn = c.ptr →
    ∃ bytes, e = .streamWrite c.ptr sid bytes
  type_eq : heard.type = MOQ_TRACK_DATA
  /-- a subscriber of the publisher wants FEC exactly when the receiver's own entry says so -/
  flags : useFec f.transport track = (getTrackProfile heard).fecEnabled
  arrived : chunks.flatten <+: written c.ptr sid (feedRun lib track f ls).2
  seen : ∃ (cfg : DaemonConfig) (isServer : Bool) (io : ℕ → ControlIO) (q : Reception) (conn : ℕ),
    q.Awaits conn sid trackAlias heard ∧
      (receiveAll lib io (daemonApp cfg isServer) conn sid q chunks).1.seen = q.seen ++ evs

/-- Nothing waits in the grouping buffer, and all of the stream has arrived. -/
structure Crossing.Done (lib : FecLib) (track : MoqTrackId) (f : Feed) (ls : List FeedLabel)
    (c : Conn) (sid : ℕ) (chunks : List Bytes) : Prop where
  flushed : (feedRun lib track f ls).1.transport.fec.buf = []
  arrived : chunks.flatten = written c.ptr sid (feedRun lib track f ls).2

/-- What is written to a stream that nothing is written to. -/
theorem written_eq_nil {ptr sid sid' : ℕ} {o : List Effect} (hne : sid' ≠ sid)
    (honly : ∀ e ∈ o, e.conn = ptr → ∃ bytes, e = .streamWrite ptr sid bytes) :
    written ptr sid' o = [] := by
  refine List.flatMap_eq_nil_iff.mpr fun e he => ?_
  cases e with
  | streamWrite conn stream bytes =>
    refine if_neg fun hboth => ?_
    obtain ⟨bytes', heq⟩ := honly _ he hboth.1
    exact hne (hboth.2.symm.trans (Effect.streamWrite.inj heq).2.1)
  | _ => rfl

theorem track_forwardedCalls {track : MoqTrackId} {obj : MoqObject}
    {call : MoqTrackId × HelperPacket} (h : call ∈ forwardedCalls (.object track obj)) :
    call.1 = track := by
  unfold forwardedCalls at h
  dsimp only at h
  split at h
  · obtain ⟨buf, -, rfl⟩ := List.mem_map.mp h
    rfl
  · rw [List.mem_singleton.mp h]

/-- The packets of the events. -/
theorem Crossing.forwarded {lib : FecLib} {track heard : MoqTrackId} {f : Feed}
    {ls : List FeedLabel} {packets : List Bytes} {c : Conn} {trackAlias : UInt8} {sid : ℕ}
    {chunks : List Bytes} {evs : List (ℕ × TransportEvent)}
    (h : Crossing lib track heard f ls packets c trackAlias sid chunks evs)
    (hdata : track.type = MOQ_TRACK_DATA) (hreliable : (getTrackProfile track).reliable = true)
    (hsize : ∀ packet ∈ packets, packet.length ≤ TUND_PACKET_SIZE) :
    (∀ call ∈ (evs.map Prod.snd).flatMap forwardedCalls, call.1 = heard) ∧
      forwardedPackets (evs.map Prod.snd) <+: packets ∧
      (Crossing.Done lib track f ls c sid chunks →
        forwardedPackets (evs.map Prod.snd) = packets) := by
  have hls : ∀ l ∈ ls, l.Fits ∧ l.io.OpensStream c := by
    intro l hl
    refine ⟨?_, (h.io l hl).2⟩
    cases l with
    | tick io => exact trivial
    | packet io buf priority =>
      have hbuf : buf ∈ packets := h.packets_eq ▸ List.mem_filterMap.mpr ⟨_, hl, rfl⟩
      exact ⟨(h.io _ hl).1, (hsize buf hbuf).trans (by decide)⟩
  obtain ⟨sid', pending, ps, hend, hfed, honly, hwritten⟩ :=
    feedRun_stream lib hdata hreliable h.idle hls h.streams
  -- only one stream was written to, and something was written to this one
  have hsame : written c.ptr sid (feedRun lib track f ls).2 =
      written c.ptr sid' (feedRun lib track f ls).2 := by
    by_cases heq : sid = sid'
    · rw [heq]
    · rw [written_eq_nil heq honly, written_eq_nil (Ne.symm heq) h.opened]
  rw [← hsame] at hwritten
  obtain ⟨cfg, isServer, io, q, conn, hawaits, hseen⟩ := h.seen
  obtain ⟨whole, hwhole, hevents, hall⟩ := hawaits.seen lib io
    (daemonApp_spares cfg isServer conn sid) hfed.short (hwritten ▸ h.arrived)
  obtain rfl : evs = whole.map (trackEvent conn heard) :=
    List.append_cancel_left (hseen.symm.trans hevents)
  obtain ⟨groups, hpackets, hobjects, hgroups⟩ := hfed.groups
  rw [List.nil_append, h.packets_eq] at hpackets
  -- the objects that have arrived carry the first groups
  rw [hobjects] at hwhole
  obtain ⟨n, hfirst⟩ : ∃ n, whole = (groups.take n).map (carried (useFec f.transport track)) := by
    refine ⟨whole.length, ?_⟩
    rw [List.map_take]
    exact List.prefix_iff_eq_take.mp hwhole
  have hfront : (groups.take n).flatten <+: packets := by
    rw [← hpackets, ← List.take_append_drop n groups, List.flatten_append, List.append_assoc,
      List.take_append_drop]
    exact List.prefix_append _ _
  have hforwarded : forwardedPackets ((whole.map (trackEvent conn heard)).map Prod.snd) =
      (groups.take n).flatten := by
    rw [forwardedPackets_trackEvents h.type_eq, hfirst, ← h.flags]
    refine (carried_eq_iff (fun g hg => hgroups g (List.mem_of_mem_take hg)) fun buf hbuf => ?_).mpr
      (Or.inr rfl)
    exact (hsize buf (hfront.subset hbuf)).trans (by decide)
  refine ⟨?_, hforwarded ▸ hfront, fun hdone => ?_⟩
  · intro call hcall
    obtain ⟨ev, hev, hmem⟩ := List.mem_flatMap.mp hcall
    rw [List.map_map] at hev
    obtain ⟨data, -, rfl⟩ := List.mem_map.mp hev
    exact track_forwardedCalls hmem
  · have hnone : pending = [] := hend.eq_nil hdone.flushed
    have hobjects' := hall (hdone.arrived.trans hwritten)
    rw [hforwarded, ← hpackets, hnone, List.append_nil]
    have hlength := congrArg List.length (hfirst.symm.trans (hobjects'.trans hobjects))
    rw [List.length_map, List.length_map, List.length_take] at hlength
    rw [List.take_of_length_le (by omega)]

/-! ## The far host -/

/-- A call of `data_uds_send` that writes its frame as a whole, or has not returned as yet. -/
def SendCall.Whole (c : SendCall) : Prop := (writeFrame c.outcomes c.packet).returned ≠ some false

/-- The events of a stream of the track `heard` go to the socket `fd`, and `tund` reads from it. -/
structure Downlink (cfg : TundConfig) (heard : MoqTrackId) (evs : List TransportEvent)
    (clients : List UdsClient) (fd : ℕ) (calls : List SendCall) (h : HelperStreams) (s : TundLoop)
    (l : TundLink) : Prop where
  target : targetFd clients heard = some fd
  made : calls.map (fun c => (c.trackId, c.packet)) <+: evs.flatMap forwardedCalls
  whole : ∀ c ∈ calls, c.Whole
  sends : ∃ passed, run sendStep (HelperStreams.start clients) calls = some (h, passed)
  loop : ∃ ios o, run (tundLoopStep cfg) TundLoop.start ios = some (s, o)
  mem : l ∈ s.links
  arrived : l.reader.input <+: h.written fd

/-- All calls have returned, and `tund` has read all frames. -/
structure Downlink.Done (evs : List TransportEvent) (fd : ℕ) (calls : List SendCall)
    (h : HelperStreams) (s : TundLoop) (l : TundLink) : Prop where
  made : calls.map (fun c => (c.trackId, c.packet)) = evs.flatMap forwardedCalls
  returned : h.busy = false
  arrived : l.reader.input = h.written fd
  current : s.current = some l
  read : takeFrame (tundFlow l.reader.source) = none

/-- The frames of the calls for one track, one after the other. -/
structure FramesTo (clients : List UdsClient) (fd : ℕ) (packets : List HelperPacket)
    (h : HelperStreams) : Prop where
  clients_eq : h.clients = clients
  front : h.written fd <+: packets.flatMap helperFrame
  all : h.busy = false → h.written fd = packets.flatMap helperFrame

theorem clients_sendStep {h h' : HelperStreams} {c : SendCall} {o : List PassedPacket}
    (hstep : sendStep h c = some (h', o)) : h'.clients = h.clients := by
  unfold sendStep at hstep
  split at hstep
  · exact absurd hstep.symm (Option.some_ne_none _)
  · split at hstep
    · rw [Option.some.injEq, Prod.mk.injEq] at hstep
      rw [← hstep.1]
    · rw [Option.some.injEq, Prod.mk.injEq] at hstep
      rw [← hstep.1]

theorem FramesTo.step {clients : List UdsClient} {fd : ℕ} {packets : List HelperPacket}
    {h h' : HelperStreams} {c : SendCall} {o : List PassedPacket}
    (hframes : FramesTo clients fd packets h)
    (htarget : targetFd clients c.trackId = some fd) (hwhole : c.Whole)
    (hstep : sendStep h c = some (h', o)) : FramesTo clients fd (packets ++ [c.packet]) h' := by
  have hclients := (clients_sendStep hstep).trans hframes.clients_eq
  obtain ⟨hbusy, ⟨hnone, -, -⟩ | ⟨fd', htarget', -, hwritten, -, hbusy', -⟩⟩ := sendStep_cases hstep
  · rw [hframes.clients_eq, htarget] at hnone
    exact absurd hnone (Option.some_ne_none _)
  rw [hframes.clients_eq, htarget] at htarget'
  obtain rfl := Option.some.inj htarget'
  have hwrites := writes_writeFrame c.outcomes c.packet
  have hbefore := hframes.all hbusy
  refine ⟨hclients, ?_, fun hidle => ?_⟩
  · rw [hwritten, hbefore, List.flatMap_append, List.prefix_append_right_inj,
      List.flatMap_singleton]
    exact hwrites.sent_prefix
  · -- the call has returned, and not with false
    rw [hbusy', beq_eq_false_iff_ne] at hidle
    have hreturned : (writeFrame c.outcomes c.packet).returned = some true := by
      cases hr : (writeFrame c.outcomes c.packet).returned with
      | none => exact absurd hr hidle
      | some b =>
        cases b with
        | true => rfl
        | false => exact absurd hr hwhole
    rw [hwritten, hbefore, hwrites.returned_iff.mp hreturned, List.flatMap_append,
      List.flatMap_singleton]

/-- What `tund` has given to its device: the packets that it sees, and all of them on the connection
that is open but for those still to come. -/
structure Tund.Gives (s : Tund) : Prop where
  current : ∀ c, s.current = some c →
    c.written ++ payloadsSeen (tundFlow c.source) = payloadsSeen c.input
  past : ∀ c ∈ s.past, c.written <+: payloadsSeen c.input

namespace Tund.Gives

variable {s : Tund} {c : TundConnection}

theorem start : Tund.start.Gives :=
  ⟨fun c hc => absurd hc (Option.some_ne_none c).symm, fun _ hc => absurd hc List.not_mem_nil⟩

theorem connect (h : s.Gives) (io : TundIO) : (s.connect io).Gives := by
  unfold Tund.connect
  split
  · refine ⟨?_, h.past⟩
    rintro c ⟨⟩
    exact List.nil_append _
  · exact h

theorem close (h : s.Gives) (hc : s.current = some c) (source : UdsSource) :
    (s.close { c with source := source }).Gives := by
  refine ⟨fun c' hc' => absurd hc' (Option.some_ne_none c').symm, fun c' hc' => ?_⟩
  rcases List.mem_append.mp hc' with hc' | hc'
  · exact h.past c' hc'
  · rw [List.mem_singleton.mp hc']
    exact ⟨_, h.current c hc⟩

theorem receive (h : s.Gives) (hc : s.current = some c) : (s.receive c).Gives := by
  have hbalance := h.current c hc
  cases hframe : takeFrame (tundFlow c.source) with
  | none =>
    obtain ⟨source, hclose⟩ := Tund.receive_of_none s hframe
    rw [hclose]
    exact h.close hc source
  | some r =>
    obtain ⟨p, rest⟩ := r
    obtain ⟨source, hrest, hreceive⟩ := Tund.receive_of_some s hframe
    rw [hreceive]
    by_cases hsize : p.payload.length ≤ TUND_PACKET_SIZE
    · rw [if_pos hsize]
      refine ⟨?_, h.past⟩
      rintro c' ⟨⟩
      show (c.written ++ [p.payload]) ++ payloadsSeen (tundFlow source) = payloadsSeen c.input
      rw [payloadsSeen, tundPackets_of_some hframe, if_pos hsize] at hbalance
      rw [hrest, List.append_assoc]
      exact hbalance
    · rw [if_neg hsize]
      exact h.close hc source

theorem iterate (h : s.Gives) (io : TundIO) : (tundIteration io s).Gives := by
  have hconnect := h.connect io
  unfold tundIteration
  cases hcurrent : (s.connect io).current with
  | none => exact hconnect
  | some c =>
    show ((s.connect io).serve io c).Gives
    unfold Tund.serve
    split
    · exact hconnect.close hcurrent c.source
    · split
      · exact hconnect.receive hcurrent
      · exact hconnect

theorem of_run {ios : List TundIO} {o : List Bytes}
    (hrun : run tundStep Tund.start ios = some (s, o)) : s.Gives := by
  refine invariant (I := Tund.Gives) start ?_ ios s o hrun
  intro s io s' o' h hstep
  obtain ⟨rfl, -⟩ := Prod.mk.inj (Option.some.inj hstep)
  exact h.iterate io

end Tund.Gives

/-- When no packet is too large, `tund` sees all frames. -/
theorem payloadsSeen_eq {bs : Bytes}
    (h : ∀ p ∈ udsFrames bs, p.payload.length ≤ TUND_PACKET_SIZE) :
    payloadsSeen bs = (udsFrames bs).map (·.payload) := by
  induction bs using udsFrames.induct with
  | case1 bs hnone =>
    rw [payloadsSeen, tundPackets_of_none hnone, udsFrames_of_none hnone]
  | case2 bs p rest hsome ih =>
    rw [udsFrames_of_some hsome] at h ⊢
    rw [payloadsSeen, tundPackets_of_some hsome, if_pos (h p List.mem_cons_self)]
    exact congrArg (p.payload :: ·) (ih fun q hq => h q (List.mem_cons_of_mem p hq))

/-- The packets that the far device gets. -/
theorem Downlink.written {cfg : TundConfig} {heard : MoqTrackId} {evs : List TransportEvent}
    {clients : List UdsClient} {fd : ℕ} {calls : List SendCall} {h : HelperStreams} {s : TundLoop}
    {l : TundLink} (hdown : Downlink cfg heard evs clients fd calls h s l)
    (htrack : ∀ call ∈ evs.flatMap forwardedCalls, call.1 = heard)
    (hsize : ∀ packet ∈ forwardedPackets evs, packet.length ≤ TUND_PACKET_SIZE) :
    l.reader.written <+: forwardedPackets evs ∧
      (Downlink.Done evs fd calls h s l → l.reader.written = forwardedPackets evs) := by
  obtain ⟨passed, hrun⟩ := hdown.sends
  obtain ⟨ios, o, hloop⟩ := hdown.loop
  -- every call names the one track, so it goes to this socket
  have hcalled : ∀ c ∈ calls, targetFd clients c.trackId = some fd := by
    intro c hc
    have hmem := hdown.made.subset (List.mem_map_of_mem hc)
    have heq : c.trackId = heard := htrack _ hmem
    rw [heq]
    exact hdown.target
  have hframes : FramesTo clients fd (calls.map (·.packet)) h := by
    refine run_induction_along sendStep
      (G := fun _ c => targetFd clients c.trackId = some fd ∧ c.Whole)
      (P := fun calls h _ => FramesTo clients fd (calls.map (·.packet)) h)
      ⟨rfl, List.nil_prefix, fun _ => rfl⟩ ?_ calls h passed
      (along_of_mem (fun c hc _ => ⟨hcalled c hc, hdown.whole c hc⟩) _) hrun
    intro calls h passed c h' o' _ hframes hok hstep
    rw [List.map_append]
    exact hframes.step hok.1 hok.2 hstep
  -- tund sees the frames of a front part of the calls
  have hpayloads : (calls.map (·.packet)).map (·.payload) <+: forwardedPackets evs := by
    have hmade := hdown.made.map (·.2.payload)
    rw [List.map_map] at hmade
    rw [List.map_map]
    exact hmade
  have hfits : ∀ p ∈ calls.map (·.packet), p.payload.length ≤ TUND_PACKET_SIZE :=
    fun p hp => hsize _ (hpayloads.subset (List.mem_map_of_mem hp))
  have hshort : ∀ p ∈ calls.map (·.packet), p.payload.length < 2 ^ 32 :=
    fun p hp => lt_of_le_of_lt (hfits p hp) (by decide)
  obtain ⟨-, hseen, -, -⟩ := udsFrames_front hshort (hdown.arrived.trans hframes.front)
  have hall : payloadsSeen l.reader.input = (udsFrames l.reader.input).map (·.payload) :=
    payloadsSeen_eq fun p hp => hfits p (hseen.subset hp)
  have hgives := Tund.Gives.of_run (TundLoop.reader_run hloop)
  have hwritten : l.reader.written <+: payloadsSeen l.reader.input := by
    rcases List.mem_append.mp hdown.mem with hl | hl
    · exact hgives.past l.reader (List.mem_map_of_mem hl)
    · have hcurrent : s.tund.current = some l.reader := by
        rw [TundLoop.tund, Option.mem_toList.mp hl]
        rfl
      exact ⟨_, hgives.current l.reader hcurrent⟩
  refine ⟨?_, fun hdone => ?_⟩
  · rw [hall] at hwritten
    exact hwritten.trans ((hseen.map _).trans hpayloads)
  · have hcurrent : s.tund.current = some l.reader := by
      rw [TundLoop.tund, hdone.current]
      rfl
    -- nothing is left unread, so all frames have been written
    have hbalance := hgives.current l.reader hcurrent
    rw [payloadsSeen, tundPackets_of_none hdone.read, List.map_nil, List.append_nil] at hbalance
    have hnone : takeFrame [] = none := rfl
    rw [hbalance, hall, hdone.arrived, hframes.all hdone.returned,
      ← List.append_nil (List.flatMap _ _), udsFrames_frames hshort hnone, List.map_map]
    have hmade := congrArg (List.map (·.2.payload)) hdone.made
    rw [List.map_map] at hmade
    exact hmade

/-! ## The whole way -/

/-- Packets on a reliable track: at any time the far TUN device has got the first packets that
`tund` took from the near one, in order and each of them whole. When nothing is under way it has got
all of them but for the last one, if the connection broke on it. -/
theorem tunnel_in_order {lib : FecLib} {near far : TundConfig} (hreliable : near.useReliable = true)
    {s s' : TundLoop} {l l' : TundLink} {d : DataUds} {k : ℕ} {rest : Bytes}
    (hup : Uplink near s l d k rest) {heard : MoqTrackId} {f : Feed} {ls : List FeedLabel}
    {c : Conn} {trackAlias : UInt8} {sid : ℕ} {chunks : List Bytes}
    {evs : List (ℕ × TransportEvent)}
    (hcross : Crossing lib near.header.trackId heard f ls
      ((d.inputsOf k).map (·.packet.payload)) c trackAlias sid chunks evs)
    {clients : List UdsClient} {fd : ℕ} {calls : List SendCall} {h : HelperStreams}
    (hdown : Downlink far heard (evs.map Prod.snd) clients fd calls h s' l') :
    l'.reader.written <+: l.taken ∧
      (Uplink.Done near l d k rest → Crossing.Done lib near.header.trackId f ls c sid chunks →
        Downlink.Done (evs.map Prod.snd) fd calls h s' l' →
          ∃ left, l.taken = l'.reader.written ++ left ∧ left.length ≤ 1 ∧
            (s.current = some l → left = [])) := by
  obtain ⟨packets, left, htaken, hinputs, hsize, hup⟩ := hup.packets
  rw [hinputs] at hcross
  have hprofile : (getTrackProfile near.header.trackId).reliable = true := by
    have hflags : near.header.trackId.flags = MOQ_TRACK_FLAG_RELIABLE := if_pos hreliable
    unfold getTrackProfile
    rw [hflags]
    decide
  obtain ⟨htrack, hfront, hacross⟩ := hcross.forwarded rfl hprofile hsize
  obtain ⟨hgiven, harrived⟩ :=
    hdown.written htrack fun packet hpacket => hsize packet (hfront.subset hpacket)
  refine ⟨?_, fun hdone₁ hdone₂ hdone₃ => ⟨left, ?_, hup hdone₁⟩⟩
  · rw [htaken]
    exact (hgiven.trans hfront).trans (List.prefix_append packets left)
  · rw [htaken, harrived hdone₃, hacross hdone₂]

/-! ## Two packets -/

/-- `tund` with `--reliable` on the track of `tunConfig`. -/
def reliableConfig : TundConfig :=
  { tunConfig with
    useReliable := true }

/-- Its connection after two packets of one byte. -/
def reliableLink : TundLink :=
  ⟨⟨[], [], []⟩, reliableConfig.header.registration ++ [[1], [2]].flatMap reliableConfig.frame,
    [[1], [2]]⟩

/-- The daemon accepts the connection in the first tick, and reads from it in every tick. -/
def reliableTicks : List UdsTickIO :=
  [some [.bytes reliableLink.sent], none, none, none].map fun accepted =>
    ⟨accepted, fun _ => true, fun _ => true, fun _ => true⟩

/-- A server to which the stream is new. -/
def reliableReception : Reception :=
  ⟨{ Transport.init true [] 1280 with
    conns := [helperEnd 1 [⟨4, false, false, 0, [], false⟩]] }, [], 0⟩

/-- The frames that the far daemon writes. -/
def reliableFrames : Bytes := [[1], [2]].flatMap fun payload => helperFrame ⟨0, payload⟩

/-- The calls that write them. -/
def reliableCalls : List SendCall :=
  [[1], [2]].map fun payload => ⟨helperTrack 1, ⟨0, payload⟩, [.wrote 4, .wrote 1, .wrote 1]⟩

/-- The far `tund` reads twice. -/
def farLoop : List TundLoopIO :=
  List.replicate 2 ⟨.connected [.bytes reliableFrames] (.wrote 3) (.wrote 1), false, [], .wrote 4,
    .wrote 1, [], true⟩

/-- Its connection afterwards. -/
def farLink : TundLink :=
  ⟨⟨reliableFrames, [], [[1], [2]]⟩, reliableConfig.header.registration, []⟩

theorem uplink_reliable : ∃ d, (d.inputsOf 0).map (·.packet.payload) = [[1], [2]] ∧
    Uplink reliableConfig ⟨some reliableLink, []⟩ reliableLink d 0
      ([[1], [2]].flatMap reliableConfig.frame) ∧
    Uplink.Done reliableConfig reliableLink d 0 ([[1], [2]].flatMap reliableConfig.frame) := by
  obtain ⟨d, hticks, hinputs, hhelper, hclients⟩ : ∃ d,
      run udsStep create reliableTicks = some (d, []) ∧
      (d.inputsOf 0).map (·.packet.payload) = [[1], [2]] ∧
      d.connected[0]? = some ⟨reliableConfig.header.trackId,
        [[1], [2]].flatMap reliableConfig.frame⟩ ∧
      d.clients = List.replicate MAX_UDS_CLIENTS none := ⟨_, rfl, by decide, by decide, by decide⟩
  refine ⟨d, hinputs, ⟨?_, List.mem_singleton_self _, ?_, hhelper, List.prefix_refl _⟩, rfl, ?_⟩
  · refine ⟨[takes [1] [.wrote 1], takes [2] [.wrote 1]], [], ?_, by decide⟩
    intro io hio
    simp only [List.mem_cons, List.not_mem_nil, or_false] at hio
    rcases hio with rfl | rfl
    · exact ⟨by rintro n ⟨⟩; decide, by rintro n ⟨⟩; decide⟩
    · exact ⟨by rintro n ⟨⟩; decide, by rintro n ⟨⟩; decide⟩
  · refine ⟨reliableTicks, [], along_buffered (fun io hio i => ?_) (Or.inl rfl), hticks⟩
    obtain ⟨accepted, -, rfl⟩ := List.mem_map.mp hio
    rfl
  · intro i c hc
    have hmem := List.mem_of_getElem? hc
    rw [hclients] at hmem
    exact absurd (List.eq_of_mem_replicate hmem) (Option.some_ne_none c)

theorem crossing_reliable {packets : List Bytes} (hpackets : packets = [[1], [2]]) :
    Crossing FecLib.unavailable (helperTrack 1) (helperTrack 1)
      (helperFeed 1) helperLabels packets (helperEnd 1 []) 8 4
      [[8, 0], [0, 0, 1, 1, 0, 0, 0, 1, 2]] ([[1], [2]].map (trackEvent 1 (helperTrack 1))) ∧
    Crossing.Done FecLib.unavailable (helperTrack 1) (helperFeed 1) helperLabels (helperEnd 1 []) 4
      [[8, 0], [0, 0, 1, 1, 0, 0, 0, 1, 2]] := by
  have hwritten : [[8, 0], [0, 0, 1, 1, 0, 0, 0, 1, 2]].flatten = written (helperEnd 1 []).ptr 4
      (feedRun FecLib.unavailable (helperTrack 1) (helperFeed 1) helperLabels).2 := by decide
  have heffects : (feedRun FecLib.unavailable (helperTrack 1) (helperFeed 1) helperLabels).2 =
      [[8], [0, 0, 0, 1], [1], [0, 0, 0, 1], [2]].map (.streamWrite 1 4) := by decide
  refine ⟨⟨hpackets.symm, ⟨rfl, rfl⟩, ?_, ⟨rfl, by decide, rfl, _, rfl, rfl, rfl⟩, ?_, rfl,
    by decide, ?_, ?_⟩,
    rfl, hwritten⟩
  · intro l hl
    simp only [helperLabels, List.mem_cons, List.not_mem_nil, or_false] at hl
    rcases hl with rfl | rfl | rfl
    · exact ⟨rfl, 4, rfl, rfl⟩
    · exact ⟨rfl, 4, rfl, rfl⟩
    · exact ⟨rfl, 4, rfl, rfl⟩
  · intro e he _
    rw [heffects] at he
    obtain ⟨bytes, -, rfl⟩ := List.mem_map.mp he
    exact ⟨bytes, rfl⟩
  · rw [← hwritten]
  · refine ⟨DaemonConfig.ofArguments [], true, fun _ => ControlIO.still, reliableReception, 1,
      ⟨⟨by decide, _, rfl, by decide, rfl, rfl⟩, rfl⟩, ?_⟩
    rfl

theorem downlink_reliable : ∃ h, Downlink reliableConfig (helperTrack 1)
      (([[1], [2]].map (trackEvent 1 (helperTrack 1))).map Prod.snd) [⟨7, helperTrack 1, true⟩] 7
      reliableCalls h ⟨some farLink, []⟩ farLink ∧
    Downlink.Done (([[1], [2]].map (trackEvent 1 (helperTrack 1))).map Prod.snd) 7 reliableCalls h
      ⟨some farLink, []⟩ farLink := by
  obtain ⟨h, hsends, hwritten, hreturned⟩ : ∃ h,
      (∃ passed, run sendStep (HelperStreams.start [⟨7, helperTrack 1, true⟩]) reliableCalls =
        some (h, passed)) ∧ h.written 7 = reliableFrames ∧ h.busy = false :=
    ⟨_, ⟨_, rfl⟩, by decide, rfl⟩
  have hmade : reliableCalls.map (fun c => (c.trackId, c.packet)) =
      (([[1], [2]].map (trackEvent 1 (helperTrack 1))).map Prod.snd).flatMap forwardedCalls := by
    decide
  refine ⟨h, ⟨rfl, hmade ▸ List.prefix_refl _, ?_, hsends, ⟨farLoop, [], by decide⟩,
    List.mem_singleton_self _, hwritten ▸ List.prefix_refl _⟩, hmade, hreturned, hwritten.symm, rfl,
    rfl⟩
  intro c hc
  obtain ⟨payload, hpayload, rfl⟩ := List.mem_map.mp hc
  simp only [List.mem_cons, List.not_mem_nil, or_false] at hpayload
  unfold SendCall.Whole
  rcases hpayload with rfl | rfl
  · decide
  · decide

/-- Both packets come out of the far device. -/
theorem tunnel_in_order_reliable : farLink.reader.written = reliableLink.taken := by
  obtain ⟨d, hinputs, hup, hdone₁⟩ := uplink_reliable
  obtain ⟨hcross, hdone₂⟩ := crossing_reliable hinputs
  obtain ⟨h, hdown, hdone₃⟩ := downlink_reliable
  have hreliable : reliableConfig.useReliable = true := rfl
  obtain ⟨-, hall⟩ := tunnel_in_order hreliable hup hcross hdown
  obtain ⟨left, htaken, -, hnone⟩ := hall hdone₁ hdone₂ hdone₃
  rw [htaken, hnone rfl, List.append_nil]

end Bishlink
