import Bishlink.Daemon
import Bishlink.Grouping

/-!
# Grouping and unpacking

The grouping buffer and the unpack loop of the daemon are written separately. Between the
calls the buffer is the frames of the packets in it (`Grouped`), an object that is flushed is
the frames of its packets, and the loop takes exactly such frames: every packet comes out
once, in the order of publishing.
-/

namespace Bishlink

open Framing Runs

/-! ## The buffer between calls -/

/-- The buffer is the frames of the packets in it, counts them, and is not full. -/
structure Grouped (g : GroupSystem) : Prop where
  buf_eq : g.system.transport.fec.buf = (g.pending.map (·.data)).flatMap packetFrame
  pktCount_eq : g.system.transport.fec.pktCount = g.pending.length
  inFlush_eq : g.system.transport.fec.inFlush = false
  pktCount_lt : g.system.transport.fec.pktCount < 4
  length_lt : g.system.transport.fec.buf.length < 4000

/-- The object of a group is the frames of its packets. -/
def FlushedGroup.IsFrames (f : FlushedGroup) : Prop :=
  f.object.data = (f.packets.map (·.data)).flatMap packetFrame

theorem FecBuffer.Emptied.grouped {g : GroupSystem} (h : g.system.transport.fec.Emptied)
    (hpending : g.pending = []) : Grouped g := by
  refine ⟨?_, ?_, h.inFlush_eq, ?_, ?_⟩
  · rw [h.buf_eq, hpending]
    rfl
  · rw [h.pktCount_eq, hpending]
    rfl
  · rw [h.pktCount_eq]
    decide
  · rw [h.buf_eq]
    decide

theorem grouped_init (isServer : Bool) (links : List SockAddr) (mtu : ℕ) :
    Grouped (GroupSystem.init isServer links mtu) :=
  ⟨rfl, rfl, rfl, Nat.zero_lt_succ 3, Nat.zero_lt_succ 3999⟩

/-- Appending a packet to the buffer. -/
theorem Grouped.append {g : GroupSystem} (h : Grouped g) {io : PublishIO} {obj : MoqObject}
    {fec : FecBuffer}
    (happend : (g.system.transport.fec.record io obj).append io obj = some fec) :
    fec.buf = ((g.pending ++ [obj]).map (·.data)).flatMap packetFrame ∧
      fec.pktCount = (g.pending ++ [obj]).length ∧ fec.inFlush = false := by
  obtain ⟨hbuf, hcount, -, -, hflush, -⟩ := FecBuffer.append_eq_some happend
  rw [FecBuffer.buf_record, h.buf_eq] at hbuf
  rw [FecBuffer.pktCount_record, h.pktCount_eq] at hcount
  rw [FecBuffer.inFlush_record, h.inFlush_eq] at hflush
  refine ⟨?_, ?_, hflush⟩
  · rw [hbuf]
    simp
  · rw [hcount]
    simp

/-- Every step leaves a buffer like that, and what it flushes is frames. The packets in the
buffer and in what is flushed are those that were there and the one that is added. -/
theorem Grouped.step {lib : FecLib} {g g' : GroupSystem} {l : Label} {out : List FlushedGroup}
    (h : Grouped g) (hstep : groupStep lib g l = some (g', out)) :
    Grouped g' ∧ (∀ f ∈ out, f.IsFrames) ∧
      out.flatMap (·.packets) ++ g'.pending =
        g.pending ++ (groupedPacket g.system.transport l).toList := by
  -- one case for each way a step can change the buffer
  cases groupStep_change hstep with
  | quiet hnone hfec hpending =>
    refine ⟨⟨?_, ?_, ?_, ?_, ?_⟩, by simp, by simp [hnone, hpending]⟩
    · rw [hfec, hpending]
      exact h.buf_eq
    · rw [hfec, hpending]
      exact h.pktCount_eq
    · rw [hfec]
      exact h.inFlush_eq
    · rw [hfec]
      exact h.pktCount_lt
    · rw [hfec]
      exact h.length_lt
  | refused io obj hl hroute happend hfec hpending =>
    refine ⟨⟨?_, ?_, ?_, ?_, ?_⟩, by simp, by simp [hl, groupedPacket, happend, hpending]⟩
    · rw [hfec, hpending, FecBuffer.buf_record]
      exact h.buf_eq
    · rw [hfec, hpending, FecBuffer.pktCount_record]
      exact h.pktCount_eq
    · rw [hfec, FecBuffer.inFlush_record]
      exact h.inFlush_eq
    · rw [hfec, FecBuffer.pktCount_record]
      exact h.pktCount_lt
    · rw [hfec, FecBuffer.buf_record]
      exact h.length_lt
  | append io obj fec hl hroute happend hfull hfec hpending =>
    obtain ⟨hbuf, hcount, hflush⟩ := h.append happend
    simp only [FecBuffer.full, Bool.or_eq_false_iff, decide_eq_false_iff_not, not_le] at hfull
    refine ⟨⟨?_, ?_, ?_, ?_, ?_⟩, by simp, by simp [hl, groupedPacket, hroute, happend, hpending]⟩
    · rw [hfec, hpending]
      exact hbuf
    · rw [hfec, hpending]
      exact hcount
    · rw [hfec]
      exact hflush
    · rw [hfec]
      exact hfull.1
    · rw [hfec]
      exact hfull.2
  | fill io obj fec hl hroute happend hfec hid hpending =>
    refine ⟨hfec.grouped hpending, ?_, by simp [hl, groupedPacket, hroute, happend, hpending]⟩
    intro f hf
    rw [List.mem_singleton.mp hf]
    exact (h.append happend).1
  | expire io hl hbuf hfec hid hpending =>
    refine ⟨hfec.grouped hpending, ?_, by simp [hl, groupedPacket, hpending]⟩
    intro f hf
    rw [List.mem_singleton.mp hf]
    exact h.buf_eq

/-! ## Packets on one track -/

/-- An active connection has an entry with the FEC flag for the track. -/
def LiveFecSubscriber (t : Transport) (track : MoqTrackId) : Prop :=
  ∃ c ∈ t.conns, c.closing = false ∧ ∃ e ∈ c.subscriptions.entries,
    e.holds track.type track.name = true ∧ e.trackId.flags &&& MOQ_TRACK_FLAG_FEC_ENABLED ≠ 0

theorem LiveFecSubscriber.useFec {t : Transport} {track : MoqTrackId}
    (h : LiveFecSubscriber t track) : useFec t track = true := by
  obtain ⟨c, hc, hopen, e, he, hholds, hflag⟩ := h
  simp only [Bishlink.useFec, List.any_eq_true, Bool.and_eq_true, Bool.or_eq_true]
  refine ⟨c, hc, Or.inr (by simp [hopen]), e, he, hholds, ?_⟩
  simpa [getTrackProfile] using hflag

/-- What is published are DATA packets of at most 65535 bytes on one track, while a live
subscriber has the FEC flag; the buffer can grow. -/
def PublishesOn (name : TrackName) (g : GroupSystem) : Label → Prop
  | .publish io obj =>
    obj.trackId.type = MOQ_TRACK_DATA ∧ obj.trackId.name = name ∧ obj.data.length ≤ 65535 ∧
      LiveFecSubscriber g.system.transport obj.trackId ∧ io.reallocOk = true
  | _ => True

instance (t : Transport) (track : MoqTrackId) : Decidable (LiveFecSubscriber t track) := by
  unfold LiveFecSubscriber
  infer_instance

instance (name : TrackName) (g : GroupSystem) : (l : Label) → Decidable (PublishesOn name g l)
  | .publish io obj =>
    inferInstanceAs (Decidable (obj.trackId.type = MOQ_TRACK_DATA ∧ obj.trackId.name = name ∧
      obj.data.length ≤ 65535 ∧ LiveFecSubscriber g.system.transport obj.trackId ∧
      io.reallocOk = true))
  | .connect _ | .conn _ _ | .free _ | .subscribe _ | .requestKeyframe _ | .tick _ | .links _ =>
    inferInstanceAs (Decidable True)

/-- The packets that are published, in order. -/
def publishedPackets (labels : List Label) : List Bytes :=
  labels.filterMap fun l => match l with
    | .publish _ obj => some obj.data
    | _ => none

/-- Such a packet goes into the buffer. -/
theorem PublishesOn.groupedPacket {name : TrackName} {g : GroupSystem} {l : Label}
    (h : PublishesOn name g l) (hg : Grouped g) :
    ((groupedPacket g.system.transport l).toList.map (·.data) = publishedPackets [l]) ∧
      ∀ p ∈ publishedPackets [l], p.length ≤ 65535 := by
  cases l with
  | publish io obj =>
    obtain ⟨htype, -, hsize, hlive, hrealloc⟩ := h
    have hroute : routedToGroup g.system.transport obj = true := by
      simp [routedToGroup, htype, hg.inFlush_eq, hlive.useFec]
    have happend : ((g.system.transport.fec.record io obj).append io obj).isSome = true := by
      simp [FecBuffer.append, hrealloc]
    simp [Bishlink.groupedPacket, publishedPackets, hroute, happend, hsize]
  | _ => simp [Bishlink.groupedPacket, publishedPackets]

/-! ## Whole runs -/

/-- The loop takes the packets of frames apart again. -/
theorem unpackPackets_frames {ps : List Bytes} (h : ∀ p ∈ ps, p.length ≤ 65535) :
    unpackPackets (ps.flatMap packetFrame) = ps := by
  rw [unpackPackets_eq_drain, exact_parsePacketFrame.drain_flatMap h]

/-- What a run of grouping keeps. -/
structure Regrouped (labels : List Label) (g : GroupSystem) (out : List FlushedGroup) :
    Prop where
  grouped : Grouped g
  frames : ∀ f ∈ out, f.IsFrames
  packets : (out.flatMap (·.packets) ++ g.pending).map (·.data) = publishedPackets labels
  size_le : ∀ p ∈ publishedPackets labels, p.length ≤ 65535

theorem regrouped_run {lib : FecLib} {isServer : Bool} {links : List SockAddr} {mtu : ℕ}
    {name : TrackName} :
    ∀ labels g out,
      Along (groupStep lib) (PublishesOn name) (GroupSystem.init isServer links mtu) labels →
      run (groupStep lib) (GroupSystem.init isServer links mtu) labels = some (g, out) →
      Regrouped labels g out := by
  refine run_induction_along (groupStep lib) (P := Regrouped) ?_ ?_
  · exact ⟨grouped_init isServer links mtu, by simp, rfl, by simp [publishedPackets]⟩
  · intro labels g out l g' out' _ ih hok hstep
    obtain ⟨hgrouped, hframes, hpackets⟩ := ih.grouped.step hstep
    obtain ⟨hdata, hsize⟩ := hok.groupedPacket ih.grouped
    have happend : publishedPackets (labels ++ [l]) =
        publishedPackets labels ++ publishedPackets [l] := by
      simp [publishedPackets]
    refine ⟨hgrouped, ?_, ?_, ?_⟩
    · intro f hf
      rcases List.mem_append.mp hf with hf | hf
      · exact ih.frames f hf
      · exact hframes f hf
    · rw [happend, ← ih.packets, ← hdata, ← List.map_append, List.append_assoc, ← hpackets,
        List.flatMap_append, List.append_assoc]
    · intro p hp
      rw [happend] at hp
      rcases List.mem_append.mp hp with hp | hp
      · exact ih.size_le p hp
      · exact hsize p hp

/-- Grouping loses, duplicates and reorders nothing: unpacking the flushed objects and then
the buffer gives the published packets; between the calls the buffer is not full and its
count is the number of packets in it; and on any bytes the loop ends, with the longest list
of packets whose frames the bytes begin with. -/
theorem grouping_unpacks (lib : FecLib) (isServer : Bool) (links : List SockAddr) (mtu : ℕ)
    (name : TrackName) (labels : List Label)
    (hok : Along (groupStep lib) (PublishesOn name) (GroupSystem.init isServer links mtu) labels)
    {g : GroupSystem} {out : List FlushedGroup}
    (hrun : run (groupStep lib) (GroupSystem.init isServer links mtu) labels = some (g, out)) :
    (out.flatMap (fun f => unpackPackets f.object.data) ++
        unpackPackets g.system.transport.fec.buf = publishedPackets labels) ∧
      (g.system.transport.fec.pktCount < 4 ∧ g.system.transport.fec.buf.length < 4000 ∧
        g.system.transport.fec.pktCount =
          (unpackPackets g.system.transport.fec.buf).length) ∧
      ∀ object : Bytes,
        (∀ rounds, object.length < rounds → unpackLoop rounds object = unpackPackets object) ∧
        (unpackPackets object).flatMap packetFrame <+: object ∧
        ∀ ps : List Bytes, (∀ p ∈ ps, p.length ≤ 65535) → ps.flatMap packetFrame <+: object →
          ps <+: unpackPackets object := by
  have h := regrouped_run labels g out hok hrun
  have hall : ∀ p ∈ out.flatMap (·.packets) ++ g.pending, p.data.length ≤ 65535 := by
    intro p hp
    apply h.size_le
    rw [← h.packets]
    exact List.mem_map_of_mem hp
  -- packets are shorter than 65536 bytes, so their lengths are not cut
  have hbuf : unpackPackets g.system.transport.fec.buf = g.pending.map (·.data) := by
    rw [h.grouped.buf_eq]
    apply unpackPackets_frames
    intro p hp
    obtain ⟨obj, hobj, rfl⟩ := List.mem_map.mp hp
    exact hall obj (List.mem_append_right _ hobj)
  refine ⟨?_, ⟨h.grouped.pktCount_lt, h.grouped.length_lt, ?_⟩, ?_⟩
  · have hout : out.flatMap (fun f => unpackPackets f.object.data) =
        out.flatMap fun f => f.packets.map (·.data) := by
      apply List.flatMap_congr
      intro f hf
      rw [h.frames f hf]
      apply unpackPackets_frames
      intro p hp
      obtain ⟨obj, hobj, rfl⟩ := List.mem_map.mp hp
      exact hall obj (List.mem_append_left _ (List.mem_flatMap.mpr ⟨f, hf, hobj⟩))
    rw [hout, hbuf, ← h.packets, List.map_append, List.map_flatMap]
  · rw [hbuf, List.length_map, h.grouped.pktCount_eq]
  · intro object
    obtain ⟨hpre, -, hlongest⟩ := exact_parsePacketFrame.drain_longest object
    rw [← unpackPackets_eq_drain] at hpre hlongest
    refine ⟨?_, hpre, hlongest⟩
    intro rounds hrounds
    rw [unpackLoop_eq_drainFuel, drainFuel_of_lt exact_parsePacketFrame.stable hrounds,
      unpackPackets_eq_drain]

set_option maxRecDepth 4000 in
/-- Two packets of one track, flushed by the tick. -/
theorem grouping_unpacks_two :
    ∃ g out, run (groupStep FecLib.unavailable) (GroupSystem.init true [] 1280)
        (twoPacketRun (onePacket [97] 1 5) (onePacket [97] 2 6)) = some (g, out) ∧
      out.flatMap (fun f => unpackPackets f.object.data) ++
        unpackPackets g.system.transport.fec.buf = [[1], [2]] :=
  ⟨_, _, rfl, (grouping_unpacks FecLib.unavailable true [] 1280 (TrackName.ofBuffer [97])
    (twoPacketRun (onePacket [97] 1 5) (onePacket [97] 2 6)) (by decide) rfl).1⟩

end Bishlink
