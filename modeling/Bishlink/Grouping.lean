import Bishlink.System

/-!
# The packets of a group

A transport has a single grouping buffer for all DATA tracks. `GroupSystem` is the system
with the packets that are in the buffer, `groupStep` its step, with the objects that are
flushed as output.

* `groupStep_change`: what a step can do with the buffer: nothing, append a packet, or empty
  it into an object;
* `groupStep_holds`: what the buffer recorded fits all its packets, as long as packets are only
  appended to packets of their own track and priority.
-/

namespace Bishlink

/-! ## What leaves the buffer -/

/-- An object made from the grouping buffer, with the packets that are in it. -/
structure FlushedGroup where
  object : MoqObject
  packets : List MoqObject
deriving DecidableEq

/-- The packet that a label puts into the buffer. -/
def groupedPacket (t : Transport) : Label → Option MoqObject
  | .publish io obj =>
    if routedToGroup t obj ∧ ((t.fec.record io obj).append io obj).isSome then some obj else none
  | _ => none

/-- The object that a label makes from the buffer. -/
def flushedObject (t : Transport) : Label → Option MoqObject
  | .publish io obj =>
    if routedToGroup t obj then
      match (t.fec.record io obj).append io obj with
      | none => none
      | some fec => if fec.full then some (groupedObject { t with fec := fec }) else none
    else none
  | .tick io =>
    if t.fec.buf ≠ [] ∧ 3 ≤ io.timeMs - t.fec.firstPktTime then some (groupedObject t) else none
  | _ => none

/-- The system and the packets in its grouping buffer, oldest first. -/
structure GroupSystem where
  system : System
  pending : List MoqObject

def GroupSystem.init (isServer : Bool) (links : List SockAddr) (maxUdpPayloadSize : ℕ) :
    GroupSystem :=
  ⟨System.init isServer links maxUdpPayloadSize, []⟩

/-- A step of the system; the outputs are the groups it flushes. -/
def groupStep (lib : FecLib) (g : GroupSystem) (l : Label) :
    Option (GroupSystem × List FlushedGroup) :=
  (step lib g.system l).map fun r =>
    let packets := g.pending ++ (groupedPacket g.system.transport l).toList
    match flushedObject g.system.transport l with
    | none => (⟨r.1, packets⟩, [])
    | some object => (⟨r.1, []⟩, [⟨object, packets⟩])

/-! ## The buffer after a step -/

@[simp] theorem fec_publishDirect (lib : FecLib) (io : PublishIO) (t : Transport)
    (obj : MoqObject) : (publishDirect lib io t obj).1.fec = t.fec := by
  rw [publishDirect]
  split <;> rfl

/-- A buffer after its flush. -/
structure FecBuffer.Emptied (fec : FecBuffer) : Prop where
  buf_eq : fec.buf = []
  pktCount_eq : fec.pktCount = 0
  inFlush_eq : fec.inFlush = false

/-- A flush of a buffer with something in it: its object is published, the buffer is empty. -/
theorem flushFecBuffer_spec (lib : FecLib) (io : PublishIO) {t : Transport}
    (h : t.fec.buf ≠ []) :
    (flushFecBuffer lib io t).1.fec.Emptied ∧
      (flushFecBuffer lib io t).1.fec.objectId = t.fec.objectId + 1 ∧
      ∃ t₁, (flushFecBuffer lib io t).2 = (publishDirect lib io t₁ (groupedObject t)).2 := by
  rw [flushFecBuffer, if_neg h]
  refine ⟨⟨rfl, rfl, rfl⟩, ?_, _, rfl⟩
  dsimp only
  rw [fec_publishDirect]

theorem packetFrame_ne_nil (data : Bytes) : packetFrame data ≠ [] := by
  intro h
  have hlen := congrArg List.length h
  simp [packetFrame] at hlen

/-- What `append` leaves in the buffer, and what it does not touch. -/
theorem FecBuffer.append_eq_some {fec fec' : FecBuffer} {io : PublishIO} {obj : MoqObject}
    (h : fec.append io obj = some fec') :
    fec'.buf = fec.buf ++ packetFrame obj.data ∧ fec'.pktCount = fec.pktCount + 1 ∧
      fec'.trackId = fec.trackId ∧ fec'.priority = fec.priority ∧ fec'.inFlush = fec.inFlush ∧
      fec'.objectId = fec.objectId := by
  simp only [append] at h
  split at h
  · simp at h
  · rw [Option.some.injEq] at h
    subst h
    exact ⟨rfl, rfl, rfl, rfl, rfl, rfl⟩

@[simp] theorem FecBuffer.buf_record (fec : FecBuffer) (io : PublishIO) (obj : MoqObject) :
    (fec.record io obj).buf = fec.buf := by
  rw [record]
  split <;> rfl

@[simp] theorem FecBuffer.pktCount_record (fec : FecBuffer) (io : PublishIO) (obj : MoqObject) :
    (fec.record io obj).pktCount = fec.pktCount := by
  rw [record]
  split <;> rfl

@[simp] theorem FecBuffer.inFlush_record (fec : FecBuffer) (io : PublishIO) (obj : MoqObject) :
    (fec.record io obj).inFlush = fec.inFlush := by
  rw [record]
  split <;> rfl

@[simp] theorem FecBuffer.objectId_record (fec : FecBuffer) (io : PublishIO) (obj : MoqObject) :
    (fec.record io obj).objectId = fec.objectId := by
  rw [record]
  split <;> rfl

/-- Only publishing and the tick touch the buffer. -/
theorem transportStep_fec {lib : FecLib} {t t' : Transport} {l : Label} {o : List Effect}
    (h : transportStep lib t l = some (t', o))
    (hpublish : ∀ io obj, l ≠ .publish io obj) (htick : ∀ io, l ≠ .tick io) :
    t'.fec = t.fec := by
  cases l with
  | connect ptr => simp [transportStep] at h
  | conn ptr l =>
    obtain ⟨c, t₁, c', -, hc, rfl⟩ := transportStep_conn.mp h
    obtain ⟨fc, owd, rfl⟩ := connStep_transport hc
    rfl
  | free ptr =>
    simp only [transportStep] at h
    split at h
    · simp at h
    · simp only [Option.some.injEq, Prod.mk.injEq] at h
      rw [← h.1]
  | subscribe track =>
    simp only [transportStep, Option.some.injEq] at h
    have ht : t' = (transportSubscribe t track).2.1 := by rw [h]
    rw [ht, transportSubscribe]
    split
    · rfl
    · split
      · rfl
      · split <;> rfl
  | publish io obj => exact absurd rfl (hpublish io obj)
  | tick io => exact absurd rfl (htick io)
  | _ =>
    simp only [transportStep, Option.some.injEq, Prod.mk.injEq] at h
    rw [← h.1]

/-- What a step can do with the buffer `fec` and the packets in it. -/
inductive GroupChange (g g' : GroupSystem) (l : Label) : List FlushedGroup → Prop where
  /-- the buffer is not touched -/
  | quiet (hnone : groupedPacket g.system.transport l = none)
      (hfec : g'.system.transport.fec = g.system.transport.fec)
      (hpending : g'.pending = g.pending) : GroupChange g g' l []
  /-- the buffer could not grow -/
  | refused (io : PublishIO) (obj : MoqObject) (hl : l = .publish io obj)
      (hroute : routedToGroup g.system.transport obj = true)
      (happend : (g.system.transport.fec.record io obj).append io obj = none)
      (hfec : g'.system.transport.fec = g.system.transport.fec.record io obj)
      (hpending : g'.pending = g.pending) : GroupChange g g' l []
  /-- a packet is appended -/
  | append (io : PublishIO) (obj : MoqObject) (fec : FecBuffer) (hl : l = .publish io obj)
      (hroute : routedToGroup g.system.transport obj = true)
      (happend : (g.system.transport.fec.record io obj).append io obj = some fec)
      (hfull : fec.full = false) (hfec : g'.system.transport.fec = fec)
      (hpending : g'.pending = g.pending ++ [obj]) : GroupChange g g' l []
  /-- a packet is appended and the group is full -/
  | fill (io : PublishIO) (obj : MoqObject) (fec : FecBuffer) (hl : l = .publish io obj)
      (hroute : routedToGroup g.system.transport obj = true)
      (happend : (g.system.transport.fec.record io obj).append io obj = some fec)
      (hfec : g'.system.transport.fec.Emptied)
      (hid : g'.system.transport.fec.objectId = g.system.transport.fec.objectId + 1)
      (hpending : g'.pending = []) :
      GroupChange g g' l
        [⟨groupedObject { g.system.transport with fec := fec }, g.pending ++ [obj]⟩]
  /-- the group is old enough -/
  | expire (io : PublishIO) (hl : l = .tick io) (hbuf : g.system.transport.fec.buf ≠ [])
      (hfec : g'.system.transport.fec.Emptied)
      (hid : g'.system.transport.fec.objectId = g.system.transport.fec.objectId + 1)
      (hpending : g'.pending = []) :
      GroupChange g g' l [⟨groupedObject g.system.transport, g.pending⟩]

/-- Every step makes one of these changes. -/
theorem groupStep_change {lib : FecLib} {g g' : GroupSystem} {l : Label} {out : List FlushedGroup}
    (hstep : groupStep lib g l = some (g', out)) : GroupChange g g' l out := by
  obtain ⟨⟨s', o⟩, hs, hr⟩ := Option.map_eq_some_iff.mp hstep
  -- labels that neither take a packet in nor flush the buffer
  have quiet : s'.transport.fec = g.system.transport.fec →
      groupedPacket g.system.transport l = none → flushedObject g.system.transport l = none →
      GroupChange g g' l out := by
    intro hfec hnone hflush
    simp only [hnone, hflush, Option.toList_none, List.append_nil, Prod.mk.injEq] at hr
    obtain ⟨rfl, rfl⟩ := hr
    exact .quiet hnone hfec rfl
  rcases step_eq_some hs with ⟨ptr, rfl, -, -, -, ht⟩ | ⟨ht, -⟩
  · exact quiet (by rw [ht]) rfl rfl
  cases l with
  | publish io obj =>
    have hfec : s'.transport = (transportPublish lib io g.system.transport obj).2.1 := by
      simp only [transportStep, Option.some.injEq] at ht
      rw [ht]
    by_cases hroute : routedToGroup g.system.transport obj = true
    · cases happend : (g.system.transport.fec.record io obj).append io obj with
      | none =>
        simp only [groupedPacket, flushedObject, hroute, happend, Option.isSome_none,
          Bool.false_eq_true, and_false, if_false, if_true, Option.toList_none, List.append_nil,
          Prod.mk.injEq] at hr
        obtain ⟨rfl, rfl⟩ := hr
        refine .refused io obj rfl hroute happend ?_ rfl
        rw [hfec, transportPublish, if_pos hroute, groupPacket, happend]
      | some fec =>
        simp only [groupedPacket, flushedObject, hroute, happend, Option.isSome_some, and_self,
          if_true, Option.toList_some] at hr
        -- the packet that fills the buffer flushes it
        by_cases hfull : fec.full = true
        · simp only [hfull, if_true, Prod.mk.injEq] at hr
          obtain ⟨rfl, rfl⟩ := hr
          obtain ⟨hbuf, -, -, -, -, hid⟩ := FecBuffer.append_eq_some happend
          have hne : fec.buf ≠ [] := by
            rw [hbuf]
            exact List.append_ne_nil_of_right_ne_nil _ (packetFrame_ne_nil obj.data)
          have hflush :=
            flushFecBuffer_spec lib io (t := { g.system.transport with fec := fec }) hne
          have hafter : s'.transport =
              (flushFecBuffer lib io { g.system.transport with fec := fec }).1 := by
            rw [hfec, transportPublish, if_pos hroute, groupPacket, happend]
            simp only [hfull, if_true]
          rw [FecBuffer.objectId_record] at hid
          refine .fill io obj fec rfl hroute happend ?_ ?_ rfl
          · rw [hafter]
            exact hflush.1
          · rw [hafter, hflush.2.1, hid]
        · rw [Bool.not_eq_true] at hfull
          simp only [hfull, Bool.false_eq_true, if_false, Prod.mk.injEq] at hr
          obtain ⟨rfl, rfl⟩ := hr
          refine .append io obj fec rfl hroute happend hfull ?_ rfl
          rw [hfec, transportPublish, if_pos hroute, groupPacket, happend]
          simp only [hfull, Bool.false_eq_true, if_false]
    · refine quiet ?_ (by simp [groupedPacket, hroute]) (by simp [flushedObject, hroute])
      rw [hfec, transportPublish, if_neg hroute]
      exact fec_publishDirect lib io g.system.transport obj
  | tick io =>
    have hfec : s'.transport = (tickFecBuffer lib io g.system.transport).1 := by
      simp only [transportStep, Option.some.injEq] at ht
      rw [ht]
    by_cases hold : g.system.transport.fec.buf ≠ [] ∧
        3 ≤ io.timeMs - g.system.transport.fec.firstPktTime
    · simp only [flushedObject, groupedPacket, if_pos hold, Option.toList_none, List.append_nil,
        Prod.mk.injEq] at hr
      obtain ⟨rfl, rfl⟩ := hr
      have hflush := flushFecBuffer_spec lib io hold.1
      have hafter : s'.transport = (flushFecBuffer lib io g.system.transport).1 := by
        rw [hfec, tickFecBuffer, if_pos hold]
      refine .expire io rfl hold.1 ?_ ?_ rfl
      · rw [hafter]
        exact hflush.1
      · rw [hafter]
        exact hflush.2.1
    · exact quiet (by rw [hfec, tickFecBuffer, if_neg hold]) rfl
        (by simp only [flushedObject, if_neg hold])
  | _ => exact quiet (transportStep_fec ht (by simp) (by simp)) rfl rfl

/-! ## Packets and their group -/

/-- The object of a group is its packets' frames, and each packet was published on the track
of the object and with its priority. -/
def FlushedGroup.KeepsTrack (f : FlushedGroup) : Prop :=
  f.object.data = f.packets.flatMap (fun p => packetFrame p.data) ∧
    ∀ p ∈ f.packets, p.trackId.type = f.object.trackId.type ∧
      p.trackId.name = f.object.trackId.name ∧ p.priority = f.object.priority

/-- A packet that is appended to others is on the track, and has the priority, that the
buffer recorded. -/
def StaysTogether (g : GroupSystem) (l : Label) : Prop :=
  match groupedPacket g.system.transport l with
  | none => True
  | some obj =>
    let fec := g.system.transport.fec
    fec.buf = [] ∨ (obj.trackId.sameTrack fec.trackId = true ∧ obj.priority = fec.priority)

instance (g : GroupSystem) (l : Label) : Decidable (StaysTogether g l) := by
  unfold StaysTogether
  split <;> infer_instance

/-- The buffer is the frames of some packets, and what it recorded fits each of them. -/
structure FecBuffer.Holds (fec : FecBuffer) (packets : List MoqObject) : Prop where
  buf_eq : fec.buf = packets.flatMap fun p => packetFrame p.data
  recorded : ∀ p ∈ packets, p.trackId.sameTrack fec.trackId = true ∧ p.priority = fec.priority

theorem FecBuffer.holds_nil {fec : FecBuffer} (h : fec.buf = []) : fec.Holds [] :=
  ⟨by simpa using h, by simp⟩

/-- An empty buffer holds no packets. -/
theorem FecBuffer.Holds.eq_nil {fec : FecBuffer} {packets : List MoqObject}
    (h : fec.Holds packets) (hbuf : fec.buf = []) : packets = [] := by
  rw [h.buf_eq] at hbuf
  rw [List.eq_nil_iff_forall_not_mem]
  intro p hp
  exact packetFrame_ne_nil p.data (List.flatMap_eq_nil_iff.mp hbuf p hp)

/-- Appending a packet, to an empty buffer or to packets of its own track and priority. -/
theorem FecBuffer.Holds.append {fec fec' : FecBuffer} {packets : List MoqObject}
    (h : fec.Holds packets) {io : PublishIO} {obj : MoqObject}
    (hguard : fec.buf = [] ∨
      (obj.trackId.sameTrack fec.trackId = true ∧ obj.priority = fec.priority))
    (happend : (fec.record io obj).append io obj = some fec') :
    fec'.Holds (packets ++ [obj]) := by
  obtain ⟨hbuf, -, htrack, hprio, -, -⟩ := FecBuffer.append_eq_some happend
  refine ⟨?_, ?_⟩
  · rw [hbuf, FecBuffer.buf_record, h.buf_eq]
    simp
  intro p hp
  rw [htrack, hprio]
  by_cases hnil : fec.buf = []
  · have hp' : p = obj := by simpa [h.eq_nil hnil] using hp
    simp [FecBuffer.record, hnil, hp', MoqTrackId.sameTrack]
  · have hrec : fec.record io obj = fec := if_neg hnil
    rw [hrec]
    rcases List.mem_append.mp hp with hp | hp
    · exact h.recorded p hp
    · rw [List.mem_singleton.mp hp]
      exact hguard.resolve_left hnil

/-- What a buffer holds, its flushed object keeps. -/
theorem FecBuffer.Holds.keepsTrack {t : Transport} {packets : List MoqObject}
    (h : t.fec.Holds packets) : (FlushedGroup.mk (groupedObject t) packets).KeepsTrack := by
  refine ⟨h.buf_eq, fun p hp => ?_⟩
  obtain ⟨htrack, hprio⟩ := h.recorded p hp
  obtain ⟨htype, hname⟩ := (MoqTrackId.sameTrack_iff _ _).mp htrack
  exact ⟨htype, hname, hprio⟩

/-! ## One step -/

/-- A step in which packets stay together: the buffer still fits its packets, and so do the
objects flushed. -/
theorem groupStep_holds {lib : FecLib} {g g' : GroupSystem} {l : Label} {out : List FlushedGroup}
    (h : g.system.transport.fec.Holds g.pending) (hguard : StaysTogether g l)
    (hstep : groupStep lib g l = some (g', out)) :
    g'.system.transport.fec.Holds g'.pending ∧ ∀ f ∈ out, f.KeepsTrack := by
  have hgrouped : ∀ {io obj fec}, l = .publish io obj →
      routedToGroup g.system.transport obj = true →
      (g.system.transport.fec.record io obj).append io obj = some fec →
      fec.Holds (g.pending ++ [obj]) := by
    intro io obj fec hl hroute happend
    have hpacket : groupedPacket g.system.transport l = some obj := by
      rw [hl]
      simp [groupedPacket, hroute, happend]
    refine h.append ?_ happend
    simpa [StaysTogether, hpacket] using hguard
  cases groupStep_change hstep with
  | quiet hnone hfec hpending =>
    rw [hfec, hpending]
    exact ⟨h, by simp⟩
  | refused io obj hl hroute happend hfec hpending =>
    rw [hfec, hpending]
    refine ⟨⟨by rw [FecBuffer.buf_record]; exact h.buf_eq, fun p hp => ?_⟩, by simp⟩
    have hne : g.system.transport.fec.buf ≠ [] := fun hnil => by simp [h.eq_nil hnil] at hp
    have heq : g.system.transport.fec.record io obj = g.system.transport.fec := if_neg hne
    rw [heq]
    exact h.recorded p hp
  | append io obj fec hl hroute happend hfull hfec hpending =>
    rw [hfec, hpending]
    exact ⟨hgrouped hl hroute happend, by simp⟩
  | fill io obj fec hl hroute happend hfec hid hpending =>
    rw [hpending]
    refine ⟨FecBuffer.holds_nil hfec.buf_eq, ?_⟩
    have hfecHolds := hgrouped hl hroute happend
    simpa using FecBuffer.Holds.keepsTrack (t := { g.system.transport with fec := fec }) hfecHolds
  | expire io hl hbuf hfec hid hpending =>
    rw [hpending]
    exact ⟨FecBuffer.holds_nil hfec.buf_eq, by simpa using h.keepsTrack⟩

/-! ## Whole runs -/

/-- In every run whose packets stay together, every packet of a flushed object was published
on the object's track and with its priority. -/
theorem flushed_keepsTrack (lib : FecLib) (isServer : Bool) (links : List SockAddr)
    (maxUdpPayloadSize : ℕ) (labels : List Label) (g : GroupSystem) (out : List FlushedGroup)
    (hguard : Runs.Along (groupStep lib) StaysTogether
      (GroupSystem.init isServer links maxUdpPayloadSize) labels)
    (hrun : Runs.run (groupStep lib) (GroupSystem.init isServer links maxUdpPayloadSize) labels =
      some (g, out)) :
    ∀ f ∈ out, f.KeepsTrack := by
  have key := Runs.run_induction_along (groupStep lib) (G := StaysTogether)
    (P := fun _ g out => g.system.transport.fec.Holds g.pending ∧ ∀ f ∈ out, f.KeepsTrack)
    ⟨FecBuffer.holds_nil rfl, by simp⟩ ?_ labels g out hguard hrun
  · exact key.2
  intro _ g out l g' out' _ ih hG hstep
  obtain ⟨hholds, hout⟩ := groupStep_holds ih.1 hG hstep
  refine ⟨hholds, fun f hf => ?_⟩
  rcases List.mem_append.mp hf with hf | hf
  · exact ih.2 f hf
  · exact hout f hf

/-- A DATA track with forward error correction. -/
def fecDataTrack (name : Bytes) : MoqTrackId :=
  ⟨MOQ_TRACK_DATA, MOQ_TRACK_FLAG_FEC_ENABLED, TrackName.ofBuffer name⟩

/-- A packet of one byte on such a track. -/
def onePacket (name : Bytes) (b priority : UInt8) : MoqObject :=
  ⟨fecDataTrack name, 0, 0, [b], false, priority⟩

/-- A server subscribes to the tracks `a` and `b`, publishes two packets and ticks. -/
def twoPacketRun (first second : MoqObject) : List Label :=
  [.connect 1, .conn 1 (.openStream 0 true), .subscribe (fecDataTrack [97]),
    .subscribe (fecDataTrack [98]), .publish (publishAt 0) first,
    .publish (publishAt 1) second, .tick (publishAt 3)]

set_option maxRecDepth 4000 in
/-- Two packets of one track leave the buffer as one object of that track. -/
theorem flushed_keepsTrack_one_track :
    ∃ g out, Runs.run (groupStep FecLib.unavailable) (GroupSystem.init true [] 1280)
        (twoPacketRun (onePacket [97] 1 5) (onePacket [97] 2 5)) = some (g, out) ∧
      out ≠ [] ∧ ∀ f ∈ out, f.KeepsTrack :=
  ⟨_, _, rfl, by simp, flushed_keepsTrack FecLib.unavailable true [] 1280
    (twoPacketRun (onePacket [97] 1 5) (onePacket [97] 2 5)) _ _ (by decide) rfl⟩

set_option maxRecDepth 4000 in
/-- A packet of track `b` that follows one of track `a` within three milliseconds leaves in
an object of track `a`. -/
theorem flushed_other_track :
    ∃ g out f p, Runs.run (groupStep FecLib.unavailable) (GroupSystem.init true [] 1280)
        (twoPacketRun (onePacket [97] 1 5) (onePacket [98] 2 5)) = some (g, out) ∧
      f ∈ out ∧ f.object.data = f.packets.flatMap (fun p => packetFrame p.data) ∧
      p ∈ f.packets ∧ p.trackId.name ≠ f.object.trackId.name := by
  refine ⟨_, _, _, onePacket [98] 2 5, rfl, List.mem_singleton_self _, ?_, ?_, ?_⟩
  · decide
  · decide
  · decide

end Bishlink
