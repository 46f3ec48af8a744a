import Mathlib.Data.List.Pairwise
import Bishlink.Lengths

/-!
# The keys of the objects of a transport

The ids of the objects that go out as datagrams come from two counters: the daemon counts
the packets it passes to `transport_publish`, the transport counts its groups. `daemonStep`
is one transport of a daemon; its outputs are these objects with their number in their
count.

* `Numbered.step`: the id of an object is its number, and the numbers of a kind increase;
* `object_keys_unique_iff`: the keys are unique exactly when no packet and no group of one
  track share a number.
-/

namespace Bishlink

open Runs

/-! ## One transport of the daemon -/

/-- An object that is sent as datagrams: a packet as it is, or a group; and the number of
packets, or groups, before it. -/
structure DatagramObject where
  object : MoqObject
  grouped : Bool
  number : ℕ
deriving DecidableEq

/-- A transport of the daemon; `packets` and `groups` count the calls of `on_data_packet` and
the groups flushed. -/
structure DaemonSystem where
  group : GroupSystem
  dataObjectId : UInt32
  packets : ℕ
  groups : ℕ

def DaemonSystem.init (isServer : Bool) (links : List SockAddr) (mtu : ℕ) : DaemonSystem :=
  ⟨GroupSystem.init isServer links mtu, 0, 0, 0⟩

/-- A helper sends a packet, or anything else happens to the transport. -/
inductive DaemonLabel where
  | dataPacket (io : PublishIO) (trackId : MoqTrackId) (buf : Bytes) (priority : UInt8)
  | transport (l : Label)

instance (t : Transport) (obj : MoqObject) (c : Conn) : Decidable (GetsDatagrams t obj c) := by
  unfold GetsDatagrams
  infer_instance

/-- The object is not on a reliable track and some connection gets it. -/
def goesAsDatagrams (t : Transport) (obj : MoqObject) : Bool :=
  !(getTrackProfile obj.trackId).reliable && t.conns.any fun c => GetsDatagrams t obj c

/-- A packet that is sent as it is. -/
def directObject (d : DaemonSystem) (obj : MoqObject) : List DatagramObject :=
  if !routedToGroup d.group.system.transport obj && goesAsDatagrams d.group.system.transport obj
  then [⟨obj, false, d.packets⟩]
  else []

/-- The groups that a step flushes. -/
def groupObjects (d : DaemonSystem) (out : List FlushedGroup) : List DatagramObject :=
  (out.filter fun f => goesAsDatagrams d.group.system.transport f.object).map fun f =>
    ⟨f.object, true, d.groups⟩

/-- One step: the daemon publishes through `on_data_packet` only. -/
def daemonStep (lib : FecLib) (d : DaemonSystem) :
    DaemonLabel → Option (DaemonSystem × List DatagramObject)
  | .dataPacket io trackId buf priority =>
    let obj := onDataPacket d.dataObjectId trackId buf priority
    (groupStep lib d.group (.publish io obj)).map fun r =>
      (⟨r.1, d.dataObjectId + 1, d.packets + 1, d.groups + r.2.length⟩,
        directObject d obj ++ groupObjects d r.2)
  | .transport (.publish _ _) => none
  | .transport l =>
    (groupStep lib d.group l).map fun r =>
      ({ d with group := r.1, groups := d.groups + r.2.length }, groupObjects d r.2)

/-! ## Keys -/

/-- Two objects are on different tracks or have different keys. -/
def KeysDiffer (a b : DatagramObject) : Prop :=
  a.object.trackId.sameTrack b.object.trackId = true → a.object.key ≠ b.object.key

/-- The objects on one track have different keys. -/
def KeysUnique (sent : List DatagramObject) : Prop := sent.Pairwise KeysDiffer

instance (a b : DatagramObject) : Decidable (KeysDiffer a b) := by
  unfold KeysDiffer
  infer_instance

instance (sent : List DatagramObject) : Decidable (KeysUnique sent) := by
  unfold KeysUnique
  infer_instance

/-- No packet that was sent as it is and no group on the same track have the same number. -/
def NoSharedNumber (sent : List DatagramObject) : Prop :=
  ∀ a ∈ sent, ∀ b ∈ sent, a.grouped = false → b.grouped = true →
    a.object.trackId.sameTrack b.object.trackId = true → a.number ≠ b.number

instance (sent : List DatagramObject) : Decidable (NoSharedNumber sent) := by
  unfold NoSharedNumber
  infer_instance

/-- What the counters have to do with the objects sent so far. -/
structure Numbered (d : DaemonSystem) (sent : List DatagramObject) : Prop where
  grouped : Grouped d.group
  packetId : d.dataObjectId = UInt32.ofNat d.packets
  groupId : d.group.system.transport.fec.objectId = UInt32.ofNat d.groups
  groups_le : d.groups + d.group.pending.length ≤ d.packets
  key_eq : ∀ a ∈ sent, a.object.key = ⟨0, UInt32.ofNat a.number⟩
  number_lt : ∀ a ∈ sent, a.number < if a.grouped then d.groups else d.packets
  increasing : sent.Pairwise fun a b => a.grouped = b.grouped → a.number < b.number

/-! ## One step -/

/-- What a step adds: at most one packet, then at most one group, numbered by the counters. -/
structure Adds (d d' : DaemonSystem) (o : List DatagramObject) : Prop where
  key_eq : ∀ a ∈ o, a.object.key = ⟨0, UInt32.ofNat a.number⟩
  number_eq : ∀ a ∈ o, a.number = if a.grouped then d.groups else d.packets
  number_lt : ∀ a ∈ o, a.number < if a.grouped then d'.groups else d'.packets
  pairwise : o.Pairwise fun a b => a.grouped ≠ b.grouped

theorem Numbered.append {d d' : DaemonSystem} {sent o : List DatagramObject}
    (h : Numbered d sent) (hadds : Adds d d' o) (hgrouped : Grouped d'.group)
    (hpacketId : d'.dataObjectId = UInt32.ofNat d'.packets)
    (hgroupId : d'.group.system.transport.fec.objectId = UInt32.ofNat d'.groups)
    (hle : d'.groups + d'.group.pending.length ≤ d'.packets)
    (hpackets : d.packets ≤ d'.packets) (hgroups : d.groups ≤ d'.groups) :
    Numbered d' (sent ++ o) := by
  refine ⟨hgrouped, hpacketId, hgroupId, hle, ?_, ?_, ?_⟩
  · intro a ha
    rcases List.mem_append.mp ha with ha | ha
    · exact h.key_eq a ha
    · exact hadds.key_eq a ha
  · intro a ha
    rcases List.mem_append.mp ha with ha | ha
    · have hlt := h.number_lt a ha
      split
      · next hkind =>
        rw [if_pos hkind] at hlt
        omega
      · next hkind =>
        rw [if_neg hkind] at hlt
        omega
    · exact hadds.number_lt a ha
  · rw [List.pairwise_append]
    refine ⟨h.increasing, hadds.pairwise.imp fun hne heq => absurd heq hne, ?_⟩
    intro a ha b hb hkind
    rw [hadds.number_eq b hb, ← hkind]
    exact h.number_lt a ha

/-- What a step of the group system does to the counter of the groups. -/
theorem groupStep_objectId {lib : FecLib} {g g' : GroupSystem} {l : Label}
    {out : List FlushedGroup} (hg : Grouped g) (hstep : groupStep lib g l = some (g', out)) :
    (out = [] ∧ g'.system.transport.fec.objectId = g.system.transport.fec.objectId ∧
        g'.pending.length ≤ g.pending.length + (groupedPacket g.system.transport l).toList.length) ∨
      ∃ f, out = [f] ∧ f.object.groupId = 0 ∧
        f.object.objectId = g.system.transport.fec.objectId.toUInt64 ∧
        g'.system.transport.fec.objectId = g.system.transport.fec.objectId + 1 ∧
        g'.pending = [] ∧
        0 < g.pending.length + (groupedPacket g.system.transport l).toList.length := by
  cases groupStep_change hstep with
  | quiet hnone hfec hpending => exact Or.inl ⟨rfl, by rw [hfec], by rw [hpending]; omega⟩
  | refused io obj hl hroute happend hfec hpending =>
    exact Or.inl ⟨rfl, by rw [hfec, FecBuffer.objectId_record], by rw [hpending]; omega⟩
  | append io obj fec hl hroute happend hfull hfec hpending =>
    obtain ⟨-, -, -, -, -, hid⟩ := FecBuffer.append_eq_some happend
    refine Or.inl ⟨rfl, by rw [hfec, hid, FecBuffer.objectId_record], ?_⟩
    rw [hpending, hl]
    simp [groupedPacket, hroute, happend]
  | fill io obj fec hl hroute happend hfec hid hpending =>
    obtain ⟨-, -, -, -, -, hfecId⟩ := FecBuffer.append_eq_some happend
    rw [FecBuffer.objectId_record] at hfecId
    refine Or.inr ⟨_, rfl, rfl, ?_, hid, hpending, ?_⟩
    · show fec.objectId.toUInt64 = _
      rw [hfecId]
    · rw [hl]
      simp [groupedPacket, hroute, happend]
  | expire io hl hbuf hfec hid hpending =>
    refine Or.inr ⟨_, rfl, rfl, rfl, hid, hpending, ?_⟩
    have hne : g.pending ≠ [] := by
      intro hnil
      apply hbuf
      rw [hg.buf_eq, hnil]
      rfl
    have hpos := List.length_pos_iff.mpr hne
    omega

/-- The groups of a step. -/
theorem adds_groupObjects {d d' : DaemonSystem} {out : List FlushedGroup}
    (hout : out = [] ∨ ∃ f, out = [f] ∧ f.object.key = ⟨0, UInt32.ofNat d.groups⟩)
    (hgroups : d'.groups = d.groups + out.length) : Adds d d' (groupObjects d out) := by
  rcases hout with rfl | ⟨f, rfl, hkey⟩
  · exact ⟨by simp [groupObjects], by simp [groupObjects], by simp [groupObjects],
      by simp [groupObjects]⟩
  have hmem : ∀ a ∈ groupObjects d [f], a = ⟨f.object, true, d.groups⟩ := by
    intro a ha
    obtain ⟨f', hf', rfl⟩ := List.mem_map.mp ha
    rw [List.mem_singleton.mp (List.mem_filter.mp hf').1]
  refine ⟨?_, ?_, ?_, ?_⟩
  · intro a ha
    rw [hmem a ha]
    exact hkey
  · intro a ha
    rw [hmem a ha]
    rfl
  · intro a ha
    rw [hmem a ha]
    show d.groups < d'.groups
    rw [hgroups]
    exact Nat.lt_succ_self _
  · rw [groupObjects, List.filter_singleton]
    cases goesAsDatagrams d.group.system.transport f.object with
    | false => exact List.Pairwise.nil
    | true => exact List.pairwise_singleton _ _

/-- A packet in front of them. -/
theorem Adds.direct {d d' : DaemonSystem} {o : List DatagramObject} {obj : MoqObject}
    (h : Adds d d' o) (hgrouped : ∀ a ∈ o, a.grouped = true)
    (hkey : obj.key = ⟨0, UInt32.ofNat d.packets⟩) (hpackets : d'.packets = d.packets + 1) :
    Adds d d' (directObject d obj ++ o) := by
  rw [directObject]
  split
  · refine ⟨?_, ?_, ?_, ?_⟩
    · intro a ha
      rcases List.mem_cons.mp ha with rfl | ha
      · exact hkey
      · exact h.key_eq a ha
    · intro a ha
      rcases List.mem_cons.mp ha with rfl | ha
      · rfl
      · exact h.number_eq a ha
    · intro a ha
      rcases List.mem_cons.mp ha with rfl | ha
      · show d.packets < d'.packets
        rw [hpackets]
        exact Nat.lt_succ_self _
      · exact h.number_lt a ha
    · refine List.pairwise_cons.mpr ⟨?_, h.pairwise⟩
      intro b hb
      rw [hgrouped b hb]
      exact Bool.false_ne_true
  · exact h

theorem grouped_groupObjects {d : DaemonSystem} {out : List FlushedGroup} {a : DatagramObject}
    (ha : a ∈ groupObjects d out) : a.grouped = true := by
  obtain ⟨f, -, rfl⟩ := List.mem_map.mp ha
  rfl

theorem ofNat_succ_uint32 (n : ℕ) : UInt32.ofNat n + 1 = UInt32.ofNat (n + 1) := by
  rw [UInt32.ofNat_add]
  rfl

/-- Every step adds objects like that and keeps the counters. -/
theorem Numbered.step {lib : FecLib} {d d' : DaemonSystem} {sent o : List DatagramObject}
    {l : DaemonLabel} (h : Numbered d sent) (hstep : daemonStep lib d l = some (d', o)) :
    Numbered d' (sent ++ o) := by
  -- a group that is flushed takes the next number, and holds at least one packet
  have hgroups : ∀ l out g', groupStep lib d.group l = some (g', out) →
      (out = [] ∨ ∃ f, out = [f] ∧ f.object.key = ⟨0, UInt32.ofNat d.groups⟩) ∧
        g'.system.transport.fec.objectId = UInt32.ofNat (d.groups + out.length) ∧
        out.length + g'.pending.length ≤
          d.group.pending.length + (groupedPacket d.group.system.transport l).toList.length := by
    intro l out g' hstep
    rcases groupStep_objectId h.grouped hstep with
      ⟨rfl, hid, hle⟩ | ⟨f, rfl, hgroup, hobject, hid, hpending, hpos⟩
    · refine ⟨Or.inl rfl, ?_, ?_⟩
      · rw [hid, h.groupId]
        rfl
      · rw [List.length_nil, Nat.zero_add]
        exact hle
    · refine ⟨Or.inr ⟨f, rfl, ?_⟩, ?_, ?_⟩
      · rw [MoqObject.key, hgroup, hobject, h.groupId, UInt32.toUInt32_toUInt64]
        rfl
      · rw [hid, h.groupId, ofNat_succ_uint32]
        rfl
      · rw [hpending, List.length_singleton, List.length_nil]
        omega
  cases l with
  | dataPacket io trackId buf priority =>
    simp only [daemonStep] at hstep
    obtain ⟨⟨g', out⟩, hg, heq⟩ := Option.map_eq_some_iff.mp hstep
    simp only [Prod.mk.injEq] at heq
    obtain ⟨rfl, rfl⟩ := heq
    obtain ⟨hout, hid, hle⟩ := hgroups _ _ _ hg
    have hone : (groupedPacket d.group.system.transport (.publish io
        (onDataPacket d.dataObjectId trackId buf priority))).toList.length ≤ 1 := by
      cases groupedPacket d.group.system.transport (.publish io
          (onDataPacket d.dataObjectId trackId buf priority)) with
      | none => exact Nat.zero_le 1
      | some obj => exact Nat.le_refl 1
    have hkey : (onDataPacket d.dataObjectId trackId buf priority).key =
        ⟨0, UInt32.ofNat d.packets⟩ := by
      rw [MoqObject.key, ← h.packetId]
      simp [onDataPacket]
    have hcount := h.groups_le
    refine h.append ?_ (h.grouped.step hg).1 ?_ hid ?_ (Nat.le_succ _) (Nat.le_add_right _ _)
    · exact (adds_groupObjects hout rfl).direct (fun a ha => grouped_groupObjects ha) hkey rfl
    · show d.dataObjectId + 1 = UInt32.ofNat (d.packets + 1)
      rw [h.packetId, ofNat_succ_uint32]
    · show d.groups + out.length + g'.pending.length ≤ d.packets + 1
      omega
  | transport l =>
    have hnone : groupedPacket d.group.system.transport l = none ∧
        (groupStep lib d.group l).map (fun r =>
          (({ d with group := r.1, groups := d.groups + r.2.length } : DaemonSystem),
            groupObjects d r.2)) = some (d', o) := by
      cases l with
      | publish io obj => simp [daemonStep] at hstep
      | _ => exact ⟨rfl, hstep⟩
    obtain ⟨⟨g', out⟩, hg, heq⟩ := Option.map_eq_some_iff.mp hnone.2
    simp only [Prod.mk.injEq] at heq
    obtain ⟨rfl, rfl⟩ := heq
    obtain ⟨hout, hid, hle⟩ := hgroups _ _ _ hg
    rw [hnone.1, Option.toList_none, List.length_nil] at hle
    have hcount := h.groups_le
    refine h.append (adds_groupObjects hout rfl) (h.grouped.step hg).1 h.packetId hid ?_
      (Nat.le_refl _) (Nat.le_add_right _ _)
    show d.groups + out.length + g'.pending.length ≤ d.packets
    omega

instance : Std.Symm KeysDiffer where
  symm _ _ h hsame hkey := h (MoqTrackId.sameTrack_comm.mpr hsame) hkey.symm

/-! ## Whole runs -/

theorem numbered_run {lib : FecLib} {isServer : Bool} {links : List SockAddr} {mtu : ℕ} :
    ∀ labels d sent,
      run (daemonStep lib) (DaemonSystem.init isServer links mtu) labels = some (d, sent) →
      Numbered d sent := by
  refine run_induction (daemonStep lib) (P := fun _ d sent => Numbered d sent) ?_ ?_
  · exact ⟨grouped_init isServer links mtu, rfl, rfl, Nat.le_refl 0, by simp, by simp, by simp⟩
  · intro labels d sent l d' o _ ih hstep
    exact ih.step hstep

/-- The keys of numbered objects, as long as the numbers fit 32 bits. -/
theorem Numbered.keysUnique_iff {d : DaemonSystem} {sent : List DatagramObject}
    (h : Numbered d sent) (hfew : d.packets < 2 ^ 32) :
    KeysUnique sent ↔ NoSharedNumber sent := by
  have hle := h.groups_le
  have hlt : ∀ a ∈ sent, a.number < 2 ^ 32 := by
    intro a ha
    have hbound := h.number_lt a ha
    split at hbound <;> omega
  have hkeys : ∀ a ∈ sent, ∀ b ∈ sent,
      (a.object.key = b.object.key ↔ a.number = b.number) := by
    intro a ha b hb
    rw [h.key_eq a ha, h.key_eq b hb]
    constructor
    · intro heq
      have hnat := congrArg (fun k => k.objectId.toNat) heq
      simp only [UInt32.toNat_ofNat'] at hnat
      have ha' := hlt a ha
      have hb' := hlt b hb
      omega
    · intro heq
      rw [heq]
  constructor
  · intro hunique a ha b hb hdirect hgroup htrack hnumber
    have hne : a ≠ b := by
      rintro rfl
      rw [hdirect] at hgroup
      exact Bool.false_ne_true hgroup
    exact List.Pairwise.forall hunique ha hb hne htrack ((hkeys a ha b hb).mpr hnumber)
  · intro hshared
    refine h.increasing.imp_of_mem ?_
    intro a b ha hb hincr htrack hkey
    have hnumber := (hkeys a ha b hb).mp hkey
    cases hga : a.grouped <;> cases hgb : b.grouped
    · exact absurd hnumber (Nat.ne_of_lt (hincr (hga.trans hgb.symm)))
    · exact hshared a ha b hb hga hgb htrack hnumber
    · exact hshared b hb a ha hgb hga (MoqTrackId.sameTrack_comm.mpr htrack) hnumber.symm
    · exact absurd hnumber (Nat.ne_of_lt (hincr (hga.trans hgb.symm)))

/-- In every run of the daemon with fewer than `2 ^ 32` packets, the objects that the transport
sends as datagrams have unique keys exactly when no packet and no group of one track share a
number. -/
theorem object_keys_unique_iff (lib : FecLib) (isServer : Bool) (links : List SockAddr) (mtu : ℕ)
    (labels : List DaemonLabel) {d : DaemonSystem} {sent : List DatagramObject}
    (hrun : run (daemonStep lib) (DaemonSystem.init isServer links mtu) labels = some (d, sent))
    (hfew : d.packets < 2 ^ 32) : KeysUnique sent ↔ NoSharedNumber sent :=
  (numbered_run labels d sent hrun).keysUnique_iff hfew

/-! ## Packets as they are, and then in a group -/

/-- The peer subscribes to the DATA track `a`. -/
def peerSubscribes (flags : UInt8) : List DaemonLabel :=
  [.transport (.conn 1 (.receive 0
      (ControlMessage.subscribe 8 ⟨MOQ_TRACK_DATA, flags, TrackName.ofBuffer [97]⟩).encode)),
    .transport (.conn 1 (.iterate 0 ⟨MoqTrackId.zero, 0, fun _ => 0⟩))]

/-- A helper sends a packet for that track. -/
def helperPacket (b : UInt8) : DaemonLabel :=
  .dataPacket (publishAt 0) ⟨MOQ_TRACK_DATA, 0, TrackName.ofBuffer [97]⟩ [b] 5

/-- An authenticated peer subscribes without flags; two packets. -/
def plainPacketsRun : List DaemonLabel :=
  [.transport (.connect 1), .transport (.conn 1 (.openStream 0 true)),
    .transport (.conn 1 (.respondAuth true))] ++ peerSubscribes 0 ++
    [helperPacket 1, helperPacket 2]

set_option maxRecDepth 4000 in
/-- The packets have different keys. -/
theorem object_keys_unique_iff_plain :
    ∃ d sent, run (daemonStep FecLib.unavailable) (DaemonSystem.init true [] 1280)
        plainPacketsRun = some (d, sent) ∧ sent.length = 2 ∧ KeysUnique sent :=
  ⟨_, _, rfl, rfl, (object_keys_unique_iff FecLib.unavailable true [] 1280 plainPacketsRun rfl
    (by decide)).mpr (by decide)⟩

/-- The peer subscribes again with the FEC flag, and the tick flushes the next packet. -/
def changedFlagRun : List DaemonLabel :=
  plainPacketsRun ++ peerSubscribes MOQ_TRACK_FLAG_FEC_ENABLED ++
    [helperPacket 3, .transport (.tick (publishAt 3))]

set_option maxRecDepth 4000 in
/-- The first packet and the first group have the key `(0, 0)` on the same track. -/
theorem changedFlag_sameKey :
    ∃ d sent, run (daemonStep FecLib.unavailable) (DaemonSystem.init true [] 1280)
        changedFlagRun = some (d, sent) ∧ d.packets < 2 ^ 32 ∧ ¬KeysUnique sent :=
  ⟨_, _, rfl, by decide, by decide⟩

end Bishlink
