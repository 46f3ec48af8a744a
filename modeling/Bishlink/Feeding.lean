import Bishlink.TrackChunks
import Bishlink.Unpacking

/-!
# Packets of a helper

One transport of the daemon while a helper sends packets of a DATA track: each packet goes through
`on_data_packet`, and `transport_tick` flushes what has waited long enough. `Fed` says what comes
out of it: publishes of objects that are the packets themselves, or groups of them when a subscriber
wants FEC, one after the other and with consecutive ids.
-/

namespace Bishlink

/-- A packet of the helper, or a tick. -/
inductive FeedLabel where
  | packet (io : PublishIO) (buf : Bytes) (priority : UInt8)
  | tick (io : PublishIO)

/-- A transport of the daemon and `ctx->data_object_id`. -/
structure Feed where
  transport : Transport
  dataObjectId : UInt32

/-- `on_data_packet` for a helper of the track, or the head of `transport_tick`. -/
def feedStep (lib : FecLib) (track : MoqTrackId) (f : Feed) : FeedLabel → Feed × List Effect
  | .packet io buf priority =>
    let r := transportPublish lib io f.transport (onDataPacket f.dataObjectId track buf priority)
    (⟨r.2.1, f.dataObjectId + 1⟩, r.2.2)
  | .tick io =>
    let r := tickFecBuffer lib io f.transport
    (⟨r.1, f.dataObjectId⟩, r.2)

/-- Packets and ticks, one after the other. -/
def feedRun (lib : FecLib) (track : MoqTrackId) : Feed → List FeedLabel → Feed × List Effect
  | f, [] => (f, [])
  | f, l :: ls =>
    let r := feedStep lib track f l
    let q := feedRun lib track r.1 ls
    (q.1, r.2 ++ q.2)

/-- The packets that the helper sends. -/
def helperPackets (ls : List FeedLabel) : List Bytes :=
  ls.filterMap fun l =>
    match l with
    | .packet _ buf _ => some buf
    | .tick _ => none

/-- What a label reads from the outside. -/
def FeedLabel.io : FeedLabel → PublishIO
  | .packet io _ _ => io
  | .tick io => io

/-! ## Publishing leaves the subscribers alone -/

theorem closing_publishReliableConn (io : PublishIO) (isServer : Bool) (obj : MoqObject)
    (c : Conn) : (publishReliableConn io isServer obj c).1.closing = c.closing := by
  simp only [publishReliableConn]
  split
  · rfl
  split
  · rfl
  split
  · rfl
  split <;> rfl

/-- The test for FEC does not look at the streams. -/
theorem wantsFec_of_mappings {s s' : Subscriptions} (h : s'.mappings = s.mappings)
    (track : MoqTrackId) :
    (s'.entries.any fun e => e.holds track.type track.name &&
        (getTrackProfile e.trackId).fecEnabled) =
      s.entries.any fun e => e.holds track.type track.name &&
        (getTrackProfile e.trackId).fecEnabled := by
  have hany : ∀ s : Subscriptions, (s.entries.any fun e => e.holds track.type track.name &&
      (getTrackProfile e.trackId).fecEnabled) = s.mappings.any fun e =>
        e.holds track.type track.name && (getTrackProfile e.trackId).fecEnabled := by
    intro s
    rw [Subscriptions.mappings, List.any_map]
    rfl
  rw [hany, hany, h]

theorem useFec_publishDirect (lib : FecLib) (io : PublishIO) (t : Transport) (obj : MoqObject)
    (track : MoqTrackId) : useFec (publishDirect lib io t obj).1 track = useFec t track := by
  unfold publishDirect
  split
  · unfold publishReliable useFec
    dsimp only
    rw [List.map_map, List.any_map]
    congr 1
    funext c
    dsimp only [Function.comp]
    rw [closing_publishReliableConn,
      wantsFec_of_mappings (publishReliableConn_same io t.isServer obj c).mappings]
  · rfl

/-! ## Publishes -/

/-- All that the publish does outside the transport. -/
def Publication.effects (lib : FecLib) (p : Publication) : List Effect :=
  (transportPublish lib p.io p.transport p.obj).2.2

/-- Only the grouping buffer differs. -/
def Transport.Alike (t t' : Transport) : Prop := t' = { t with fec := t'.fec }

theorem Transport.Alike.trans {t t' t'' : Transport} (h : t.Alike t') (h' : t'.Alike t'') :
    t.Alike t'' := by
  unfold Alike at h h' ⊢
  rw [h', h]

/-- Publishes past the grouping block, each where the one before left the transport. -/
inductive Publications (lib : FecLib) : Transport → List Publication → Transport → Prop
  | nil {t t' : Transport} (h : t.Alike t') : Publications lib t [] t'
  | cons {t t' : Transport} {p : Publication} {ps : List Publication} (h : t.Alike p.transport)
      (hdirect : routedToGroup p.transport p.obj = false)
      (hrest : Publications lib (p.after lib) ps t') : Publications lib t (p :: ps) t'

theorem Publications.alike {lib : FecLib} {t t₁ t' : Transport} {ps : List Publication}
    (h : t.Alike t₁) (hps : Publications lib t₁ ps t') : Publications lib t ps t' := by
  cases hps with
  | nil h' => exact .nil (h.trans h')
  | cons h' hdirect hrest => exact .cons (h.trans h') hdirect hrest

theorem Publications.append {lib : FecLib} {t t₁ t' : Transport} {ps qs : List Publication}
    (hps : Publications lib t ps t₁) (hqs : Publications lib t₁ qs t') :
    Publications lib t (ps ++ qs) t' := by
  induction hps with
  | nil h => exact hqs.alike h
  | cons h hdirect _ ih => exact .cons h hdirect (ih hqs)

/-! ## What is fed -/

/-- The object that carries these packets: their frames, or the packet as it is. -/
def carried (wrapped : Bool) (group : List Bytes) : Bytes :=
  if wrapped then group.flatMap packetFrame else group.flatten

/-- The id that the next object gets. -/
def Feed.nextId (f : Feed) (wrapped : Bool) : UInt32 :=
  if wrapped then f.transport.fec.objectId else f.dataObjectId

/-- The packets `pending` wait in the buffer; a subscriber wants FEC when `wrapped` says so. -/
structure Feeding (track : MoqTrackId) (wrapped : Bool) (f : Feed) (pending : List Bytes) : Prop
    where
  type_eq : track.type = MOQ_TRACK_DATA
  useFec_eq : useFec f.transport track = wrapped
  inFlush_eq : f.transport.fec.inFlush = false
  buf_eq : f.transport.fec.buf = pending.flatMap packetFrame
  track_eq : pending ≠ [] → f.transport.fec.trackId = track
  nothing : wrapped = false → pending = []

/-- Between two points of a run these publishes were made, and these packets waited; `P` holds of
all that was read from the outside. -/
structure Fed (lib : FecLib) (P : PublishIO → Prop) (track : MoqTrackId) (wrapped : Bool)
    (f f' : Feed) (pending pending' packets : List Bytes) (ps : List Publication)
    (o : List Effect) : Prop where
  effects_eq : o = ps.flatMap (·.effects lib)
  publications : Publications lib f.transport ps f'.transport
  io : ∀ p ∈ ps, P p.io
  track_eq : ∀ p ∈ ps, p.obj.trackId = track
  size_le : ∀ p ∈ ps, p.obj.data.length ≤ 69536
  groups : ∃ groups : List (List Bytes), groups.flatten ++ pending' = pending ++ packets ∧
    ps.map (·.obj.data) = groups.map (carried wrapped) ∧
    ∀ g ∈ groups, g ≠ [] ∧ (wrapped = false → g.length = 1)
  keys : ps.map (·.obj.key) =
    (List.range ps.length).map fun k => ⟨0, f.nextId wrapped + UInt32.ofNat k⟩
  nextId_eq : f'.nextId wrapped = f.nextId wrapped + UInt32.ofNat ps.length

theorem Fed.append {lib : FecLib} {P : PublishIO → Prop} {track : MoqTrackId} {wrapped : Bool}
    {f f₁ f' : Feed} {pending pending₁ pending' packets packets' : List Bytes}
    {ps qs : List Publication}
    {o o' : List Effect} (h : Fed lib P track wrapped f f₁ pending pending₁ packets ps o)
    (h' : Fed lib P track wrapped f₁ f' pending₁ pending' packets' qs o') :
    Fed lib P track wrapped f f' pending pending' (packets ++ packets') (ps ++ qs) (o ++ o') := by
  obtain ⟨groups, hpackets, hdata, hone⟩ := h.groups
  obtain ⟨groups', hpackets', hdata', hone'⟩ := h'.groups
  refine ⟨?_, h.publications.append h'.publications, ?_, ?_, ?_, ⟨groups ++ groups', ?_, ?_, ?_⟩,
    ?_, ?_⟩
  · rw [h.effects_eq, h'.effects_eq, List.flatMap_append]
  · intro p hp
    rcases List.mem_append.mp hp with hp | hp
    · exact h.io p hp
    · exact h'.io p hp
  · intro p hp
    rcases List.mem_append.mp hp with hp | hp
    · exact h.track_eq p hp
    · exact h'.track_eq p hp
  · intro p hp
    rcases List.mem_append.mp hp with hp | hp
    · exact h.size_le p hp
    · exact h'.size_le p hp
  · rw [List.flatten_append, List.append_assoc, hpackets', ← List.append_assoc, hpackets,
      List.append_assoc]
  · rw [List.map_append, List.map_append, hdata, hdata']
  · intro g hg
    rcases List.mem_append.mp hg with hg | hg
    · exact hone g hg
    · exact hone' g hg
  · rw [List.map_append, h.keys, h'.keys, List.length_append, List.range_add, List.map_append,
      List.map_map]
    congr 1
    apply List.map_congr_left
    intro k _
    dsimp only [Function.comp]
    rw [h.nextId_eq, UInt32.ofNat_add, UInt32.add_assoc]
  · rw [h'.nextId_eq, h.nextId_eq, List.length_append, UInt32.ofNat_add, UInt32.add_assoc]

/-! ## One step -/

section Step

variable {lib : FecLib} {P : PublishIO → Prop} {track : MoqTrackId} {f : Feed}
  {pending : List Bytes}

/-- No step that publishes nothing and takes no packet. -/
theorem Fed.refl (lib : FecLib) (P : PublishIO → Prop) (track : MoqTrackId) (wrapped : Bool)
    (f : Feed) (pending : List Bytes) : Fed lib P track wrapped f f pending pending [] [] [] :=
  ⟨rfl, .nil rfl, fun _ hp => absurd hp List.not_mem_nil, fun _ hp => absurd hp List.not_mem_nil,
    fun _ hp => absurd hp List.not_mem_nil,
    ⟨[], (List.append_nil pending).symm, rfl, fun _ hg => absurd hg List.not_mem_nil⟩, rfl,
    (UInt32.add_zero _).symm⟩

/-- A packet that no subscriber wants grouped is published as it is. -/
theorem Feeding.direct (h : Feeding track false f pending) (lib : FecLib) {io : PublishIO}
    (hio : P io) {buf : Bytes} (hsize : buf.length ≤ 65535) (priority : UInt8) :
    Feeding track false (feedStep lib track f (.packet io buf priority)).1 [] ∧
      ∃ ps, Fed lib P track false f (feedStep lib track f (.packet io buf priority)).1 pending []
        [buf] ps (feedStep lib track f (.packet io buf priority)).2 := by
  have hnone := h.nothing rfl
  subst hnone
  -- without FEC a packet is an object of its own
  have hdirect : routedToGroup f.transport (onDataPacket f.dataObjectId track buf priority) =
      false := by
    unfold routedToGroup
    rw [show (onDataPacket f.dataObjectId track buf priority).trackId = track from rfl,
      h.useFec_eq, Bool.and_false]
  have hpublish : transportPublish lib io f.transport
      (onDataPacket f.dataObjectId track buf priority) =
        (true, publishDirect lib io f.transport
          (onDataPacket f.dataObjectId track buf priority)) := by
    unfold transportPublish
    rw [hdirect, if_neg Bool.false_ne_true]
  have hfec := fec_publishDirect lib io f.transport
    (onDataPacket f.dataObjectId track buf priority)
  refine ⟨⟨h.type_eq, ?_, ?_, ?_, fun hne => absurd rfl hne, fun _ => rfl⟩,
    [⟨f.transport, io, onDataPacket f.dataObjectId track buf priority⟩], ?_, ?_, ?_, ?_, ?_, ?_,
    ?_, ?_⟩
  · simp only [feedStep, hpublish]
    rw [useFec_publishDirect]
    exact h.useFec_eq
  · simp only [feedStep, hpublish, hfec]
    exact h.inFlush_eq
  · simp only [feedStep, hpublish, hfec]
    exact h.buf_eq
  · exact (List.append_nil _).symm
  · exact .cons rfl hdirect (.nil rfl)
  · intro p hp
    rw [List.mem_singleton.mp hp]
    exact hio
  · intro p hp
    rw [List.mem_singleton.mp hp]
    rfl
  · intro p hp
    rw [List.mem_singleton.mp hp]
    exact hsize.trans (by decide)
  · refine ⟨[[buf]], rfl, ?_, ?_⟩
    · simp [carried, onDataPacket]
    · intro g hg
      rw [List.mem_singleton.mp hg]
      exact ⟨List.cons_ne_nil _ _, fun _ => rfl⟩
  · simp [MoqObject.key, onDataPacket, Feed.nextId]
  · rfl

/-- A packet is appended to the group. -/
theorem Feeding.push (h : Feeding track true f pending) {io : PublishIO} {obj : MoqObject}
    (hobj : obj.trackId = track) {fec : FecBuffer}
    (happend : (f.transport.fec.record io obj).append io obj = some fec) (lib : FecLib)
    (id : UInt32) :
    Feeding track true ⟨{ f.transport with fec := fec }, id⟩ (pending ++ [obj.data]) ∧
      Fed lib P track true f ⟨{ f.transport with fec := fec }, id⟩ pending (pending ++ [obj.data])
        [obj.data] [] [] := by
  obtain ⟨hbuf, -, htrack, -, hinFlush, hid⟩ := FecBuffer.append_eq_some happend
  refine ⟨⟨h.type_eq, h.useFec_eq, ?_, ?_, fun _ => ?_, ?_⟩, rfl, .nil rfl, ?_, ?_, ?_, ?_,
    rfl, ?_⟩
  · show fec.inFlush = false
    rw [hinFlush, FecBuffer.inFlush_record]
    exact h.inFlush_eq
  · show fec.buf = _
    rw [hbuf, FecBuffer.buf_record, h.buf_eq, List.flatMap_append, List.flatMap_singleton]
  · show fec.trackId = track
    rw [htrack]
    by_cases hnil : f.transport.fec.buf = []
    · rw [FecBuffer.record, if_pos hnil]
      exact hobj
    · rw [FecBuffer.record, if_neg hnil]
      apply h.track_eq
      rintro rfl
      exact hnil h.buf_eq
  · exact fun habsurd => absurd habsurd.symm Bool.false_ne_true
  · exact fun _ hp => absurd hp List.not_mem_nil
  · exact fun _ hp => absurd hp List.not_mem_nil
  · exact fun _ hp => absurd hp List.not_mem_nil
  · refine ⟨[], ?_, rfl, fun _ hg => absurd hg List.not_mem_nil⟩
    rw [List.flatten_nil, List.nil_append]
  · show fec.objectId = f.transport.fec.objectId + UInt32.ofNat 0
    rw [hid, FecBuffer.objectId_record]
    exact (UInt32.add_zero _).symm

/-- The group is flushed. -/
theorem Feeding.flush (h : Feeding track true f pending) (hne : pending ≠ [])
    (hsize : f.transport.fec.buf.length ≤ 69536) (lib : FecLib) {io : PublishIO} (hio : P io)
    (id : UInt32) :
    Feeding track true ⟨(flushFecBuffer lib io f.transport).1, id⟩ [] ∧
      ∃ ps, Fed lib P track true f ⟨(flushFecBuffer lib io f.transport).1, id⟩ pending [] [] ps
        (flushFecBuffer lib io f.transport).2 := by
  have hbuf : f.transport.fec.buf ≠ [] := by
    rw [h.buf_eq]
    intro hnil
    obtain ⟨p, hp⟩ := List.exists_mem_of_ne_nil pending hne
    exact packetFrame_ne_nil p (List.flatMap_eq_nil_iff.mp hnil p hp)
  have htrack : (groupedObject f.transport).trackId = track := h.track_eq hne
  obtain ⟨⟨hempty, -, hinFlush⟩, hid, -⟩ := flushFecBuffer_spec lib io hbuf
  -- the flush is a publish that skips the grouping block
  have hpublish := transportPublish_of_inFlush
    (t := { f.transport with fec := { f.transport.fec with
      objectId := f.transport.fec.objectId + 1, inFlush := true } }) rfl lib io
    (groupedObject f.transport)
  have hflush : flushFecBuffer lib io f.transport = _ := if_neg hbuf
  refine ⟨⟨h.type_eq, ?_, hinFlush, hempty, fun hne => absurd rfl hne, fun _ => rfl⟩,
    [⟨{ f.transport with fec := { f.transport.fec with
      objectId := f.transport.fec.objectId + 1, inFlush := true } }, io,
      groupedObject f.transport⟩], ?_, ?_, ?_, ?_, ?_, ⟨[pending], ?_, ?_, ?_⟩, ?_, ?_⟩
  · rw [hflush]
    exact (useFec_publishDirect lib io _ (groupedObject f.transport) track).trans h.useFec_eq
  · rw [hflush, List.flatMap_singleton, Publication.effects, hpublish]
  · refine .cons rfl ?_ (.nil ?_)
    · simp [routedToGroup]
    · rw [hflush, Publication.after, hpublish]
      rfl
  · intro p hp
    rw [List.mem_singleton.mp hp]
    exact hio
  · intro p hp
    rw [List.mem_singleton.mp hp]
    exact htrack
  · intro p hp
    rw [List.mem_singleton.mp hp]
    exact hsize
  · simp
  · rw [List.map_singleton, List.map_singleton, carried, if_pos rfl, ← h.buf_eq]
    rfl
  · intro g hg
    rw [List.mem_singleton.mp hg]
    exact ⟨hne, fun habsurd => absurd habsurd.symm Bool.false_ne_true⟩
  · simp [MoqObject.key, groupedObject, Feed.nextId]
  · exact hid

/-- The buffer can grow for a packet, and its length fits the prefix. -/
def FeedLabel.Fits : FeedLabel → Prop
  | .packet io buf _ => io.reallocOk = true ∧ buf.length ≤ 65535
  | .tick _ => True

/-- Nothing waits when the buffer is empty. -/
theorem Feeding.eq_nil {wrapped : Bool} (h : Feeding track wrapped f pending)
    (hbuf : f.transport.fec.buf = []) : pending = [] := by
  by_contra hne
  obtain ⟨buf, hmem⟩ := List.exists_mem_of_ne_nil pending hne
  rw [h.buf_eq] at hbuf
  exact packetFrame_ne_nil buf (List.flatMap_eq_nil_iff.mp hbuf buf hmem)

theorem helperPackets_le {ls : List FeedLabel} (hls : ∀ l ∈ ls, l.Fits) :
    ∀ buf ∈ helperPackets ls, buf.length ≤ 65535 := by
  intro buf hbuf
  obtain ⟨l, hl, hpacket⟩ := List.mem_filterMap.mp hbuf
  have hfits := hls l hl
  cases l with
  | packet io buf' priority =>
    rw [← Option.some.inj hpacket]
    exact hfits.2
  | tick io => exact absurd hpacket.symm (Option.some_ne_none _)

/-- One label. -/
theorem Feeding.step {wrapped : Bool} (h : Feeding track wrapped f pending)
    (hshort : f.transport.fec.buf.length < 4000) (lib : FecLib) {l : FeedLabel} (hl : l.Fits)
    (hio : P l.io) :
    ∃ pending' ps, Feeding track wrapped (feedStep lib track f l).1 pending' ∧
      (feedStep lib track f l).1.transport.fec.buf.length < 4000 ∧
      Fed lib P track wrapped f (feedStep lib track f l).1 pending pending' (helperPackets [l]) ps
        (feedStep lib track f l).2 := by
  cases wrapped with
  | false =>
    cases l with
    | packet io buf priority =>
      have hread : P io := hio
      obtain ⟨hfeeding, ps, hfed⟩ := h.direct lib hread hl.2 priority
      refine ⟨[], ps, hfeeding, ?_, hfed⟩
      rw [hfeeding.buf_eq]
      decide
    | tick io =>
      have hempty : f.transport.fec.buf = [] := by
        rw [h.buf_eq, h.nothing rfl]
        rfl
      -- there is nothing to flush
      have hquiet : tickFecBuffer lib io f.transport = (f.transport, []) :=
        if_neg fun hboth => hboth.1 hempty
      have hsame : feedStep lib track f (.tick io) = (f, []) := by
        simp only [feedStep, hquiet]
      rw [hsame]
      exact ⟨pending, [], h, hshort, Fed.refl lib P track false f pending⟩
  | true =>
    cases l with
    | packet io buf priority =>
      have hread : P io := hio
      have hroute : routedToGroup f.transport (onDataPacket f.dataObjectId track buf priority) =
          true := by
        unfold routedToGroup
        rw [show (onDataPacket f.dataObjectId track buf priority).trackId = track from rfl,
          h.useFec_eq, h.inFlush_eq, h.type_eq]
        rfl
      -- the buffer can grow, so the packet is taken in; a full buffer is flushed at once
      obtain ⟨fec, happend⟩ : ∃ fec, (f.transport.fec.record io
          (onDataPacket f.dataObjectId track buf priority)).append io
            (onDataPacket f.dataObjectId track buf priority) = some fec := by
        unfold FecBuffer.append
        dsimp only
        rw [if_neg fun hboth => hboth.2 hl.1]
        exact ⟨_, rfl⟩
      obtain ⟨hpushed, hfedPush⟩ := h.push rfl happend lib (f.dataObjectId + 1)
      have hgrown := congrArg List.length (FecBuffer.append_eq_some happend).1
      rw [FecBuffer.buf_record, List.length_append] at hgrown
      have hframe : (packetFrame buf).length = 2 + buf.length := by simp [packetFrame]
      have hbuf := hl.2
      by_cases hfull : fec.full = true
      · have hne : pending ++ [buf] ≠ [] := List.append_ne_nil_of_right_ne_nil _ (by simp)
        obtain ⟨hflushed, ps, hfedFlush⟩ := hpushed.flush hne (by
          show fec.buf.length ≤ 69536
          rw [hgrown]
          show _ + (packetFrame buf).length ≤ _
          omega) lib hread (f.dataObjectId + 1)
        have hstep : feedStep lib track f (.packet io buf priority) =
            (⟨(flushFecBuffer lib io { f.transport with fec := fec }).1, f.dataObjectId + 1⟩,
              (flushFecBuffer lib io { f.transport with fec := fec }).2) := by
          simp only [feedStep, transportPublish, groupPacket, hroute, if_true, happend, hfull]
        rw [hstep]
        refine ⟨[], ps, hflushed, ?_, hfedPush.append hfedFlush⟩
        rw [hflushed.buf_eq]
        decide
      · have hstep : feedStep lib track f (.packet io buf priority) =
            (⟨{ f.transport with fec := fec }, f.dataObjectId + 1⟩, []) := by
          simp only [feedStep, transportPublish, groupPacket, hroute, if_true, happend, hfull,
            Bool.false_eq_true, if_false]
        rw [hstep]
        refine ⟨_, [], hpushed, ?_, hfedPush⟩
        simp only [FecBuffer.full, Bool.or_eq_true, decide_eq_true_eq, not_or, not_le] at hfull
        exact hfull.2
    | tick io =>
      have hread : P io := hio
      by_cases hold : f.transport.fec.buf ≠ [] ∧ 3 ≤ io.timeMs - f.transport.fec.firstPktTime
      · have hne : pending ≠ [] := by
          rintro rfl
          exact hold.1 h.buf_eq
        obtain ⟨hflushed, ps, hfed⟩ := h.flush hne (by omega) lib hread f.dataObjectId
        have hstep : feedStep lib track f (.tick io) =
            (⟨(flushFecBuffer lib io f.transport).1, f.dataObjectId⟩,
              (flushFecBuffer lib io f.transport).2) := by
          simp only [feedStep, tickFecBuffer, if_pos hold]
        rw [hstep]
        refine ⟨[], ps, hflushed, ?_, hfed⟩
        rw [hflushed.buf_eq]
        decide
      · have hstep : feedStep lib track f (.tick io) = (f, []) := by
          simp only [feedStep, tickFecBuffer, if_neg hold]
        rw [hstep]
        exact ⟨pending, [], h, hshort, Fed.refl lib P track true f pending⟩

end Step

/-! ## Whole runs -/

/-- All labels, from a point at which some packets wait. -/
theorem Feeding.run {P : PublishIO → Prop} {track : MoqTrackId} {wrapped : Bool} {f : Feed}
    {pending : List Bytes}
    (h : Feeding track wrapped f pending) (hshort : f.transport.fec.buf.length < 4000)
    (lib : FecLib) {ls : List FeedLabel} (hls : ∀ l ∈ ls, l.Fits ∧ P l.io) :
    ∃ pending' ps, Feeding track wrapped (feedRun lib track f ls).1 pending' ∧
      Fed lib P track wrapped f (feedRun lib track f ls).1 pending pending' (helperPackets ls) ps
        (feedRun lib track f ls).2 := by
  induction ls generalizing f pending with
  | nil => exact ⟨pending, [], h, Fed.refl lib P track wrapped f pending⟩
  | cons l ls ih =>
    obtain ⟨pending₁, ps, hfeeding₁, hshort₁, hfed₁⟩ := h.step hshort lib
      (hls l List.mem_cons_self).1 (hls l List.mem_cons_self).2
    obtain ⟨pending', qs, hfeeding', hfed'⟩ :=
      ih hfeeding₁ hshort₁ fun l' hl' => hls l' (List.mem_cons_of_mem l hl')
    have hpackets : helperPackets (l :: ls) = helperPackets [l] ++ helperPackets ls := by
      rw [helperPackets, helperPackets, helperPackets, ← List.filterMap_append]
      rfl
    rw [hpackets]
    exact ⟨pending', ps ++ qs, hfeeding', hfed₁.append hfed'⟩

end Bishlink
