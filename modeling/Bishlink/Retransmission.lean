import Mathlib.Data.List.Pairwise
import Bishlink.Codes
import Bishlink.Lengths
import Bishlink.Symbols
import Bishlink.Disclosure
import Bishlink.Lib.Ring

/-!
# Retransmission

A NACK is answered from a ring of the last DATA objects, with the symbols cut and encoded again
by other code than that of `transport_publish`.

* `sentInv_run`: the ring holds the last 32 objects that went out;
* `cachedSymbols_slot`: both codes come to the same symbols;
* `retransmission_agrees`: so a retransmitted datagram is the original one, but for the path
  and the time.
-/

namespace Bishlink

open ByteCodec Runs

/-! ## What the ring is about -/

/-- A DATA object that went out as datagrams: what the publish read, and what it sent. -/
structure DataPublish where
  io : PublishIO
  transport : Transport
  object : MoqObject
  effects : List Effect

def recordData (io : PublishIO) (t : Transport) (o : List Effect) (obj : MoqObject) :
    Option DataPublish :=
  if obj.trackId.type = MOQ_TRACK_DATA ∧ (getTrackProfile obj.trackId).reliable = false then
    some ⟨io, t, obj, o⟩
  else none

/-- The DATA object that a label sends as datagrams, with the effects of the step. -/
def dataPublish (t : Transport) (o : List Effect) : Label → Option DataPublish
  | .publish io obj => (sentObjectOf t (.publish io obj)).bind (recordData io t o)
  | .tick io => (sentObjectOf t (.tick io)).bind (recordData io t o)
  | _ => none

/-- The system, with the DATA objects that go out. -/
def sentStep (lib : FecLib) (s : System) (l : Label) : Option (System × List DataPublish) :=
  (step lib s l).map fun r => (r.1, (dataPublish s.transport r.2 l).toList)

/-- The symbols of the object. -/
def DataPublish.shards (lib : FecLib) (p : DataPublish) : ShardedObject :=
  (shardObject lib p.io p.transport p.object).1

/-- The slot of the object. -/
def DataPublish.slot (lib : FecLib) (p : DataPublish) : SentObject :=
  sentObject p.io p.object (p.shards lib)

/-- The code of the object's symbols. -/
def DataPublish.code (lib : FecLib) (p : DataPublish) : FecParams :=
  ⟨senderFecType p.object.trackId.type (p.shards lib).dataSymbols (p.shards lib).paritySymbols,
    (p.shards lib).dataSymbols, (p.shards lib).paritySymbols, (p.shards lib).symbolSize⟩

/-- Nothing fails: the copy for the ring is made, the total fits 16 bits and a datagram the
buffer of the NACK handler, and the parity is encoded. -/
structure DataPublish.Whole (lib : FecLib) (p : DataPublish) : Prop where
  copied : p.io.cacheCopyOk = true
  total_le : (p.shards lib).totalSymbols ≤ 65535
  packet_le : FecPacketHeader.size + p.transport.symbolSize ≤ 2048
  created : 0 < (p.shards lib).paritySymbols → lib.creates (p.code lib) = true
  encoded : 0 < (p.shards lib).paritySymbols → (p.code lib).type = .FEC_RAPTORQ →
    (lib.nanorq (p.shards lib).dataSymbols (p.shards lib).symbolSize []
      (p.shards lib).dataBlocks).isSome = true

/-- Nothing fails when a step sends a DATA object. -/
def SendsWhole (lib : FecLib) (s : System) (l : Label) : Prop :=
  ∀ p ∈ dataPublish s.transport [] l, p.Whole lib

/-- The objects differ in the track, or in the ids as a header carries them. -/
def DataPublish.KeyDiffers (p q : DataPublish) : Prop :=
  p.object.trackId.sameTrack q.object.trackId = true → p.object.key ≠ q.object.key

instance : Std.Symm DataPublish.KeyDiffers where
  symm _ _ h hba heq := h (MoqTrackId.sameTrack_comm.mp hba) heq.symm

def SentKeysDiffer (sent : List DataPublish) : Prop := sent.Pairwise DataPublish.KeyDiffers

/-! ## The ring -/

theorem sentCache_publishDirect (lib : FecLib) (io : PublishIO) (t : Transport)
    (obj : MoqObject) :
    (publishDirect lib io t obj).1.sentCache =
      if obj.trackId.type = MOQ_TRACK_DATA ∧ (getTrackProfile obj.trackId).reliable = false then
        t.sentCache.push (sentObject io obj (shardObject lib io t obj).1)
      else t.sentCache := by
  unfold publishDirect
  by_cases hrel : (getTrackProfile obj.trackId).reliable = true
  · rw [if_pos hrel, if_neg (by simp [hrel])]
    rfl
  · rw [if_neg hrel]
    rw [Bool.not_eq_true] at hrel
    show (if obj.trackId.type = MOQ_TRACK_DATA then _ else _) = _
    refine if_congr ?_ rfl rfl
    rw [hrel]
    exact (and_iff_left rfl).symm

/-- Publishing does not look at the grouping buffer. -/
theorem publishDirect_fec (lib : FecLib) (io : PublishIO) (t : Transport) (fec : FecBuffer)
    (obj : MoqObject) :
    (publishDirect lib io { t with fec := fec } obj).2 = (publishDirect lib io t obj).2 ∧
      (publishDirect lib io { t with fec := fec } obj).1.sentCache =
        (publishDirect lib io t obj).1.sentCache := by
  unfold publishDirect
  split
  · exact ⟨rfl, rfl⟩
  · exact ⟨rfl, rfl⟩

theorem flushFecBuffer_sent (lib : FecLib) (io : PublishIO) {t : Transport} {fec : FecBuffer}
    (hbuf : fec.buf ≠ []) :
    (flushFecBuffer lib io { t with fec := fec }).2 =
        (publishDirect lib io t (groupedObject { t with fec := fec })).2 ∧
      (flushFecBuffer lib io { t with fec := fec }).1.sentCache =
        (publishDirect lib io t (groupedObject { t with fec := fec })).1.sentCache := by
  unfold flushFecBuffer
  rw [if_neg hbuf]
  exact publishDirect_fec lib io t _ _

/-- What `transport_publish` sends, and the ring afterwards. -/
theorem transportPublish_sent (lib : FecLib) (io : PublishIO) (t : Transport)
    (obj : MoqObject) :
    (sentObjectOf t (.publish io obj) = none ∧
        (transportPublish lib io t obj).2.1.sentCache = t.sentCache) ∨
      ∃ obj', sentObjectOf t (.publish io obj) = some obj' ∧
        (transportPublish lib io t obj).2.2 = (publishDirect lib io t obj').2 ∧
        (transportPublish lib io t obj).2.1.sentCache =
          (publishDirect lib io t obj').1.sentCache := by
  unfold transportPublish
  simp only [sentObjectOf, flushedObject]
  by_cases hroute : routedToGroup t obj = true
  · rw [if_pos hroute, if_pos hroute, if_pos hroute]
    unfold groupPacket
    dsimp only
    cases happend : (t.fec.record io obj).append io obj with
    | none => exact Or.inl ⟨rfl, rfl⟩
    | some fec =>
      dsimp only
      by_cases hfull : fec.full = true
      · rw [if_pos hfull, if_pos hfull]
        have hbuf : fec.buf ≠ [] := by
          rw [(FecBuffer.append_eq_some happend).1]
          exact List.append_ne_nil_of_right_ne_nil _ (packetFrame_ne_nil obj.data)
        exact Or.inr ⟨_, rfl, flushFecBuffer_sent lib io hbuf⟩
      · rw [if_neg hfull, if_neg hfull]
        exact Or.inl ⟨rfl, rfl⟩
  · rw [if_neg hroute, if_neg hroute]
    exact Or.inr ⟨obj, rfl, rfl, rfl⟩

theorem recordData_effects (io : PublishIO) (t : Transport) (o : List Effect) (obj : MoqObject) :
    recordData io t o obj = (recordData io t [] obj).map fun p => { p with effects := o } := by
  unfold recordData
  split <;> rfl

theorem dataPublish_effects (t : Transport) (o : List Effect) (l : Label) :
    dataPublish t o l = (dataPublish t [] l).map fun p => { p with effects := o } := by
  cases l with
  | publish io obj =>
    simp only [dataPublish]
    rw [Option.map_bind]
    congr 1
    funext obj'
    exact recordData_effects io t o obj'
  | tick io =>
    simp only [dataPublish]
    rw [Option.map_bind]
    congr 1
    funext obj'
    exact recordData_effects io t o obj'
  | _ => rfl

/-- What the guard says of the record of a step. -/
theorem SendsWhole.whole {lib : FecLib} {s : System} {l : Label} {o : List Effect}
    {p : DataPublish} (h : SendsWhole lib s l) (hp : dataPublish s.transport o l = some p) :
    p.Whole lib := by
  rw [dataPublish_effects] at hp
  obtain ⟨p', hp', rfl⟩ := Option.map_eq_some_iff.mp hp
  have hwhole := h p' hp'
  exact ⟨hwhole.copied, hwhole.total_le, hwhole.packet_le, hwhole.created, hwhole.encoded⟩

/-- What a record says: the effects are those of the datagram branch. -/
structure DataPublish.Sent (lib : FecLib) (p : DataPublish) : Prop where
  data : p.object.trackId.type = MOQ_TRACK_DATA
  effects_eq : p.effects = (publishDatagrams lib p.io p.transport p.object).2
  sound : p.transport.fecCache.Sound lib

/-- A DATA object that goes out as datagrams, or one that does not, in the ring. -/
theorem sent_publishDirect {lib : FecLib} {io : PublishIO} {t : Transport} {obj : MoqObject}
    {o : List Effect} {sc : SentCache} (hsound : t.fecCache.Sound lib)
    (ho : o = (publishDirect lib io t obj).2)
    (hsc : sc = (publishDirect lib io t obj).1.sentCache) :
    (recordData io t o obj = none ∧ sc = t.sentCache) ∨
      ∃ p, recordData io t o obj = some p ∧ p.Sent lib ∧ sc = t.sentCache.push (p.slot lib) := by
  rw [sentCache_publishDirect] at hsc
  by_cases hdata : obj.trackId.type = MOQ_TRACK_DATA ∧
      (getTrackProfile obj.trackId).reliable = false
  · rw [if_pos hdata] at hsc
    have hnot : ¬(getTrackProfile obj.trackId).reliable = true := by
      rw [hdata.2]
      decide
    rw [publishDirect, if_neg hnot] at ho
    exact Or.inr ⟨⟨io, t, obj, o⟩, if_pos hdata, ⟨hdata.1, ho, hsound⟩, hsc⟩
  · rw [if_neg hdata] at hsc
    exact Or.inl ⟨if_neg hdata, hsc⟩

/-- What a step does to the ring. -/
theorem sent_step {lib : FecLib} {s s' : System} {l : Label} {o : List Effect}
    (hsound : s.transport.fecCache.Sound lib) (h : step lib s l = some (s', o)) :
    (dataPublish s.transport o l = none ∧ s'.transport.sentCache = s.transport.sentCache) ∨
      ∃ p, dataPublish s.transport o l = some p ∧ p.Sent lib ∧
        s'.transport.sentCache = s.transport.sentCache.push (p.slot lib) := by
  -- only `transport_publish` writes into the ring, called as such or for a group that is old enough
  rcases step_eq_some h with ⟨ptr, rfl, -, -, -, ht⟩ | ⟨ht, -⟩
  · refine Or.inl ⟨rfl, ?_⟩
    rw [ht]
  cases l with
  | connect ptr => exact absurd ht (by simp [transportStep])
  | conn ptr l =>
    obtain ⟨c, t₁, c', -, hstep, htr⟩ := transportStep_conn.mp ht
    obtain ⟨fc, owd, rfl⟩ := connStep_transport hstep
    refine Or.inl ⟨rfl, ?_⟩
    rw [htr]
    rfl
  | free ptr =>
    simp only [transportStep] at ht
    split at ht
    · exact absurd ht (by simp)
    · simp only [Option.some.injEq, Prod.mk.injEq] at ht
      refine Or.inl ⟨rfl, ?_⟩
      rw [← ht.1]
  | subscribe track =>
    simp only [transportStep, Option.some.injEq] at ht
    have htr : s'.transport = (transportSubscribe s.transport track).2.1 := by rw [ht]
    refine Or.inl ⟨rfl, ?_⟩
    rw [htr, transportSubscribe]
    split
    · rfl
    · split
      · rfl
      · split <;> rfl
  | publish io obj =>
    simp only [transportStep, Option.some.injEq] at ht
    have htr : s'.transport = (transportPublish lib io s.transport obj).2.1 := by rw [ht]
    have ho : o = (transportPublish lib io s.transport obj).2.2 := by rw [ht]
    simp only [dataPublish]
    rcases transportPublish_sent lib io s.transport obj with ⟨hnone, hsame⟩ |
      ⟨obj', hsome, heff, hcache⟩
    · rw [hnone, Option.bind_none, htr]
      exact Or.inl ⟨rfl, hsame⟩
    · rw [hsome, Option.bind_some, htr]
      exact sent_publishDirect hsound (ho.trans heff) hcache
  | tick io =>
    simp only [transportStep, Option.some.injEq] at ht
    have htr : s'.transport = (tickFecBuffer lib io s.transport).1 := by rw [ht]
    have ho : o = (tickFecBuffer lib io s.transport).2 := by rw [ht]
    simp only [dataPublish, sentObjectOf, flushedObject]
    unfold tickFecBuffer at htr ho
    by_cases hold : s.transport.fec.buf ≠ [] ∧ 3 ≤ io.timeMs - s.transport.fec.firstPktTime
    · rw [if_pos hold] at htr ho
      rw [if_pos hold, Option.bind_some, htr]
      have hflush := flushFecBuffer_sent lib io (t := s.transport) hold.1
      exact sent_publishDirect hsound (ho.trans hflush.1) hflush.2
    · rw [if_neg hold] at htr ho
      rw [if_neg hold, Option.bind_none, htr]
      exact Or.inl ⟨rfl, rfl⟩
  | _ =>
    simp only [transportStep, Option.some.injEq, Prod.mk.injEq] at ht
    refine Or.inl ⟨rfl, ?_⟩
    rw [← ht.1]

/-- What the ring has to do with the DATA objects sent so far. -/
structure SentInv (lib : FecLib) (s : System) (sent : List DataPublish) : Prop where
  sound : s.transport.fecCache.Sound lib
  whole : ∀ p ∈ sent, p.Whole lib
  records : ∀ p ∈ sent, p.Sent lib
  window : Ring.window s.transport.sentCache.slots s.transport.sentCache.index =
    (List.replicate SENT_CACHE_SIZE SentObject.zero ++ sent.map (·.slot lib)).rtake
      SENT_CACHE_SIZE

theorem sentInv_init (lib : FecLib) (isServer : Bool) (links : List SockAddr) (mtu : ℕ) :
    SentInv lib (System.init isServer links mtu) [] := by
  refine ⟨FecCache.sound_empty lib, by simp, by simp, ?_⟩
  rw [List.map_nil, List.append_nil, List.rtake, List.length_replicate, Nat.sub_self,
    List.drop_zero]
  show Ring.window (List.replicate SENT_CACHE_SIZE SentObject.zero) 0 = _
  rw [Ring.window, List.drop_zero, List.take_zero, List.append_nil]

/-- One step. -/
theorem SentInv.step {lib : FecLib} {s s' : System} {l : Label} {sent o : List DataPublish}
    (hinv : SentInv lib s sent) (hwhole : SendsWhole lib s l)
    (h : sentStep lib s l = some (s', o)) : SentInv lib s' (sent ++ o) := by
  obtain ⟨⟨s₁, e⟩, hstep, hr⟩ := Option.map_eq_some_iff.mp h
  rw [Prod.mk.injEq] at hr
  obtain ⟨rfl, rfl⟩ := hr
  have hsound := sound_step hinv.sound hstep
  rcases sent_step hinv.sound hstep with ⟨hnone, hsame⟩ | ⟨p, hsome, hsent, hpush⟩
  · rw [hnone, Option.toList_none, List.append_nil]
    refine ⟨hsound, hinv.whole, hinv.records, ?_⟩
    rw [hsame]
    exact hinv.window
  · rw [hsome, Option.toList_some]
    have hp : p.Whole lib := hwhole.whole hsome
    refine ⟨hsound, ?_, ?_, ?_⟩
    · exact List.forall_mem_append.mpr ⟨hinv.whole, List.forall_mem_singleton.mpr hp⟩
    · exact List.forall_mem_append.mpr ⟨hinv.records, List.forall_mem_singleton.mpr hsent⟩
    · rw [hpush, List.map_append, ← List.append_assoc]
      have hlen := s.transport.sentCache.length_slots
      have hwindow : Ring.window s.transport.sentCache.slots s.transport.sentCache.index =
          (List.replicate SENT_CACHE_SIZE SentObject.zero ++ sent.map (·.slot lib)).rtake
            s.transport.sentCache.slots.length := by
        rw [hlen]
        exact hinv.window
      have hindex : s.transport.sentCache.index < s.transport.sentCache.slots.length := by
        rw [hlen]
        exact s.transport.sentCache.index_lt
      have hwrite := Ring.window_write hindex (by simp [hlen]) hwindow (p.slot lib)
      rw [hlen] at hwrite
      exact hwrite

/-- Every run in which nothing fails. -/
theorem sentInv_run {lib : FecLib} {isServer : Bool} {links : List SockAddr} {mtu : ℕ} :
    ∀ labels s sent, Along (sentStep lib) (SendsWhole lib) (System.init isServer links mtu) labels →
      run (sentStep lib) (System.init isServer links mtu) labels = some (s, sent) →
      SentInv lib s sent :=
  run_induction_along (sentStep lib) (P := fun _ s sent => SentInv lib s sent)
    (sentInv_init lib isServer links mtu)
    (fun _ _ _ _ _ _ _ hinv hwhole hstep => hinv.step hwhole hstep)

/-- What is in the slots. -/
theorem SentInv.mem_slots {lib : FecLib} {s : System} {sent : List DataPublish}
    (hinv : SentInv lib s sent) {o : SentObject} :
    o ∈ s.transport.sentCache.slots ↔
      o ∈ (List.replicate SENT_CACHE_SIZE SentObject.zero).drop sent.length ∨
        ∃ p ∈ sent.rtake SENT_CACHE_SIZE, p.slot lib = o := by
  have hblank := Ring.rtake_blank_append (List.replicate SENT_CACHE_SIZE SentObject.zero)
    (sent.map (·.slot lib))
  rw [List.length_replicate, List.length_map] at hblank
  have hmap : (sent.map (·.slot lib)).rtake SENT_CACHE_SIZE =
      (sent.rtake SENT_CACHE_SIZE).map (·.slot lib) := by
    rw [List.rtake, List.rtake, List.length_map, List.map_drop]
  rw [← Ring.mem_window (i := s.transport.sentCache.index), hinv.window, hblank, hmap,
    List.mem_append, List.mem_map]

/-- What the scan of the ring makes of one slot. -/
def matchSlot (track : MoqTrackId) (groupId objectId : UInt32) (o : SentObject) :
    Option (SentObject × Bytes) :=
  match o.data with
  | none => none
  | some data =>
    if o.trackId.sameTrack track ∧ o.groupId = groupId ∧ o.objectId = objectId then some (o, data)
    else none

theorem SentCache.find_eq (sc : SentCache) (track : MoqTrackId) (groupId objectId : UInt32) :
    sc.find track groupId objectId = sc.slots.findSome? (matchSlot track groupId objectId) := rfl

theorem matchSlot_slot {lib : FecLib} {p : DataPublish} (hwhole : p.Whole lib)
    (track : MoqTrackId) (groupId objectId : UInt32) :
    matchSlot track groupId objectId (p.slot lib) =
      if p.object.trackId.sameTrack track = true ∧ p.object.key = ⟨groupId, objectId⟩ then
        some (p.slot lib, p.object.data)
      else none := by
  have hdata : (p.slot lib).data = some p.object.data := if_pos hwhole.copied
  unfold matchSlot
  rw [hdata]
  refine if_congr (and_congr Iff.rfl ?_) rfl rfl
  exact (ObjectKey.mk.injEq _ _ _ _).symm.to_iff

/-- The slots that a NACK finds are those of the last objects. -/
theorem SentInv.matches {lib : FecLib} {s : System} {sent : List DataPublish}
    (hinv : SentInv lib s sent) {o : SentObject} (ho : o ∈ s.transport.sentCache.slots)
    {track : MoqTrackId} {groupId objectId : UInt32} {r : SentObject × Bytes}
    (h : matchSlot track groupId objectId o = some r) :
    ∃ p ∈ sent.rtake SENT_CACHE_SIZE, r = (p.slot lib, p.object.data) ∧
      p.object.trackId.sameTrack track = true ∧ p.object.key = ⟨groupId, objectId⟩ := by
  rcases hinv.mem_slots.mp ho with hzero | ⟨p, hp, rfl⟩
  · rw [List.eq_of_mem_replicate (List.mem_of_mem_drop hzero)] at h
    exact absurd h (Option.some_ne_none r).symm
  · rw [matchSlot_slot (hinv.whole p (List.mem_of_mem_drop hp))] at h
    split at h
    · next hmatch =>
      rw [Option.some.injEq] at h
      exact ⟨p, hp, h.symm, hmatch⟩
    · exact absurd h (Option.some_ne_none r).symm

theorem sameTrack_trans {a b c : MoqTrackId} (hab : a.sameTrack b = true)
    (hbc : b.sameTrack c = true) : a.sameTrack c = true := by
  rw [MoqTrackId.sameTrack_iff] at hab hbc ⊢
  exact ⟨hab.1.trans hbc.1, hab.2.trans hbc.2⟩

/-- A NACK for one of the last objects finds it. -/
theorem find_recent {lib : FecLib} {s : System} {sent : List DataPublish}
    (hinv : SentInv lib s sent) (hdistinct : SentKeysDiffer sent) {p : DataPublish}
    (hp : p ∈ sent.rtake SENT_CACHE_SIZE) {track : MoqTrackId}
    (htrack : p.object.trackId.sameTrack track = true) :
    s.transport.sentCache.find track p.object.key.groupId p.object.key.objectId =
      some (p.slot lib, p.object.data) := by
  have hsent : p ∈ sent := List.mem_of_mem_drop hp
  rw [SentCache.find_eq]
  refine FirstMatch.findSome?_of_unique (hinv.mem_slots.mpr (Or.inr ⟨p, hp, rfl⟩)) ?_ ?_
  · rw [matchSlot_slot (hinv.whole p hsent)]
    exact if_pos ⟨htrack, rfl⟩
  · intro o ho r hr
    obtain ⟨q, hq, rfl, hsame, hkey⟩ := hinv.matches ho hr
    have heq : q = p := by
      by_contra hne
      exact hdistinct.forall (List.mem_of_mem_drop hq) hsent hne
        (sameTrack_trans hsame (MoqTrackId.sameTrack_comm.mp htrack)) hkey
    rw [heq]

/-- A NACK for an older object finds nothing. -/
theorem find_older {lib : FecLib} {s : System} {sent : List DataPublish}
    (hinv : SentInv lib s sent) (hdistinct : SentKeysDiffer sent) {p : DataPublish}
    (hp : p ∈ sent.take (sent.length - SENT_CACHE_SIZE)) {track : MoqTrackId}
    (htrack : p.object.trackId.sameTrack track = true) :
    s.transport.sentCache.find track p.object.key.groupId p.object.key.objectId = none := by
  rw [SentCache.find_eq, List.findSome?_eq_none_iff]
  intro o ho
  cases hr : matchSlot track p.object.key.groupId p.object.key.objectId o with
  | none => rfl
  | some r =>
    exfalso
    obtain ⟨q, hq, -, hsame, hkey⟩ := hinv.matches ho hr
    have hsplit : SentKeysDiffer (sent.take (sent.length - SENT_CACHE_SIZE) ++
        sent.drop (sent.length - SENT_CACHE_SIZE)) := by
      rw [List.take_append_drop]
      exact hdistinct
    exact (List.pairwise_append.mp hsplit).2.2 p hp q hq
      (sameTrack_trans htrack (MoqTrackId.sameTrack_comm.mp hsame)) hkey.symm

/-! ## The symbols -/

/-- The parity of an object: there is none, or a context for its code encoded it. -/
theorem shardObject_parity {lib : FecLib} {p : DataPublish} (hwhole : p.Whole lib)
    (hsent : p.Sent lib) :
    ((p.shards lib).paritySymbols = 0 → (p.shards lib).parityBlocks = []) ∧
      (0 < (p.shards lib).paritySymbols → ∃ f blank, f.params = p.code lib ∧
        (p.shards lib).parityBlocks = fecEncode lib f (p.shards lib).dataBlocks blank) := by
  obtain ⟨hnone, hencoded⟩ := shardObject_parityBlocks hsent.sound p.io p.object
  exact ⟨hnone, fun hpos => hencoded hpos (hwhole.created hpos)⟩

/-- The counts and the size in the slot of an object are not cut. -/
structure SlotExact (o : SentObject) (sh : ShardedObject) : Prop where
  total : o.totalSymbols.toNat = sh.totalSymbols
  dataSymbols : o.dataSymbols.toNat = sh.dataSymbols
  size : o.symbolSize.toNat = sh.symbolSize

theorem slotExact {lib : FecLib} {p : DataPublish} (hwhole : p.Whole lib) :
    SlotExact (p.slot lib) (p.shards lib) := by
  have htotal := hwhole.total_le
  have hpacket := hwhole.packet_le
  have hsize : (p.shards lib).symbolSize ≤ 65535 := by
    rw [DataPublish.shards, (shardObject_data lib _ _ _ htotal (by omega)).1]
    omega
  refine ⟨toNat_ofNat_uint16.mpr htotal, toNat_ofNat_uint16.mpr ?_, toNat_ofNat_uint16.mpr hsize⟩
  unfold ShardedObject.totalSymbols at htotal
  omega

/-- The NACK handler comes to the symbols that were sent. -/
theorem cachedSymbols_slot {lib : FecLib} {cache : FecCache} (hsound : cache.Sound lib)
    (io : ControlIO) {p : DataPublish} (hwhole : p.Whole lib) (hsent : p.Sent lib) :
    (cachedSymbols lib cache io (p.slot lib) p.object.data).1 =
      ((p.shards lib).dataBlocks, (p.shards lib).parityBlocks) := by
  obtain ⟨htotal, hdata, hsize⟩ := slotExact hwhole
  have hpacket := hwhole.packet_le
  obtain ⟨hsymbol, hblocks⟩ := shardObject_data lib p.io p.transport p.object hwhole.total_le
    (by omega)
  obtain ⟨hnone, hparity⟩ := shardObject_parity hwhole hsent
  have hdiff : paritySymbols (p.shards lib).totalSymbols (p.shards lib).dataSymbols =
      (p.shards lib).paritySymbols := by
    have hle : (p.shards lib).dataSymbols ≤ (p.shards lib).totalSymbols := Nat.le_add_right _ _
    rw [paritySymbols, if_pos hle]
    exact Nat.add_sub_cancel_left _ _
  -- a cached object is a DATA object, so both choices of a code agree
  have hcode : (⟨if 255 < (p.shards lib).totalSymbols then .FEC_RAPTORQ else .FEC_REED_SOLOMON,
      (p.shards lib).dataSymbols, (p.shards lib).paritySymbols, (p.shards lib).symbolSize⟩ :
      FecParams) = p.code lib := by
    unfold DataPublish.code senderFecType
    congr 1
    refine if_congr ?_ rfl rfl
    exact (and_iff_right hsent.data).symm
  have hblocks' : (List.range (p.shards lib).dataSymbols).map
      (cachedBlock p.object.data (p.shards lib).symbolSize) = (p.shards lib).dataBlocks := by
    show _ = (shardObject lib p.io p.transport p.object).1.dataBlocks
    rw [hblocks]
    show (List.range _).map (cachedBlock _ (shardObject _ _ _ _).1.symbolSize) = _
    rw [hsymbol]
    rfl
  unfold cachedSymbols
  dsimp only
  rw [htotal, hdata, hsize, hdiff, hblocks', hcode]
  by_cases hpos : 0 < (p.shards lib).paritySymbols
  · rw [if_pos hpos]
    -- the context may be another one, but its parameters are the same
    obtain ⟨f, hf, hparams⟩ := getCachedFec_created hsound io.fecTimeNs (hwhole.created hpos)
    obtain ⟨f', blank, hparams', heq⟩ := hparity hpos
    rw [hf, heq]
    dsimp only
    congr 1
    refine fecEncode_eq (hparams.trans hparams'.symm) ?_ _ _
    rw [hparams]
    exact hwhole.encoded hpos
  · have hzero : (p.shards lib).paritySymbols = 0 := by omega
    rw [if_neg hpos, hnone hzero, hzero]
    rfl

theorem length_cachedBlock (data : Bytes) (size i : ℕ) :
    (cachedBlock data size i).length = size := by
  unfold cachedBlock
  rw [length_writeAt]
  · exact List.length_replicate
  · rw [length_slice, List.length_replicate]
    omega

theorem length_fecEncode {lib : FecLib} {f : FecT} {blocks blank : List Bytes}
    (hencoded : f.params.type = .FEC_RAPTORQ →
      (lib.nanorq f.params.dataSymbols f.params.symbolSize [] blocks).isSome = true) :
    ∀ b ∈ fecEncode lib f blocks blank, b.length = f.params.symbolSize := by
  intro b hb
  unfold fecEncode at hb
  cases htype : f.params.type with
  | FEC_REED_SOLOMON =>
    rw [htype] at hb
    exact lib.length_of_mem_reedSolomonEncode _ _ _ _ b hb
  | FEC_RAPTORQ =>
    obtain ⟨mix, hmix⟩ := Option.isSome_iff_exists.mp (hencoded htype)
    simp only [htype, hmix] at hb
    obtain ⟨i, -, rfl⟩ := List.mem_map.mp hb
    exact lib.length_nanorq _ _ _ _ _ hmix _

/-- The symbol in a datagram is a whole block. -/
theorem symbol_eq {lib : FecLib} {p : DataPublish} (hwhole : p.Whole lib) (hsent : p.Sent lib)
    (s : ℕ) :
    (p.shards lib).symbol s =
      if s < (p.shards lib).dataSymbols then (p.shards lib).dataBlocks.getD s []
      else (p.shards lib).parityBlocks.getD (s - (p.shards lib).dataSymbols) [] := by
  have hpacket := hwhole.packet_le
  obtain ⟨hsymbol, hblocks⟩ := shardObject_data lib p.io p.transport p.object hwhole.total_le
    (by omega)
  obtain ⟨hnone, hparity⟩ := shardObject_parity hwhole hsent
  have hwholeBlock : ∀ {blocks : List Bytes} (i : ℕ),
      (∀ b ∈ blocks, b.length = (p.shards lib).symbolSize) →
      (blocks.getD i []).take (p.shards lib).symbolSize = blocks.getD i [] := by
    intro blocks i hall
    refine List.take_of_length_le ?_
    rw [List.getD_eq_getElem?_getD]
    cases hi : blocks[i]? with
    | none => exact Nat.zero_le _
    | some b => exact (hall b (List.mem_of_getElem? hi)).le
  unfold ShardedObject.symbol
  rw [hwholeBlock, hwholeBlock]
  · intro b hb
    by_cases hpos : 0 < (p.shards lib).paritySymbols
    · obtain ⟨f, blank, hparams, heq⟩ := hparity hpos
      rw [heq] at hb
      have hlen := length_fecEncode (by rw [hparams]; exact hwhole.encoded hpos) b hb
      rw [hlen, hparams]
      rfl
    · rw [hnone (by omega)] at hb
      exact absurd hb List.not_mem_nil
  · intro b hb
    have hb' : b ∈ (shardObject lib p.io p.transport p.object).1.dataBlocks := hb
    rw [hblocks] at hb'
    obtain ⟨i, -, rfl⟩ := List.mem_map.mp hb'
    rw [length_cachedBlock]
    exact hsymbol.symm

/-! ## Datagrams -/

/-- Two datagrams differ at most in `path_id` and `send_time_ns`, the last two fields of the
header. -/
def SameButPathAndTime (a b : Bytes) : Prop :=
  a.length = b.length ∧ a.take 23 = b.take 23 ∧
    a.drop FecPacketHeader.size = b.drop FecPacketHeader.size

theorem sameButPathAndTime (h : FecPacketHeader) (pathId : UInt8) (sendTimeNs : UInt64)
    (symbol : Bytes) :
    SameButPathAndTime (h.encode ++ symbol)
      ({ h with pathId := pathId, sendTimeNs := sendTimeNs }.encode ++ symbol) := by
  refine ⟨?_, rfl, ?_⟩
  · rw [List.length_append, List.length_append, FecPacketHeader.length_encode,
      FecPacketHeader.length_encode]
  · rw [FecPacketHeader.drop_encode, FecPacketHeader.drop_encode]

/-- An answer repeats the datagrams of an object for the listed indices below its total: what it
sends for an index is what was sent for it, under the same alias, but for the path and the
time. -/
def Repeats (lib : FecLib) (p : DataPublish) (trackAlias : UInt8) (missing : List UInt16)
    (ptr : ℕ) (answer : List Effect) : Prop :=
  ∃ copy : ℕ → UInt16 → Bytes,
    answer = (missing.mapIdx fun k s =>
      if (p.shards lib).totalSymbols ≤ s.toNat then none
      else some (Effect.datagram ptr 0 (copy k s))).reduceOption ∧
    ∀ k s conn path original, .datagram conn path original ∈ p.effects →
      (FecPacketHeader.decode original).symbolIndex = s →
      (FecPacketHeader.decode original).trackId = trackAlias →
      SameButPathAndTime original (copy k s)

/-- The datagrams of an object. -/
theorem mem_effects {lib : FecLib} {p : DataPublish} (hsent : p.Sent lib) {conn path : ℕ}
    {bytes : Bytes} (h : .datagram conn path bytes ∈ p.effects) :
    ∃ c trackAlias s, s < (p.shards lib).totalSymbols ∧
      bytes = symbolDatagram p.transport p.io p.object (p.shards lib) c trackAlias s := by
  rw [hsent.effects_eq] at h
  obtain ⟨c, -, hc⟩ := List.mem_flatMap.mp h
  rcases sendDatagrams_eq p.transport p.io p.object (p.shards lib) c with
    ⟨trackAlias, -, heq⟩ | ⟨-, heq⟩
  · have hc' : .datagram conn path bytes ∈
        sendDatagrams p.transport p.io p.object (p.shards lib) c := hc
    rw [heq] at hc'
    obtain ⟨s, hs, hdatagram⟩ := List.mem_map.mp hc'
    rw [Effect.datagram.injEq] at hdatagram
    exact ⟨c, trackAlias, s, List.mem_range.mp hs, hdatagram.2.2.symm⟩
  · have hc' : .datagram conn path bytes ∈
        sendDatagrams p.transport p.io p.object (p.shards lib) c := hc
    rw [heq] at hc'
    exact absurd hc' List.not_mem_nil

/-- What the handler sends for the slot of an object. -/
theorem retransmit_repeats {lib : FecLib} {cache : FecCache} (hsound : cache.Sound lib)
    (io : ControlIO) (c : Conn) {p : DataPublish} (hwhole : p.Whole lib) (hsent : p.Sent lib)
    (trackAlias : UInt8) (missing : List UInt16) :
    Repeats lib p trackAlias missing c.ptr
      (retransmit lib cache io c (p.slot lib) p.object.data trackAlias missing).1 := by
  obtain ⟨htotal, hdata, -⟩ := slotExact hwhole
  refine ⟨fun k s => (cachedHeader io (p.slot lib) p.object.data trackAlias k s).encode ++
    (p.shards lib).symbol s.toNat, ?_, ?_⟩
  · unfold retransmit
    dsimp only
    rw [cachedSymbols_slot hsound io hwhole hsent]
    congr 2
    funext k s
    rw [symbol_eq hwhole hsent, hdata]
    refine if_congr ?_ rfl rfl
    rw [UInt16.le_iff_toNat_le, htotal]
  · intro k s conn path original horig hindex halias
    obtain ⟨c', a, s', hs', rfl⟩ := mem_effects hsent horig
    rw [decode_symbolDatagram] at hindex halias
    have ha : a = trackAlias := halias
    have hs : UInt16.ofNat s' = s := hindex
    have hnat : s.toNat = s' := by
      rw [← hs, toNat_ofNat_uint16]
      have hle := hwhole.total_le
      omega
    subst ha
    dsimp only
    rw [hnat, ← hs]
    exact sameButPathAndTime _ 0 (io.sendTimeNs k) _

/-- After every run in which nothing fails and the DATA objects have distinct keys, a NACK for
one of the last 32 finds the object and is answered with its datagrams; a NACK for an older one
is not answered. -/
theorem retransmission_agrees (lib : FecLib) (isServer : Bool) (links : List SockAddr) (mtu : ℕ)
    (labels : List Label) (s : System) (sent : List DataPublish)
    (hwhole : Along (sentStep lib) (SendsWhole lib) (System.init isServer links mtu) labels)
    (hrun : run (sentStep lib) (System.init isServer links mtu) labels = some (s, sent))
    (hdistinct : SentKeysDiffer sent) (io : ControlIO) (c : Conn) (trackAlias : UInt8)
    (track : MoqTrackId) (missing : List UInt16)
    (halias : findSubscriptionByAlias c.subscriptions trackAlias io.uninitTrack = some track)
    (p : DataPublish) (htrack : p.object.trackId.sameTrack track = true) :
    (p ∈ sent.rtake SENT_CACHE_SIZE →
      s.transport.sentCache.find track p.object.key.groupId p.object.key.objectId =
        some (p.slot lib, p.object.data) ∧
      Repeats lib p trackAlias missing c.ptr
        (handleControlMessage lib io s.transport c
          (.nack trackAlias p.object.key.groupId p.object.key.objectId missing)).2.2) ∧
    (p ∈ sent.take (sent.length - SENT_CACHE_SIZE) →
      (handleControlMessage lib io s.transport c
        (.nack trackAlias p.object.key.groupId p.object.key.objectId missing)).2.2 = []) := by
  have hinv := sentInv_run labels s sent hwhole hrun
  constructor
  · intro hp
    have hfind := find_recent hinv hdistinct hp htrack
    have hsent : p ∈ sent := List.mem_of_mem_drop hp
    refine ⟨hfind, ?_⟩
    simp only [handleControlMessage, halias, hfind]
    exact retransmit_repeats hinv.sound io c (hinv.whole p hsent) (hinv.records p hsent)
      trackAlias missing
  · intro hp
    have hfind := find_older hinv hdistinct hp htrack
    simp only [handleControlMessage, halias, hfind]

/-- A DATA track whose objects have parity. -/
def groupTrack : MoqTrackId :=
  ⟨MOQ_TRACK_DATA, MOQ_TRACK_FLAG_FEC_ENABLED, TrackName.ofBuffer [97]⟩

/-- A peer connects, the application subscribes to the track and publishes a packet, and a tick
sends the group. -/
def groupRun : List Label :=
  [.connect 1, .conn 1 (.openStream 0 true), .conn 1 (.respondAuth true), .subscribe groupTrack,
    .publish (publishAt 1) ⟨groupTrack, 0, 7, List.replicate 1300 42, false, 0⟩,
    .tick (publishAt 5)]

instance (lib : FecLib) (p : DataPublish) : Decidable (p.Whole lib) :=
  decidable_of_iff
    (p.io.cacheCopyOk = true ∧ (p.shards lib).totalSymbols ≤ 65535 ∧
      FecPacketHeader.size + p.transport.symbolSize ≤ 2048 ∧
      (0 < (p.shards lib).paritySymbols → lib.creates (p.code lib) = true) ∧
      (0 < (p.shards lib).paritySymbols → (p.code lib).type = .FEC_RAPTORQ →
        (lib.nanorq (p.shards lib).dataSymbols (p.shards lib).symbolSize []
          (p.shards lib).dataBlocks).isSome = true))
    ⟨fun ⟨hcopied, htotal, hpacket, hcreated, hencoded⟩ =>
      ⟨hcopied, htotal, hpacket, hcreated, hencoded⟩,
      fun h => ⟨h.copied, h.total_le, h.packet_le, h.created, h.encoded⟩⟩

instance (lib : FecLib) (s : System) (l : Label) : Decidable (SendsWhole lib s l) := by
  unfold SendsWhole
  infer_instance

set_option maxRecDepth 20000 in
/-- Of the three symbols of the group the first one and the last one, which is parity, are sent
again. -/
theorem retransmission_agrees_group :
    ∃ s p c, run (sentStep FecLib.interpolating) (System.init true [] 1280) groupRun =
        some (s, [p]) ∧ (p.shards FecLib.interpolating).dataSymbols = 2 ∧
      (p.shards FecLib.interpolating).paritySymbols = 1 ∧ c ∈ s.transport.conns ∧
      Repeats FecLib.interpolating p 8 [0, 2] 1
        (handleControlMessage FecLib.interpolating ⟨MoqTrackId.zero, 0, fun _ => 0⟩ s.transport c
          (.nack 8 0 0 [0, 2])).2.2 := by
  have hagrees := retransmission_agrees FecLib.interpolating true [] 1280 groupRun _ _
    (by decide) rfl (List.pairwise_singleton _ _) ⟨MoqTrackId.zero, 0, fun _ => 0⟩
  exact ⟨_, _, _, rfl, rfl, rfl, List.mem_singleton_self _,
    ((hagrees _ 8 _ [0, 2] rfl _ rfl).1 (List.mem_singleton_self _)).2⟩

end Bishlink
