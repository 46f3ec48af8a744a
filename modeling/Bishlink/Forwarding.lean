import Bishlink.DataUds
import Bishlink.Feeding
import Bishlink.Lossless
import Mathlib.Algebra.Order.BigOperators.Group.List

/-!
# Packets between two helpers

`on_transport_event` at the far end: which packets it passes to `data_uds_send`. The publisher puts
a length in front of each packet when a subscriber wants FEC; the receiver takes the lengths off
when the flags of the event say so. `carried_eq_iff` is the law of the two, and the packets come out
as they went in when both agree: as datagrams (`datagrams_forwarded_iff`), whose events always have
the FEC flag, and on a reliable stream (`stream_forwarded_iff`), whose events have the flags of the
receiver's own table.
-/

namespace Bishlink

open ByteCodec Runs

/-! ## The receiving daemon -/

/-- The calls of `data_uds_send` that `on_transport_event` makes: the packets of a group on a DATA
track with FEC, and the object itself on any other track. -/
def forwardedCalls : TransportEvent → List (MoqTrackId × HelperPacket)
  | .object track obj =>
    if track.type = MOQ_TRACK_DATA ∧ (getTrackProfile track).fecEnabled = true then
      (unpackPackets obj.data).map fun buf => (track, ⟨obj.priority, buf⟩)
    else [(track, ⟨obj.priority, obj.data⟩)]
  | _ => []

/-- The packets that events bring the helpers. -/
def forwardedPackets (evs : List TransportEvent) : List Bytes :=
  (evs.flatMap forwardedCalls).map (·.2.payload)

/-- The packets that the receiver takes out of an object. -/
def stripped (strips : Bool) (object : Bytes) : List Bytes :=
  if strips then unpackPackets object else [object]

theorem payload_forwardedCalls {track : MoqTrackId} (hdata : track.type = MOQ_TRACK_DATA)
    (obj : MoqObject) :
    (forwardedCalls (.object track obj)).map (·.2.payload) =
      stripped (getTrackProfile track).fecEnabled obj.data := by
  unfold forwardedCalls stripped
  dsimp only
  by_cases hfec : (getTrackProfile track).fecEnabled = true
  · rw [if_pos ⟨hdata, hfec⟩, if_pos hfec, List.map_map]
    exact List.map_id _
  · rw [if_neg fun hboth => hfec hboth.2, if_neg hfec]
    rfl

/-! ## Wrapping and stripping -/

theorem length_packetFrame (buf : Bytes) : (packetFrame buf).length = buf.length + 2 := by
  rw [packetFrame, List.length_append, length_toBE, Nat.add_comm]

theorem flatten_flatMap_packetFrame (groups : List (List Bytes)) :
    groups.flatten.flatMap packetFrame = (groups.map fun g => g.flatMap packetFrame).flatten := by
  rw [List.flatten_eq_flatMap, List.flatMap_assoc]
  rfl

/-- Each frame is two bytes longer than its packet. -/
theorem length_flatMap_packetFrame (packets : List Bytes) :
    (packets.flatMap packetFrame).length = packets.flatten.length + 2 * packets.length := by
  induction packets with
  | nil => rfl
  | cons buf packets ih =>
    rw [List.flatMap_cons, List.length_append, ih, length_packetFrame, List.flatten_cons,
      List.length_append, List.length_cons]
    omega

/-- What is taken out of objects is shorter than the objects, by two bytes a packet. -/
theorem length_unpackPackets_le (objects : List Bytes) :
    (objects.flatMap unpackPackets).flatten.length + 2 * (objects.flatMap unpackPackets).length ≤
      objects.flatten.length := by
  rw [← length_flatMap_packetFrame]
  induction objects with
  | nil => exact le_rfl
  | cons object objects ih =>
    have hpre := (exact_parsePacketFrame.drain_longest object).1.length_le
    rw [← unpackPackets_eq_drain] at hpre
    rw [List.flatMap_cons, List.flatMap_append, List.length_append, List.flatten_cons,
      List.length_append]
    exact Nat.add_le_add hpre ih

/-- The packets come out as they went in exactly when the receiver strips what the publisher
wrapped. -/
theorem carried_eq_iff {wrapped strips : Bool} {groups : List (List Bytes)}
    (hgroups : ∀ g ∈ groups, g ≠ [] ∧ (wrapped = false → g.length = 1))
    (hsize : ∀ buf ∈ groups.flatten, buf.length ≤ 65535) :
    (groups.map (carried wrapped)).flatMap (stripped strips) = groups.flatten ↔
      groups.flatten = [] ∨ wrapped = strips := by
  -- without the wrapping every group is one packet
  have hsingle : wrapped = false → groups.map (carried false) = groups.flatten := by
    intro hw
    clear hsize
    induction groups with
    | nil => rfl
    | cons g groups ih =>
      obtain ⟨buf, rfl⟩ := List.length_eq_one_iff.mp ((hgroups g List.mem_cons_self).2 hw)
      rw [List.map_cons, List.flatten_cons, ih fun g' hg' =>
        hgroups g' (List.mem_cons_of_mem _ hg')]
      simp [carried]
  cases wrapped <;> cases strips
  · -- neither wrapped nor stripped
    rw [hsingle rfl]
    refine iff_of_true ?_ (Or.inr rfl)
    show groups.flatten.flatMap (fun object => [object]) = groups.flatten
    exact List.flatMap_singleton' _
  · -- stripped without having been wrapped
    rw [hsingle rfl]
    have hlen := length_unpackPackets_le groups.flatten
    constructor
    · intro heq
      have hunpack : groups.flatten.flatMap unpackPackets = groups.flatten := heq
      rw [hunpack] at hlen
      exact Or.inl (List.eq_nil_of_length_eq_zero (by omega))
    · rintro (hnil | habsurd)
      · rw [hnil]
        rfl
      · exact absurd habsurd Bool.false_ne_true
  · -- wrapped and not stripped
    have hlen := length_flatMap_packetFrame groups.flatten
    have hobjects : (groups.map (carried true)).flatMap (stripped false) =
        groups.map fun g => g.flatMap packetFrame := by
      show (groups.map (carried true)).flatMap (fun object => [object]) = _
      rw [List.flatMap_singleton']
      rfl
    rw [hobjects]
    constructor
    · intro heq
      have hflat := congrArg (fun l => l.flatten.length) heq
      rw [← flatten_flatMap_packetFrame, hlen] at hflat
      exact Or.inl (List.eq_nil_of_length_eq_zero (by omega))
    · rintro (hnil | habsurd)
      · have hempty : groups = [] := by
          by_contra hne
          obtain ⟨g, hg⟩ := List.exists_mem_of_ne_nil groups hne
          exact (hgroups g hg).1 (List.flatten_eq_nil_iff.mp hnil g hg)
        rw [hempty]
        rfl
      · exact absurd habsurd.symm Bool.false_ne_true
  · -- wrapped and stripped
    refine iff_of_true ?_ (Or.inr rfl)
    rw [List.flatMap_map, List.flatten_eq_flatMap]
    apply List.flatMap_congr
    intro g hg
    show unpackPackets (g.flatMap packetFrame) = g
    exact unpackPackets_frames fun buf hbuf => hsize buf (List.mem_flatten_of_mem hg hbuf)

section Framing

variable {lib : FecLib} {P : PublishIO → Prop} {track : MoqTrackId} {wrapped : Bool} {f f' : Feed}
  {packets : List Bytes} {ps : List Publication} {o : List Effect}

/-- The law, for what a run of the publisher sent. -/
theorem Fed.framing_iff (h : Fed lib P track wrapped f f' [] [] packets ps o)
    (hsize : ∀ buf ∈ packets, buf.length ≤ 65535) (strips : Bool) :
    (ps.map (·.obj.data)).flatMap (stripped strips) = packets ↔
      packets = [] ∨ wrapped = strips := by
  obtain ⟨groups, hpackets, hdata, hgroups⟩ := h.groups
  rw [List.append_nil, List.nil_append] at hpackets
  subst hpackets
  rw [hdata]
  exact carried_eq_iff hgroups hsize

/-- Every object takes a packet at least. -/
theorem Fed.length_le (h : Fed lib P track wrapped f f' [] [] packets ps o) :
    ps.length ≤ packets.length := by
  obtain ⟨groups, hpackets, hdata, hgroups⟩ := h.groups
  rw [List.append_nil, List.nil_append] at hpackets
  have hlength : ps.length = groups.length := by
    have hboth := congrArg List.length hdata
    rwa [List.length_map, List.length_map] at hboth
  rw [hlength, ← hpackets]
  clear hpackets hdata hlength
  induction groups with
  | nil => exact Nat.zero_le _
  | cons g groups ih =>
    have hpos := List.length_pos_iff.mpr (hgroups g List.mem_cons_self).1
    have hrest := ih fun g' hg' => hgroups g' (List.mem_cons_of_mem g hg')
    rw [List.length_cons, List.flatten_cons, List.length_append]
    omega

/-- Consecutive ids are different as long as the counter does not come round. -/
theorem Fed.keys_nodup (h : Fed lib P track wrapped f f' [] [] packets ps o)
    (hcount : packets.length ≤ 2 ^ 32) : (ps.map (·.obj.key)).Nodup := by
  have hle := h.length_le
  rw [h.keys]
  refine (List.nodup_map_iff_inj_on List.nodup_range).mpr fun i hi j hj heq => ?_
  have hi := List.mem_range.mp hi
  have hj := List.mem_range.mp hj
  rw [ObjectKey.mk.injEq] at heq
  have hnat := congrArg UInt32.toNat (UInt32.add_right_inj _ |>.mp heq.2)
  rw [UInt32.toNat_ofNat', UInt32.toNat_ofNat', Nat.mod_eq_of_lt (by omega),
    Nat.mod_eq_of_lt (by omega)] at hnat
  exact hnat

end Framing

/-! ## Datagrams -/

/-- The datagrams for a connection. -/
def sentTo (ptr : ℕ) (o : List Effect) : List Bytes :=
  o.flatMap fun e =>
    match e with
    | .datagram conn _ bytes => if conn = ptr then [bytes] else []
    | _ => []

theorem sentTo_of_ne {ptr : ℕ} {o : List Effect} (h : ∀ e ∈ o, e.conn ≠ ptr) :
    sentTo ptr o = [] := by
  refine List.flatMap_eq_nil_iff.mpr fun e he => ?_
  cases e with
  | datagram conn path bytes => exact if_neg (h _ he)
  | _ => rfl

/-- The connection gets the datagrams of the track, under this alias. -/
structure Transport.SendsTo (t : Transport) (c : Conn) (track : MoqTrackId) (trackAlias : UInt8) :
    Prop where
  mem : c ∈ t.conns
  nodup : t.ptrs.Nodup
  live : c.closing = false
  alias_eq : findAliasByTrack c.subscriptions track = some trackAlias

/-- The object as it is cut into datagrams for the connection. -/
def Publication.sharding {lib : FecLib} (p : Publication) (c : Conn) (trackAlias : UInt8)
    (hsound : p.transport.fecCache.Sound lib)
    (halias : findAliasByTrack c.subscriptions p.obj.trackId = some trackAlias) : Sharding lib :=
  ⟨p.io, p.transport, c, p.obj, trackAlias, hsound, halias⟩

section Datagrams

variable {lib : FecLib} {c : Conn} {trackAlias : UInt8}

/-- What the other connections get is not seen here. -/
theorem sentTo_flatMap {conns : List Conn} {E : Conn → List Effect}
    (hE : ∀ c ∈ conns, ∀ e ∈ E c, e.conn = c.ptr) (hnodup : (conns.map (·.ptr)).Nodup)
    (hc : c ∈ conns) : sentTo c.ptr (conns.flatMap E) = sentTo c.ptr (E c) := by
  have happend : ∀ o o', sentTo c.ptr (o ++ o') = sentTo c.ptr o ++ sentTo c.ptr o' :=
    fun o o' => List.flatMap_append
  induction conns with
  | nil => exact absurd hc List.not_mem_nil
  | cons b bs ih =>
    rw [List.map_cons, List.nodup_cons] at hnodup
    rw [List.flatMap_cons, happend]
    have hrest := fun c hc => hE c (List.mem_cons_of_mem b hc)
    rcases List.mem_cons.mp hc with rfl | hc
    · have hnil : sentTo c.ptr (bs.flatMap E) = [] := by
        refine sentTo_of_ne fun e he heq => ?_
        obtain ⟨b', hb', hmem⟩ := List.mem_flatMap.mp he
        refine hnodup.1 (List.mem_map.mpr ⟨b', hb', ?_⟩)
        rw [← hrest b' hb' e hmem, heq]
      rw [hnil, List.append_nil]
    · have hnil : sentTo c.ptr (E b) = [] := by
        refine sentTo_of_ne fun e he heq => ?_
        refine hnodup.1 (List.mem_map.mpr ⟨c, hc, ?_⟩)
        rw [← hE b List.mem_cons_self e he, heq]
      rw [hnil, ih hrest hnodup.2 hc, List.nil_append]

/-- All datagrams of the object, in their order. -/
theorem sentTo_publication {p : Publication} (hdirect : routedToGroup p.transport p.obj = false)
    (hunreliable : (getTrackProfile p.obj.trackId).reliable = false)
    (hsends : p.transport.SendsTo c p.obj.trackId trackAlias)
    (hsound : p.transport.fecCache.Sound lib) :
    sentTo c.ptr (p.effects lib) =
      (List.range (p.sharding c trackAlias hsound hsends.alias_eq).shards.totalSymbols).map
        (symbolDatagram p.transport p.io p.obj
          (p.sharding c trackAlias hsound hsends.alias_eq).shards c trackAlias) := by
  have heffects : p.effects lib = p.transport.conns.flatMap
      (sendDatagrams p.transport p.io p.obj (shardObject lib p.io p.transport p.obj).1) := by
    unfold Publication.effects transportPublish publishDirect
    rw [hdirect, if_neg Bool.false_ne_true, if_neg (by rw [hunreliable]; exact Bool.false_ne_true)]
    rfl
  have hsubscribed : isSubscribed c.subscriptions p.obj.trackId = true := by
    rw [isSubscribed, hsends.alias_eq]
    rfl
  rw [heffects, sentTo_flatMap ?_ hsends.nodup hsends.mem]
  · unfold sendDatagrams
    rw [if_neg, hsends.alias_eq]
    · unfold sentTo
      dsimp only
      rw [List.flatMap_map]
      simp only [if_true]
      exact List.map_eq_flatMap.symm
    · rintro (hclosing | ⟨-, hnot⟩)
      · exact absurd (hsends.live.symm.trans hclosing) Bool.false_ne_true
      · exact hnot hsubscribed
  · intro b _ e he
    unfold sendDatagrams at he
    split at he
    · exact absurd he List.not_mem_nil
    split at he
    · exact absurd he List.not_mem_nil
    · obtain ⟨s, -, rfl⟩ := List.mem_map.mp he
      rfl

/-- Publishing datagrams leaves the connections alone. -/
theorem Publications.datagrams {t t' : Transport} {ps : List Publication}
    (h : Publications lib t ps t')
    (hunreliable : ∀ p ∈ ps, (getTrackProfile p.obj.trackId).reliable = false)
    (hsound : t.fecCache.Sound lib) :
    ∀ p ∈ ps, routedToGroup p.transport p.obj = false ∧ p.transport.fecCache.Sound lib ∧
      p.transport.conns = t.conns ∧ p.transport.links = t.links ∧
      p.transport.maxUdpPayloadSize = t.maxUdpPayloadSize := by
  induction h with
  | nil => exact fun p hp => absurd hp List.not_mem_nil
  | @cons t t' p ps halike hdirect _ ih =>
    have hthis : p.transport.fecCache.Sound lib ∧ p.transport.conns = t.conns ∧
        p.transport.links = t.links ∧ p.transport.maxUdpPayloadSize = t.maxUdpPayloadSize := by
      rw [halike]
      exact ⟨hsound, rfl, rfl, rfl⟩
    have hafter : p.after lib = (publishDatagrams lib p.io p.transport p.obj).1 := by
      unfold Publication.after transportPublish publishDirect
      rw [hdirect, if_neg Bool.false_ne_true,
        if_neg (by rw [hunreliable p List.mem_cons_self]; exact Bool.false_ne_true)]
    intro q hq
    rcases List.mem_cons.mp hq with rfl | hq
    · exact ⟨hdirect, hthis⟩
    · have hnext : (p.after lib).fecCache.Sound lib := by
        rw [hafter]
        exact sound_shardObject hthis.1 p.io p.obj
      obtain ⟨hd, hs, hconns, hlinks, hmtu⟩ :=
        ih (fun q hq => hunreliable q (List.mem_cons_of_mem p hq)) hnext q hq
      rw [hafter] at hconns hlinks hmtu
      exact ⟨hd, hs, hconns.trans hthis.2.1, hlinks.trans hthis.2.2.1, hmtu.trans hthis.2.2.2⟩

/-- `pathflow_optimize` gives the links no more symbols than a receiver takes. -/
def PublishIO.Allocates (links : ℕ) (io : PublishIO) : Prop :=
  ((List.range links).map fun i => (io.pathflow i).1).sum ≤ 16000

/-- What a helper's packets make has few enough symbols then. -/
theorem Sharding.totalSymbols_le (q : Sharding lib) (hsize : q.object.data.length ≤ 69536)
    (halloc : q.io.Allocates q.transport.links.length) : q.shards.totalSymbols ≤ 16384 := by
  have hpos := q.transport.symbolSize_ge
  have hdata := dataSymbolCount_le q.object.data.length q.transport.symbolSize (by omega)
  rw [← q.dataSymbols_eq] at hdata
  have hfew : (q.shards.dataSymbols - 1) * 1000 ≤ q.object.data.length :=
    (Nat.mul_le_mul_left _ hpos).trans hdata
  have hparity : q.shards.paritySymbols ≤ 16000 := by
    rw [q.paritySymbols_eq]
    unfold allocateSymbols
    dsimp only
    split
    · exact Nat.zero_le _
    split
    · have hle : (((List.range q.transport.links.length).map q.io.pathflow).map fun p =>
          if p.2 < p.1 then p.1 - p.2 else 0).sum ≤ 16000 := by
        refine le_trans ?_ halloc
        rw [List.map_map]
        apply List.sum_le_sum
        intro i _
        dsimp only [Function.comp]
        split <;> omega
      dsimp only
      split
      · decide
      · exact hle
    · exact Nat.zero_le _
  have htotal : q.shards.totalSymbols = q.shards.dataSymbols + q.shards.paritySymbols := rfl
  omega

/-- The publish, as the receiver sees it. -/
structure Publication.CutAs (lib : FecLib) (c : Conn) (trackAlias : UInt8) (p : Publication)
    (q : Sharding lib) : Prop where
  object_eq : q.object = p.obj
  alias_eq : q.trackAlias = trackAlias
  fits : q.Fits
  accepted : q.Accepted
  datagrams : sentTo c.ptr (p.effects lib) = (List.range q.shards.totalSymbols).map
    (symbolDatagram q.transport q.io q.object q.shards q.conn q.trackAlias)

theorem exists_forall₂ {α β : Type*} {R : α → β → Prop} {l : List α}
    (h : ∀ a ∈ l, ∃ b, R a b) : ∃ l', List.Forall₂ R l l' := by
  induction l with
  | nil => exact ⟨[], .nil⟩
  | cons a l ih =>
    obtain ⟨b, hb⟩ := h a List.mem_cons_self
    obtain ⟨l', hl'⟩ := ih fun a' ha' => h a' (List.mem_cons_of_mem a ha')
    exact ⟨b :: l', .cons hb hl'⟩

theorem map_eq_of_forall₂ {α β γ : Type*} {R : α → β → Prop} {g : α → γ} {g' : β → γ}
    (hR : ∀ a b, R a b → g' b = g a) {l : List α} {l' : List β} (h : List.Forall₂ R l l') :
    l'.map g' = l.map g := by
  induction h with
  | nil => rfl
  | cons hfirst _ ih => rw [List.map_cons, List.map_cons, hR _ _ hfirst, ih]

theorem exists_of_forall₂ {α β : Type*} {R : α → β → Prop} {l : List α} {l' : List β}
    (h : List.Forall₂ R l l') {b : β} (hb : b ∈ l') : ∃ a, R a b := by
  induction h with
  | nil => exact absurd hb List.not_mem_nil
  | cons hfirst _ ih =>
    rcases List.mem_cons.mp hb with rfl | hb
    · exact ⟨_, hfirst⟩
    · exact ih hb

/-- The datagrams of an object, as they arrive. -/
theorem Sharding.inOrder_of_payloads {q : Sharding lib} {heard : MoqTrackId}
    {as : List (Arrival lib)}
    (has : as.map (·.payload) = (List.range q.shards.totalSymbols).map
      (symbolDatagram q.transport q.io q.object q.shards q.conn q.trackAlias))
    (hresolves : ∀ a ∈ as, a.Resolves q.trackAlias heard) : q.InOrder heard 0 as := by
  have hlen : as.length = q.shards.totalSymbols := by
    have hboth := congrArg List.length has
    rwa [List.length_map, List.length_map, List.length_range] at hboth
  unfold InOrder
  refine List.forall₂_iff_get.mpr ⟨by simp [hlen], fun i hi hi' => ?_⟩
  have hthis := congrArg (·[i]?) has
  simp only [List.getElem?_map] at hthis
  rw [List.getElem?_eq_getElem hi, List.getElem?_range (by omega), Option.map_some,
    Option.map_some, Option.some.injEq] at hthis
  simp only [List.get_eq_getElem, List.getElem_range', Nat.zero_add, Nat.one_mul]
  exact ⟨⟨by omega, hthis⟩, hresolves _ (List.getElem_mem hi)⟩

/-- What arrives is the datagrams of one object after those of the other. -/
theorem exists_inOrder {heard : MoqTrackId} {ps : List Publication} {qs : List (Sharding lib)}
    (hcut : List.Forall₂ (Publication.CutAs lib c trackAlias) ps qs) {as : List (Arrival lib)}
    (has : as.map (·.payload) = sentTo c.ptr (ps.flatMap (·.effects lib)))
    (hresolves : ∀ a ∈ as, a.Resolves trackAlias heard) :
    ∃ ass : List (List (Arrival lib)), as = ass.flatten ∧
      List.Forall₂ (fun q as => q.InOrder heard 0 as) qs ass := by
  induction hcut generalizing as with
  | nil =>
    refine ⟨[], ?_, .nil⟩
    simpa [sentTo] using has
  | @cons p q ps qs hfirst _ ih =>
    have happend : sentTo c.ptr ((p :: ps).flatMap (·.effects lib)) =
        sentTo c.ptr (p.effects lib) ++ sentTo c.ptr (ps.flatMap (·.effects lib)) := by
      rw [List.flatMap_cons, sentTo, List.flatMap_append]
      rfl
    rw [happend] at has
    obtain ⟨as₁, as₂, rfl, h₁, h₂⟩ := List.map_eq_append_iff.mp has
    rw [hfirst.datagrams] at h₁
    obtain ⟨ass, rfl, hass⟩ := ih h₂ fun a ha => hresolves a (List.mem_append_right as₁ ha)
    refine ⟨as₁ :: ass, rfl, .cons (Sharding.inOrder_of_payloads h₁ fun a ha => ?_) hass⟩
    rw [hfirst.alias_eq]
    exact hresolves a (List.mem_append_left _ ha)

/-- A datagram event has the FEC flag. -/
theorem fecEnabled_datagramFlags (track : MoqTrackId) :
    (getTrackProfile { track with flags := datagramFlags track.flags }).fecEnabled = true := by
  have hflag : ∀ b : UInt8, datagramFlags b &&& MOQ_TRACK_FLAG_FEC_ENABLED =
      MOQ_TRACK_FLAG_FEC_ENABLED := by
    intro b
    apply UInt8.toBitVec_inj.mp
    show ((b.toBitVec ||| 2#8) &&& ~~~1#8) &&& 2#8 = 2#8
    generalize b.toBitVec = v
    revert v
    decide
  unfold getTrackProfile
  dsimp only
  rw [hflag]
  rfl

/-- The object of an event says which track the event is about. -/
theorem trackId_of_arrive {s s' : AssemblerCache} {a : Arrival lib} {o : List Effect}
    (h : arrive lib s a = some (s', o)) {track : MoqTrackId} {obj : MoqObject}
    (hev : .object track obj ∈ eventsOf o) : obj.trackId = track := by
  cases hsym : a.symbol? with
  | none =>
    obtain ⟨o', hnone, hall⟩ := arrive_of_none hsym
    rw [hall s, Option.some.injEq, Prod.mk.injEq] at h
    rw [← h.2, hnone] at hev
    exact absurd hev List.not_mem_nil
  | some x =>
    obtain ⟨heard, hdr⟩ := x
    rw [arrive_of_some hsym] at h
    split at h
    · exact absurd h.symm (Option.some_ne_none _)
    next s₁ r _ =>
    rw [Option.some.injEq, Prod.mk.injEq] at h
    rw [← h.2] at hev
    obtain ⟨e, he, hobject⟩ := List.mem_filterMap.mp hev
    unfold Arrival.effects at he
    -- telemetry and NACKs are no events
    rcases List.mem_cons.mp he with rfl | he
    · exact absurd hobject.symm (Option.some_ne_none _)
    rcases List.mem_append.mp he with he | hlast
    rcases List.mem_append.mp he with hlost | hnack
    · -- a lost object is another kind of event
      split at hlost
      · exact absurd hlost List.not_mem_nil
      · unfold objectLost at hlost
        split at hlost
        · exact absurd hlost List.not_mem_nil
        · rw [List.mem_singleton.mp hlost] at hobject
          simp at hobject
    · split at hnack
      · exact absurd hnack List.not_mem_nil
      · unfold sendNack Conn.writeControl at hnack
        split at hnack
        · split at hnack
          · exact absurd hnack List.not_mem_nil
          · rw [List.mem_singleton.mp hnack] at hobject
            simp at hobject
        · exact absurd hnack List.not_mem_nil
    · split at hlast
      · exact absurd hlast List.not_mem_nil
      · rw [List.mem_singleton.mp hlast] at hobject
        simp only [objectEvent, Option.some.injEq, TransportEvent.object.injEq] at hobject
        rw [← hobject.2, ← hobject.1]

/-- What is forwarded depends on the objects alone. -/
theorem forwardedPackets_arrivals {s s' : AssemblerCache} {as : List (Arrival lib)}
    {o : List Effect} (h : run (arrive lib) s as = some (s', o)) :
    forwardedPackets (eventsOf o) = (objectsOf o).flatMap fun obj =>
      (forwardedCalls (.object obj.trackId obj)).map (·.2.payload) := by
  have htracks : ∀ {track : MoqTrackId} {obj : MoqObject}, .object track obj ∈ eventsOf o →
      obj.trackId = track := by
    induction as generalizing s o with
    | nil =>
      rw [run_nil, Option.some.injEq, Prod.mk.injEq] at h
      rw [← h.2]
      exact fun hev => absurd hev List.not_mem_nil
    | cons a as ih =>
      obtain ⟨s₁, o₁, o₂, hfirst, hrest, rfl⟩ := run_cons.mp h
      intro track obj hev
      rw [eventsOf, List.filterMap_append] at hev
      rcases List.mem_append.mp hev with hev | hev
      · exact trackId_of_arrive hfirst hev
      · exact ih hrest hev
  rw [objectsOf_eq]
  unfold forwardedPackets
  generalize eventsOf o = evs at htracks
  induction evs with
  | nil => rfl
  | cons ev evs ih =>
    have hrest := ih fun hev => htracks (List.mem_cons_of_mem ev hev)
    rw [List.flatMap_cons, List.map_append, hrest]
    cases ev with
    | object track obj =>
      simp only [List.filterMap_cons, List.flatMap_cons]
      rw [htracks List.mem_cons_self]
    | _ => rfl

end Datagrams

/-- Packets that travel as datagrams, none of which is lost: the far daemon passes on the packets
that the helper sent exactly when a subscriber of the publisher wants FEC, or there are none. -/
theorem datagrams_forwarded_iff (lib : FecLib) {track : MoqTrackId} {f : Feed}
    {ls : List FeedLabel} {c : Conn} {trackAlias : UInt8} (hdata : track.type = MOQ_TRACK_DATA)
    (hunreliable : (getTrackProfile track).reliable = false)
    (hidle : f.transport.fec.buf = [] ∧ f.transport.fec.inFlush = false)
    (hsound : f.transport.fecCache.Sound lib) (hmtu : f.transport.symbolSize ≤ 4096)
    (hls : ∀ l ∈ ls, l.Fits ∧ l.io.Allocates f.transport.links.length)
    (hcount : (helperPackets ls).length ≤ 2 ^ 32)
    (hflushed : (feedRun lib track f ls).1.transport.fec.buf = [])
    (hsends : f.transport.SendsTo c track trackAlias) (halias : trackAlias ≠ MOQ_TRACK_TELEMETRY)
    {heard : MoqTrackId} (hheard : heard.type = MOQ_TRACK_DATA) {ring : AssemblerCache}
    (hring : ∀ k : SlotKey, k.trackAlias = trackAlias → some k ∉ ring.keyRing.keys)
    {as : List (Arrival lib)}
    (has : as.map (·.payload) = sentTo c.ptr (feedRun lib track f ls).2)
    (hresolves : ∀ a ∈ as, a.Resolves trackAlias heard) :
    ∃ ring' o, run (arrive lib) ring as = some (ring', o) ∧
      (forwardedPackets (eventsOf o) = helperPackets ls ↔
        helperPackets ls = [] ∨ useFec f.transport track = true) := by
  have hstart : Feeding track (useFec f.transport track) f [] :=
    ⟨hdata, rfl, hidle.2, hidle.1, fun hne => absurd rfl hne, fun _ => rfl⟩
  -- each publication of the feed is cut into the symbols of one object
  obtain ⟨pending, ps, hend, hfed⟩ := hstart.run (by rw [hidle.1]; decide) lib hls
  have hnone : pending = [] := hend.eq_nil hflushed
  subst hnone
  have hcut : ∀ p ∈ ps, ∃ q, p.CutAs lib c trackAlias q := by
    intro p hp
    have htrack := hfed.track_eq p hp
    obtain ⟨hdirect, hsound', hconns, hlinks, hmtu'⟩ := hfed.publications.datagrams
      (fun p hp => by rw [hfed.track_eq p hp]; exact hunreliable) hsound p hp
    have hsends' : p.transport.SendsTo c p.obj.trackId trackAlias := by
      rw [htrack]
      refine ⟨hconns ▸ hsends.mem, ?_, hsends.live, hsends.alias_eq⟩
      rw [Transport.ptrs, hconns]
      exact hsends.nodup
    have hsymbol : p.transport.symbolSize = f.transport.symbolSize := by
      unfold Transport.symbolSize
      rw [hmtu']
    refine ⟨p.sharding c trackAlias hsound' hsends'.alias_eq, rfl, rfl, ⟨?_, ?_⟩, ⟨halias, ?_⟩,
      sentTo_publication hdirect (by rw [htrack]; exact hunreliable) hsends' hsound'⟩
    · apply Sharding.totalSymbols_le _ (hfed.size_le p hp)
      show p.io.Allocates p.transport.links.length
      rw [hlinks]
      exact hfed.io p hp
    · show p.transport.symbolSize ≤ 65535
      omega
    · rw [Sharding.symbolSize_eq]
      show p.transport.symbolSize ≤ 4096
      omega
  obtain ⟨qs, hqs⟩ := exists_forall₂ hcut
  rw [hfed.effects_eq] at has
  obtain ⟨ass, rfl, hass⟩ := exists_inOrder hqs has hresolves
  -- the objects have distinct keys, so each of them gets a slot of its own
  have hkeys : qs.map (·.slotKey) = (ps.map (·.obj.key)).map (SlotKey.mk trackAlias) := by
    rw [List.map_map]
    apply map_eq_of_forall₂ (fun p q hpq => ?_) hqs
    rw [Sharding.slotKey, hpq.alias_eq, hpq.object_eq]
    rfl
  have hobjects : (qs.map (·.received heard)).map (·.data) = ps.map (·.obj.data) := by
    rw [List.map_map]
    apply map_eq_of_forall₂ (fun p q hpq => ?_) hqs
    show q.object.data = p.obj.data
    rw [hpq.object_eq]
  have hall : ∀ q ∈ qs, (q.Fits ∧ q.Accepted) ∧ q.trackAlias = trackAlias := by
    intro q hq
    obtain ⟨p, hpq⟩ := exists_of_forall₂ hqs hq
    exact ⟨⟨hpq.fits, hpq.accepted⟩, hpq.alias_eq⟩
  obtain ⟨ring', o, hrun, hdelivered⟩ := run_inOrder (fun q hq => (hall q hq).1)
    (by
      rw [hkeys]
      exact (hfed.keys_nodup hcount).map fun _ _ h => (SlotKey.mk.inj h).2) hass
    (fun q hq => hring q.slotKey (hall q hq).2)
  refine ⟨ring', o, hrun, ?_⟩
  -- datagram events carry the FEC flag, so what is forwarded is always stripped
  have hforwarded : forwardedPackets (eventsOf o) =
      (ps.map (·.obj.data)).flatMap (stripped true) := by
    rw [forwardedPackets_arrivals hrun, hdelivered, ← hobjects, List.flatMap_map, List.flatMap_map,
      List.flatMap_map]
    apply List.flatMap_congr
    intro q _
    rw [payload_forwardedCalls]
    · show stripped (getTrackProfile { heard with flags := datagramFlags heard.flags }).fecEnabled
        _ = _
      rw [fecEnabled_datagramFlags]
    · exact hheard
  rw [hforwarded, hfed.framing_iff (helperPackets_le fun l hl => (hls l hl).1)]

/-- A DATA track. -/
def helperTrack (flags : UInt8) : MoqTrackId := ⟨MOQ_TRACK_DATA, flags, TrackName.ofBuffer [97]⟩

/-- An end that holds the track under alias 8. -/
def helperEnd (flags : UInt8) (streams : List Stream) : Conn :=
  { Conn.zero 1 with
    authenticated := true
    subscriptions := addSubscription Subscriptions.empty MOQ_TRACK_DATA flags
      (helperTrack flags).name 8
    streams := streams }

/-- A server with one subscriber. -/
def helperFeed (flags : UInt8) : Feed :=
  ⟨{ Transport.init true [] 1280 with conns := [helperEnd flags []] }, 0⟩

/-- Two packets, and a tick when they have waited. -/
def helperLabels : List FeedLabel :=
  [.packet (publishAt 0) [1] 0, .packet (publishAt 0) [2] 0, .tick (publishAt 3)]

/-- A datagram at a client that holds the track. -/
def helperArrival (flags : UInt8) (bytes : Bytes) : Arrival FecLib.unavailable where
  transport := Transport.init false [] 1280
  conn := helperEnd flags []
  io := ⟨0, 0, MoqTrackId.zero, MoqTrackId.zero, fun _ => 0⟩
  payload := bytes
  sound := FecCache.sound_empty _

theorem helperLabels_fit {P : PublishIO → Prop} (h : ∀ timeMs, P (publishAt timeMs)) :
    ∀ l ∈ helperLabels, l.Fits ∧ P l.io := by
  intro l hl
  simp only [helperLabels, List.mem_cons, List.not_mem_nil, or_false] at hl
  rcases hl with rfl | rfl | rfl
  · exact ⟨⟨rfl, by decide⟩, h 0⟩
  · exact ⟨⟨rfl, by decide⟩, h 0⟩
  · exact ⟨trivial, h 3⟩

/-- Both packets come out of the datagrams of the group. -/
theorem datagrams_forwarded_group :
    ∃ ring o, run (arrive FecLib.unavailable) AssemblerCache.empty
        ((sentTo 1 (feedRun FecLib.unavailable (helperTrack 2) (helperFeed 2) helperLabels).2).map
          (helperArrival 2)) = some (ring, o) ∧ forwardedPackets (eventsOf o) = [[1], [2]] := by
  have hsends : (helperFeed 2).transport.SendsTo (helperEnd 2 []) (helperTrack 2) 8 :=
    ⟨List.mem_singleton_self _, by decide, rfl, rfl⟩
  have hfree : ∀ x ∈ AssemblerCache.empty.keyRing.keys, x = none := by decide
  have hresolves : ∀ a ∈ (sentTo 1 (feedRun FecLib.unavailable (helperTrack 2) (helperFeed 2)
      helperLabels).2).map (helperArrival 2), a.Resolves 8 (helperTrack 2) := by
    intro a ha
    obtain ⟨bytes, -, rfl⟩ := List.mem_map.mp ha
    exact ⟨by simp [helperArrival, Transport.init], rfl⟩
  have hpayload : ((sentTo 1 (feedRun FecLib.unavailable (helperTrack 2) (helperFeed 2)
      helperLabels).2).map (helperArrival 2)).map (·.payload) =
      sentTo 1 (feedRun FecLib.unavailable (helperTrack 2) (helperFeed 2) helperLabels).2 := by
    rw [List.map_map]
    exact List.map_id _
  obtain ⟨ring, o, hrun, hforwarded⟩ := datagrams_forwarded_iff FecLib.unavailable rfl rfl
    ⟨rfl, rfl⟩ (FecCache.sound_empty _) (by decide)
    (helperLabels_fit fun _ => by simp [helperFeed, Transport.init, PublishIO.Allocates])
    (by decide) rfl hsends (by decide) rfl
    (fun k _ hk => Option.some_ne_none k (hfree _ hk)) hpayload hresolves
  exact ⟨ring, o, hrun, hforwarded.mpr (Or.inr rfl)⟩

/-! ## Streams -/

section Stream

variable {lib : FecLib} {ptr sid : ℕ} {track : MoqTrackId} {trackAlias : UInt8}

/-- The table, the state and the streams of the connections are those of the other transport. -/
theorem Transport.Alike.findConn {t t' : Transport} (h : t.Alike t') (ptr : ℕ) :
    t'.findConn ptr = t.findConn ptr := by
  rw [h]
  rfl

theorem Transport.Alike.nodup {t t' : Transport} (h : t.Alike t') (hnodup : t.ptrs.Nodup) :
    t'.ptrs.Nodup := by
  rw [h]
  exact hnodup

/-- Once the stream of the track is open, every object goes to it. -/
theorem Publications.appends {t t' : Transport} {ps : List Publication}
    (h : Publications lib t ps t') (htrack : ∀ p ∈ ps, p.obj.trackId = track)
    (hreliable : (getTrackProfile track).reliable = true) (hnodup : t.ptrs.Nodup)
    (hwrites : t.Writes ptr sid track) : ∀ p ∈ ps, p.Appends ptr sid := by
  induction h with
  | nil => exact fun p hp => absurd hp List.not_mem_nil
  | @cons t t' p ps halike hdirect _ ih =>
    have hp := htrack p List.mem_cons_self
    have happends : p.Appends ptr sid := by
      obtain ⟨c, hc, hlive, hstream, hopen⟩ := hwrites
      refine ⟨⟨hdirect, by rw [hp]; exact hreliable, halike.nodup hnodup⟩, c, ?_, hlive, ?_, hopen⟩
      · rw [halike.findConn]
        exact hc
      · rw [hp]
        exact hstream
    intro q hq
    rcases List.mem_cons.mp hq with rfl | hq
    · exact happends
    · refine ih (fun q hq => htrack q (List.mem_cons_of_mem p hq)) ?_ ?_ q hq
      · rw [Publication.after, ptrs_transportPublish]
        exact halike.nodup hnodup
      · rw [← hp]
        exact (happends.spec lib).2

/-- The streams of a connection that several connections write to. -/
theorem mem_flatMap_conn {conns : List Conn} {c : Conn} {E : Conn → List Effect}
    (hE : ∀ c ∈ conns, ∀ e ∈ E c, e.conn = c.ptr) (hnodup : (conns.map (·.ptr)).Nodup)
    (hc : c ∈ conns) {e : Effect} (he : e ∈ conns.flatMap E) (hconn : e.conn = c.ptr) :
    e ∈ E c := by
  obtain ⟨b, hb, hmem⟩ := List.mem_flatMap.mp he
  have hptr : b.ptr = c.ptr := (hE b hb e hmem).symm.trans hconn
  rw [← List.inj_on_of_nodup_map hnodup hb hc hptr]
  exact hmem

/-- A publish sends a connection nothing but writes to the stream of the track. -/
def Publication.WritesOnly (lib : FecLib) (ptr sid : ℕ) (p : Publication) : Prop :=
  ∀ e ∈ p.effects lib, e.conn = ptr → ∃ bytes, e = .streamWrite ptr sid bytes

theorem Publication.Direct.writesOnly {p : Publication} (h : p.Direct) (lib : FecLib) {c : Conn}
    (hc : p.transport.findConn ptr = some c)
    (hwrites : ∀ e ∈ (publishReliableConn p.io p.transport.isServer p.obj c).2,
      ∃ bytes, e = .streamWrite c.ptr sid bytes) : p.WritesOnly lib ptr sid := by
  obtain ⟨hmem, hptr⟩ := Transport.findConn_eq_some hc
  have heffects : p.effects lib = p.transport.conns.flatMap fun c =>
      (publishReliableConn p.io p.transport.isServer p.obj c).2 := by
    unfold Publication.effects transportPublish publishDirect
    rw [h.ungrouped, if_neg Bool.false_ne_true, if_pos h.reliable]
    exact List.flatMap_map ..
  intro e he hconn
  rw [heffects] at he
  have hthis := mem_flatMap_conn (fun c _ => publishReliableConn_conn) h.nodup hmem he
    (hconn.trans hptr.symm)
  obtain ⟨bytes, rfl⟩ := hwrites e hthis
  exact ⟨bytes, by rw [hptr]⟩

theorem Publication.Appends.writesOnly {p : Publication} (h : p.Appends ptr sid) (lib : FecLib) :
    p.WritesOnly lib ptr sid := by
  obtain ⟨c, hc, hlive, hstream, hopen⟩ := h.writes
  obtain ⟨sub, hsub, hsid⟩ := Option.bind_eq_some_iff.mp hstream
  apply h.direct.writesOnly lib hc
  unfold publishReliableConn
  rw [if_neg (not_left_out p.transport.isServer hlive hsub), hsub]
  dsimp only
  rw [hsid, hopen]
  intro e he
  rcases List.mem_cons.mp he with rfl | he
  · exact ⟨_, rfl⟩
  · rw [List.mem_singleton.mp he]
    exact ⟨_, rfl⟩

theorem Publication.Opens.writesOnly {p : Publication} (h : p.Opens ptr sid trackAlias)
    (lib : FecLib) : p.WritesOnly lib ptr sid := by
  obtain ⟨c, sub, hc, hlive, hsub, rfl, hclosed, hfree⟩ := h.entry
  have hptr := (Transport.findConn_eq_some hc).2
  apply h.direct.writesOnly lib hc
  unfold publishReliableConn
  rw [if_neg (not_left_out p.transport.isServer hlive hsub), hsub]
  dsimp only
  rw [hclosed, hptr, h.opens]
  intro e he
  have hwrites : e ∈ .streamWrite ptr sid [sub.trackAlias] :: writeObject c sid p.obj.data := by
    cases hstream : sub.stream with
    | none => simpa [hstream] using he
    | some sid' => simpa [hstream] using he
  unfold writeObject at hwrites
  rw [hptr] at hwrites
  simp only [List.mem_cons, List.not_mem_nil, or_false] at hwrites
  rcases hwrites with rfl | rfl | rfl
  · exact ⟨_, rfl⟩
  · exact ⟨_, rfl⟩
  · exact ⟨_, rfl⟩

/-- The entry of the track has no stream to write to as yet. -/
structure Transport.Streams (t : Transport) (c : Conn) (track : MoqTrackId) (trackAlias : UInt8) :
    Prop where
  found : t.findConn c.ptr = some c
  nodup : t.ptrs.Nodup
  live : c.closing = false
  entry : ∃ sub, c.subscriptions.entries.find? (·.holds track.type track.name) = some sub ∧
    sub.trackAlias = trackAlias ∧ c.sendOpen sub.stream = false

/-- QUIC opens a new stream on the connection. -/
def PublishIO.OpensStream (c : Conn) (io : PublishIO) : Prop :=
  ∃ sid, io.openStream c.ptr = some sid ∧ c.findStream sid = none

/-- The objects of a run are written to one stream, behind the alias. -/
theorem Publications.stream {c : Conn} {t t' : Transport} {ps : List Publication}
    (h : Publications lib t ps t') (hio : ∀ p ∈ ps, p.io.OpensStream c)
    (htrack : ∀ p ∈ ps, p.obj.trackId = track)
    (hreliable : (getTrackProfile track).reliable = true)
    (hstreams : t.Streams c track trackAlias) :
    ∃ sid, (∀ p ∈ ps, p.WritesOnly lib c.ptr sid) ∧
      written c.ptr sid (ps.flatMap (·.effects lib)) =
        if ps = [] then [] else trackAlias :: (ps.map (·.obj.data)).flatMap frame := by
  cases h with
  | nil => exact ⟨0, fun p hp => absurd hp List.not_mem_nil, rfl⟩
  | @cons _ _ p ps halike hdirect hrest =>
    obtain ⟨sid, hopens, hfree⟩ := hio p List.mem_cons_self
    have hp := htrack p List.mem_cons_self
    obtain ⟨sub, hsub, halias, hclosed⟩ := hstreams.entry
    have hopen : p.Opens c.ptr sid trackAlias := by
      refine ⟨⟨hdirect, by rw [hp]; exact hreliable, halike.nodup hstreams.nodup⟩, hopens,
        c, sub, ?_, hstreams.live, ?_, halias, hclosed, hfree⟩
      · rw [halike.findConn]
        exact hstreams.found
      · rw [hp]
        exact hsub
    have hlater : ∀ q ∈ ps, q.Appends c.ptr sid := by
      refine hrest.appends (fun q hq => htrack q (List.mem_cons_of_mem p hq)) hreliable ?_ ?_
      · rw [Publication.after, ptrs_transportPublish]
        exact halike.nodup hstreams.nodup
      · rw [← hp]
        exact (hopen.spec lib).2
    refine ⟨sid, fun q hq => ?_, ?_⟩
    · rcases List.mem_cons.mp hq with rfl | hq
      · exact hopen.writesOnly lib
      · exact (hlater q hq).writesOnly lib
    · rw [if_neg (List.cons_ne_nil p ps), ← bytes_publications lib hopen hlater, written,
        List.flatMap_assoc]
      rfl

/-- The receiver's stream is new, and its table gives the track for the alias. -/
structure Reception.Awaits (q : Reception) (conn sid : ℕ) (trackAlias : UInt8)
    (track : MoqTrackId) : Prop where
  listens : Listens conn sid trackAlias track q.transport
  fresh : q = q.reading conn sid none []

/-- What has arrived of the stream: the first objects are delivered, and when all of it has, none is
missing. -/
theorem Reception.Awaits.seen (lib : FecLib) {q : Reception} {conn : ℕ}
    (h : q.Awaits conn sid trackAlias track) (io : ℕ → ControlIO) {app : Application}
    (happ : ∀ seen, ∀ call ∈ app seen, call.Spares conn sid) {objects : List Bytes}
    (hshort : ∀ data ∈ objects, 4 + data.length < 2 ^ 32) {chunks : List Bytes}
    (hchunks : chunks.flatten <+: if objects = [] then [] else
      trackAlias :: objects.flatMap frame) :
    ∃ whole, whole <+: objects ∧
      (receiveAll lib io app conn sid q chunks).1.seen =
        q.seen ++ whole.map (trackEvent conn track) ∧
      (chunks.flatten = (if objects = [] then [] else trackAlias :: objects.flatMap frame) →
        whole = objects) := by
  have hstart : Arrived conn sid trackAlias track q.seen objects [] objects [] [] q :=
    ⟨rfl, rfl, q, none, h.fresh, h.listens, (List.append_nil q.seen).symm,
      Or.inl ⟨rfl, rfl, rfl, rfl⟩⟩
  have hfront : [] ++ chunks.flatten <+: trackAlias :: objects.flatMap frame := by
    rw [List.nil_append]
    refine hchunks.trans ?_
    split
    · exact List.nil_prefix
    · exact List.prefix_refl _
  -- after all chunks: whole objects, and a tail in which no other is whole
  have hfed : ∃ (whole left : List Bytes) (tail : Bytes),
      Arrived conn sid trackAlias track q.seen objects whole left ([] ++ chunks.flatten) tail
        (receiveAll lib io app conn sid q chunks).1 :=
    Arrived.feedAll (r := (q, [])) io happ hshort chunks hstart hfront
  obtain ⟨whole, left, tail, hsplit, hmore, q', header, hq', -, hseen, hbegun⟩ := hfed
  have hreceived : (receiveAll lib io app conn sid q chunks).1 = q'.reading conn sid header tail :=
    hq'
  refine ⟨whole, hsplit ▸ List.prefix_append whole left, hreceived ▸ hseen, fun hall => ?_⟩
  rcases hbegun with ⟨-, hnone, rfl, -⟩ | ⟨-, hsome⟩
  · rw [List.nil_append, hall] at hnone
    split at hnone
    next hnil => exact hnil.symm
    next => exact absurd hnone (List.cons_ne_nil _ _)
  · rw [List.nil_append, hall] at hsome
    split at hsome
    · exact absurd hsome.symm (List.cons_ne_nil _ _)
    · rw [List.cons.injEq, hsplit, List.flatMap_append, List.append_cancel_left_eq] at hsome
      cases left with
      | nil => rw [hsplit, List.append_nil]
      | cons data left =>
        -- the next object would be there whole
        have hitem := frame_exact.item_iff.mpr ⟨hshort data (by rw [hsplit]; simp),
          (by rw [← hsome.2, List.flatMap_cons]; exact List.prefix_append _ _ :
            frame data <+: tail), rfl⟩
        rw [hmore] at hitem
        exact absurd hitem (by simp)

/-- The objects of a helper's packets on their stream: which packets they carry, which wait, and the
bytes that a connection is sent. -/
theorem feedRun_stream (lib : FecLib) {f : Feed} {ls : List FeedLabel} {c : Conn}
    (hdata : track.type = MOQ_TRACK_DATA) (hreliable : (getTrackProfile track).reliable = true)
    (hidle : f.transport.fec.buf = [] ∧ f.transport.fec.inFlush = false)
    (hls : ∀ l ∈ ls, l.Fits ∧ l.io.OpensStream c)
    (hstreams : f.transport.Streams c track trackAlias) :
    ∃ sid pending ps,
      Feeding track (useFec f.transport track) (feedRun lib track f ls).1 pending ∧
      Fed lib (fun io => io.OpensStream c) track (useFec f.transport track) f
        (feedRun lib track f ls).1 [] pending (helperPackets ls) ps (feedRun lib track f ls).2 ∧
      (∀ e ∈ (feedRun lib track f ls).2, e.conn = c.ptr →
        ∃ bytes, e = .streamWrite c.ptr sid bytes) ∧
      written c.ptr sid (feedRun lib track f ls).2 =
        if ps.map (·.obj.data) = [] then [] else
          trackAlias :: (ps.map (·.obj.data)).flatMap frame := by
  have hstart : Feeding track (useFec f.transport track) f [] :=
    ⟨hdata, rfl, hidle.2, hidle.1, fun hne => absurd rfl hne, fun _ => rfl⟩
  obtain ⟨pending, ps, hend, hfed⟩ := hstart.run (by rw [hidle.1]; decide) lib hls
  obtain ⟨sid, honly, hwritten⟩ :=
    hfed.publications.stream hfed.io hfed.track_eq hreliable hstreams
  refine ⟨sid, pending, ps, hend, hfed, ?_, ?_⟩
  · rw [hfed.effects_eq]
    intro e he hconn
    obtain ⟨p, hp, hmem⟩ := List.mem_flatMap.mp he
    exact honly p hp e hmem hconn
  · rw [hfed.effects_eq, hwritten]
    simp only [List.map_eq_nil_iff]

/-- The objects of a run are short enough for their lengths. -/
theorem Fed.short {P : PublishIO → Prop} {wrapped : Bool} {f f' : Feed}
    {pending pending' packets : List Bytes} {ps : List Publication} {o : List Effect}
    (h : Fed lib P track wrapped f f' pending pending' packets ps o) :
    ∀ data ∈ ps.map (·.obj.data), 4 + data.length < 2 ^ 32 := by
  intro data hmem
  obtain ⟨p, hp, rfl⟩ := List.mem_map.mp hmem
  have hsize := h.size_le p hp
  omega

/-- The packets that a receiver takes out of the objects of a stream. -/
theorem forwardedPackets_trackEvents {heard : MoqTrackId} (hheard : heard.type = MOQ_TRACK_DATA)
    (conn : ℕ) (objects : List Bytes) :
    forwardedPackets ((objects.map (trackEvent conn heard)).map Prod.snd) =
      objects.flatMap (stripped (getTrackProfile heard).fecEnabled) := by
  unfold forwardedPackets
  rw [List.map_flatMap, List.flatMap_map, List.flatMap_map]
  apply List.flatMap_congr
  intro data _
  exact payload_forwardedCalls hheard _

end Stream

/-- Packets that travel on a reliable stream: the far daemon passes on the packets that the helper
sent exactly when both or none of the two holds, that a subscriber of the publisher wants FEC and
that the far end's own entry for the track has the FEC flag, or there are no packets. -/
theorem stream_forwarded_iff (lib : FecLib) {track : MoqTrackId} {f : Feed} {ls : List FeedLabel}
    {c : Conn} {trackAlias : UInt8} (hdata : track.type = MOQ_TRACK_DATA)
    (hreliable : (getTrackProfile track).reliable = true)
    (hidle : f.transport.fec.buf = [] ∧ f.transport.fec.inFlush = false)
    (hls : ∀ l ∈ ls, l.Fits ∧ l.io.OpensStream c)
    (hflushed : (feedRun lib track f ls).1.transport.fec.buf = [])
    (hstreams : f.transport.Streams c track trackAlias) :
    ∃ sid, (∀ e ∈ (feedRun lib track f ls).2, e.conn = c.ptr →
        ∃ bytes, e = .streamWrite c.ptr sid bytes) ∧
      ∀ {heard : MoqTrackId} {q : Reception} {conn : ℕ} (io : ℕ → ControlIO) {app : Application}
        {chunks : List Bytes}, heard.type = MOQ_TRACK_DATA →
        q.Awaits conn sid trackAlias heard →
        (∀ seen, ∀ call ∈ app seen, call.Spares conn sid) →
        chunks.flatten = written c.ptr sid (feedRun lib track f ls).2 →
        ∃ evs, (receiveAll lib io app conn sid q chunks).1.seen = q.seen ++ evs ∧
          (forwardedPackets (evs.map Prod.snd) = helperPackets ls ↔
            helperPackets ls = [] ∨
              useFec f.transport track = (getTrackProfile heard).fecEnabled) := by
  obtain ⟨sid, pending, ps, hend, hfed, honly, hwritten⟩ :=
    feedRun_stream lib hdata hreliable hidle hls hstreams
  have hnone : pending = [] := hend.eq_nil hflushed
  subst hnone
  refine ⟨sid, honly, ?_⟩
  intro heard q conn io app chunks hheard hawaits happ hchunks
  rw [hwritten] at hchunks
  obtain ⟨whole, -, hseen, hall⟩ :=
    hawaits.seen lib io happ hfed.short (by rw [hchunks])
  obtain rfl := hall hchunks
  refine ⟨_, hseen, ?_⟩
  rw [forwardedPackets_trackEvents hheard,
    hfed.framing_iff (helperPackets_le fun l hl => (hls l hl).1)]

/-- A server to which the stream is new. -/
def helperReception : Reception :=
  ⟨{ Transport.init true [] 1280 with
    conns := [helperEnd 3 [⟨4, false, false, 0, [], false⟩]] }, [], 0⟩

/-- The stream has one object with both packets, and is cut in its length. -/
theorem stream_forwarded_group :
    ∃ evs, (receiveAll FecLib.unavailable (fun _ => ControlIO.still) (fun _ => []) 1 4
        helperReception [[8, 0], [0, 0, 6, 0, 1, 1, 0, 1, 2]]).1.seen = evs ∧
      forwardedPackets (evs.map Prod.snd) = [[1], [2]] := by
  have hstreams : (helperFeed 3).transport.Streams (helperEnd 3 []) (helperTrack 3) 8 :=
    ⟨rfl, by decide, rfl, _, rfl, rfl, rfl⟩
  obtain ⟨sid, honly, hall⟩ := stream_forwarded_iff FecLib.unavailable (f := helperFeed 3) rfl rfl
    ⟨rfl, rfl⟩ (helperLabels_fit fun _ => ⟨4, rfl, rfl⟩) rfl hstreams
  have hsid : sid = 4 := by
    obtain ⟨bytes, hbytes⟩ := honly (.streamWrite 1 4 [8]) (by decide) rfl
    exact ((Effect.streamWrite.inj hbytes).2.1).symm
  subst hsid
  have hawaits : helperReception.Awaits 1 4 8 (helperTrack 3) := by
    refine ⟨⟨by decide, _, rfl, by decide, rfl, rfl⟩, rfl⟩
  obtain ⟨evs, hseen, hforwarded⟩ := hall (fun _ => ControlIO.still) rfl hawaits
    (fun _ _ h => absurd h List.not_mem_nil) (by rfl)
  exact ⟨evs, hseen, hforwarded.mpr (Or.inr rfl)⟩

end Bishlink
