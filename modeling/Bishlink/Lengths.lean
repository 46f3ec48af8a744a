import Bishlink.Unpacking

/-!
# Lengths on the wire

The sizes and counts of an object are `size_t` values that are cast to the 16 and 32 bits of
their fields. `LengthsExact` says that every field a call of `transport_publish` writes has
the real value, `LengthsFit` bounds the values: the two are the same (`lengthsExact_iff`).
-/

namespace Bishlink

open ByteCodec Runs

/-! ## What a call writes -/

/-- The four bytes in front of the object, on a track stream or behind the type byte of a
unicast message. -/
def StreamLengthsExact (io : PublishIO) (t : Transport) (obj : MoqObject) : Prop :=
  ∀ c ∈ t.conns, ∀ ptr sid head field, field.length = 4 →
    [.streamWrite ptr sid (head ++ field), .streamWrite ptr sid obj.data] <:+
      (publishReliableConn io t.isServer obj c).2 →
    ofBE field = obj.data.length

/-- The counts and the size in the header of every datagram, and in the slot of the NACK
cache. -/
def DatagramLengthsExact (lib : FecLib) (io : PublishIO) (t : Transport) (obj : MoqObject) :
    Prop :=
  let o := (shardObject lib io t obj).1
  (∀ c ∈ t.conns, ∀ s ptr path bytes,
      (sendDatagrams t io obj o c)[s]? = some (.datagram ptr path bytes) →
      (FecPacketHeader.decode bytes).totalSymbols.toNat = o.totalSymbols ∧
        (FecPacketHeader.decode bytes).dataSymbols.toNat = o.dataSymbols ∧
        (FecPacketHeader.decode bytes).symbolIndex.toNat = s ∧
        (FecPacketHeader.decode bytes).originalSize.toNat = obj.data.length) ∧
    (obj.trackId.type = MOQ_TRACK_DATA →
      ∀ e ∈ (publishDatagrams lib io t obj).1.sentCache.slots[t.sentCache.index]?,
        e.totalSymbols.toNat = o.totalSymbols ∧ e.dataSymbols.toNat = o.dataSymbols ∧
          ∀ data ∈ e.data, data.length = obj.data.length)

/-- The fields that the stream or the datagram branch writes. -/
def DirectLengthsExact (lib : FecLib) (io : PublishIO) (t : Transport) (obj : MoqObject) : Prop :=
  if (getTrackProfile obj.trackId).reliable then StreamLengthsExact io t obj
  else DatagramLengthsExact lib io t obj

/-- A transport while it flushes its buffer. -/
def flushing (t : Transport) (fec : FecBuffer) : Transport :=
  { t with fec := { fec with objectId := fec.objectId + 1, inFlush := true } }

/-- Every field that a call of `transport_publish` writes when it returns true: the two bytes
in front of a packet in the grouping buffer and the fields of the group if it is flushed, or
the fields of the object itself. -/
def LengthsExact (lib : FecLib) (io : PublishIO) (t : Transport) (obj : MoqObject) : Prop :=
  if routedToGroup t obj then
    ∀ fec, (t.fec.record io obj).append io obj = some fec →
      ofBE (slice t.fec.buf.length 2 fec.buf) = obj.data.length ∧
        (fec.full = true →
          DirectLengthsExact lib io (flushing t fec) (groupedObject { t with fec := fec }))
  else DirectLengthsExact lib io t obj

/-! ## What fits -/

/-- The symbols an object is cut into, and the parity symbols that the paths get on top. -/
def neededSymbols (t : Transport) (io : PublishIO) (obj : MoqObject) : ℕ :=
  let d := dataSymbolCount obj.data.length t.symbolSize
  d + (allocateSymbols t io (getTrackProfile obj.trackId).fecEnabled d).2

/-- A connection that gets the datagrams of an object. -/
def GetsDatagrams (t : Transport) (obj : MoqObject) (c : Conn) : Prop :=
  c.closing = false ∧ (t.isServer = true → isSubscribed c.subscriptions obj.trackId = true) ∧
    (findAliasByTrack c.subscriptions obj.trackId).isSome = true

/-- The symbols of an object that is sent as datagrams, or kept for NACKs, fit 16 bits. -/
def DirectLengthsFit (io : PublishIO) (t : Transport) (obj : MoqObject) : Prop :=
  (getTrackProfile obj.trackId).reliable = true ∨
    (obj.trackId.type ≠ MOQ_TRACK_DATA ∧ ∀ c ∈ t.conns, ¬GetsDatagrams t obj c) ∨
    neededSymbols t io obj ≤ 65535

/-- A grouped packet fits its two bytes, and what is sent fits its fields. -/
def LengthsFit (io : PublishIO) (t : Transport) (obj : MoqObject) : Prop :=
  if routedToGroup t obj then
    ∀ fec, (t.fec.record io obj).append io obj = some fec →
      obj.data.length ≤ 65535 ∧
        (fec.full = true → DirectLengthsFit io t (groupedObject { t with fec := fec }))
  else DirectLengthsFit io t obj

/-! ## Streams -/

/-- The field that the last two writes end on. -/
theorem lengthField_eq (front : List Effect) (type : Bytes) {ptr sid ptr' sid' n : ℕ}
    {head field data data' : Bytes} (hfield : field.length = 4)
    (h : [.streamWrite ptr sid (head ++ field), .streamWrite ptr sid data] <:+
      front ++ [.streamWrite ptr' sid' (type ++ toBE 4 n), .streamWrite ptr' sid' data']) :
    field = toBE 4 n := by
  have heq := List.IsSuffix.eq_of_length
    (List.suffix_of_suffix_length_le h (List.suffix_append _ _) (Nat.le_refl _)) rfl
  simp only [List.cons.injEq, Effect.streamWrite.injEq] at heq
  have hlen : field.length = (toBE 4 n).length := by rw [hfield, length_toBE]
  exact (List.append_inj' heq.1.2.2 hlen).2

/-- A length below `2 ^ 32` fits the four bytes. -/
theorem streamLengthsExact (io : PublishIO) (t : Transport) {obj : MoqObject}
    (hsize : obj.data.length < 2 ^ 32) : StreamLengthsExact io t obj := by
  have hback : ofBE (toBE 4 obj.data.length) = obj.data.length := ofBE_toBE_of_lt hsize
  intro c _ ptr sid head field hfield h
  have hnil : ¬[Effect.streamWrite ptr sid (head ++ field), .streamWrite ptr sid obj.data] <:+
      [] := by simp
  unfold publishReliableConn at h
  split at h
  · exact absurd h hnil
  split at h
  · -- no entry: the object goes out as a unicast message
    unfold transportSendUnicast at h
    split at h
    · next hopen =>
      cases hstream : c.stream with
      | none => simp [Conn.controlOpen, Conn.sendOpen, hstream] at hopen
      | some control =>
        simp only [Conn.writeControl, hstream] at h
        rw [lengthField_eq [] [0x03] hfield h, hback]
    · exact absurd h hnil
  · dsimp only at h
    split at h
    · rw [lengthField_eq [] [] hfield h, hback]
    · split at h
      · exact absurd h hnil
      · rw [lengthField_eq [_] [] hfield h, hback]

/-! ## Datagrams -/

theorem toNat_ofNat_uint16 {n : ℕ} : (UInt16.ofNat n).toNat = n ↔ n ≤ 65535 := by
  rw [UInt16.toNat_ofNat']
  omega

theorem totalSymbols_shardObject (lib : FecLib) (io : PublishIO) (t : Transport)
    (obj : MoqObject) :
    (shardObject lib io t obj).1.totalSymbols = neededSymbols t io obj ∧
      (shardObject lib io t obj).1.dataSymbols ≤ neededSymbols t io obj ∧
      0 < neededSymbols t io obj := by
  have hpos := dataSymbolCount_pos obj.data.length t.symbolSize
  unfold shardObject neededSymbols
  dsimp only
  split
  · exact ⟨rfl, Nat.le_add_right _ _, by omega⟩
  · exact ⟨rfl, Nat.le_add_right _ _, by omega⟩

/-- The datagrams of an object go to the connections of `GetsDatagrams`, one for each
symbol. -/
theorem sendDatagrams_eq (t : Transport) (io : PublishIO) (obj : MoqObject) (o : ShardedObject)
    (c : Conn) :
    (∃ trackAlias, GetsDatagrams t obj c ∧ sendDatagrams t io obj o c =
        (List.range o.totalSymbols).map fun s =>
          .datagram c.ptr (symbolPath t io o c s) (symbolDatagram t io obj o c trackAlias s)) ∨
      (¬GetsDatagrams t obj c ∧ sendDatagrams t io obj o c = []) := by
  unfold sendDatagrams GetsDatagrams
  by_cases hskip : c.closing = true ∨ (t.isServer = true ∧
      ¬isSubscribed c.subscriptions obj.trackId = true)
  · right
    rw [if_pos hskip]
    refine ⟨?_, rfl⟩
    rintro ⟨hopen, hsub, -⟩
    rcases hskip with hclosing | ⟨hserver, hnot⟩
    · rw [hopen] at hclosing
      exact absurd hclosing (by decide)
    · exact hnot (hsub hserver)
  · rw [if_neg hskip]
    rw [not_or, not_and, not_not, Bool.not_eq_true] at hskip
    cases halias : findAliasByTrack c.subscriptions obj.trackId with
    | none => exact Or.inr ⟨by simp, rfl⟩
    | some trackAlias => exact Or.inl ⟨trackAlias, ⟨hskip.1, hskip.2, rfl⟩, rfl⟩

/-- The fields of the header of one datagram. -/
theorem decode_symbolDatagram (t : Transport) (io : PublishIO) (obj : MoqObject)
    (o : ShardedObject) (c : Conn) (trackAlias : UInt8) (s : ℕ) :
    FecPacketHeader.decode (symbolDatagram t io obj o c trackAlias s) =
      datagramHeader obj o trackAlias s (symbolPath t io o c s) (io.sendTimeNs c.ptr s) :=
  FecPacketHeader.decode_encode _ _

/-- The slot that an object takes in the NACK cache. -/
theorem sentCache_publishDatagrams (lib : FecLib) (io : PublishIO) {t : Transport}
    {obj : MoqObject} (hdata : obj.trackId.type = MOQ_TRACK_DATA) :
    (publishDatagrams lib io t obj).1.sentCache.slots[t.sentCache.index]? =
      some (sentObject io obj (shardObject lib io t obj).1) := by
  have hindex : t.sentCache.index < t.sentCache.slots.length := by
    rw [t.sentCache.length_slots]
    exact t.sentCache.index_lt
  simp only [publishDatagrams, if_pos hdata, SentCache.push]
  rw [List.getElem?_set_self hindex]

/-- The fields of the datagrams and of the NACK cache are exact when the symbols fit, and
only then if there are any. -/
theorem datagramLengthsExact_iff (lib : FecLib) (io : PublishIO) (t : Transport)
    {obj : MoqObject} (hsize : obj.data.length < 2 ^ 32) :
    DatagramLengthsExact lib io t obj ↔
      (obj.trackId.type ≠ MOQ_TRACK_DATA ∧ ∀ c ∈ t.conns, ¬GetsDatagrams t obj c) ∨
        neededSymbols t io obj ≤ 65535 := by
  obtain ⟨htotal, hdata, hpos⟩ := totalSymbols_shardObject lib io t obj
  constructor
  · intro ⟨hdatagrams, hcache⟩
    -- a total above 65535 is cut wherever it is written
    by_contra hnot
    rw [not_or, not_and_or, not_not] at hnot
    obtain ⟨hwritten, hlarge⟩ := hnot
    rcases hwritten with htype | hgets
    · -- the slot of the NACK cache has the total
      have hslot := hcache htype _ (sentCache_publishDatagrams lib io htype)
      exact hlarge (htotal ▸ toNat_ofNat_uint16.mp hslot.1)
    · -- the first datagram has the total
      rw [not_forall₂] at hgets
      obtain ⟨c, hc, hgets⟩ := hgets
      rcases sendDatagrams_eq t io obj (shardObject lib io t obj).1 c with
        ⟨trackAlias, -, hsend⟩ | ⟨hnone, -⟩
      · have hfirst := hdatagrams c hc 0 _ _ _ (by
          rw [hsend, List.getElem?_map, List.getElem?_range (by omega)]
          rfl)
        rw [decode_symbolDatagram] at hfirst
        exact hlarge (htotal ▸ toNat_ofNat_uint16.mp hfirst.1)
      · exact hgets hnone
  · intro hfit
    constructor
    · intro c hc s ptr path bytes hget
      rcases sendDatagrams_eq t io obj (shardObject lib io t obj).1 c with
        ⟨trackAlias, hgets, hsend⟩ | ⟨-, hsend⟩
      · have hneeded : neededSymbols t io obj ≤ 65535 :=
          hfit.resolve_left fun h => h.2 c hc hgets
        rw [hsend, List.getElem?_map, Option.map_eq_some_iff] at hget
        obtain ⟨s', hs', heq⟩ := hget
        obtain ⟨hlt, rfl⟩ := List.getElem?_eq_some_iff.mp hs'
        rw [List.length_range] at hlt
        simp only [List.getElem_range, Effect.datagram.injEq] at heq
        rw [← heq.2.2, decode_symbolDatagram]
        refine ⟨toNat_ofNat_uint16.mpr (by omega), toNat_ofNat_uint16.mpr (by omega),
          toNat_ofNat_uint16.mpr (by omega), ?_⟩
        show (UInt32.ofNat obj.data.length).toNat = obj.data.length
        rw [UInt32.toNat_ofNat']
        omega
      · rw [hsend] at hget
        exact absurd hget (by simp)
    · intro htype e he
      have hneeded : neededSymbols t io obj ≤ 65535 := hfit.resolve_left fun h => h.1 htype
      rw [sentCache_publishDatagrams lib io htype, Option.mem_def, Option.some.injEq] at he
      rw [← he]
      refine ⟨toNat_ofNat_uint16.mpr (by omega), toNat_ofNat_uint16.mpr (by omega), ?_⟩
      intro data hcopy
      simp only [sentObject, Option.mem_def, Option.ite_none_right_eq_some, Option.some.injEq]
        at hcopy
      rw [hcopy.2]

theorem directLengthsExact_iff (lib : FecLib) (io : PublishIO) (t : Transport) {obj : MoqObject}
    (hsize : obj.data.length < 2 ^ 32) :
    DirectLengthsExact lib io t obj ↔ DirectLengthsFit io t obj := by
  unfold DirectLengthsExact DirectLengthsFit
  by_cases hreliable : (getTrackProfile obj.trackId).reliable = true
  · rw [if_pos hreliable]
    exact ⟨fun _ => Or.inl hreliable, fun _ => streamLengthsExact io t hsize⟩
  · rw [if_neg hreliable, datagramLengthsExact_iff lib io t hsize]
    exact ⟨Or.inr, fun h => h.resolve_left hreliable⟩

/-! ## All fields of a call -/

/-- For a buffer that is not full between calls and an object whose size fits 32 bits, every
field is exact exactly when the values fit. -/
theorem lengthsExact_iff (lib : FecLib) (io : PublishIO) {t : Transport} {obj : MoqObject}
    (hbuf : t.fec.buf.length < 4000) (hsize : obj.data.length < 2 ^ 32) :
    LengthsExact lib io t obj ↔ LengthsFit io t obj := by
  unfold LengthsExact LengthsFit
  by_cases hroute : routedToGroup t obj = true
  · rw [if_pos hroute, if_pos hroute]
    refine forall_congr' fun fec => forall_congr' fun happend => ?_
    obtain ⟨hframes, -⟩ := FecBuffer.append_eq_some happend
    rw [FecBuffer.buf_record] at hframes
    have hfield : ofBE (slice t.fec.buf.length 2 fec.buf) = obj.data.length ↔
        obj.data.length ≤ 65535 := by
      rw [hframes, slice_append_right _ _ (Nat.le_refl _), Nat.sub_self, packetFrame]
      have htake : slice 0 2 (toBE 2 obj.data.length ++ obj.data) = toBE 2 obj.data.length := by
        rw [slice, List.drop_zero, List.take_left' (length_toBE 2 _)]
      rw [htake, ofBE_toBE]
      omega
    rw [hfield]
    refine and_congr_right fun hle => forall_congr' fun _ => ?_
    have hgroup : (groupedObject { t with fec := fec }).data.length < 2 ^ 32 := by
      show fec.buf.length < 2 ^ 32
      rw [hframes, List.length_append, packetFrame, List.length_append, length_toBE]
      omega
    exact directLengthsExact_iff lib io (flushing t fec) hgroup
  · rw [if_neg hroute, if_neg hroute]
    exact directLengthsExact_iff lib io t hsize

/-- In every run the grouping buffer is `Grouped`. -/
theorem grouped_run {lib : FecLib} {isServer : Bool} {links : List SockAddr} {mtu : ℕ}
    {labels : List Label} {g : GroupSystem} {out : List FlushedGroup}
    (hrun : run (groupStep lib) (GroupSystem.init isServer links mtu) labels = some (g, out)) :
    Grouped g :=
  invariant (I := Grouped) (grouped_init isServer links mtu)
    (fun _ _ _ _ h hstep => (h.step hstep).1) labels g out hrun

/-- In every reachable state and for every object that a frame of a helper can carry, the
fields that publishing writes are exact exactly when a grouped packet has at most 65535 bytes
and an object sent as datagrams, or kept for NACKs, needs at most 65535 symbols. -/
theorem lengths_exact_iff_fit (lib : FecLib) (isServer : Bool) (links : List SockAddr) (mtu : ℕ)
    (labels : List Label) {g : GroupSystem} {out : List FlushedGroup}
    (hrun : run (groupStep lib) (GroupSystem.init isServer links mtu) labels = some (g, out))
    (io : PublishIO) (obj : MoqObject) (hsize : obj.data.length < 2 ^ 32) :
    LengthsExact lib io g.system.transport obj ↔ LengthsFit io g.system.transport obj :=
  lengthsExact_iff lib io (grouped_run hrun).length_lt hsize

/-! ## An object that fits, and a packet that does not -/

/-- A server with a connection subscribes to a DATA track with FEC. -/
def fecSubscriberRun : List Label :=
  [.connect 1, .conn 1 (.openStream 0 true), .subscribe (fecDataTrack [97])]

set_option maxRecDepth 4000 in
/-- A text object of three bytes is sent as one datagram with exact fields. -/
theorem lengths_exact_iff_fit_text :
    ∃ g out, run (groupStep FecLib.unavailable) (GroupSystem.init true [] 1280)
        fecSubscriberRun = some (g, out) ∧
      LengthsExact FecLib.unavailable (publishAt 0) g.system.transport
        ⟨⟨MOQ_TRACK_TEXT, 0, TrackName.empty⟩, 0, 0, [1, 2, 3], false, 1⟩ :=
  ⟨_, _, rfl, (lengths_exact_iff_fit FecLib.unavailable true [] 1280 fecSubscriberRun rfl
    (publishAt 0) ⟨⟨MOQ_TRACK_TEXT, 0, TrackName.empty⟩, 0, 0, [1, 2, 3], false, 1⟩
    (by decide)).mpr (Or.inr (Or.inr (by decide)))⟩

/-- A DATA packet of 65536 bytes on that track. -/
def longPacket : MoqObject := ⟨fecDataTrack [97], 0, 0, List.replicate 65536 0, false, 1⟩

set_option maxRecDepth 4000 in
/-- The two bytes in front of that packet in the grouping buffer do not say its length. -/
theorem longPacket_truncated :
    ∃ g out, run (groupStep FecLib.unavailable) (GroupSystem.init true [] 1280)
        fecSubscriberRun = some (g, out) ∧
      longPacket.data.length < 2 ^ 32 ∧
      ¬LengthsExact FecLib.unavailable (publishAt 0) g.system.transport longPacket := by
  have hlen : longPacket.data.length = 65536 := List.length_replicate
  refine ⟨_, _, rfl, by omega, ?_⟩
  rw [lengthsExact_iff _ _ (by decide) (by omega), LengthsFit, if_pos (by decide)]
  intro hfit
  have happend := fun t : FecBuffer => Option.isSome_iff_exists.mp
    (show (t.append (publishAt 0) longPacket).isSome = true by simp [FecBuffer.append, publishAt])
  obtain ⟨fec, hfec⟩ := happend _
  have hle := (hfit fec hfec).1
  omega

end Bishlink
