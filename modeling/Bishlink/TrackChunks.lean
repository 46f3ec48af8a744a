import Bishlink.Callback
import Bishlink.TrackStreams

/-!
# A track stream in chunks

What `transport_publish` writes to one stream of a reliable track, cut anywhere, and what
`on_receive` makes of it at the other end: an OBJECT event for each object that has arrived
whole, in order, and the bytes of the next one wait (`track_chunks`).
-/

namespace Bishlink

open ByteCodec FirstMatch Framing

/-! ## The table of the peer -/

/-- `transport_subscribe` leaves an alias that is in use to its track. -/
theorem findSubscriptionByAlias_subscribeTable {s : Subscriptions} {trackAlias : UInt8}
    {out found : MoqTrackId} (h : findSubscriptionByAlias s trackAlias out = some found)
    (track : MoqTrackId) :
    findSubscriptionByAlias (subscribeTable s track) trackAlias out = some found := by
  by_cases hlow : trackAlias < 8
  · rw [findSubscriptionByAlias, if_pos hlow] at h ⊢
    exact h
  · rw [findSubscriptionByAlias, if_neg hlow] at h ⊢
    rw [← h]
    unfold subscribeTable
    split
    · next hnone =>
      rw [Option.isNone_iff_eq_none] at hnone
      have hnew : subscribeAlias s track ≠ trackAlias := by
        -- the new alias is above those in use, or 0 after 255
        obtain ⟨e, he, -⟩ := Option.map_eq_some_iff.mp h
        obtain ⟨hactive, rfl⟩ := TrackSubscription.hasAlias_iff.mp (List.find?_some he)
        have hlt := alias_lt_nextAlias (List.mem_of_find?_eq_some he) hactive
        have hle := nextAlias_le s
        have hnamed : track.named = true := by
          by_contra hnot
          rw [findAliasByTrack, if_neg hnot] at hnone
          exact absurd hnone (Option.some_ne_none _)
        rw [subscribeAlias, hnone]
        dsimp only
        rw [if_pos hnamed]
        intro heq
        have hnat := congrArg UInt8.toNat heq
        rw [UInt8.toNat_ofNat'] at hnat
        rw [UInt8.lt_iff_toNat_lt] at hlow
        have height : (8 : UInt8).toNat = 8 := rfl
        omega
      have hfree : s.entries.any (·.holds track.type track.name) = false := by
        unfold findAliasByTrack at hnone
        split at hnone
        · rw [Option.map_eq_none_iff, List.find?_eq_none] at hnone
          exact List.any_eq_false.mpr hnone
        · exact absurd hnone (Option.some_ne_none _)
      unfold addSubscription
      rw [hfree]
      refine congrArg (Option.map _) (find?_updateFirst_of_not (fun e he => ?_) s.entries)
      rw [Bool.not_eq_true'] at he
      constructor
      · rw [TrackSubscription.hasAlias, he, Bool.false_and]
      · exact beq_eq_false_iff_ne.mpr hnew
    · rfl

/-- The connection takes objects from stream `sid`, and the alias stands for the track. -/
structure Resolves (sid : ℕ) (trackAlias : UInt8) (track : MoqTrackId) (isServer : Bool)
    (c : Conn) : Prop where
  allowed : ¬(isServer = true ∧ ¬c.authenticated = true)
  track_eq : findSubscriptionByAlias c.subscriptions trackAlias MoqTrackId.zero = some track
  stream : (c.findStream sid).isSome = true

variable {lib : FecLib} {sid : ℕ} {trackAlias : UInt8} {track : MoqTrackId} {isServer : Bool}

/-- Another connection in the same place. -/
theorem Resolves.of_same {c c' : Conn} (h : Resolves sid trackAlias track isServer c)
    (hauth : c.authenticated = true → c'.authenticated = true)
    (hmappings : c'.subscriptions.mappings = c.subscriptions.mappings)
    (hstream : (c.findStream sid).isSome = true → (c'.findStream sid).isSome = true) :
    Resolves sid trackAlias track isServer c' := by
  refine ⟨fun hguest => h.allowed ⟨hguest.1, fun hc => hguest.2 (hauth hc)⟩, ?_, hstream h.stream⟩
  rw [findSubscriptionByAlias_of_mappings hmappings]
  exact h.track_eq

/-- A publish keeps the streams there are. -/
theorem findStream_publishReliableConn (io : PublishIO) (isServer : Bool) (obj : MoqObject)
    {c : Conn} (h : (c.findStream sid).isSome = true) :
    ((publishReliableConn io isServer obj c).1.findStream sid).isSome = true := by
  have hopen : ∀ c₁ : Conn, c₁.streams = c.streams → ∀ sid',
      ((onStreamOpen c₁ sid' true).findStream sid).isSome = true := by
    intro c₁ hstreams sid'
    unfold Conn.findStream onStreamOpen at *
    dsimp only
    rw [hstreams, List.find?_append, Option.isSome_or, h, Bool.true_or]
  unfold publishReliableConn
  split
  · exact h
  split
  · exact h
  split
  · exact h
  split
  · exact h
  · exact hopen _ rfl _

/-- No call takes the track from the alias, or the stream away. -/
theorem Resolves.call {call : Call} {t : Transport} {c c' : Conn}
    (h : Resolves sid trackAlias track isServer c) (hc : ConnBecomes lib t call.label c c') :
    Resolves sid trackAlias track isServer c' := by
  generalize hl : call.label = l at hc
  cases hc with
  | kept => exact h
  | subscribe hopen =>
    refine ⟨h.allowed, ?_, h.stream⟩
    exact findSubscriptionByAlias_subscribeTable h.track_eq _
  | publish hpub =>
    have hsame := hpub.same
    refine h.of_same (fun hauth => hsame.authenticated.trans hauth) hsame.mappings ?_
    rcases hpub with rfl | ⟨obj, rfl⟩
    · exact id
    · exact findStream_publishReliableConn _ _ obj
  | tick hpub =>
    cases call <;> cases hl
  | conn hfind hstep =>
    -- of the calls about one connection only the answer to AUTH changes what the parser reads
    cases call with
    | respondAuth ptr success =>
      obtain rfl : ConnLabel.respondAuth success = _ := (Label.conn.inj hl).2
      simp only [connStep, Option.some.injEq] at hstep
      have hc' : c' = (transportRespondAuth c success).2.1 :=
        (congrArg (fun r => r.2.1) hstep).symm
      rw [hc', transportRespondAuth]
      split
      · exact h
      · split
        · exact h.of_same (fun _ => rfl) rfl id
        · exact h.of_same id rfl id
    | sendUnicast ptr data =>
      obtain rfl : ConnLabel.sendUnicast data = _ := (Label.conn.inj hl).2
      cases hstep
      exact h
    | sendAuth ptr token =>
      obtain rfl : ConnLabel.sendAuth token = _ := (Label.conn.inj hl).2
      cases hstep
      exact h
    | closeConn ptr =>
      obtain rfl : ConnLabel.closeConn = _ := (Label.conn.inj hl).2
      cases hstep
      exact h.of_same id rfl id
    | _ => cases hl

/-- The connection is there, and takes objects of the track. -/
structure Listens (conn sid : ℕ) (trackAlias : UInt8) (track : MoqTrackId) (t : Transport) :
    Prop where
  nodup : t.ptrs.Nodup
  found : ∃ c, t.findConn conn = some c ∧ Resolves sid trackAlias track t.isServer c

variable {conn : ℕ}

theorem Listens.call {t : Transport} (h : Listens conn sid trackAlias track t) (call : Call) :
    Listens conn sid trackAlias track (t.call lib call).1 := by
  obtain ⟨c, hc, hresolves⟩ := h.found
  obtain ⟨hserver, c', hc', hbecomes⟩ := call_conn lib call h.nodup hc
  refine ⟨?_, c', hc', ?_⟩
  · rw [ptrs_call]
    exact h.nodup
  · rw [hserver]
    exact hresolves.call hbecomes

theorem Listens.calls {t : Transport} (h : Listens conn sid trackAlias track t)
    (calls : List Call) : Listens conn sid trackAlias track (t.calls lib calls).1 := by
  induction calls generalizing t with
  | nil => exact h
  | cons call calls ih => exact ih (h.call call)

/-- The connection is written back. -/
theorem Listens.setConn {t : Transport} (h : Listens conn sid trackAlias track t) {c : Conn}
    (hptr : c.ptr = conn) (hc : Resolves sid trackAlias track t.isServer c) :
    Listens conn sid trackAlias track (t.setConn c) := by
  subst hptr
  obtain ⟨c₀, hc₀, -⟩ := h.found
  refine ⟨?_, c, Transport.findConn_setConn hc₀, hc⟩
  rw [ptrs_setConn]
  exact h.nodup

/-! ## The receive loop -/

/-- The stream with its header read or not and these bytes waiting. -/
def Stream.reading (header : Option UInt8) (bs : Bytes) (s : Stream) : Stream :=
  { s with
    isControl := false
    headerReceived := header.isSome
    trackAlias := header.getD s.trackAlias
    ingress := bs }

theorem unseen_reading (header : Option UInt8) (bs : Bytes) : Unseen (Stream.reading header bs) :=
  ⟨fun _ => rfl, fun _ => rfl⟩

/-- The reception with the stream so. -/
def Reception.reading (q : Reception) (conn sid : ℕ) (header : Option UInt8) (bs : Bytes) :
    Reception := q.updateStream conn sid (Stream.reading header bs)

/-- The bytes behind the header, which was read before or stands first. -/
def Headed (trackAlias : UInt8) (header : Option UInt8) (bs input : Bytes) : Prop :=
  (header = some trackAlias ∧ bs = input) ∨ (header = none ∧ bs = trackAlias :: input)

/-- The connection once the header was read. -/
def Conn.headed (c : Conn) (sid : ℕ) (trackAlias : UInt8) (header : Option UInt8) : Conn :=
  if header.isSome then c
  else { c with subscriptions := mapStream c.subscriptions trackAlias sid }

theorem headed_ptr (c : Conn) (sid : ℕ) (trackAlias : UInt8) (header : Option UInt8) :
    (c.headed sid trackAlias header).ptr = c.ptr := by
  unfold Conn.headed
  split <;> rfl

theorem Resolves.headed {c : Conn} (h : Resolves sid trackAlias track isServer c)
    (header : Option UInt8) :
    Resolves sid trackAlias track isServer (c.headed sid trackAlias header) := by
  unfold Conn.headed
  split
  · exact h
  · exact h.of_same id (mappings_update_stream _ _ _) id

/-- A change of the stream on top of another. -/
theorem updateAt_updateAt {f : Stream → Stream} (hf : Unseen f) (g : Stream → Stream)
    {c : Conn} (hptr : c.ptr = conn) :
    (c.updateAt conn sid f).updateStream sid g = c.updateAt conn sid (g ∘ f) := by
  rw [Conn.updateAt, if_pos hptr, Conn.updateAt, if_pos hptr]
  unfold Conn.updateStream
  dsimp only
  rw [List.map_map]
  congr 1
  refine List.map_congr_left fun s _ => ?_
  dsimp only [Function.comp]
  by_cases hid : s.id = sid
  · simp only [if_pos hid, if_pos ((hf.id_eq s).trans hid)]
  · simp only [if_neg hid]

/-- The header is taken off the stream, and the rest is as if it had been off before. -/
theorem trackIteration_headed (t : Transport) {header : Option UInt8} {bs input : Bytes}
    (h : Headed trackAlias header bs input) {c : Conn} {s : Stream} (hptr : c.ptr = conn)
    (hid : s.id = sid) :
    trackIteration t (c.updateAt conn sid (Stream.reading header bs)) (s.reading header bs) =
      trackObjectIteration t
        ((c.headed sid trackAlias header).updateAt conn sid
          (Stream.reading (some trackAlias) input))
        sid trackAlias input := by
  rcases h with ⟨rfl, rfl⟩ | ⟨rfl, rfl⟩
  · rw [← hid]
    cases bs with
    | nil => rfl
    | cons b rest => rfl
  · have hmap : receiveStreamHeader
        (c.updateAt conn sid (Stream.reading none (trackAlias :: input))) sid trackAlias =
        (c.headed sid trackAlias none).updateAt conn sid
          (Stream.reading (some trackAlias) input) := by
      unfold receiveStreamHeader
      rw [updateAt_updateAt (unseen_reading none (trackAlias :: input)) _ hptr]
      dsimp only
      rw [updateAt_subscriptions, updateAt_with_subscriptions]
      rfl
    rw [← hmap, ← hid]
    rfl

theorem shift_reading {c : Conn} (hptr : c.ptr = conn) (bs : Bytes) (n : ℕ) :
    (c.updateAt conn sid (Stream.reading (some trackAlias) bs)).shift sid n =
      c.updateAt conn sid (Stream.reading (some trackAlias) (bs.drop n)) :=
  updateAt_updateAt (unseen_reading (some trackAlias) bs) _ hptr

/-- The event of an object on the stream. -/
def trackEvent (conn : ℕ) (track : MoqTrackId) (data : Bytes) : ℕ × TransportEvent :=
  (conn, .object track ⟨track, 0, 0, data, true, 0⟩)

variable (lib) in
/-- An iteration: it waits, or it delivers an object. Either way the header has been read. -/
theorem receiveStep_reading {app : Application}
    (happ : ∀ seen, ∀ call ∈ app seen, call.Spares conn sid) {q : Reception}
    (hq : Listens conn sid trackAlias track q.transport) {header : Option UInt8}
    {bs input : Bytes} (hheaded : Headed trackAlias header bs input)
    (hfield : 4 ≤ input.length → 4 + ofBE (slice 0 4 input) < 2 ^ 32) :
    (parseTrackObject input = .more → ∃ q' : Reception,
      receiveStep lib app trackStep conn sid (q.reading conn sid header bs) =
        (q'.reading conn sid (some trackAlias) input, [], false) ∧
      Listens conn sid trackAlias track q'.transport ∧ q'.seen = q.seen) ∧
    ∀ data n, parseTrackObject input = .item data n → ∃ (q' : Reception) (o : List Effect),
      receiveStep lib app trackStep conn sid (q.reading conn sid header bs) =
        (q'.reading conn sid (some trackAlias) (input.drop n), o, true) ∧
      Listens conn sid trackAlias track q'.transport ∧
      q'.seen = q.seen ++ [trackEvent conn track data] := by
  obtain ⟨c, hc, hresolves⟩ := hq.found
  have hptr := (Transport.findConn_eq_some hc).2
  obtain ⟨s, hs⟩ := Option.isSome_iff_exists.mp hresolves.stream
  have hid : s.id = sid := by
    have hfound := List.find?_some hs
    exact beq_iff_eq.mp hfound
  have hfind : (q.reading conn sid header bs).transport.findConn conn =
      some (c.updateAt conn sid (Stream.reading header bs)) := by
    show (q.transport.updateStream conn sid _).findConn conn = _
    rw [findConn_updateStream, hc, Option.map_some]
  have hstream : (c.updateAt conn sid (Stream.reading header bs)).findStream sid =
      some (s.reading header bs) := by
    rw [findStream_updateAt (unseen_reading header bs) hptr, hs, Option.map_some]
  have hptr' := (headed_ptr c sid trackAlias header).trans hptr
  have hresolves' := hresolves.headed header
  -- the bytes that are left go back into the stream, and the header with them
  have hback : ∀ bs', (q.reading conn sid header bs).transport.setConn
      ((c.headed sid trackAlias header).updateAt conn sid (Stream.reading (some trackAlias) bs')) =
      (q.transport.setConn (c.headed sid trackAlias header)).updateStream conn sid
        (Stream.reading (some trackAlias) bs') :=
    fun bs' => setConn_updateStream hptr' _ q.transport
  have hlistens := hq.setConn hptr' hresolves'
  have hiter : trackStep (q.reading conn sid header bs).handled
      (q.reading conn sid header bs).transport (c.updateAt conn sid (Stream.reading header bs))
      (s.reading header bs) =
      trackObjectIteration (q.reading conn sid header bs).transport
        ((c.headed sid trackAlias header).updateAt conn sid
          (Stream.reading (some trackAlias) input))
        sid trackAlias input := trackIteration_headed _ hheaded hptr hid
  unfold receiveStep
  rw [hfind]
  dsimp only
  rw [hstream]
  dsimp only
  rw [hiter]
  constructor
  · intro hmore
    refine ⟨{ q with transport := q.transport.setConn (c.headed sid trackAlias header) }, ?_,
      hlistens, rfl⟩
    rw [trackObjectIteration_more hfield hmore]
    dsimp only [deliver]
    rw [hback, if_neg Bool.false_ne_true]
    rfl
  · intro data n hitem
    -- the connection is allowed to send, so the object is not refused
    have hguest : ¬((q.reading conn sid header bs).transport.isServer = true ∧
        ¬((c.headed sid trackAlias header).updateAt conn sid
          (Stream.reading (some trackAlias) input)).authenticated = true) := by
      rw [updateAt_authenticated]
      exact hresolves'.allowed
    have htrack : findSubscriptionByAlias ((c.headed sid trackAlias header).updateAt conn sid
        (Stream.reading (some trackAlias) input)).subscriptions trackAlias MoqTrackId.zero =
        some track := by
      rw [updateAt_subscriptions]
      exact hresolves'.track_eq
    rw [trackObjectIteration_item hguest htrack hitem]
    dsimp only
    rw [shift_reading hptr', hback, if_pos rfl]
    have hdeliver := deliver_updateStream (unseen_reading (some trackAlias) (input.drop n)) lib happ
      { q with transport := q.transport.setConn (c.headed sid trackAlias header) }
      [streamObjectEvent c track data true]
    have heffect : streamObjectEvent ((c.headed sid trackAlias header).updateAt conn sid
        (Stream.reading (some trackAlias) input)) track data true =
        streamObjectEvent c track data true := by
      unfold streamObjectEvent
      rw [updateAt_ptr, headed_ptr]
    rw [heffect]
    refine ⟨{ (deliver lib app
        { q with transport := q.transport.setConn (c.headed sid trackAlias header) }
        [streamObjectEvent c track data true]).1 with handled := q.handled + 1 }, _,
      congrArg (fun d : Reception × List Effect =>
        (({ d.1 with handled := q.handled + 1 } : Reception), d.2, true)) hdeliver, ?_, ?_⟩
    · exact hlistens.calls _
    · exact congrArg (fun ptr => q.seen ++ [trackEvent ptr track data]) hptr

variable (lib) in
/-- The loop delivers the objects that are there whole. -/
theorem receiveLoop_reading {app : Application}
    (happ : ∀ seen, ∀ call ∈ app seen, call.Spares conn sid) (fuel : ℕ) {q : Reception}
    (hq : Listens conn sid trackAlias track q.transport) {header : Option UInt8}
    {bs input rest : Bytes} (hheaded : Headed trackAlias header bs input) {pending : List Bytes}
    (hshort : ∀ data ∈ pending, 4 + data.length < 2 ^ 32)
    (heq : input ++ rest = pending.flatMap frame) (hfuel : input.length < fuel) :
    ∃ (q' : Reception) (whole left : List Bytes) (tail : Bytes),
      (receiveLoop lib app trackStep conn sid fuel (q.reading conn sid header bs)).1 =
        q'.reading conn sid (some trackAlias) tail ∧
      Listens conn sid trackAlias track q'.transport ∧
      q'.seen = q.seen ++ whole.map (trackEvent conn track) ∧ pending = whole ++ left ∧
      input = whole.flatMap frame ++ tail ∧ parseTrackObject tail = .more := by
  -- each round takes a frame, which has at least four bytes, so the fuel is enough
  induction fuel generalizing q header bs input pending with
  | zero => omega
  | succ fuel ih =>
    obtain ⟨hwaits, hdelivers⟩ := receiveStep_reading lib happ hq hheaded
      (length_field_lt hshort heq)
    rw [receiveLoop]
    rcases frame_exact.arrived hshort heq with
      ⟨data, left, got, rfl, rfl, hgot, hitem⟩ | ⟨hmore, -⟩
    · obtain ⟨q₁, o, hstep, hq₁, hseen₁⟩ := hdelivers data _ hitem
      rw [List.drop_left] at hstep
      rw [List.length_append, length_frame] at hfuel
      obtain ⟨q₂, whole, left', tail, hloop, hq₂, hseen₂, rfl, rfl, hmore⟩ :=
        ih hq₁ (Or.inl ⟨rfl, rfl⟩) (fun d hd => hshort d (List.mem_cons_of_mem data hd)) hgot
          (by omega)
      refine ⟨q₂, data :: whole, left', tail, ?_, hq₂, ?_, rfl, ?_, hmore⟩
      · rw [hstep]
        dsimp only
        rw [if_pos rfl]
        exact hloop
      · rw [hseen₂, hseen₁, List.append_assoc]
        rfl
      · rw [List.flatMap_cons, List.append_assoc]
    · obtain ⟨q₁, hstep, hq₁, hseen₁⟩ := hwaits hmore
      refine ⟨q₁, [], pending, input, ?_, hq₁, ?_, rfl, rfl, hmore⟩
      · rw [hstep]
        dsimp only
        rw [if_neg Bool.false_ne_true]
      · rw [hseen₁, List.map_nil, List.append_nil]

/-! ## Chunks -/

/-- What a receiver that has these bytes of the stream has done: it delivered the objects `whole`,
and the start of the next one waits. -/
structure Arrived (conn sid : ℕ) (trackAlias : UInt8) (track : MoqTrackId)
    (seen : List (ℕ × TransportEvent)) (objects whole left : List Bytes)
    (arrived tail : Bytes) (r : Reception) : Prop where
  split : objects = whole ++ left
  more : parseTrackObject tail = .more
  reception : ∃ (q : Reception) (header : Option UInt8), r = q.reading conn sid header tail ∧
    Listens conn sid trackAlias track q.transport ∧
    q.seen = seen ++ whole.map (trackEvent conn track) ∧
    ((header = none ∧ arrived = [] ∧ whole = [] ∧ tail = []) ∨
      (header = some trackAlias ∧ arrived = trackAlias :: (whole.flatMap frame ++ tail)))

/-- Bytes go behind those that wait. -/
theorem arrive_reading (q : Reception) (header : Option UInt8) (bs chunk : Bytes) :
    (q.reading conn sid header bs).arrive conn sid chunk =
      q.reading conn sid header (bs ++ chunk) := by
  have happend : (q.transport.updateStream conn sid (Stream.reading header bs)).updateStream conn
      sid (fun s => { s with ingress := s.ingress ++ chunk }) =
      q.transport.updateStream conn sid (Stream.reading header (bs ++ chunk)) :=
    updateStream_updateStream (unseen_reading header bs) _ q.transport
  exact congrArg (fun t : Transport => ({ q with transport := t } : Reception)) happend

/-- `on_receive` runs the loop of a track stream. -/
theorem onReceive_reading (io : ℕ → ControlIO) (app : Application) {q : Reception}
    (hq : Listens conn sid trackAlias track q.transport) (header : Option UInt8)
    (bs chunk : Bytes) :
    onReceive lib io app conn sid (q.reading conn sid header bs) chunk =
      receiveLoop lib app trackStep conn sid ((bs ++ chunk).length + 1)
        (q.reading conn sid header (bs ++ chunk)) := by
  obtain ⟨c, hc, hresolves⟩ := hq.found
  have hptr := (Transport.findConn_eq_some hc).2
  obtain ⟨s, hs⟩ := Option.isSome_iff_exists.mp hresolves.stream
  have hstream : ((q.reading conn sid header (bs ++ chunk)).transport.findConn conn).bind
      (·.findStream sid) = some (s.reading header (bs ++ chunk)) := by
    show ((q.transport.updateStream conn sid _).findConn conn).bind _ = _
    rw [findConn_updateStream, hc, Option.map_some, Option.bind_some,
      findStream_updateAt (unseen_reading header (bs ++ chunk)) hptr, hs, Option.map_some]
  unfold onReceive
  rw [arrive_reading]
  dsimp only
  rw [hstream]
  rfl

/-- Nothing is done on a stream on which nothing waits. -/
theorem receiveStep_nil (app : Application) {q : Reception}
    (hq : Listens conn sid trackAlias track q.transport) (header : Option UInt8) :
    receiveStep lib app trackStep conn sid (q.reading conn sid header []) =
      (q.reading conn sid header [], [], false) := by
  obtain ⟨c, hc, hresolves⟩ := hq.found
  have hptr := (Transport.findConn_eq_some hc).2
  obtain ⟨s, hs⟩ := Option.isSome_iff_exists.mp hresolves.stream
  have hfind : (q.reading conn sid header []).transport.findConn conn =
      some (c.updateAt conn sid (Stream.reading header [])) := by
    show (q.transport.updateStream conn sid _).findConn conn = _
    rw [findConn_updateStream, hc, Option.map_some]
  have hnodup : (q.reading conn sid header []).transport.ptrs.Nodup := by
    have hptrs : (q.reading conn sid header []).transport.ptrs = q.transport.ptrs :=
      ptrs_map fun c _ => updateAt_ptr c
    rw [hptrs]
    exact hq.nodup
  have hself := setConn_self hnodup hfind
  unfold receiveStep
  rw [hfind]
  dsimp only
  rw [findStream_updateAt (unseen_reading header []) hptr, hs, Option.map_some]
  have hiter : trackStep (q.reading conn sid header []).handled
      (q.reading conn sid header []).transport (c.updateAt conn sid (Stream.reading header []))
      (s.reading header []) = ⟨(q.reading conn sid header []).transport,
        c.updateAt conn sid (Stream.reading header []), [], false⟩ := rfl
  dsimp only
  rw [hiter]
  dsimp only [deliver]
  rw [hself, if_neg Bool.false_ne_true]

/-- One more chunk. -/
theorem Arrived.feed (io : ℕ → ControlIO) {app : Application}
    (happ : ∀ seen, ∀ call ∈ app seen, call.Spares conn sid)
    {seen : List (ℕ × TransportEvent)} {objects whole left : List Bytes} {arrived tail : Bytes}
    {r : Reception}
    (h : Arrived conn sid trackAlias track seen objects whole left arrived tail r)
    (hshort : ∀ data ∈ objects, 4 + data.length < 2 ^ 32) {chunk : Bytes}
    (hfront : arrived ++ chunk <+: trackAlias :: objects.flatMap frame) :
    ∃ (whole' left' : List Bytes) (tail' : Bytes),
      Arrived conn sid trackAlias track seen objects whole' left' (arrived ++ chunk) tail'
        (onReceive lib io app conn sid r chunk).1 := by
  obtain ⟨rest, hrest⟩ := hfront
  obtain ⟨rfl, hmore, q, header, rfl, hq, hseen, hbegun⟩ := h
  rw [onReceive_reading io app hq]
  -- the loop starts behind the header, or nothing has arrived yet
  by_cases hnone : arrived ++ chunk = []
  · obtain ⟨rfl, rfl⟩ := List.append_eq_nil_iff.mp hnone
    obtain ⟨rfl, -, rfl, rfl⟩ | ⟨-, habsurd⟩ := hbegun
    · refine ⟨[], left, [], rfl, hmore, q, none, ?_, hq, hseen, Or.inl ⟨rfl, rfl, rfl, rfl⟩⟩
      show (receiveLoop lib app trackStep conn sid 1 (q.reading conn sid none [])).1 = _
      rw [receiveLoop, receiveStep_nil app hq, if_neg Bool.false_ne_true]
    · exact absurd habsurd (List.cons_ne_nil _ _).symm
  · have hinput : ∃ input, Headed trackAlias header (tail ++ chunk) input ∧
        input ++ rest = left.flatMap frame ∧
        arrived ++ chunk = trackAlias :: (whole.flatMap frame ++ input) := by
      obtain ⟨rfl, rfl, rfl, rfl⟩ | ⟨rfl, rfl⟩ := hbegun
      · cases chunk with
        | nil => exact absurd rfl hnone
        | cons b input =>
          rw [List.nil_append, List.cons_append, List.cons.injEq] at hrest
          obtain ⟨rfl, hrest⟩ := hrest
          exact ⟨input, Or.inr ⟨rfl, rfl⟩, hrest, rfl⟩
      · refine ⟨tail ++ chunk, Or.inl ⟨rfl, rfl⟩, ?_, ?_⟩
        · rw [List.cons_append, List.cons_append, List.cons.injEq, List.flatMap_append,
            List.append_assoc, List.append_assoc, List.append_cancel_left_eq] at hrest
          rw [List.append_assoc]
          exact hrest.2
        · rw [List.cons_append, List.append_assoc]
    obtain ⟨input, hheaded, heq, harrived⟩ := hinput
    have hlen : input.length < (tail ++ chunk).length + 1 := by
      rcases hheaded with ⟨-, hbs⟩ | ⟨-, hbs⟩
      · rw [hbs]
        omega
      · rw [hbs, List.length_cons]
        omega
    obtain ⟨q', whole', left', tail', hloop, hq', hseen', rfl, rfl, hmore'⟩ :=
      receiveLoop_reading lib happ _ hq hheaded
        (fun data hdata => hshort data (List.mem_append_right whole hdata)) heq hlen
    refine ⟨whole ++ whole', left', tail', ?_, hmore', q', some trackAlias, hloop, hq', ?_,
      Or.inr ⟨rfl, ?_⟩⟩
    · rw [List.append_assoc]
    · rw [hseen', hseen, List.map_append, List.append_assoc]
    · rw [harrived, List.flatMap_append, List.append_assoc]

/-- All chunks, one after the other. -/
theorem Arrived.feedAll (io : ℕ → ControlIO) {app : Application}
    (happ : ∀ seen, ∀ call ∈ app seen, call.Spares conn sid)
    {seen : List (ℕ × TransportEvent)} {objects : List Bytes}
    (hshort : ∀ data ∈ objects, 4 + data.length < 2 ^ 32) (chunks : List Bytes)
    {whole left : List Bytes} {arrived tail : Bytes} {r : Reception × List Effect}
    (h : Arrived conn sid trackAlias track seen objects whole left arrived tail r.1)
    (hfront : arrived ++ chunks.flatten <+: trackAlias :: objects.flatMap frame) :
    ∃ (whole' left' : List Bytes) (tail' : Bytes),
      Arrived conn sid trackAlias track seen objects whole' left' (arrived ++ chunks.flatten) tail'
        (chunks.foldl (fun r chunk =>
          let d := onReceive lib io app conn sid r.1 chunk
          ((d.1, r.2 ++ d.2) : Reception × List Effect)) r).1 := by
  induction chunks generalizing whole left arrived tail r with
  | nil =>
    rw [List.flatten_nil, List.append_nil]
    exact ⟨whole, left, tail, h⟩
  | cons chunk chunks ih =>
    rw [List.flatten_cons, ← List.append_assoc] at hfront ⊢
    obtain ⟨whole₁, left₁, tail₁, h₁⟩ :=
      h.feed io happ hshort ((List.prefix_append _ _).trans hfront)
    exact ih h₁ hfront

/-! ## The writer -/

/-- A call of `transport_publish`. -/
structure Publication where
  transport : Transport
  io : PublishIO
  obj : MoqObject

/-- The transport afterwards. -/
def Publication.after (lib : FecLib) (p : Publication) : Transport :=
  (transportPublish lib p.io p.transport p.obj).2.1

/-- What the call writes to a stream. -/
def Publication.bytes (lib : FecLib) (ptr sid : ℕ) (p : Publication) : Bytes :=
  written ptr sid (transportPublish lib p.io p.transport p.obj).2.2

/-- The entry of the track has the stream `sid`, and it can be written to. -/
def Transport.Writes (t : Transport) (ptr sid : ℕ) (track : MoqTrackId) : Prop :=
  ∃ c, t.findConn ptr = some c ∧ c.closing = false ∧ c.trackStream track = some sid ∧
    c.sendOpen (some sid) = true

/-- The object is not grouped, and its track is reliable. -/
structure Publication.Direct (p : Publication) : Prop where
  ungrouped : routedToGroup p.transport p.obj = false
  reliable : (getTrackProfile p.obj.trackId).reliable = true
  nodup : p.transport.ptrs.Nodup

/-- The object goes to the stream of the track's entry. -/
structure Publication.Appends (ptr sid : ℕ) (p : Publication) : Prop where
  direct : p.Direct
  writes : p.transport.Writes ptr sid p.obj.trackId

/-- The entry of the track has no stream to write to, and QUIC opens stream `sid`. -/
structure Publication.Opens (ptr sid : ℕ) (trackAlias : UInt8) (p : Publication) : Prop where
  direct : p.Direct
  opens : p.io.openStream ptr = some sid
  entry : ∃ c sub, p.transport.findConn ptr = some c ∧ c.closing = false ∧
    c.subscriptions.entries.find? (·.holds p.obj.trackId.type p.obj.trackId.name) = some sub ∧
    sub.trackAlias = trackAlias ∧ c.sendOpen sub.stream = false ∧ c.findStream sid = none

variable {ptr : ℕ} {p : Publication}

/-- The call works on the connection. -/
theorem Publication.Direct.spec (h : p.Direct) (lib : FecLib) {c : Conn}
    (hc : p.transport.findConn ptr = some c) :
    (p.after lib).findConn ptr =
        some (publishReliableConn p.io p.transport.isServer p.obj c).1 ∧
      ∀ sid, p.bytes lib ptr sid =
        written ptr sid (publishReliableConn p.io p.transport.isServer p.obj c).2 := by
  have hpublish : (transportPublish lib p.io p.transport p.obj).2 =
      publishReliable p.io p.transport p.obj := by
    unfold transportPublish publishDirect
    rw [h.ungrouped, if_neg Bool.false_ne_true, if_pos h.reliable]
  unfold Publication.after Publication.bytes
  rw [hpublish]
  exact publishReliable_spec p.io p.obj h.nodup hc

/-- A track that has an entry is subscribed. -/
theorem isSubscribed_of_entry {s : Subscriptions} {track : MoqTrackId} {sub : TrackSubscription}
    (h : s.entries.find? (·.holds track.type track.name) = some sub) :
    isSubscribed s track = true := by
  unfold isSubscribed findAliasByTrack
  split
  · rw [h]
    rfl
  · rfl

/-- The publish does not leave the connection out. -/
theorem not_left_out (isServer : Bool) {c : Conn} {track : MoqTrackId} {sub : TrackSubscription}
    (hlive : c.closing = false)
    (hsub : c.subscriptions.entries.find? (·.holds track.type track.name) = some sub) :
    ¬(c.closing = true ∨ (isServer = true ∧ ¬isSubscribed c.subscriptions track = true)) := by
  rintro (hclosing | ⟨-, hnot⟩)
  · exact absurd (hlive.symm.trans hclosing) Bool.false_ne_true
  · exact hnot (isSubscribed_of_entry hsub)

/-- One more frame on the stream. -/
theorem Publication.Appends.spec (h : p.Appends ptr sid) (lib : FecLib) :
    p.bytes lib ptr sid = frame p.obj.data ∧ (p.after lib).Writes ptr sid p.obj.trackId := by
  obtain ⟨c, hc, hlive, hstream, hopen⟩ := h.writes
  have hptr := (Transport.findConn_eq_some hc).2
  obtain ⟨sub, hsub, hsid⟩ := Option.bind_eq_some_iff.mp hstream
  have hconn : publishReliableConn p.io p.transport.isServer p.obj c =
      (c, writeObject c sid p.obj.data) := by
    unfold publishReliableConn
    rw [if_neg (not_left_out p.transport.isServer hlive hsub), hsub]
    dsimp only
    rw [hsid, hopen]
  obtain ⟨hafter, hbytes⟩ := h.direct.spec lib hc
  rw [hconn] at hafter hbytes
  refine ⟨?_, c, hafter, hlive, hstream, hopen⟩
  rw [hbytes, ← hptr, written_writeObject, if_pos rfl]

/-- The alias and the first frame, on a new stream. -/
theorem Publication.Opens.spec (h : p.Opens ptr sid trackAlias) (lib : FecLib) :
    p.bytes lib ptr sid = trackAlias :: frame p.obj.data ∧
      (p.after lib).Writes ptr sid p.obj.trackId := by
  obtain ⟨c, sub, hc, hlive, hsub, rfl, hclosed, hfree⟩ := h.entry
  have hptr := (Transport.findConn_eq_some hc).2
  have hconn : publishReliableConn p.io p.transport.isServer p.obj c =
      (c.openTrack p.obj.trackId sid,
        .streamWrite c.ptr sid [sub.trackAlias] :: writeObject c sid p.obj.data) := by
    unfold publishReliableConn
    rw [if_neg (not_left_out p.transport.isServer hlive hsub), hsub]
    dsimp only
    rw [hclosed, hptr, h.opens, ← hptr]
    cases sub.stream <;> rfl
  obtain ⟨hafter, hbytes⟩ := h.direct.spec lib hc
  rw [hconn] at hafter hbytes
  obtain ⟨hopened, -⟩ := findStream_openTrack p.obj.trackId hfree
  refine ⟨?_, _, hafter, hlive, ?_, ?_⟩
  · rw [hbytes, ← hptr]
    show written c.ptr sid ([.streamWrite c.ptr sid [sub.trackAlias]] ++
      writeObject c sid p.obj.data) = _
    rw [written_append, written_writeObject, if_pos rfl]
    simp [written]
  · unfold Conn.trackStream
    show ((updateFirst _ _ c.subscriptions.entries).find? _).bind _ = _
    rw [find?_updateFirst_self (fun e he => by exact he), hsub]
    rfl
  · unfold Conn.sendOpen
    dsimp only
    rw [hopened]
    rfl

/-- The stream has the alias and a frame for each object. -/
theorem bytes_publications (lib : FecLib) {first : Publication} {later : List Publication}
    (hfirst : first.Opens ptr sid trackAlias) (hlater : ∀ p ∈ later, p.Appends ptr sid) :
    (first :: later).flatMap (·.bytes lib ptr sid) =
      trackAlias :: ((first :: later).map (·.obj.data)).flatMap frame := by
  have hrest : later.flatMap (·.bytes lib ptr sid) =
      (later.map (·.obj.data)).flatMap frame := by
    rw [List.flatMap_map]
    exact List.flatMap_congr fun p hp => ((hlater p hp).spec lib).1
  rw [List.flatMap_cons, hrest, (hfirst.spec lib).1, List.map_cons, List.flatMap_cons,
    List.cons_append]

/-! ## The whole stream -/

/-- A stream of a reliable track, cut anywhere. The first publish opens the stream, the others find
it in the entry of the track; each of them leaves it there for the next. The peer's table gives
`track` for the alias, and its stream is new. Whatever chunks of a front part of the bytes arrive,
and whatever its application does, the peer raises an OBJECT event for each object that is there
whole, in order, with the bytes of the object and its own track id, and the bytes behind them, the
start of the next object, wait. -/
theorem track_chunks (lib : FecLib) {ptr sid : ℕ} {trackAlias : UInt8} {first : Publication}
    {later : List Publication} (hfirst : first.Opens ptr sid trackAlias)
    (hlater : ∀ p ∈ later, p.Appends ptr sid)
    (hshort : ∀ p ∈ first :: later, p.obj.data.length ≤ 2 ^ 32 - 5)
    (io : ℕ → ControlIO) (app : Application) {conn : ℕ} {track : MoqTrackId} {q : Reception}
    {c : Conn} {s : Stream} (happ : ∀ seen, ∀ call ∈ app seen, call.Spares conn sid)
    (hptrs : q.transport.ptrs.Nodup) (hids : (c.streams.map (·.id)).Nodup)
    (hc : q.transport.findConn conn = some c) (hs : c.findStream sid = some s)
    (hallowed : q.transport.isServer = true → c.authenticated = true)
    (htrack : findSubscriptionByAlias c.subscriptions trackAlias MoqTrackId.zero = some track)
    (hnew : s.isControl = false ∧ s.headerReceived = false ∧ s.ingress = [])
    {chunks : List Bytes}
    (hchunks : chunks.flatten <+: (first :: later).flatMap (·.bytes lib ptr sid)) :
    (first :: later).flatMap (·.bytes lib ptr sid) =
      trackAlias :: ((first :: later).map (·.obj.data)).flatMap frame ∧
    (∀ p ∈ first :: later, (p.after lib).Writes ptr sid p.obj.trackId) ∧
    ∃ whole left tail, (first :: later).map (·.obj.data) = whole ++ left ∧
      chunks.flatten.drop 1 = whole.flatMap frame ++ tail ∧ (left = [] → tail = []) ∧
      (∀ data ∈ left.head?, tail.length < (frame data).length) ∧
      (receiveAll lib io app conn sid q chunks).1.seen =
        q.seen ++ whole.map (trackEvent conn track) ∧
      ∃ c' s', (receiveAll lib io app conn sid q chunks).1.transport.findConn conn = some c' ∧
        c'.findStream sid = some s' ∧ s'.ingress = tail := by
  have hbytes := bytes_publications lib hfirst hlater
  refine ⟨hbytes, fun p hp => ?_, ?_⟩
  · rcases List.mem_cons.mp hp with rfl | hp
    · exact (hfirst.spec lib).2
    · exact ((hlater p hp).spec lib).2
  have hfits : ∀ data ∈ (first :: later).map (·.obj.data), 4 + data.length < 2 ^ 32 := by
    intro data hdata
    obtain ⟨p, hp, rfl⟩ := List.mem_map.mp hdata
    have hlen := hshort p hp
    omega
  -- nothing has been read of the stream
  have hself : q = q.reading conn sid none [] := by
    have hstream : s.reading none [] = s := by
      obtain ⟨hcontrol, hheader, hingress⟩ := hnew
      unfold Stream.reading
      rw [← hcontrol, Option.isSome_none, ← hheader, Option.getD_none, ← hingress]
    have ht := updateStream_self hptrs hids hc hs hstream
    rw [Reception.reading, Reception.updateStream, ht]
  have hlistens : Listens conn sid trackAlias track q.transport := by
    refine ⟨hptrs, c, hc, fun h => h.2 (hallowed h.1), htrack, ?_⟩
    rw [hs]
    rfl
  have hempty : parseTrackObject [] = .more := rfl
  have hstart : Arrived conn sid trackAlias track q.seen ((first :: later).map (·.obj.data)) []
      ((first :: later).map (·.obj.data)) [] [] q :=
    ⟨rfl, hempty, q, none, hself, hlistens, (List.append_nil q.seen).symm,
      Or.inl ⟨rfl, rfl, rfl, rfl⟩⟩
  rw [hbytes] at hchunks
  obtain ⟨whole, left, tail, harrived⟩ :=
    Arrived.feedAll (r := (q, [])) io happ hfits chunks hstart hchunks
  rw [List.nil_append] at harrived
  obtain ⟨hsplit, hmore, q', header, hq', hq'listens, hseen, hbegun⟩ := harrived
  obtain ⟨hdrop, rest, hrest⟩ : chunks.flatten.drop 1 = whole.flatMap frame ++ tail ∧
      tail <+: left.flatMap frame := by
    rcases hbegun with ⟨-, hnil, rfl, rfl⟩ | ⟨-, hcons⟩
    · rw [hnil]
      exact ⟨rfl, List.nil_prefix⟩
    · rw [hcons, hsplit, List.flatMap_append, List.prefix_cons_inj,
        List.prefix_append_right_inj] at hchunks
      rw [hcons]
      exact ⟨rfl, hchunks⟩
  refine ⟨whole, left, tail, hsplit, hdrop, ?_, ?_, ?_, ?_⟩
  · rintro rfl
    exact (List.append_eq_nil_iff.mp hrest).1
  · intro data hdata
    obtain ⟨left, rfl⟩ : ∃ l, left = data :: l := List.head?_eq_some_iff.mp hdata
    by_contra hlong
    -- the frame would be there whole
    have hframe : frame data <+: tail := by
      rw [List.flatMap_cons] at hrest
      refine List.prefix_of_prefix_length_le (List.prefix_append _ _) ⟨rest, hrest⟩ (by omega)
    have hitem := frame_exact.item_iff.mpr ⟨hfits data (by rw [hsplit]; simp), hframe, rfl⟩
    rw [hmore] at hitem
    exact absurd hitem (by simp)
  · unfold receiveAll
    rw [hq']
    exact hseen
  · obtain ⟨c', hc', hresolves⟩ := hq'listens.found
    obtain ⟨s', hs'⟩ := Option.isSome_iff_exists.mp hresolves.stream
    refine ⟨c'.updateAt conn sid (Stream.reading header tail), s'.reading header tail, ?_, ?_, rfl⟩
    · unfold receiveAll
      rw [hq']
      show (q'.transport.updateStream conn sid _).findConn conn = _
      rw [findConn_updateStream, hc', Option.map_some]
    · rw [findStream_updateAt (unseen_reading header tail) (Transport.findConn_eq_some hc').2, hs',
        Option.map_some]

/-- The reliable track that both ends hold. -/
def heldTrack : MoqTrackId := ⟨MOQ_TRACK_VIDEO, MOQ_TRACK_FLAG_RELIABLE, TrackName.ofBuffer [97]⟩

/-- A connection that holds the track under alias 8. -/
def holder (streams : List Stream) : Conn :=
  { Conn.zero 1 with
    authenticated := true
    subscriptions := addSubscription Subscriptions.empty heldTrack.type heldTrack.flags
      heldTrack.name 8
    streams := streams }

def holderTransport (isServer : Bool) (streams : List Stream) : Transport :=
  { Transport.init isServer [] 1280 with conns := [holder streams] }

/-- An object of one byte is published, and then an empty one. -/
def firstPublication : Publication :=
  ⟨holderTransport false [], publishAt 0, ⟨heldTrack, 0, 0, [1], true, 0⟩⟩

def secondPublication : Publication :=
  ⟨firstPublication.after FecLib.unavailable, publishAt 0, ⟨heldTrack, 0, 0, [], true, 0⟩⟩

theorem opens_firstPublication : firstPublication.Opens 1 4 8 :=
  ⟨⟨by decide, by decide, by decide⟩, rfl, _, _, rfl, rfl, rfl, rfl, rfl, rfl⟩

theorem appends_secondPublication : ∀ p ∈ [secondPublication], p.Appends 1 4 := by
  intro p hp
  rw [List.mem_singleton.mp hp]
  exact ⟨⟨by decide, by decide, by decide⟩, (opens_firstPublication.spec FecLib.unavailable).2⟩

/-- A server to which the stream is new. -/
def holderReception : Reception := ⟨holderTransport true [⟨4, false, false, 0, [], false⟩], [], 0⟩

/-- The cuts go through both lengths, and the last byte has not arrived. -/
theorem track_chunks_cut :
    ∃ whole left tail, [[1], []] = whole ++ left ∧
      [0, 0, 0, 1, 1, 0, 0] = whole.flatMap frame ++ tail ∧ (left = [] → tail = []) ∧
      (∀ data ∈ left.head?, tail.length < (frame data).length) ∧
      (receiveAll FecLib.unavailable (fun _ => ControlIO.still) (fun _ => []) 1 4 holderReception
          [[8, 0], [0, 0, 1], [1, 0, 0]]).1.seen = [] ++ whole.map (trackEvent 1 heldTrack) ∧
      ∃ c' s', (receiveAll FecLib.unavailable (fun _ => ControlIO.still) (fun _ => []) 1 4
          holderReception [[8, 0], [0, 0, 1], [1, 0, 0]]).1.transport.findConn 1 = some c' ∧
        c'.findStream 4 = some s' ∧ s'.ingress = tail :=
  have hshort : ∀ p ∈ [firstPublication, secondPublication], p.obj.data.length ≤ 2 ^ 32 - 5 := by
    decide
  have hfound : holderReception.transport.findConn 1 =
      some (holder [⟨4, false, false, 0, [], false⟩]) := rfl
  have hcut : [[8, 0], [0, 0, 1], [1, 0, 0]].flatten <+:
      [firstPublication, secondPublication].flatMap (·.bytes FecLib.unavailable 1 4) := by decide
  (track_chunks FecLib.unavailable opens_firstPublication appends_secondPublication hshort
    (fun _ => ControlIO.still) (fun _ => []) (fun _ _ h => absurd h List.not_mem_nil) (by decide)
    (by decide) hfound rfl (fun _ => rfl) rfl ⟨rfl, rfl, rfl⟩ hcut).2.2

end Bishlink
