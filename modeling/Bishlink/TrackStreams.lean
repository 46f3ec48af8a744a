import Bishlink.Directions
import Bishlink.Lib.Framing

/-!
# Streams of a reliable track

What a publish writes to the stream of a track, and what the other end makes of the bytes: an
alias and then the objects, each behind its length.

* `frame_exact`: the receive loop finds exactly the frames;
* `publishReliable_spec`: what a publish does to a connection, and the bytes it writes;
* `trackIteration_spec`: an iteration of the receive loop.
-/

namespace Bishlink

open ByteCodec Framing FirstMatch SlotTable

/-! ## Frames -/

/-- An object as it stands on a stream. -/
def frame (data : Bytes) : Bytes := toBE 4 data.length ++ data

/-- What an iteration finds behind the header, but for objects whose frames have a length that
does not fit four bytes itself: those are not shifted out of the input. -/
def parseTrackObject (input : Bytes) : Parsed Bytes Unit :=
  if input.length < 4 then .more
  else if input.length < 4 + ofBE (slice 0 4 input) ∨ 2 ^ 32 ≤ 4 + ofBE (slice 0 4 input) then .more
  else .item (slice 4 (ofBE (slice 0 4 input)) input) (4 + ofBE (slice 0 4 input))

theorem length_frame (data : Bytes) : (frame data).length = 4 + data.length := by
  rw [frame, List.length_append, length_toBE]

theorem parseTrackObject_frame {data : Bytes} (h : 4 + data.length < 2 ^ 32) (rest : Bytes) :
    parseTrackObject (frame data ++ rest) = .item data (frame data).length := by
  have hfield : slice 0 4 (frame data ++ rest) = toBE 4 data.length := by
    simp [slice, frame]
  have hsize : ofBE (toBE 4 data.length) = data.length := ofBE_toBE_of_lt (by omega)
  have hdata : slice 4 data.length (frame data ++ rest) = data := by
    simp [slice, frame]
  unfold parseTrackObject
  rw [hfield, hsize, hdata, List.length_append, length_frame, if_neg (by omega), if_neg (by omega)]

/-- The loop finds an object exactly where its frame stands. -/
theorem frame_exact : Exact parseTrackObject frame fun data => 4 + data.length < 2 ^ 32 := by
  refine ⟨?_, ?_, ?_⟩
  · intro bs data n
    constructor
    · intro h
      unfold parseTrackObject at h
      split at h
      · exact absurd h (by simp)
      split at h
      · exact absurd h (by simp)
      · next hshort hlen =>
        rw [Parsed.item.injEq] at h
        obtain ⟨rfl, rfl⟩ := h
        -- the length field can be written back, and the object is what follows it
        have hfour : (slice 0 4 bs).length = 4 := by
          rw [length_slice]
          omega
        have hdata : (slice 4 (ofBE (slice 0 4 bs)) bs).length = ofBE (slice 0 4 bs) := by
          rw [length_slice]
          omega
        refine ⟨?_, ?_, ?_⟩
        · rw [hdata]
          omega
        · have hfield : toBE 4 (ofBE (slice 0 4 bs)) = slice 0 4 bs := by
            have hback := toBE_ofBE (slice 0 4 bs)
            rwa [hfour] at hback
          unfold frame
          rw [hdata, hfield]
          unfold slice
          rw [List.drop_zero, ← List.take_add]
          exact List.take_prefix _ _
        · rw [length_frame, hdata]
    · rintro ⟨hlen, ⟨rest, rfl⟩, rfl⟩
      exact parseTrackObject_frame hlen rest
  · intro data hnil
    have hlen := congrArg List.length hnil
    rw [length_frame, List.length_nil] at hlen
    omega
  · intro bs r h
    unfold parseTrackObject at h
    split at h
    · exact absurd h (by simp)
    split at h
    · exact absurd h (by simp)
    · exact absurd h (by simp)

/-! ## The entry of a track -/

/-- The stream in the entry of a track. -/
def Conn.trackStream (c : Conn) (track : MoqTrackId) : Option ℕ :=
  (c.subscriptions.entries.find? (·.holds track.type track.name)).bind (·.stream)

/-- A live and authenticated connection whose table holds the track, under an alias that stands
for it. -/
structure HoldsTrack (track : MoqTrackId) (trackAlias : UInt8) (c : Conn) : Prop where
  live : c.closing = false
  authenticated : c.authenticated = true
  entry : c.subscriptions.views.find? (hasKey track.key) = some (some (track.key, trackAlias))
  first : First track.key trackAlias c.subscriptions.views

theorem HoldsTrack.of_same {track : MoqTrackId} {trackAlias : UInt8} {c c' : Conn}
    (h : HoldsTrack track trackAlias c) (hclosing : c'.closing = c.closing)
    (hauth : c'.authenticated = c.authenticated)
    (hviews : c'.subscriptions.views = c.subscriptions.views) :
    HoldsTrack track trackAlias c' := by
  refine ⟨hclosing.trans h.live, hauth.trans h.authenticated, ?_, ?_⟩
  · rw [hviews]
    exact h.entry
  · rw [hviews]
    exact h.first

/-- The lookups by track and by alias agree. -/
theorem holdsTrack_of_lookups {track : MoqTrackId} {trackAlias : UInt8} {c : Conn}
    (hnamed : track.named = true) (hlive : c.closing = false) (hauth : c.authenticated = true)
    (halias : findAliasByTrack c.subscriptions track = some trackAlias)
    (htrack : (findSubscriptionByAlias c.subscriptions trackAlias MoqTrackId.zero).map
      MoqTrackId.key = some track.key) :
    8 ≤ trackAlias ∧ HoldsTrack track trackAlias c := by
  obtain ⟨hle, hfirst⟩ := first_of_findSubscriptionByAlias hnamed htrack
  refine ⟨hle, hlive, hauth, ?_, hfirst⟩
  rw [findAliasByTrack, if_pos hnamed] at halias
  obtain ⟨sub, hsub, rfl⟩ := Option.map_eq_some_iff.mp halias
  obtain ⟨hactive, htype, hname⟩ := TrackSubscription.holds_iff.mp
    (List.find?_some (p := TrackSubscription.holds track.type track.name) hsub)
  have hmap : c.subscriptions.views.find? (hasKey track.key) =
      (c.subscriptions.entries.find? (·.holds track.type track.name)).map (·.view) := by
    rw [Subscriptions.views, List.find?_map]
    congr 2
    funext e
    exact hasKey_view e track.key
  have hkey : sub.trackId.key = track.key := by
    rw [MoqTrackId.key, MoqTrackId.key, htype, hname]
  rw [hmap, hsub, Option.map_some, view_eq_some.mpr ⟨hactive, hkey, rfl⟩]

/-- The entry of the track. -/
theorem HoldsTrack.exists_entry {track : MoqTrackId} {trackAlias : UInt8} {c : Conn}
    (h : HoldsTrack track trackAlias c) :
    ∃ sub, c.subscriptions.entries.find? (·.holds track.type track.name) = some sub ∧
      sub.trackAlias = trackAlias ∧ c.trackStream track = sub.stream := by
  have hfind : (c.subscriptions.entries.find? (·.holds track.type track.name)).map (·.view) =
      some (some (track.key, trackAlias)) := by
    rw [← h.entry, Subscriptions.views, List.find?_map]
    congr 2
    funext e
    exact (hasKey_view e track.key).symm
  obtain ⟨sub, hsub, hview⟩ := Option.map_eq_some_iff.mp hfind
  refine ⟨sub, hsub, (view_eq_some.mp hview).2.2, ?_⟩
  rw [Conn.trackStream, hsub, Option.bind_some]

/-- The header of a stream changes the stream of the track's entry at most. -/
theorem trackStream_mapStream (c : Conn) (track : MoqTrackId) (trackAlias : UInt8) (sid : ℕ) :
    Conn.trackStream { c with subscriptions := mapStream c.subscriptions trackAlias sid } track =
        c.trackStream track ∨
      Conn.trackStream { c with subscriptions := mapStream c.subscriptions trackAlias sid } track =
        some sid := by
  unfold Conn.trackStream mapStream Subscriptions.update
  dsimp only
  have hholds : ∀ e : TrackSubscription, e.hasAlias trackAlias = true →
      TrackSubscription.holds track.type track.name { e with stream := some sid } =
        e.holds track.type track.name := fun _ _ => rfl
  rcases find?_updateFirst_of_iff hholds c.subscriptions.entries with hsame | ⟨e, -, -, -, hnew⟩
  · rw [hsame]
    exact Or.inl rfl
  · rw [hnew]
    exact Or.inr rfl

/-! ## Opening streams -/

theorem findStream_onStreamOpen {c : Conn} {sid : ℕ} (h : c.findStream sid = none)
    (sendOpen : Bool) :
    (onStreamOpen c sid sendOpen).findStream sid =
      some ⟨sid, decide (sid = 0), false, 0, [], sendOpen⟩ := by
  unfold Conn.findStream at h
  unfold onStreamOpen Conn.findStream
  dsimp only
  rw [List.find?_append, h, Option.none_or, List.find?_singleton, if_pos (beq_self_eq_true sid)]

theorem findStream_onStreamOpen_of_ne {c : Conn} {sid sid' : ℕ} (hne : sid' ≠ sid)
    (sendOpen : Bool) : (onStreamOpen c sid sendOpen).findStream sid' = c.findStream sid' := by
  unfold onStreamOpen Conn.findStream
  dsimp only
  have hnot : ¬(sid == sid') = true := fun heq => hne (beq_iff_eq.mp heq).symm
  rw [List.find?_append, List.find?_singleton, if_neg hnot, Option.or_none]

/-! ## Publishing -/

/-- The connection after a publish opened stream `sid` for the track. -/
def Conn.openTrack (c : Conn) (track : MoqTrackId) (sid : ℕ) : Conn :=
  onStreamOpen
    { c with
      subscriptions := c.subscriptions.update (·.holds track.type track.name)
        (fun e => { e with stream := some sid }) } sid true

theorem HoldsTrack.openTrack {track : MoqTrackId} {trackAlias : UInt8} {c : Conn}
    (h : HoldsTrack track trackAlias c) (sid : ℕ) :
    HoldsTrack track trackAlias (c.openTrack track sid) ∧
      (c.openTrack track sid).trackStream track = some sid := by
  obtain ⟨sub, hsub, -⟩ := h.exists_entry
  refine ⟨h.of_same rfl rfl (views_of_mappings (mappings_update_stream _ _ _)), ?_⟩
  unfold Conn.trackStream
  show ((updateFirst _ _ c.subscriptions.entries).find? _).bind _ = _
  rw [find?_updateFirst_self (fun e he => by exact he), hsub]
  rfl

theorem findStream_openTrack {c : Conn} (track : MoqTrackId) {sid : ℕ}
    (h : c.findStream sid = none) :
    (c.openTrack track sid).findStream sid = some ⟨sid, decide (sid = 0), false, 0, [], true⟩ ∧
      ∀ sid', sid' ≠ sid → (c.openTrack track sid).findStream sid' = c.findStream sid' :=
  ⟨findStream_onStreamOpen h true, fun _ hne => findStream_onStreamOpen_of_ne hne true⟩

/-- What a publish does to a connection that holds the track: it writes to the stream of the
entry when that can be written to, else it opens one and writes the alias first. -/
theorem publishReliableConn_spec {io : PublishIO} (isServer : Bool) {obj : MoqObject}
    {track : MoqTrackId} {trackAlias : UInt8} {c : Conn} {sid : ℕ}
    (h : HoldsTrack track trackAlias c) (hnamed : track.named = true)
    (hkey : obj.trackId.key = track.key) (hopens : io.openStream c.ptr = some sid) :
    (∃ old, c.trackStream track = some old ∧ c.sendOpen (some old) = true ∧
        publishReliableConn io isServer obj c = (c, writeObject c old obj.data)) ∨
      (c.sendOpen (c.trackStream track) = false ∧
        publishReliableConn io isServer obj c = (c.openTrack track sid,
          .streamWrite c.ptr sid [trackAlias] :: writeObject c sid obj.data)) := by
  obtain ⟨sub, hsub, halias, hstream⟩ := h.exists_entry
  have htype : obj.trackId.type = track.type := congrArg TrackKey.type hkey
  have hname : obj.trackId.name = track.name := congrArg TrackKey.name hkey
  have hsubscribed : isSubscribed c.subscriptions obj.trackId = true := by
    rw [isSubscribed_iff (by rw [MoqTrackId.named, hname]; exact hnamed), htype, hname]
    exact ⟨sub, List.mem_of_find?_eq_some hsub, List.find?_some hsub⟩
  have hgate : ¬(c.closing = true ∨ (isServer = true ∧
      ¬isSubscribed c.subscriptions obj.trackId = true)) := by
    rw [h.live, hsubscribed]
    simp
  unfold publishReliableConn
  rw [if_neg hgate, htype, hname, hsub]
  dsimp only
  rw [hstream]
  cases hsend : c.sendOpen sub.stream with
  | true =>
    left
    cases hs : sub.stream with
    | none =>
      rw [hs] at hsend
      exact absurd hsend Bool.false_ne_true
    | some old =>
      rw [hs] at hsend
      exact ⟨old, rfl, hsend, rfl⟩
  | false =>
    right
    refine ⟨rfl, ?_⟩
    rw [hopens, ← halias]
    cases sub.stream <;> rfl

/-- The bytes that effects write to a stream of a connection. -/
def written (ptr sid : ℕ) (o : List Effect) : Bytes :=
  o.flatMap fun e =>
    match e with
    | .streamWrite c s bytes => if c = ptr ∧ s = sid then bytes else []
    | _ => []

theorem written_append (ptr sid : ℕ) (o o' : List Effect) :
    written ptr sid (o ++ o') = written ptr sid o ++ written ptr sid o' :=
  List.flatMap_append

theorem written_of_ne {ptr : ℕ} (sid : ℕ) {o : List Effect} (h : ∀ e ∈ o, e.conn ≠ ptr) :
    written ptr sid o = [] := by
  refine List.flatMap_eq_nil_iff.mpr fun e he => ?_
  cases e with
  | streamWrite c s bytes =>
    refine if_neg fun heq => ?_
    exact h _ he heq.1
  | _ => rfl

theorem written_writeObject (c : Conn) (sid sid' : ℕ) (data : Bytes) :
    written c.ptr sid' (writeObject c sid data) = if sid' = sid then frame data else [] := by
  by_cases h : sid' = sid
  · subst h
    simp [written, writeObject, frame]
  · have hne : ¬sid = sid' := fun heq => h heq.symm
    simp [written, writeObject, h, hne]

/-- All that a publish does to a connection outside of it is for that connection. -/
theorem publishReliableConn_conn {io : PublishIO} {isServer : Bool} {obj : MoqObject} {c : Conn} :
    ∀ e ∈ (publishReliableConn io isServer obj c).2, e.conn = c.ptr := by
  intro e he
  unfold publishReliableConn at he
  split at he
  · exact absurd he List.not_mem_nil
  split at he
  · unfold transportSendUnicast Conn.writeControl at he
    split at he
    · split at he
      · exact absurd he (by simp)
      · simp only [List.mem_append, List.mem_singleton] at he
        rcases he with rfl | rfl <;> rfl
    · exact absurd he List.not_mem_nil
  dsimp only at he
  split at he
  · simp only [writeObject, List.mem_cons, List.not_mem_nil, or_false] at he
    rcases he with rfl | rfl <;> rfl
  split at he
  · exact absurd he List.not_mem_nil
  · simp only [writeObject, List.mem_cons, List.not_mem_nil, or_false] at he
    rcases he with rfl | rfl | rfl <;> rfl

/-- What several connections write, as seen by one of them. -/
theorem written_flatMap {ptr : ℕ} (sid : ℕ) {conns : List Conn} {c : Conn}
    {E : Conn → List Effect} (hE : ∀ c ∈ conns, ∀ e ∈ E c, e.conn = c.ptr)
    (hnodup : (conns.map (·.ptr)).Nodup) (hc : c ∈ conns) (hptr : c.ptr = ptr) :
    written ptr sid (conns.flatMap E) = written ptr sid (E c) := by
  induction conns with
  | nil => exact absurd hc List.not_mem_nil
  | cons b bs ih =>
    rw [List.map_cons, List.nodup_cons] at hnodup
    rw [List.flatMap_cons, written_append]
    have hrest := fun c hc => hE c (List.mem_cons_of_mem b hc)
    rcases List.mem_cons.mp hc with rfl | hc
    · have hnil : written ptr sid (bs.flatMap E) = [] := by
        refine written_of_ne sid fun e he heq => ?_
        obtain ⟨b', hb', hmem⟩ := List.mem_flatMap.mp he
        refine hnodup.1 (List.mem_map.mpr ⟨b', hb', ?_⟩)
        rw [← hrest b' hb' e hmem, heq, hptr]
      rw [hnil, List.append_nil]
    · have hnil : written ptr sid (E b) = [] := by
        refine written_of_ne sid fun e he heq => ?_
        refine hnodup.1 (List.mem_map.mpr ⟨c, hc, ?_⟩)
        rw [← hE b List.mem_cons_self e he, heq, hptr]
      rw [hnil, ih hrest hnodup.2 hc, List.nil_append]

/-- What `transport_publish` does to a connection of the transport. -/
theorem publishReliable_spec (io : PublishIO) {t : Transport} (obj : MoqObject) {ptr : ℕ}
    {c : Conn} (hnodup : t.ptrs.Nodup) (hfind : t.findConn ptr = some c) :
    (publishReliable io t obj).1.findConn ptr =
        some (publishReliableConn io t.isServer obj c).1 ∧
      ∀ sid, written ptr sid (publishReliable io t obj).2 =
        written ptr sid (publishReliableConn io t.isServer obj c).2 := by
  obtain ⟨hmem, hptr⟩ := Transport.findConn_eq_some hfind
  unfold publishReliable
  dsimp only
  constructor
  · unfold Transport.findConn at hfind ⊢
    dsimp only
    rw [List.map_map, List.find?_map]
    have hsame : ((fun x : Conn => x.ptr == ptr) ∘ Prod.fst ∘
        publishReliableConn io t.isServer obj) = fun x => x.ptr == ptr := by
      funext x
      show ((publishReliableConn io t.isServer obj x).1.ptr == ptr) = _
      rw [(publishReliableConn_same io t.isServer obj x).ptr]
    rw [hsame, hfind]
    rfl
  · intro sid
    rw [List.flatMap_map]
    exact written_flatMap sid (fun c _ => publishReliableConn_conn) hnodup hmem hptr

/-! ## Receiving -/

/-- The length at the start of what has arrived of some frames. -/
theorem length_field_lt {pending : List Bytes} {got rest : Bytes}
    (hshort : ∀ data ∈ pending, 4 + data.length < 2 ^ 32)
    (heq : got ++ rest = pending.flatMap frame) (hfour : 4 ≤ got.length) :
    4 + ofBE (slice 0 4 got) < 2 ^ 32 := by
  cases pending with
  | nil =>
    rw [List.flatMap_nil, List.append_eq_nil_iff] at heq
    rw [heq.1, List.length_nil] at hfour
    omega
  | cons data left =>
    have hlt := hshort data List.mem_cons_self
    have hfield : slice 0 4 got = toBE 4 data.length := by
      rw [← slice_append_left rest (by omega), heq, List.flatMap_cons]
      simp [slice, frame]
    rw [hfield, ofBE_toBE_of_lt (by omega)]
    exact hlt

/-- Too little of an object. -/
theorem trackObjectIteration_more {t : Transport} {c : Conn} {sid : ℕ} {trackAlias : UInt8}
    {input : Bytes} (hfield : 4 ≤ input.length → 4 + ofBE (slice 0 4 input) < 2 ^ 32)
    (h : parseTrackObject input = .more) :
    trackObjectIteration t c sid trackAlias input = ⟨t, c, [], false⟩ := by
  unfold parseTrackObject at h
  unfold trackObjectIteration
  split at h
  · next hshort => rw [if_pos hshort]
  · next hshort =>
    rw [if_neg hshort]
    split at h
    · next hlen =>
      have hfits := hfield (by omega)
      dsimp only
      rw [if_pos (by omega)]
    · exact absurd h (by simp)

/-- A whole object. -/
theorem trackObjectIteration_item {t : Transport} {c : Conn} {sid : ℕ} {trackAlias : UInt8}
    {input data : Bytes} {n : ℕ} {track : MoqTrackId}
    (hguest : ¬(t.isServer = true ∧ ¬c.authenticated = true))
    (hfind : findSubscriptionByAlias c.subscriptions trackAlias MoqTrackId.zero = some track)
    (h : parseTrackObject input = .item data n) :
    trackObjectIteration t c sid trackAlias input =
      ⟨t, c.shift sid n, [streamObjectEvent c track data true], true⟩ := by
  unfold parseTrackObject at h
  unfold trackObjectIteration
  split at h
  · exact absurd h (by simp)
  split at h
  · exact absurd h (by simp)
  · next hshort hlen =>
    rw [Parsed.item.injEq] at h
    obtain ⟨rfl, rfl⟩ := h
    rw [if_neg hshort]
    dsimp only
    rw [if_neg (by omega), if_neg hguest, hfind, Nat.mod_eq_of_lt (by omega)]

/-- The objects of a track among effects. -/
def trackObjects (track : MoqTrackId) (o : List Effect) : List Bytes :=
  o.filterMap fun e =>
    match e with
    | .event _ (.object t obj) => if t.key = track.key then some obj.data else none
    | _ => none

/-- A stream that the peer opened for the track, on which `rest` is still to arrive: its bytes
are the header, unless it was read, and the objects `pending`. -/
structure Owes (trackAlias : UInt8) (s : Stream) (rest : Bytes) (pending : List Bytes) :
    Prop where
  track : s.isControl = false
  closed : s.sendOpen = false
  short : ∀ data ∈ pending, 4 + data.length < 2 ^ 32
  bytes : s.ingress ++ rest =
    (if s.headerReceived then [] else [trackAlias]) ++ pending.flatMap frame
  read : s.headerReceived = true → s.trackAlias = trackAlias
  unread : s.headerReceived = false → pending ≠ []

/-- What an iteration on such a stream leads to: it hands on the first objects, and the stream
owes the others. -/
structure Takes (track : MoqTrackId) (trackAlias : UInt8) (t : Transport) (c : Conn) (sid : ℕ)
    (rest : Bytes) (pending taken left : List Bytes) (r : Iteration) : Prop where
  transport_eq : r.transport = t
  objects_eq : trackObjects track r.effects = taken
  split : pending = taken ++ left
  owes : ∃ s, r.conn.findStream sid = some s ∧ Owes trackAlias s rest left
  others : ∀ sid', sid' ≠ sid → r.conn.findStream sid' = c.findStream sid'
  holds : HoldsTrack track trackAlias r.conn
  ptr_eq : r.conn.ptr = c.ptr
  trackStream : r.conn.trackStream track = c.trackStream track ∨
    r.conn.trackStream track = some sid
  goesOn : rest = [] → pending ≠ [] → r.goesOn = true

/-- An iteration once the header was read. -/
theorem takes_object {track : MoqTrackId} {trackAlias : UInt8} (t : Transport) {c : Conn}
    {s : Stream} {rest : Bytes} {pending : List Bytes} (halias : 8 ≤ trackAlias)
    (hc : HoldsTrack track trackAlias c) (hs : c.findStream s.id = some s)
    (howes : Owes trackAlias s rest pending) (hread : s.headerReceived = true) :
    ∃ taken left, Takes track trackAlias t c s.id rest pending taken left
      (trackObjectIteration t c s.id trackAlias s.ingress) := by
  have hbytes := howes.bytes
  rw [hread, if_pos rfl, List.nil_append] at hbytes
  rcases frame_exact.arrived howes.short hbytes with
    ⟨data, left, got, rfl, hgot, hleft, hitem⟩ | ⟨hmore, hrest⟩
  · obtain ⟨track', hkey, hfind⟩ := findSubscriptionByAlias_of_first hc.first halias
    have hguest : ¬(t.isServer = true ∧ ¬c.authenticated = true) := fun h => h.2 hc.authenticated
    rw [trackObjectIteration_item hguest (hfind _) hitem]
    have hid : ∀ s : Stream, ({ s with ingress := s.ingress.drop (frame data).length }).id = s.id :=
      fun _ => rfl
    refine ⟨[data], left, rfl, ?_, rfl, ?_, ?_, ?_, rfl, Or.inl rfl, fun _ _ => rfl⟩
    · show [streamObjectEvent c track' data true].filterMap _ = [data]
      rw [List.filterMap_cons, List.filterMap_nil]
      simp only [streamObjectEvent, if_pos hkey]
    · refine ⟨{ s with ingress := s.ingress.drop (frame data).length }, ?_, ?_⟩
      · show (c.updateStream s.id _).findStream s.id = _
        rw [Conn.findStream_updateStream hid, hs, Option.map_some]
      · refine ⟨howes.track, howes.closed, ?_, ?_, howes.read, ?_⟩
        · exact fun x hx => howes.short x (List.mem_cons_of_mem data hx)
        · show s.ingress.drop (frame data).length ++ rest =
            (if s.headerReceived then [] else [trackAlias]) ++ left.flatMap frame
          rw [hread, if_pos rfl, List.nil_append, hgot, List.drop_left]
          exact hleft
        · intro hunread
          exact absurd (hread.symm.trans hunread) (by decide)
    · intro sid' hne
      exact Conn.findStream_updateStream_of_ne hid hne
    · exact hc.of_same rfl rfl rfl
  · rw [trackObjectIteration_more (length_field_lt howes.short hbytes) hmore]
    refine ⟨[], pending, rfl, rfl, rfl, ⟨s, hs, howes⟩, fun _ _ => rfl, hc, rfl, Or.inl rfl, ?_⟩
    intro hnil hne
    exact absurd hnil (hrest hne)

/-- The connection and the stream after the header was read. -/
theorem receiveStreamHeader_spec {track : MoqTrackId} {trackAlias : UInt8} {c : Conn}
    {s : Stream} {b : UInt8} {input rest : Bytes} {pending : List Bytes}
    (hc : HoldsTrack track trackAlias c) (hs : c.findStream s.id = some s)
    (howes : Owes trackAlias s rest pending) (hunread : s.headerReceived = false)
    (hinput : s.ingress = b :: input) :
    b = trackAlias ∧ ∃ s₁ : Stream, s₁.id = s.id ∧ s₁.ingress = input ∧
      s₁.headerReceived = true ∧ (receiveStreamHeader c s.id b).findStream s.id = some s₁ ∧
      Owes trackAlias s₁ rest pending ∧
      HoldsTrack track trackAlias (receiveStreamHeader c s.id b) := by
  have hbytes := howes.bytes
  rw [hunread, hinput, if_neg (by decide), List.cons_append, List.singleton_append,
    List.cons.injEq] at hbytes
  obtain ⟨rfl, hframes⟩ := hbytes
  have hid : ∀ s : Stream, ({ s with
      trackAlias := b, headerReceived := true, ingress := s.ingress.drop 1 }).id = s.id :=
    fun _ => rfl
  refine ⟨rfl, { s with trackAlias := b, headerReceived := true, ingress := s.ingress.drop 1 }, rfl,
    ?_, rfl, ?_, ?_, ?_⟩
  · rw [hinput]
    rfl
  · show (c.updateStream s.id _).findStream s.id = _
    rw [Conn.findStream_updateStream hid, hs, Option.map_some]
  · refine ⟨howes.track, howes.closed, howes.short, ?_, fun _ => rfl, ?_⟩
    · show s.ingress.drop 1 ++ rest = [] ++ pending.flatMap frame
      rw [hinput]
      exact hframes
    · intro hread
      exact Bool.noConfusion hread
  · exact hc.of_same rfl rfl (views_of_mappings (mappings_update_stream _ _ _))

/-- An iteration of the receive loop on a stream that the peer opened for the track. -/
theorem trackIteration_spec {track : MoqTrackId} {trackAlias : UInt8} (t : Transport) {c : Conn}
    {s : Stream} {rest : Bytes} {pending : List Bytes} (halias : 8 ≤ trackAlias)
    (hc : HoldsTrack track trackAlias c) (hs : c.findStream s.id = some s)
    (howes : Owes trackAlias s rest pending) :
    ∃ taken left, Takes track trackAlias t c s.id rest pending taken left
      (trackIteration t c s) := by
  cases hinput : s.ingress with
  | nil =>
    have hstop : trackIteration t c s = ⟨t, c, [], false⟩ := by
      unfold trackIteration
      rw [hinput]
    rw [hstop]
    refine ⟨[], pending, rfl, rfl, rfl, ⟨s, hs, howes⟩, fun _ _ => rfl, hc, rfl, Or.inl rfl, ?_⟩
    -- a stream that owes objects has bytes, or more are to come
    intro hnil hne
    have hbytes := howes.bytes
    rw [hinput, hnil, List.append_nil, eq_comm, List.append_eq_nil_iff] at hbytes
    cases pending with
    | nil => exact absurd rfl hne
    | cons data left =>
      rw [List.flatMap_cons, List.append_eq_nil_iff] at hbytes
      exact absurd hbytes.2.1 (frame_exact.encode_ne_nil data)
  | cons b input =>
    by_cases hread : s.headerReceived = true
    · have hiter : trackIteration t c s = trackObjectIteration t c s.id trackAlias s.ingress := by
        unfold trackIteration
        rw [hinput]
        dsimp only
        rw [if_pos hread, howes.read hread]
      rw [hiter]
      exact takes_object t halias hc hs howes hread
    · rw [Bool.not_eq_true] at hread
      -- the first byte names the track, and the objects follow in the same iteration
      obtain ⟨rfl, s₁, hid, hingress, hread₁, hs₁, howes₁, hc₁⟩ :=
        receiveStreamHeader_spec hc hs howes hread hinput
      have hiter : trackIteration t c s =
          trackObjectIteration t (receiveStreamHeader c s.id b) s₁.id b s₁.ingress := by
        unfold trackIteration
        rw [hinput]
        dsimp only
        rw [if_neg (by rw [hread]; decide), hid, hingress]
      have hid' : ∀ s : Stream, ({ s with
          trackAlias := b, headerReceived := true, ingress := s.ingress.drop 1 }).id = s.id :=
        fun _ => rfl
      obtain ⟨taken, left, htakes⟩ := takes_object (s := s₁) t halias hc₁ (by rw [hid]; exact hs₁)
        howes₁ hread₁
      rw [hid] at htakes
      rw [hiter, hid]
      refine ⟨taken, left, htakes.transport_eq, htakes.objects_eq, htakes.split, htakes.owes, ?_,
        htakes.holds, htakes.ptr_eq, ?_, htakes.goesOn⟩
      · intro sid' hne
        rw [htakes.others sid' hne]
        exact Conn.findStream_updateStream_of_ne hid' hne
      · rcases htakes.trackStream with hsame | hnew
        · rw [hsame]
          exact trackStream_mapStream (c.updateStream s.id _) track b s.id
        · exact Or.inr hnew

end Bishlink
