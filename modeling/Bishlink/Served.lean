import Bishlink.Directions
import Bishlink.Reassembly

/-!
# What is published and what is delivered

Whether an object goes to a connection, and whether objects under an alias are handed on, are
questions about its table (`sendsTo_publishDirect`, `delivers_of_first`). So a run that keeps
the two directions of the table apart sends to the peer what it asked for, and hands on what
the application asked for (`served_as_asked`).
-/

namespace Bishlink

open ByteCodec SlotTable Runs

/-! ## Publishing -/

/-- Something among the effects is for a connection. -/
def SendsTo (o : List Effect) (ptr : ℕ) : Prop := ∃ e ∈ o, e.conn = ptr

/-- A stream object for a connection that counts as subscribed. -/
theorem publishReliableConn_ne_nil {io : PublishIO} {obj : MoqObject} {c : Conn}
    (hnamed : obj.trackId.named = true) (hstream : (io.openStream c.ptr).isSome = true)
    (hlive : c.closing = false) (hsub : isSubscribed c.subscriptions obj.trackId = true) :
    (publishReliableConn io true obj c).2 ≠ [] := by
  obtain ⟨e, he, hholds⟩ := (isSubscribed_iff hnamed).mp hsub
  obtain ⟨sid, hsid⟩ := Option.isSome_iff_exists.mp hstream
  have hgate : ¬(c.closing = true ∨ (true = true ∧
      ¬isSubscribed c.subscriptions obj.trackId = true)) := by
    rw [hlive, hsub]
    decide
  unfold publishReliableConn
  rw [if_neg hgate]
  cases hfind : c.subscriptions.entries.find? (·.holds obj.trackId.type obj.trackId.name) with
  | none =>
    have hnot := List.find?_eq_none.mp hfind e he
    exact absurd hholds hnot
  | some sub =>
    dsimp only
    split
    · exact List.cons_ne_nil _ _
    · rw [hsid]
      exact List.cons_ne_nil _ _

/-- The datagrams of an object for a connection that counts as subscribed. -/
theorem sendDatagrams_ne_nil (lib : FecLib) (io : PublishIO) (t : Transport) (obj : MoqObject)
    {c : Conn} (hlive : c.closing = false)
    (hsub : isSubscribed c.subscriptions obj.trackId = true) :
    sendDatagrams t io obj (shardObject lib io t obj).1 c ≠ [] := by
  obtain ⟨htotal, -, hpos⟩ := totalSymbols_shardObject lib io t obj
  rcases sendDatagrams_eq t io obj (shardObject lib io t obj).1 c with ⟨_, -, heq⟩ | ⟨hnot, -⟩
  · rw [heq, htotal]
    intro hnil
    rw [List.map_eq_nil_iff, List.range_eq_nil] at hnil
    omega
  · exact absurd ⟨hlive, fun _ => hsub, hsub⟩ hnot

/-- An object on a named track goes to the live connections of a server that count as
subscribed to it. -/
theorem sendsTo_publishDirect (lib : FecLib) (io : PublishIO) {t : Transport} {obj : MoqObject}
    {c : Conn} (hserver : t.isServer = true) (hc : c ∈ t.conns)
    (honly : ∀ c' ∈ t.conns, c'.ptr = c.ptr → c' = c) (hlive : c.closing = false)
    (hnamed : obj.trackId.named = true) (hstream : (io.openStream c.ptr).isSome = true) :
    SendsTo (publishDirect lib io t obj).2 c.ptr ↔
      isSubscribed c.subscriptions obj.trackId = true := by
  constructor
  · rintro ⟨e, he, hptr⟩
    obtain ⟨c', hc', hconn, hsub, -⟩ := publishDirect_effects hserver he
    rw [honly c' hc' (hconn.symm.trans hptr)] at hsub
    exact hsub
  · intro hsub
    unfold SendsTo publishDirect
    split
    · obtain ⟨e, he⟩ := List.exists_mem_of_ne_nil _
        (publishReliableConn_ne_nil hnamed hstream hlive hsub)
      refine ⟨e, ?_, (publishReliableConn_effects he).1⟩
      simp only [publishReliable, List.flatMap_map, List.mem_flatMap, hserver]
      exact ⟨c, hc, he⟩
    · obtain ⟨e, he⟩ := List.exists_mem_of_ne_nil _
        (sendDatagrams_ne_nil lib io t obj hlive hsub)
      refine ⟨e, ?_, (sendDatagrams_effects hserver he).1⟩
      simp only [publishDatagrams, List.mem_flatMap]
      exact ⟨c, hc, he⟩

/-- A flush goes to the live connections that count as subscribed to the track of the group. -/
theorem sendsTo_flushFecBuffer (lib : FecLib) (io : PublishIO) {t : Transport} {c : Conn}
    (hserver : t.isServer = true) (hc : c ∈ t.conns)
    (honly : ∀ c' ∈ t.conns, c'.ptr = c.ptr → c' = c) (hlive : c.closing = false)
    (hbuf : t.fec.buf ≠ []) (hnamed : t.fec.trackId.named = true)
    (hstream : (io.openStream c.ptr).isSome = true) :
    SendsTo (flushFecBuffer lib io t).2 c.ptr ↔
      isSubscribed c.subscriptions t.fec.trackId = true := by
  unfold flushFecBuffer
  rw [if_neg hbuf]
  have hnamed' : (groupedObject t).trackId.named = true := hnamed
  exact sendsTo_publishDirect lib io hserver hc honly hlive hnamed' hstream

/-- A packet does not join a group of another track. -/
def JoinsOwnGroup (t : Transport) (obj : MoqObject) : Prop :=
  routedToGroup t obj = true → t.fec.buf = [] ∨ t.fec.trackId.key = obj.trackId.key

/-- The track of a group that a packet joins. -/
theorem key_record (io : PublishIO) {t : Transport} {obj : MoqObject}
    (h : t.fec.buf = [] ∨ t.fec.trackId.key = obj.trackId.key) :
    (t.fec.record io obj).trackId.key = obj.trackId.key := by
  unfold FecBuffer.record
  split
  · rfl
  · next hbuf => exact h.resolve_left hbuf

theorem named_of_key {a b : MoqTrackId} (h : a.key = b.key) : a.named = b.named := by
  have hname : a.name = b.name := congrArg TrackKey.name h
  unfold MoqTrackId.named
  rw [hname]

theorem isSubscribed_of_key {a b : MoqTrackId} (h : a.key = b.key) (s : Subscriptions) :
    isSubscribed s a = isSubscribed s b := by
  have htype : a.type = b.type := congrArg TrackKey.type h
  have hname : a.name = b.name := congrArg TrackKey.name h
  unfold isSubscribed findAliasByTrack
  rw [named_of_key h, htype, hname]

/-- `transport_publish` when it sends something: the object goes to the connections that count
as subscribed to its track. -/
theorem sendsTo_transportPublish (lib : FecLib) {io : PublishIO} {t : Transport}
    {obj : MoqObject} {c : Conn} (hserver : t.isServer = true) (hc : c ∈ t.conns)
    (honly : ∀ c' ∈ t.conns, c'.ptr = c.ptr → c' = c) (hlive : c.closing = false)
    (hnamed : obj.trackId.named = true) (hown : JoinsOwnGroup t obj)
    (hstream : (io.openStream c.ptr).isSome = true)
    (hsends : (sentObjectOf t (.publish io obj)).isSome = true) :
    SendsTo (transportPublish lib io t obj).2.2 c.ptr ↔
      isSubscribed c.subscriptions obj.trackId = true := by
  unfold transportPublish
  simp only [sentObjectOf, flushedObject] at hsends
  by_cases hroute : routedToGroup t obj = true
  · rw [if_pos hroute]
    rw [if_pos hroute, if_pos hroute] at hsends
    unfold groupPacket
    dsimp only
    cases happend : (t.fec.record io obj).append io obj with
    | none =>
      rw [happend] at hsends
      exact absurd hsends Bool.false_ne_true
    | some fec =>
      simp only [happend] at hsends
      obtain ⟨hbuf, -, htrack, -⟩ := FecBuffer.append_eq_some happend
      have hkey : fec.trackId.key = obj.trackId.key := by
        rw [htrack]
        exact key_record io (hown hroute)
      have hne : fec.buf ≠ [] := by
        rw [hbuf]
        exact List.append_ne_nil_of_right_ne_nil _ (packetFrame_ne_nil obj.data)
      dsimp only
      by_cases hfull : fec.full = true
      · rw [if_pos hfull, ← isSubscribed_of_key hkey]
        exact sendsTo_flushFecBuffer lib io (t := { t with fec := fec }) hserver hc honly hlive hne
          ((named_of_key hkey).trans hnamed) hstream
      · rw [if_neg hfull] at hsends
        exact absurd hsends Bool.false_ne_true
  · rw [if_neg hroute]
    exact sendsTo_publishDirect lib io hserver hc honly hlive hnamed hstream

/-- `transport_publish` when it sends nothing: the packet waits in a group of its track, or
there was no room for it. -/
theorem waits_transportPublish (lib : FecLib) {io : PublishIO} {t : Transport}
    {obj : MoqObject} (hown : JoinsOwnGroup t obj)
    (hwaits : sentObjectOf t (.publish io obj) = none) :
    (transportPublish lib io t obj).2.2 = [] ∧
      (transportPublish lib io t obj).2.1.fec.trackId.key = obj.trackId.key := by
  unfold transportPublish
  simp only [sentObjectOf, flushedObject] at hwaits
  by_cases hroute : routedToGroup t obj = true
  · rw [if_pos hroute]
    rw [if_pos hroute, if_pos hroute] at hwaits
    have hkey := key_record io (hown hroute)
    unfold groupPacket
    dsimp only
    cases happend : (t.fec.record io obj).append io obj with
    | none => exact ⟨rfl, hkey⟩
    | some fec =>
      simp only [happend] at hwaits
      obtain ⟨-, -, htrack, -⟩ := FecBuffer.append_eq_some happend
      rw [← htrack] at hkey
      dsimp only
      by_cases hfull : fec.full = true
      · rw [if_pos hfull] at hwaits
        exact absurd hwaits (Option.some_ne_none _)
      · rw [if_neg hfull]
        exact ⟨rfl, hkey⟩
  · rw [if_neg hroute] at hwaits
    exact absurd hwaits (Option.some_ne_none _)

/-- What `transport_publish` sends to a connection, and a flush later on: what the peer
wants. -/
structure SendsWanted (lib : FecLib) (t : Transport) (ptr : ℕ) (wanted : List TrackKey) :
    Prop where
  sends : ∀ io obj, obj.trackId.named = true → JoinsOwnGroup t obj →
    (io.openStream ptr).isSome = true → (sentObjectOf t (.publish io obj)).isSome = true →
    (SendsTo (transportPublish lib io t obj).2.2 ptr ↔ obj.trackId.key ∈ wanted)
  waits : ∀ io obj, JoinsOwnGroup t obj → sentObjectOf t (.publish io obj) = none →
    (transportPublish lib io t obj).2.2 = [] ∧
      (transportPublish lib io t obj).2.1.fec.trackId.key = obj.trackId.key
  flushes : ∀ io, t.fec.buf ≠ [] → t.fec.trackId.named = true →
    (io.openStream ptr).isSome = true →
    (SendsTo (flushFecBuffer lib io t).2 ptr ↔ t.fec.trackId.key ∈ wanted)

theorem sendsWanted (lib : FecLib) {tracks : List TrackKey} {ptr : ℕ} {w : Watched}
    (hinv : WatchInv tracks ptr w) {c : Conn} (hc : c ∈ w.system.transport.conns)
    (hptr : c.ptr = ptr) (hlive : c.closing = false) :
    SendsWanted lib w.system.transport ptr w.asked.wanted := by
  have honly : ∀ c' ∈ w.system.transport.conns, c'.ptr = c.ptr → c' = c :=
    fun c' hc' heq => hinv.ptrsOk.eq_of_ptr hc' hc heq
  have hwanted : ∀ track : MoqTrackId, track.named = true →
      (isSubscribed c.subscriptions track = true ↔ track.key ∈ w.asked.wanted) := by
    intro track hnamed
    rw [isSubscribed_iff_mem_keys hnamed]
    exact (hinv.serves c hc hptr).wanted_iff track.key
  subst hptr
  refine ⟨?_, ?_, ?_⟩
  · intro io obj hnamed hown hstream hsends
    rw [← hwanted _ hnamed]
    exact sendsTo_transportPublish lib hinv.server hc honly hlive hnamed hown hstream hsends
  · intro io obj hown hwaits
    exact waits_transportPublish lib hown hwaits
  · intro io hbuf hnamed hstream
    rw [← hwanted _ hnamed]
    exact sendsTo_flushFecBuffer lib io hinv.server hc honly hlive hbuf hnamed hstream

/-! ## Delivering -/

/-- Objects under an alias are handed on as objects of a track: on a stream, in a DATA message,
and in datagrams, whose symbols go to the slots under the track. -/
structure Delivers (t : Transport) (c : Conn) (trackAlias : UInt8) (k : TrackKey) : Prop where
  stream : ∀ sid data rest, data.length < 2 ^ 32 → ∃ track, track.key = k ∧
    (trackObjectIteration t c sid trackAlias (toBE 4 data.length ++ (data ++ rest))).effects =
      [streamObjectEvent c track data true]
  message : ∀ lib io payload, ∃ track, track.key = k ∧
    (handleControlMessage lib io t c (.data trackAlias payload)).2.2 =
      [streamObjectEvent c track payload true]
  datagram : ∀ io payload, payload.getD 0 0 = trackAlias →
    (FecPacketHeader.decode payload).totalSymbols ≤ 16384 →
    (FecPacketHeader.decode payload).symbolSize ≤ 4096 →
    FecPacketHeader.size + (FecPacketHeader.decode payload).symbolSize.toNat ≤ payload.length →
    ∃ track, track.key = k ∧
      symbolOf t c io payload = some (track, FecPacketHeader.decode payload)

theorem delivers_of_first {t : Transport} {c : Conn} {trackAlias : UInt8} {k : TrackKey}
    (hauth : c.authenticated = true) (halias : 8 ≤ trackAlias)
    (hfirst : First k trackAlias c.subscriptions.views) : Delivers t c trackAlias k := by
  obtain ⟨track, hkey, hfind⟩ := findSubscriptionByAlias_of_first hfirst halias
  have hguest : ¬(t.isServer = true ∧ ¬c.authenticated = true) := fun h => h.2 hauth
  refine ⟨?_, ?_, ?_⟩
  · intro sid data rest hlen
    refine ⟨track, hkey, ?_⟩
    -- on a stream of its own: the length, and the object behind it
    have hfield : slice 0 4 (toBE 4 data.length ++ (data ++ rest)) = toBE 4 data.length := by
      simp [slice]
    have hsize : ofBE (toBE 4 data.length) = data.length := ofBE_toBE_of_lt hlen
    have hdata : slice 4 data.length (toBE 4 data.length ++ (data ++ rest)) = data := by
      simp [slice]
    have hshort : ¬(toBE 4 data.length ++ (data ++ rest)).length < 4 := by
      simp
    have hwhole : ¬(toBE 4 data.length ++ (data ++ rest)).length < 4 + data.length := by
      simp
    unfold trackObjectIteration
    rw [if_neg hshort, hfield, hsize]
    dsimp only
    rw [if_neg hwhole, if_neg hguest, hfind, hdata]
  · intro lib io payload
    refine ⟨{ track with flags := controlFlags track.flags }, hkey, ?_⟩
    simp only [handleControlMessage, hfind]
  · intro io payload halias' htotal hsize hlen
    refine ⟨track, hkey, ?_⟩
    -- in a datagram: it is not taken for telemetry, and not too short
    have hnot : ¬(trackAlias = MOQ_TRACK_TELEMETRY ∨ payload.length < FecPacketHeader.size) := by
      rintro (heq | hlt)
      · rw [heq] at halias
        exact absurd halias (by decide)
      · omega
    have hlimits : ¬(16384 < (FecPacketHeader.decode payload).totalSymbols ∨
        4096 < (FecPacketHeader.decode payload).symbolSize ∨
        payload.length <
          FecPacketHeader.size + (FecPacketHeader.decode payload).symbolSize.toNat) := by
      rintro (h | h | h)
      · exact absurd h (UInt16.not_lt.mpr htotal)
      · exact absurd h (UInt16.not_lt.mpr hsize)
      · omega
    unfold symbolOf
    rw [if_neg hguest, halias', if_neg hnot, hfind]
    dsimp only
    rw [if_neg hlimits]

/-! ## Runs -/

/-- In every run of a server that keeps the directions apart, what is published goes to a live
connection when its peer wants the track, and objects under an alias that was announced to the
peer are handed on as objects of the track it was announced for. -/
theorem served_as_asked (lib : FecLib) (ptr : ℕ) (tracks : List TrackKey)
    (hlen : tracks.length ≤ 32) (links : List SockAddr) (mtu : ℕ) (labels : List Label)
    (w : Watched) (o : List Effect)
    (htracks : Along (watchStep lib ptr) (OnTracks tracks ptr) (Watched.init links mtu) labels)
    (hapart : Along (watchStep lib ptr) (DirectionsApart ptr) (Watched.init links mtu) labels)
    (hrun : run (watchStep lib ptr) (Watched.init links mtu) labels = some (w, o))
    (c : Conn) (hc : c ∈ w.system.transport.conns) (hptr : c.ptr = ptr) :
    (c.closing = false → SendsWanted lib w.system.transport ptr w.asked.wanted) ∧
      (c.authenticated = true → ∀ x ∈ w.asked.announced,
        Delivers w.system.transport c x.2 x.1) := by
  have hinv := watchInv_run hlen htracks hapart hrun
  refine ⟨fun hlive => sendsWanted lib hinv hc hptr hlive, fun hauth x hx => ?_⟩
  obtain ⟨halias, hfirst⟩ := (hinv.serves c hc hptr).announced x hx
  exact delivers_of_first hauth halias hfirst

/-- An authenticated peer, whose SUBSCRIBE for a track comes with alias 8 if it wants the track,
and the application's call for the track. -/
def askedRun (wants : Bool) : List Label :=
  [.connect 1, .conn 1 (.openStream 0 true), .conn 1 (.respondAuth true)] ++
    (if wants then
      [.conn 1 (.receive 0 (ControlMessage.subscribe 8 (reliableTrack [97])).encode),
        .conn 1 (.iterate 0 ⟨MoqTrackId.zero, 0, fun _ => 0⟩)]
    else []) ++ [.subscribe (reliableTrack [97])]

set_option maxRecDepth 8000 in
/-- Both directions on one track. -/
theorem served_as_asked_both :
    ∃ w o, run (watchStep FecLib.unavailable 1) (Watched.init [] 1280) (askedRun true) =
        some (w, o) ∧ w.asked.wanted = [(reliableTrack [97]).key] ∧
      w.asked.announced = [((reliableTrack [97]).key, 8)] ∧
      SendsWanted FecLib.unavailable w.system.transport 1 w.asked.wanted ∧
      ∃ c ∈ w.system.transport.conns, Delivers w.system.transport c 8 (reliableTrack [97]).key := by
  have hserved := served_as_asked FecLib.unavailable 1 [(reliableTrack [97]).key] (by decide) []
    1280 (askedRun true) _ _ (by decide) (by decide) rfl _ (List.mem_singleton_self _) rfl
  exact ⟨_, _, rfl, rfl, rfl, hserved.1 rfl, _, List.mem_singleton_self _,
    hserved.2 rfl ((reliableTrack [97]).key, 8) (List.mem_singleton_self _)⟩

set_option maxRecDepth 8000 in
/-- The application's own call makes the server publish to a peer that never asked. -/
theorem published_unasked :
    ∃ w o c, run (watchStep FecLib.unavailable 1) (Watched.init [] 1280) (askedRun false) =
        some (w, o) ∧ c ∈ w.system.transport.conns ∧ c.ptr = 1 ∧ c.authenticated = true ∧
      w.asked.wanted = [] ∧
      SendsTo (transportPublish FecLib.unavailable (publishAt 0) w.system.transport
        ⟨reliableTrack [97], 0, 0, [42], true, 0⟩).2.2 1 := by
  refine ⟨_, _, _, rfl, List.mem_singleton_self _, rfl, rfl, rfl, ?_⟩
  exact ⟨.streamWrite 1 4 [8], by decide, rfl⟩

end Bishlink
