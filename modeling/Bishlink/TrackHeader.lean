import Bishlink.Control
import Bishlink.HelperFrames

/-!
# One track header, two parsers

A helper registers with the header of a track, and a SUBSCRIBE carries the same header. Both
`data_uds_tick` and `parse_control_messages` copy the name to a `char name[64]`, but only the second
one cuts it before: `track_headers_agree_iff`.
-/

namespace Bishlink

open ByteCodec ByteSource Checked DataUds Framing

/-- The header of a track as it comes over a socket, with all `name_len` bytes of the name. -/
structure TrackHeader where
  type : UInt8
  flags : UInt8
  name : Bytes
  length_name : name.length < 256

namespace TrackHeader

/-- What a helper sends first. -/
def registration (h : TrackHeader) : Bytes :=
  [h.type, h.flags, UInt8.ofNat h.name.length] ++ h.name

/-- A SUBSCRIBE message. -/
def subscribe (h : TrackHeader) (trackAlias : UInt8) : Bytes :=
  [0x01, trackAlias, h.type, h.flags, UInt8.ofNat h.name.length] ++ h.name

/-- The track of a header: the name ends at its first NUL, and after 63 bytes at the latest. -/
def trackId (h : TrackHeader) : MoqTrackId := ⟨h.type, h.flags, TrackName.ofBuffer h.name⟩

end TrackHeader

/-- What `parse_control_messages` writes to its `char name[64]`, and the string that is there. -/
def copyTrackName (input : Bytes) (nameLen : ℕ) : Except Fault TrackName := do
  let copyLen := if nameLen < 63 then nameLen else 63
  checkCopy copyLen 64
  checkIndex copyLen 64
  .ok (TrackName.ofBuffer ((slice 5 nameLen input).take copyLen))

/-! ## A header that is read -/

/-- The tick registers the track of the header, and what follows the header is the helper's
input. -/
def RegistersTrack (h : TrackHeader) (rest : Bytes) (io : UdsTickIO) (s : DataUds) : Prop :=
  ∃ s' i source, dataUdsTick io s = .ok s' ∧ udsFlow source = rest ∧
    s'.Has i ⟨s.connected.length, h.trackId, source⟩

/-- The iteration subscribes to the track of the header: it raises the event, and puts the track
into the table when there is an entry for it; its writes stay in the buffer. -/
structure SubscribesTrack (h : TrackHeader) (trackAlias : UInt8) (input : Bytes) (c : Conn)
    (r : Iteration) : Prop where
  effects : r.effects = [.event c.ptr (.subscribe h.trackId)]
  stored : (∃ e ∈ c.subscriptions.entries,
      e.active = false ∨ e.holds h.trackId.type h.trackId.name = true) →
    ∃ e ∈ r.conn.subscriptions.entries, e.active = true ∧ e.trackId = h.trackId ∧
      e.trackAlias = trackAlias
  inRange : copyTrackName input h.name.length = .ok h.trackId.name

/-! ## The name -/

theorem toNat_ofNat_length (h : TrackHeader) :
    (UInt8.ofNat h.name.length).toNat = h.name.length :=
  UInt8.toNat_ofNat_of_lt' h.length_name

/-- The bytes that are cut off before the copy are cut off anyway. -/
theorem ofBuffer_take_copyLen (name : Bytes) :
    TrackName.ofBuffer (name.take (if name.length < 63 then name.length else 63)) =
      TrackName.ofBuffer name := by
  apply TrackName.ext
  show ((name.take _).take 63).takeWhile _ = (name.take 63).takeWhile _
  split
  · rw [List.take_length]
  · rw [List.take_take, Nat.min_self]

/-! ## The helper's parser -/

/-- The registration is read field by field. A name of more than 64 bytes does not fit its
buffer. -/
theorem readRegistration_registration (h : TrackHeader) {source : UdsSource} {rest : Bytes}
    (hflow : udsFlow source = h.registration ++ rest) :
    if h.name.length ≤ UDS_NAME_SIZE then
      ∃ source', readRegistration source = .ok (some (h.trackId, source')) ∧ udsFlow source' = rest
    else readRegistration source = .error (.copy h.name.length UDS_NAME_SIZE) := by
  have hlen : (udsFlow source).length = 3 + h.name.length + rest.length := by
    rw [hflow, TrackHeader.registration, List.length_append, List.length_append]
    rfl
  -- the three header bytes, and then the name
  have hgot : (readExactTimeout source 3).got = [h.type, h.flags, UInt8.ofNat h.name.length] := by
    have htake : (readExactTimeout source 3).got = (udsFlow source).take 3 := got_readExact
    rw [htake, hflow]
    rfl
  have hcomplete : (readExactTimeout source 3).complete = true :=
    complete_readExact.mpr (show 3 ≤ (udsFlow source).length by omega)
  have hafter : udsFlow (readExactTimeout source 3).rest = h.name ++ rest := by
    have hdrop : udsFlow (readExactTimeout source 3).rest = (udsFlow source).drop 3 :=
      flow_rest_readExact (show 3 ≤ (udsFlow source).length by omega)
    rw [hdrop, hflow]
    rfl
  have hle : h.name.length ≤ (udsFlow (readExactTimeout source 3).rest).length := by
    rw [hafter, List.length_append]
    omega
  have hname : (readExactTimeout (readExactTimeout source 3).rest h.name.length).got = h.name := by
    have htake : (readExactTimeout (readExactTimeout source 3).rest h.name.length).got =
        (udsFlow (readExactTimeout source 3).rest).take h.name.length := got_readExact
    rw [htake, hafter, List.take_left]
  have hnameComplete :
      (readExactTimeout (readExactTimeout source 3).rest h.name.length).complete = true :=
    complete_readExact.mpr hle
  have hrest : udsFlow (readExactTimeout (readExactTimeout source 3).rest h.name.length).rest =
      rest := by
    have hdrop : udsFlow (readExactTimeout (readExactTimeout source 3).rest h.name.length).rest =
        (udsFlow (readExactTimeout source 3).rest).drop h.name.length := flow_rest_readExact hle
    rw [hdrop, hafter, List.drop_left]
  have hnameLen : ((readExactTimeout source 3).got.getD 2 0).toNat = h.name.length := by
    rw [hgot]
    exact toNat_ofNat_length h
  unfold readRegistration
  rw [if_pos hcomplete, hnameLen]
  dsimp only
  rw [hname]
  by_cases hfits : h.name.length ≤ UDS_NAME_SIZE
  · rw [if_pos hfits, if_neg (not_lt.mpr hfits), if_pos hnameComplete, hgot]
    rw [ofBuffer_take_copyLen]
    exact ⟨_, rfl, hrest⟩
  · rw [if_neg hfits, if_pos (not_le.mp hfits)]

/-- A tick registers the track exactly when the name fits the buffer. -/
theorem registersTrack_iff (h : TrackHeader) {source : UdsSource} {rest : Bytes} {io : UdsTickIO}
    {s : DataUds} (haccepted : io.accepted = some source)
    (hflow : udsFlow source = h.registration ++ rest) (hfree : none ∈ s.clients) :
    RegistersTrack h rest io s ↔ h.name.length ≤ UDS_NAME_SIZE := by
  have hread := readRegistration_registration h hflow
  unfold RegistersTrack dataUdsTick DataUds.listen DataUds.accept
  rw [haccepted]
  dsimp only
  by_cases hfits : h.name.length ≤ UDS_NAME_SIZE
  · rw [if_pos hfits] at hread
    obtain ⟨source', hread, hrest⟩ := hread
    refine iff_of_true ?_ hfits
    rw [hread]
    dsimp only
    cases hslot : s.clients.findIdx? (·.isNone) with
    | none =>
      have hnot := List.findIdx?_eq_none_iff.mp hslot none hfree
      exact absurd hnot (by decide)
    | some slot =>
      obtain ⟨hlt, hnone, -⟩ := List.findIdx?_eq_some_iff_getElem.mp hslot
      refine ⟨_, slot, source', rfl, hrest, ?_⟩
      have hnotPolled : slot ∉ s.polled io := by
        intro hmem
        have hactive := (List.mem_filter.mp hmem).2
        rw [List.getD_eq_getElem _ _ hlt, Option.isNone_iff_eq_none.mp hnone] at hactive
        exact absurd hactive (by simp)
      unfold DataUds.Has
      rw [clients_turns_other io hnotPolled]
      exact List.getElem?_set_self hlt
  · rw [if_neg hfits] at hread
    refine iff_of_false ?_ hfits
    rw [hread]
    rintro ⟨s', i, source', hok, -⟩
    exact absurd hok (by simp)

/-! ## The SUBSCRIBE -/

/-- The bytes of a SUBSCRIBE, whatever follows them, are parsed to the track of the header. -/
theorem parseTrackMessage_subscribe (h : TrackHeader) (trackAlias : UInt8) (more : Bytes) :
    parseTrackMessage false 0x01 (h.subscribe trackAlias ++ more) =
      .item (.subscribe trackAlias h.trackId) (5 + h.name.length) := by
  have hlen : (h.subscribe trackAlias ++ more).length = 5 + h.name.length + more.length := by
    rw [TrackHeader.subscribe, List.length_append, List.length_append]
    rfl
  have hnameLen : ((h.subscribe trackAlias ++ more).getD 4 0).toNat = h.name.length :=
    toNat_ofNat_length h
  have hname : slice 5 h.name.length (h.subscribe trackAlias ++ more) = h.name := by
    show (h.name ++ more).take h.name.length = h.name
    exact List.take_left
  unfold parseTrackMessage
  rw [if_neg (by omega), if_neg (by decide), hnameLen]
  dsimp only
  rw [if_neg (by omega), hname]
  rfl

/-- The copy of the name takes 63 bytes and a NUL at most. -/
theorem copyTrackName_subscribe (h : TrackHeader) (trackAlias : UInt8) (more : Bytes) :
    copyTrackName (h.subscribe trackAlias ++ more) h.name.length = .ok h.trackId.name := by
  have hname : slice 5 h.name.length (h.subscribe trackAlias ++ more) = h.name := by
    show (h.name ++ more).take h.name.length = h.name
    exact List.take_left
  have hlt : (if h.name.length < 63 then h.name.length else 63) < 64 := by
    split <;> omega
  have hcopy : checkCopy (if h.name.length < 63 then h.name.length else 63) 64 = .ok () :=
    checkCopy_eq_ok.mpr (le_of_lt hlt)
  have hend : checkIndex (if h.name.length < 63 then h.name.length else 63) 64 = .ok () :=
    checkIndex_eq_ok.mpr hlt
  unfold copyTrackName
  dsimp only
  rw [hcopy, hend, hname]
  show Except.ok (TrackName.ofBuffer _) = _
  rw [ofBuffer_take_copyLen]
  rfl

/-- An iteration on a SUBSCRIBE that passes the gate subscribes to the track of the header. -/
theorem subscribesTrack (h : TrackHeader) (trackAlias : UInt8) (more : Bytes) (lib : FecLib)
    (io : ControlIO) (sid : ℕ) {t : Transport} {c : Conn}
    (hgate : t.isServer = true → c.authenticated = true) :
    SubscribesTrack h trackAlias (h.subscribe trackAlias ++ more) c
      (controlIteration lib io t c sid (h.subscribe trackAlias ++ more)) := by
  have hopen : (t.isServer && !c.authenticated) = false := by
    cases hserver : t.isServer with
    | false => rfl
    | true => rw [hgate hserver]; rfl
  have hparse : parseControlMessage t.isServer c.authenticated (h.subscribe trackAlias ++ more) =
      .item (.subscribe trackAlias h.trackId) (5 + h.name.length) := by
    rw [← parseTrackMessage_subscribe h trackAlias more, ← hopen]
    rfl
  unfold controlIteration
  rw [hparse]
  exact ⟨rfl, fun hroom => exists_addSubscription hroom, copyTrackName_subscribe h trackAlias more⟩

/-! ## The agreement -/

/-- The two parsers come to the same track, within their buffers, exactly when the name has at most
64 bytes. -/
theorem track_headers_agree_iff (h : TrackHeader) (trackAlias : UInt8) {source : UdsSource}
    {rest more : Bytes} {uds : UdsTickIO} {s : DataUds} (lib : FecLib) (io : ControlIO)
    {t : Transport} {c : Conn} (sid : ℕ) (haccepted : uds.accepted = some source)
    (hflow : udsFlow source = h.registration ++ rest) (hfree : none ∈ s.clients)
    (hgate : t.isServer = true → c.authenticated = true) :
    RegistersTrack h rest uds s ∧
        SubscribesTrack h trackAlias (h.subscribe trackAlias ++ more) c
          (controlIteration lib io t c sid (h.subscribe trackAlias ++ more)) ↔
      h.name.length ≤ UDS_NAME_SIZE := by
  rw [registersTrack_iff h haccepted hflow hfree]
  exact and_iff_left (subscribesTrack h trackAlias more lib io sid hgate)

/-- A video track with a name of 6 bytes, one of them NUL. -/
def cameraHeader : TrackHeader := ⟨MOQ_TRACK_VIDEO, 1, [99, 97, 109, 0, 49, 50], by decide⟩

/-- The tick in which a helper with this header connects; its header comes in two parts. -/
def connects (h : TrackHeader) (rest : Bytes) : UdsTickIO where
  accepted := some [.bytes (h.registration.take 2), .other .interrupted,
    .bytes (h.registration.drop 2 ++ rest)]
  isReady _ := true
  arrived _ := false
  reallocOk _ := true

theorem track_headers_agree_iff_camera :
    RegistersTrack cameraHeader [1] (connects cameraHeader [1]) DataUds.create ∧
        SubscribesTrack cameraHeader 8 (cameraHeader.subscribe 8 ++ []) (Conn.zero 1)
          (controlIteration FecLib.unavailable ControlIO.still (Transport.init false [] 1280)
            (Conn.zero 1) 0 (cameraHeader.subscribe 8 ++ [])) ↔
      cameraHeader.name.length ≤ UDS_NAME_SIZE :=
  track_headers_agree_iff cameraHeader 8 FecLib.unavailable ControlIO.still 0 rfl rfl (by decide)
    (fun h => absurd h (by decide))

/-- A video track with a name of 65 bytes. -/
def longNameHeader : TrackHeader := ⟨MOQ_TRACK_VIDEO, 1, List.replicate 65 97, by decide⟩

/-- A name of 65 bytes comes completely and finds a free slot, but the tick writes it past its
buffer. -/
theorem not_registersTrack_long :
    (∃ source, (connects longNameHeader []).accepted = some source ∧
      udsFlow source = longNameHeader.registration) ∧ none ∈ DataUds.create.clients ∧
      dataUdsTick (connects longNameHeader []) DataUds.create = .error (.copy 65 UDS_NAME_SIZE) ∧
      ¬RegistersTrack longNameHeader [] (connects longNameHeader []) DataUds.create := by
  have hfault : dataUdsTick (connects longNameHeader []) DataUds.create =
      .error (.copy 65 UDS_NAME_SIZE) := rfl
  refine ⟨⟨_, rfl, rfl⟩, by decide, hfault, ?_⟩
  rintro ⟨s', i, source, hok, -⟩
  rw [hfault] at hok
  exact absurd hok (by simp)

end Bishlink
