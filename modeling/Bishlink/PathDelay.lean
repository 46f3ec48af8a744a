import Bishlink.Lengths
import Bishlink.OneWayDelay
import Bishlink.Sockets
import Bishlink.System

/-!
# Whose delay a link is charged with

A published symbol carries the QUIC path id of its link. The peer's telemetry brings the id back,
and the delay goes to `latest_owd_fp[path_id]`; `transport_tick` and `transport_get_path_stats` read
`latest_owd_fp[i]` for link `i`. `credited_iff_numbered` says for which runs every delay is read for
the link it was measured on.
-/

namespace Bishlink

open Runs

/-! ## Symbols and their telemetry -/

/-- A datagram that was handed to `quicly_send_datagram_frames_path`. -/
structure SentDatagram where
  conn : ℕ
  path : ℕ
  bytes : Bytes

/-- The datagrams among the effects of a step. -/
def datagramsOf (o : List Effect) : List SentDatagram :=
  o.filterMap fun
    | .datagram conn path bytes => some ⟨conn, path, bytes⟩
    | _ => none

/-- The telemetry that the peer sends when it gets the datagram. -/
def SentDatagram.answer (d : SentDatagram) (peer : ReceiveIO) : TelemetryDatagram :=
  telemetryReply peer (FecPacketHeader.decode d.bytes)

/-- A transport and the symbols it sent. -/
structure OwdState where
  transport : Transport
  sent : List SentDatagram

/-- An object is published, the group is flushed by a tick, or the telemetry for the `k`-th symbol
comes in. -/
inductive OwdLabel where
  | publish (io : PublishIO) (obj : MoqObject)
  | tick (io : PublishIO)
  | reply (k : ℕ) (peer io : ReceiveIO)

/-- A sample that was stored: its entry in `latest_owd_fp`, and the symbol it is about. -/
structure Credit where
  entry : ℕ
  sample : TelemetryDatagram
  symbol : SentDatagram

/-- The entry that telemetry on a connection is stored in. -/
def owdEntry (t : Transport) (c : Conn) (d : TelemetryDatagram) : Option ℕ :=
  if t.isServer ∧ ¬c.authenticated then none
  else if d.pathId.toNat < TRANSPORT_MAX_PATHS then some d.pathId.toNat
  else none

/-- One step, with the samples it stores. `stats` are the local addresses that
`quicly_get_path_stats` reports for the paths of each connection. -/
def owdStep (lib : FecLib) (stats : ℕ → ℕ → Option SockAddr) (s : OwdState) :
    OwdLabel → Option (OwdState × List Credit)
  | .publish io obj =>
    let r := (transportPublish lib { io with pathStats := stats } s.transport obj).2
    some (⟨r.1, s.sent ++ datagramsOf r.2⟩, [])
  | .tick io =>
    let r := tickFecBuffer lib { io with pathStats := stats } s.transport
    some (⟨r.1, s.sent ++ datagramsOf r.2⟩, [])
  | .reply k peer io =>
    -- any datagram may be answered, any number of times and in any order
    match s.sent[k]? with
    | none => none
    | some d =>
      match s.transport.findConn d.conn with
      | none => none
      | some c =>
        match onReceiveDatagramFrame lib io s.transport c (d.answer peer).encode with
        | .error _ => none
        | .ok r =>
          some (⟨r.1.setConn r.2.1, s.sent⟩,
            ((owdEntry s.transport c (d.answer peer)).map fun i =>
              ⟨i, d.answer peer, d⟩).toList)

/-! ## Delays with a credit -/

/-- `latest_owd_fp[i]` in microseconds: what `transport_tick` adds to the latency of link `i`, and
what `transport_get_path_stats` reports for it. -/
def Transport.latestOwd (t : Transport) (i : ℕ) : UInt32 :=
  (t.owd.getD i PathOwd.zero).relativeOwdUs

/-- All links are mapped to a QUIC path. -/
def Mapped (stats : ℕ → Option SockAddr) (links : List SockAddr) : Prop :=
  ∀ i < links.length, ∃ addr port, links[i]? = some (.inet addr port) ∧
    ∃ path < 8, ∃ port', stats path = some (.inet addr port')

/-- A datagram went over link `i`: its QUIC path has the address of the link. -/
def SentDatagram.OverLink (stats : ℕ → ℕ → Option SockAddr) (links : List SockAddr) (i : ℕ)
    (d : SentDatagram) : Prop :=
  ∃ link path, links[i]? = some link ∧ stats d.conn d.path = some path ∧ link.ip = path.ip

/-- The delay that is read for a link was made of samples of symbols that went over it. -/
def Credited (stats : ℕ → ℕ → Option SockAddr) (s : OwdState) (o : List Credit) : Prop :=
  ∀ i < s.transport.links.length,
    s.transport.latestOwd i = ((o.filter fun cr => cr.entry == i).foldl
      (fun owd cr => owd.update cr.sample) PathOwd.zero).relativeOwdUs ∧
    ∀ cr ∈ o, cr.entry = i → cr.symbol.OverLink stats s.transport.links i

/-- In every state of a run the delays are read for the links they were measured on. -/
def AlwaysCredited (lib : FecLib) (stats : ℕ → ℕ → Option SockAddr) (t : Transport)
    (labels : List OwdLabel) : Prop :=
  ∀ pre s o, pre <+: labels → run (owdStep lib stats) ⟨t, []⟩ pre = some (s, o) →
    Credited stats s o

/-- What has to hold of a symbol whose telemetry is stored: if its QUIC path id is the number of a
link, it is the path id of that link. -/
def LinkNumbered (stats : ℕ → ℕ → Option SockAddr) (s : OwdState) : OwdLabel → Prop
  | .reply k _ _ => ∀ d c, s.sent[k]? = some d → s.transport.findConn d.conn = some c →
      ¬(s.transport.isServer = true ∧ c.authenticated = false) → d.path < TRANSPORT_MAX_PATHS →
      d.path < s.transport.links.length →
      findPathIndexByLink s.transport (stats d.conn) d.path = d.path
  | _ => True

/-! ## Links and paths -/

section Links

variable {t : Transport} {stats : ℕ → Option SockAddr}

/-- The path of a mapped link has the address of the link. -/
theorem findPathIndexByLink_spec (hmapped : Mapped stats t.links) {i : ℕ}
    (hi : i < t.links.length) :
    ∃ addr port port', t.links[i]? = some (.inet addr port) ∧
      stats (findPathIndexByLink t stats i) = some (.inet addr port') ∧
      findPathIndexByLink t stats i < 8 := by
  obtain ⟨addr, port, hlink, path, hpath, port', hstats⟩ := hmapped i hi
  unfold findPathIndexByLink
  rw [hlink]
  dsimp only
  generalize hfind : List.find? _ (List.range 8) = r
  cases r with
  | none =>
    have hnot := List.find?_eq_none.mp hfind path (List.mem_range.mpr hpath)
    rw [hstats] at hnot
    exact absurd (beq_self_eq_true addr) hnot
  | some q =>
    have hmatch := List.find?_some hfind
    have hlt := List.mem_range.mp (List.mem_of_find?_eq_some hfind)
    rw [Option.getD_some]
    split at hmatch
    · next addr' port'' heq =>
      rw [beq_iff_eq.mp hmatch] at heq
      exact ⟨addr, port, port'', rfl, heq, hlt⟩
    · exact absurd hmatch Bool.false_ne_true

/-- Links with the same address have the same path. -/
theorem findPathIndexByLink_congr {i j : ℕ} {addr : UInt32} {port port' : UInt16}
    (hi : t.links[i]? = some (.inet addr port)) (hj : t.links[j]? = some (.inet addr port')) :
    findPathIndexByLink t stats i = findPathIndexByLink t stats j := by
  unfold findPathIndexByLink
  rw [hi, hj]

theorem findPathIndexByLink_links {t' : Transport} (h : t'.links = t.links) :
    findPathIndexByLink t' stats = findPathIndexByLink t stats := by
  funext i
  unfold findPathIndexByLink
  rw [h]

theorem findPathIndexByLink_lt (t : Transport) (stats : ℕ → Option SockAddr) (i : ℕ) :
    findPathIndexByLink t stats i < 8 := by
  unfold findPathIndexByLink
  split
  · generalize hfind : List.find? _ (List.range 8) = r
    cases r with
    | none => decide
    | some q => exact List.mem_range.mp (List.mem_of_find?_eq_some hfind)
  · decide

/-- The symbols of a link lie between the running totals, or the link is the first one. -/
theorem pathOfSymbol_lt (xs : List ℕ) (i accumulated s : ℕ) :
    pathOfSymbol xs i accumulated s < i + xs.length ∨ pathOfSymbol xs i accumulated s = 0 := by
  induction xs generalizing i accumulated with
  | nil => exact Or.inr rfl
  | cons x xs ih =>
    unfold pathOfSymbol
    rw [List.length_cons]
    split
    · left
      omega
    · rcases ih (i + 1) (accumulated + x) with hlt | hzero
      · left
        omega
      · exact Or.inr hzero

end Links

/-! ## What publishing sends -/

/-- A datagram went out on the path of a link, and its header has the id of the path. -/
def SentDatagram.Stamped (stats : ℕ → ℕ → Option SockAddr) (t : Transport) (d : SentDatagram) :
    Prop :=
  ∃ link, (t.links ≠ [] → link < t.links.length) ∧
    d.path = findPathIndexByLink t (stats d.conn) link ∧
    (FecPacketHeader.decode d.bytes).pathId.toNat = d.path

variable {lib : FecLib} {t : Transport} {io : PublishIO}

theorem mem_datagramsOf {o : List Effect} {d : SentDatagram} :
    d ∈ datagramsOf o ↔ .datagram d.conn d.path d.bytes ∈ o := by
  unfold datagramsOf
  rw [List.mem_filterMap]
  constructor
  · rintro ⟨e, he, hd⟩
    cases e with
    | datagram conn path bytes =>
      obtain rfl := Option.some.inj hd
      exact he
    | _ => exact absurd hd (by simp)
  · intro h
    exact ⟨_, h, rfl⟩

/-- A datagram of an object. -/
theorem stamped_sendDatagrams {obj : MoqObject} {o : ShardedObject} {c : Conn} {d : SentDatagram}
    (h : .datagram d.conn d.path d.bytes ∈
      sendDatagrams t io obj o c) : d.Stamped io.pathStats t := by
  rcases sendDatagrams_eq t io obj o c with
    ⟨trackAlias, -, heq⟩ | ⟨-, heq⟩
  · rw [heq] at h
    obtain ⟨s, -, hd⟩ := List.mem_map.mp h
    rw [Effect.datagram.injEq] at hd
    obtain ⟨hconn, hpath, hbytes⟩ := hd
    refine ⟨pathOfSymbol (o.xs.take t.links.length) 0 0 s, fun hne => ?_, ?_, ?_⟩
    · have hpos := List.length_pos_iff.mpr hne
      have htake : (o.xs.take t.links.length).length ≤ t.links.length := List.length_take_le _ _
      rcases pathOfSymbol_lt (o.xs.take t.links.length) 0 0 s with hlt | hzero
      · omega
      · omega
    · rw [← hpath, ← hconn]
      rfl
    · have hlt : d.path < 8 := by
        rw [← hpath]
        exact findPathIndexByLink_lt t _ _
      rw [← hbytes, decode_symbolDatagram]
      show (UInt8.ofNat _).toNat = _
      rw [hpath, UInt8.toNat_ofNat_of_lt' (lt_trans hlt (by decide))]
  · rw [heq] at h
    exact absurd h List.not_mem_nil

/-- A stream object sends no datagrams. -/
theorem publishReliableConn_no_datagram {isServer : Bool} {obj : MoqObject} {c : Conn}
    {conn path : ℕ} {bytes : Bytes} :
    .datagram conn path bytes ∉ (publishReliableConn io isServer obj c).2 := by
  unfold publishReliableConn transportSendUnicast Conn.writeControl writeObject
  split
  · exact List.not_mem_nil
  · split
    · split
      · split <;> simp
      · exact List.not_mem_nil
    · split
      · simp
      · split <;> simp

theorem stamped_publishDirect {obj : MoqObject} {d : SentDatagram}
    (h : .datagram d.conn d.path d.bytes ∈
      (publishDirect lib io t obj).2) : d.Stamped io.pathStats t := by
  unfold publishDirect at h
  split at h
  · simp only [publishReliable, List.flatMap_map, List.mem_flatMap] at h
    obtain ⟨c, -, hc⟩ := h
    exact absurd hc publishReliableConn_no_datagram
  · obtain ⟨c, -, hc⟩ := List.mem_flatMap.mp h
    exact stamped_sendDatagrams hc

theorem stamped_flushFecBuffer {d : SentDatagram}
    (h : .datagram d.conn d.path d.bytes ∈
      (flushFecBuffer lib io t).2) : d.Stamped io.pathStats t := by
  unfold flushFecBuffer at h
  split at h
  · exact absurd h List.not_mem_nil
  · have hstamped := stamped_publishDirect h
    exact hstamped

/-- Every symbol that is published is stamped with the path it goes out on. -/
theorem stamped_transportPublish {obj : MoqObject} {d : SentDatagram}
    (h : .datagram d.conn d.path d.bytes ∈
      (transportPublish lib io t obj).2.2) : d.Stamped io.pathStats t := by
  unfold transportPublish groupPacket at h
  split at h
  · dsimp only at h
    split at h
    · exact absurd h List.not_mem_nil
    · split at h
      · have hstamped := stamped_flushFecBuffer h
        exact hstamped
      · exact absurd h List.not_mem_nil
  · exact stamped_publishDirect h

theorem stamped_tickFecBuffer {d : SentDatagram}
    (h : .datagram d.conn d.path d.bytes ∈
      (tickFecBuffer lib io t).2) : d.Stamped io.pathStats t := by
  unfold tickFecBuffer at h
  split at h
  · exact stamped_flushFecBuffer h
  · exact absurd h List.not_mem_nil

/-- Publishing leaves the links, the delays and the set of connections alone. -/
structure SamePaths (t t' : Transport) : Prop where
  links : t'.links = t.links
  owd : t'.owd = t.owd
  ptrs : t'.ptrs = t.ptrs

theorem samePaths_publishDirect (lib : FecLib) (io : PublishIO) (t : Transport) (obj : MoqObject) :
    SamePaths t (publishDirect lib io t obj).1 := by
  refine ⟨?_, ?_, ptrs_publishDirect lib io t obj⟩
  · unfold publishDirect
    split <;> rfl
  · unfold publishDirect
    split <;> rfl

theorem samePaths_flushFecBuffer (lib : FecLib) (io : PublishIO) (t : Transport) :
    SamePaths t (flushFecBuffer lib io t).1 := by
  unfold flushFecBuffer
  split
  · exact ⟨rfl, rfl, rfl⟩
  · obtain ⟨hlinks, howd, hptrs⟩ := samePaths_publishDirect lib io
      { t with fec := { t.fec with objectId := t.fec.objectId + 1, inFlush := true } }
      (groupedObject t)
    exact ⟨hlinks, howd, hptrs⟩

theorem samePaths_transportPublish (lib : FecLib) (io : PublishIO) (t : Transport)
    (obj : MoqObject) : SamePaths t (transportPublish lib io t obj).2.1 := by
  unfold transportPublish groupPacket
  split
  · dsimp only
    split
    · exact ⟨rfl, rfl, rfl⟩
    · next fec _ =>
      split
      · obtain ⟨hlinks, howd, hptrs⟩ := samePaths_flushFecBuffer lib io { t with fec := fec }
        exact ⟨hlinks, howd, hptrs⟩
      · exact ⟨rfl, rfl, rfl⟩
  · exact samePaths_publishDirect lib io t obj

theorem samePaths_tickFecBuffer (lib : FecLib) (io : PublishIO) (t : Transport) :
    SamePaths t (tickFecBuffer lib io t).1 := by
  unfold tickFecBuffer
  split
  · exact samePaths_flushFecBuffer lib io t
  · exact ⟨rfl, rfl, rfl⟩

/-! ## What telemetry changes -/

/-- Telemetry is stored in its entry, or dropped. -/
theorem onReceiveDatagramFrame_telemetry (lib : FecLib) (io : ReceiveIO) (t : Transport) (c : Conn)
    {d : TelemetryDatagram} (htrack : d.trackId = MOQ_TRACK_TELEMETRY) :
    onReceiveDatagramFrame lib io t c d.encode =
      .ok ({ t with owd := (owdEntry t c d).elim t.owd fun i => t.owd.modify i (·.update d) },
        c, []) := by
  unfold onReceiveDatagramFrame owdEntry
  by_cases hgate : t.isServer = true ∧ ¬c.authenticated = true
  · rw [if_pos hgate, if_pos hgate]
    rfl
  · rw [if_neg hgate, if_neg hgate]
    have hcons : d.encode = d.trackId :: d.encode.tail := rfl
    rw [hcons]
    dsimp only
    rw [if_pos htrack, ← hcons, receiveTelemetry_encode]
    split <;> rfl

/-! ## One step -/

variable {stats : ℕ → ℕ → Option SockAddr} {s s' : OwdState} {o : List Credit}

/-- Telemetry for a symbol that was sent on a connection that still exists. -/
theorem owdStep_reply (lib : FecLib) (stats : ℕ → ℕ → Option SockAddr) {k : ℕ} (peer io : ReceiveIO)
    {d : SentDatagram} {c : Conn} (hd : s.sent[k]? = some d)
    (hc : s.transport.findConn d.conn = some c) :
    owdStep lib stats s (.reply k peer io) =
      some (⟨({ s.transport with
          owd := (owdEntry s.transport c (d.answer peer)).elim s.transport.owd fun i =>
            s.transport.owd.modify i (·.update (d.answer peer)) } : Transport).setConn c, s.sent⟩,
        ((owdEntry s.transport c (d.answer peer)).map fun i => ⟨i, d.answer peer, d⟩).toList) := by
  unfold owdStep
  dsimp only
  rw [hd]
  dsimp only
  rw [hc]
  dsimp only
  rw [onReceiveDatagramFrame_telemetry lib io s.transport c rfl]

theorem owdStep_reply_some {k : ℕ} {peer io : ReceiveIO}
    (h : owdStep lib stats s (.reply k peer io) = some (s', o)) :
    ∃ d c, s.sent[k]? = some d ∧ s.transport.findConn d.conn = some c := by
  unfold owdStep at h
  dsimp only at h
  split at h
  · exact absurd h (Option.some_ne_none _).symm
  · next d hd =>
    split at h
    · exact absurd h (Option.some_ne_none _).symm
    · next c hc => exact ⟨d, c, hd, hc⟩

/-- What is known of a transport and the symbols it sent. -/
structure OwdInv (stats : ℕ → ℕ → Option SockAddr) (links : List SockAddr) (s : OwdState) :
    Prop where
  links_eq : s.transport.links = links
  mapped : ∀ ptr ∈ s.transport.ptrs, Mapped (stats ptr) links
  stamped : ∀ d ∈ s.sent, d.Stamped stats s.transport

theorem SentDatagram.Stamped.of_links {t t' : Transport} {d : SentDatagram}
    (h : d.Stamped stats t) (hlinks : t'.links = t.links) : d.Stamped stats t' := by
  unfold SentDatagram.Stamped
  rw [hlinks, findPathIndexByLink_links hlinks]
  exact h

theorem OwdInv.publish {links : List SockAddr} (h : OwdInv stats links s) {t' : Transport}
    {effects : List Effect} (hsame : SamePaths s.transport t')
    (hnew : ∀ d : SentDatagram, .datagram d.conn d.path d.bytes ∈ effects →
      d.Stamped stats s.transport) :
    OwdInv stats links ⟨t', s.sent ++ datagramsOf effects⟩ := by
  refine ⟨hsame.links.trans h.links_eq, fun ptr hptr => h.mapped ptr (hsame.ptrs ▸ hptr), ?_⟩
  intro d hd
  rcases List.mem_append.mp hd with hd | hd
  · exact (h.stamped d hd).of_links hsame.links
  · exact (hnew d (mem_datagramsOf.mp hd)).of_links hsame.links

theorem OwdInv.step {links : List SockAddr} {l : OwdLabel} (h : OwdInv stats links s)
    (hstep : owdStep lib stats s l = some (s', o)) : OwdInv stats links s' := by
  cases l with
  | publish io obj =>
    obtain ⟨rfl, -⟩ := Prod.mk.inj (Option.some.inj hstep)
    exact h.publish (samePaths_transportPublish lib _ s.transport obj)
      fun d hd => stamped_transportPublish hd
  | tick io =>
    obtain ⟨rfl, -⟩ := Prod.mk.inj (Option.some.inj hstep)
    exact h.publish (samePaths_tickFecBuffer lib _ s.transport) fun d hd => stamped_tickFecBuffer hd
  | reply k peer io =>
    obtain ⟨d, c, hd, hc⟩ := owdStep_reply_some hstep
    rw [owdStep_reply lib stats peer io hd hc] at hstep
    obtain ⟨rfl, -⟩ := Prod.mk.inj (Option.some.inj hstep)
    refine ⟨h.links_eq, fun ptr hptr => ?_, fun d' hd' => (h.stamped d' hd').of_links rfl⟩
    rw [ptrs_setConn] at hptr
    exact h.mapped ptr hptr

/-- A symbol whose path id is the number of a link went over that link exactly when it is the path
id of the link. -/
theorem overLink_iff {links : List SockAddr} (h : OwdInv stats links s) {d : SentDatagram}
    (hd : d ∈ s.sent) (hconn : d.conn ∈ s.transport.ptrs) (hlt : d.path < links.length) :
    d.OverLink stats links d.path ↔
      findPathIndexByLink s.transport (stats d.conn) d.path = d.path := by
  have hlinks := h.links_eq
  subst hlinks
  have hmapped := h.mapped d.conn hconn
  obtain ⟨link, hlink, hpath, -⟩ := h.stamped d hd
  obtain ⟨addr, port, port', haddr, hstats, -⟩ := findPathIndexByLink_spec hmapped hlt
  have hne : s.transport.links ≠ [] := List.length_pos_iff.mp (by omega)
  obtain ⟨sent, sentPort, sentPort', hsent, hsentStats, -⟩ :=
    findPathIndexByLink_spec hmapped (hlink hne)
  rw [← hpath] at hsentStats
  constructor
  · rintro ⟨l, q, hl, hq, hip⟩
    rw [haddr] at hl
    rw [hsentStats] at hq
    obtain rfl := Option.some.inj hl
    obtain rfl := Option.some.inj hq
    have heq : addr = sent := IpAddr.v4.inj hip
    subst heq
    rw [findPathIndexByLink_congr haddr hsent]
    exact hpath.symm
  · intro hnumber
    rw [hnumber] at hstats
    exact ⟨_, _, haddr, hstats, rfl⟩

/-- The entry that the telemetry for a symbol is stored in. -/
theorem owdEntry_answer {d : SentDatagram} {t : Transport} (h : d.Stamped stats t) (c : Conn)
    (peer : ReceiveIO) {i : ℕ} :
    owdEntry t c (d.answer peer) = some i ↔
      ¬(t.isServer = true ∧ c.authenticated = false) ∧ d.path < TRANSPORT_MAX_PATHS ∧
        i = d.path := by
  obtain ⟨link, -, -, hpath⟩ := h
  have hid : (d.answer peer).pathId.toNat = d.path := hpath
  unfold owdEntry
  rw [hid]
  simp only [Bool.not_eq_true]
  by_cases hgate : t.isServer = true ∧ c.authenticated = false
  · rw [if_pos hgate]
    exact iff_of_false (Option.some_ne_none i).symm fun hno => hno.1 hgate
  · rw [if_neg hgate]
    by_cases hlt : d.path < TRANSPORT_MAX_PATHS
    · rw [if_pos hlt, Option.some.injEq]
      exact ⟨fun h => ⟨hgate, hlt, h.symm⟩, fun h => h.2.2.symm⟩
    · rw [if_neg hlt]
      exact iff_of_false (Option.some_ne_none i).symm fun hno => hlt hno.2.1

/-- A step stores a sample for the wrong link exactly when its symbol is misnumbered. -/
theorem linkNumbered_iff {links : List SockAddr} {l : OwdLabel} (h : OwdInv stats links s) :
    LinkNumbered stats s l ↔ ∀ s' o, owdStep lib stats s l = some (s', o) →
      ∀ cr ∈ o, cr.entry < links.length → cr.symbol.OverLink stats links cr.entry := by
  cases l with
  | publish io obj =>
    refine iff_of_true trivial fun s' o hstep cr hcr => ?_
    obtain ⟨-, rfl⟩ := Prod.mk.inj (Option.some.inj hstep)
    exact absurd hcr List.not_mem_nil
  | tick io =>
    refine iff_of_true trivial fun s' o hstep cr hcr => ?_
    obtain ⟨-, rfl⟩ := Prod.mk.inj (Option.some.inj hstep)
    exact absurd hcr List.not_mem_nil
  | reply k peer io =>
    have hlinks := h.links_eq
    constructor
    · intro hnumbered s' o hstep cr hcr hlt
      obtain ⟨d, c, hd, hc⟩ := owdStep_reply_some hstep
      rw [owdStep_reply lib stats peer io hd hc] at hstep
      obtain ⟨-, rfl⟩ := Prod.mk.inj (Option.some.inj hstep)
      rw [Option.mem_toList, Option.map_eq_some_iff] at hcr
      obtain ⟨i, hentry, rfl⟩ := hcr
      have hmem := List.mem_of_getElem? hd
      obtain ⟨hgate, hstored, rfl⟩ := (owdEntry_answer (h.stamped d hmem) c peer).mp hentry
      obtain ⟨hconn, hptr⟩ := Transport.findConn_eq_some hc
      refine (overLink_iff h hmem (hptr ▸ List.mem_map_of_mem hconn) hlt).mpr ?_
      exact hnumbered d c hd hc hgate hstored (hlinks ▸ hlt)
    · intro hall d c hd hc hgate hstored hlt
      have hmem := List.mem_of_getElem? hd
      have hentry := (owdEntry_answer (h.stamped d hmem) c peer).mpr ⟨hgate, hstored, rfl⟩
      obtain ⟨hconn, hptr⟩ := Transport.findConn_eq_some hc
      rw [hlinks] at hlt
      refine (overLink_iff h hmem (hptr ▸ List.mem_map_of_mem hconn) hlt).mp ?_
      refine hall _ _ (owdStep_reply lib stats peer io hd hc) ⟨d.path, d.answer peer, d⟩ ?_ hlt
      rw [hentry]
      exact List.mem_singleton_self _

/-- The entry of each path is what the samples stored in it make of a zeroed one. -/
structure Stored (s : OwdState) (o : List Credit) : Prop where
  length_owd : s.transport.owd.length = TRANSPORT_MAX_PATHS
  entry : ∀ i, s.transport.owd.getD i PathOwd.zero =
    (o.filter fun cr => cr.entry == i).foldl (fun owd cr => owd.update cr.sample) PathOwd.zero

theorem Stored.step {all : List Credit} {l : OwdLabel} (h : Stored s all)
    (hstep : owdStep lib stats s l = some (s', o)) : Stored s' (all ++ o) := by
  obtain ⟨hlen, hentry⟩ := h
  -- a publish or a tick sends, and stores nothing
  have hsame : ∀ t' effects, SamePaths s.transport t' →
      Stored ⟨t', s.sent ++ datagramsOf effects⟩ (all ++ []) := by
    intro t' effects hsame
    rw [List.append_nil]
    exact ⟨hsame.owd ▸ hlen, fun i => hsame.owd ▸ hentry i⟩
  cases l with
  | publish io obj =>
    obtain ⟨rfl, rfl⟩ := Prod.mk.inj (Option.some.inj hstep)
    exact hsame _ _ (samePaths_transportPublish lib _ s.transport obj)
  | tick io =>
    obtain ⟨rfl, rfl⟩ := Prod.mk.inj (Option.some.inj hstep)
    exact hsame _ _ (samePaths_tickFecBuffer lib _ s.transport)
  | reply k peer io =>
    obtain ⟨d, c, hd, hc⟩ := owdStep_reply_some hstep
    rw [owdStep_reply lib stats peer io hd hc] at hstep
    obtain ⟨rfl, rfl⟩ := Prod.mk.inj (Option.some.inj hstep)
    cases hstored : owdEntry s.transport c (d.answer peer) with
    | none =>
      rw [Option.map_none, Option.toList_none, List.append_nil]
      exact ⟨hlen, hentry⟩
    | some i =>
      have hlt : i < s.transport.owd.length := by
        unfold owdEntry at hstored
        split at hstored
        · exact absurd hstored (Option.some_ne_none i).symm
        · split at hstored
          · next hlt => rw [hlen, ← Option.some.inj hstored]; exact hlt
          · exact absurd hstored (Option.some_ne_none i).symm
      refine ⟨(List.length_modify _ _ _).trans hlen, fun j => ?_⟩
      show (s.transport.owd.modify i _).getD j PathOwd.zero = _
      rw [getD_modify_owd hlt, hentry j, Option.map_some, Option.toList_some, List.filter_append,
        List.filter_singleton, List.foldl_append]
      by_cases hij : i = j
      · rw [if_pos hij, beq_iff_eq.mpr hij]
        rfl
      · rw [if_neg hij, beq_eq_false_iff_ne.mpr hij]
        rfl

/-! ## Runs -/

/-- All delays are read for the link they were measured on exactly in the runs in which every
symbol whose telemetry is stored has a QUIC path id that is the number of its link, or of none. -/
theorem credited_iff_numbered (lib : FecLib) {stats : ℕ → ℕ → Option SockAddr} {t : Transport}
    (howd : t.owd = List.replicate TRANSPORT_MAX_PATHS PathOwd.zero)
    (hmapped : ∀ c ∈ t.conns, Mapped (stats c.ptr) t.links) (labels : List OwdLabel) :
    AlwaysCredited lib stats t labels ↔
      Along (owdStep lib stats) (LinkNumbered stats) ⟨t, []⟩ labels := by
  have hinit : OwdInv stats t.links ⟨t, []⟩ := by
    refine ⟨rfl, fun ptr hptr => ?_, fun d hd => absurd hd List.not_mem_nil⟩
    obtain ⟨c, hc, rfl⟩ := List.mem_map.mp hptr
    exact hmapped c hc
  have hzero : Stored ⟨t, []⟩ [] := by
    refine ⟨by rw [howd, List.length_replicate], fun i => ?_⟩
    show t.owd.getD i PathOwd.zero = PathOwd.zero
    rw [howd, List.getD_eq_getElem?_getD, List.getElem?_replicate]
    split <;> rfl
  rw [← forall_outputs_iff_along (I := OwdInv stats t.links) (P := fun cr =>
    cr.entry < t.links.length → cr.symbol.OverLink stats t.links cr.entry)
    (fun _ _ _ _ h hstep => h.step hstep) (fun _ _ h => linkNumbered_iff h) hinit]
  refine forall₄_congr fun pre s o hpre => ?_
  refine forall_congr' fun hrun => ?_
  have hlinks := (invariant (I := OwdInv stats t.links) hinit
    (fun _ _ _ _ h hstep => h.step hstep) pre s o hrun).links_eq
  have hstored : Stored s o := run_induction (owdStep lib stats)
    (P := fun _ s o => Stored s o) hzero (fun _ _ _ _ _ _ _ ih hstep => ih.step hstep) pre s o hrun
  constructor
  · intro hcredited cr hcr hlt
    exact hlinks ▸ (hcredited cr.entry (hlinks ▸ hlt)).2 cr hcr rfl
  · intro hall i hi
    refine ⟨congrArg PathOwd.relativeOwdUs (hstored.entry i), fun cr hcr hentry => ?_⟩
    subst hentry
    rw [hlinks] at hi ⊢
    exact hall cr hcr hi

/-- A client with two links and a connection. -/
def twoLinkPublisher : Transport :=
  { Transport.init false [.inet 1 0, .inet 2 0] 1280 with conns := [Conn.zero 1] }

/-- The paths of the connection in the order of the links. -/
def orderedPaths (_conn path : ℕ) : Option SockAddr := [.inet 1 0, .inet 2 0][path]?

/-- The paths of the connection, the second link first. -/
def swappedPaths (_conn path : ℕ) : Option SockAddr := [.inet 2 0, .inet 1 0][path]?

/-- A TEXT object of one symbol is published, and the peer answers it. -/
def publishThenReply : List OwdLabel :=
  [.publish (publishAt 0) ⟨⟨MOQ_TRACK_TEXT, 0, TrackName.empty⟩, 0, 0, [1], false, 1⟩,
    .reply 0 ⟨0, 0, MoqTrackId.zero, MoqTrackId.zero, fun _ => 0⟩
      ⟨0, 0, MoqTrackId.zero, MoqTrackId.zero, fun _ => 0⟩]

/-- Both links are mapped, in one order and in the other. -/
theorem mapped_twoLinks : Mapped (orderedPaths 1) [.inet 1 0, .inet 2 0] ∧
    Mapped (swappedPaths 1) [.inet 1 0, .inet 2 0] := by
  constructor
  · intro i hi
    have hlt : i < 2 := hi
    obtain rfl | rfl : i = 0 ∨ i = 1 := by omega
    · exact ⟨1, 0, rfl, 0, by decide, 0, rfl⟩
    · exact ⟨2, 0, rfl, 1, by decide, 0, rfl⟩
  · intro i hi
    have hlt : i < 2 := hi
    obtain rfl | rfl : i = 0 ∨ i = 1 := by omega
    · exact ⟨1, 0, rfl, 1, by decide, 0, rfl⟩
    · exact ⟨2, 0, rfl, 0, by decide, 0, rfl⟩

/-- With the paths in the order of the links the delay is read for the right link. -/
theorem credited_iff_numbered_ordered :
    AlwaysCredited FecLib.unavailable orderedPaths twoLinkPublisher publishThenReply := by
  have hmapped : ∀ c ∈ twoLinkPublisher.conns, Mapped (orderedPaths c.ptr) twoLinkPublisher.links :=
    fun _ _ => mapped_twoLinks.1
  refine (credited_iff_numbered FecLib.unavailable rfl hmapped publishThenReply).mpr ?_
  refine ⟨trivial, fun s₁ o₁ hstep => ⟨?_, fun _ _ _ => trivial⟩⟩
  obtain ⟨rfl, -⟩ := Prod.mk.inj (Option.some.inj hstep)
  intro d c _ _ _ _ hlt
  have hlinks := (samePaths_transportPublish FecLib.unavailable
    { publishAt 0 with pathStats := orderedPaths } twoLinkPublisher
    ⟨⟨MOQ_TRACK_TEXT, 0, TrackName.empty⟩, 0, 0, [1], false, 1⟩).links
  rw [findPathIndexByLink_links hlinks]
  have htwo : d.path < 2 := hlt.trans_eq (congrArg List.length hlinks)
  have hpath : d.path = 0 ∨ d.path = 1 := by omega
  rcases hpath with hpath | hpath
  · rw [hpath]
    rfl
  · rw [hpath]
    rfl

set_option maxRecDepth 20000 in
/-- With the paths in the other order the symbol goes over the first link and has path id 1: its
delay is read for the second link. -/
theorem not_credited_swapped :
    (∀ c ∈ twoLinkPublisher.conns, Mapped (swappedPaths c.ptr) twoLinkPublisher.links) ∧
      findPathIndexByLink twoLinkPublisher (swappedPaths 1) 0 ≠
        findPathIndexByLink twoLinkPublisher (swappedPaths 1) 1 ∧
      ¬AlwaysCredited FecLib.unavailable swappedPaths twoLinkPublisher publishThenReply := by
  refine ⟨fun _ _ => mapped_twoLinks.2, by decide, fun hall => ?_⟩
  have hrun : (run (owdStep FecLib.unavailable swappedPaths) ⟨twoLinkPublisher, []⟩
      publishThenReply).map (fun r => (r.1.transport.links, r.2.map fun cr =>
        (cr.entry, cr.symbol.conn, cr.symbol.path))) =
      some ([.inet 1 0, .inet 2 0], [(1, 1, 1)]) := by decide
  obtain ⟨⟨s, o⟩, hso, heq⟩ := Option.map_eq_some_iff.mp hrun
  obtain ⟨hlinks, hcredits⟩ := Prod.mk.inj heq
  obtain ⟨cr, hcr, hfields⟩ : ∃ cr ∈ o, (cr.entry, cr.symbol.conn, cr.symbol.path) = (1, 1, 1) := by
    have hmem : (1, 1, 1) ∈ o.map fun cr => (cr.entry, cr.symbol.conn, cr.symbol.path) := by
      rw [hcredits]
      exact List.mem_singleton_self _
    exact List.mem_map.mp hmem
  obtain ⟨hentry, hsymbol⟩ := Prod.mk.inj hfields
  obtain ⟨hconn, hpath⟩ := Prod.mk.inj hsymbol
  have hlt : 1 < s.transport.links.length := by
    rw [hlinks]
    decide
  obtain ⟨link, path, hlink, hstats, hip⟩ :=
    (hall publishThenReply s o (List.prefix_refl _) hso 1 hlt).2 cr hcr hentry
  rw [hlinks] at hlink
  rw [hconn, hpath] at hstats
  obtain rfl := Option.some.inj hlink
  obtain rfl := Option.some.inj hstats
  exact absurd hip (by decide)

end Bishlink
