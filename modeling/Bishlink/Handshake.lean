import Bishlink.ControlChunks
import Bishlink.DaemonEvents

/-!
# The handshake of two daemons

A daemon that was given a peer connects to the other daemon's server. The aliases of the two ends
could clash (`AliasAgreement`). They do not, because the daemons do not subscribe at the same time:
the server announces its tracks and then approves, and the client announces its own when it was
approved (`Numbering.Turns`).

`Shaking` ties the tables of the two connections and the messages under way to that. Each message
and each event keeps it: the token that the client sends (`greet`), the announcements and the
approval of the server (`announce`, `approve`), the SUBSCRIBE messages (`learnServer`,
`learnClient`) and what the client does once it was approved (`authComplete`).
-/

namespace Bishlink

open Framing Numbering Runs

/-! ## Messages and tables -/

/-- The keys of the named tracks. -/
def namedKeys (tracks : List MoqTrackId) : List TrackKey := (tracks.filter (·.named)).map (·.key)

/-- What a message is for the numbering: an announcement, or the mark. -/
def ControlMessage.announces : ControlMessage → Option (Option (ℕ × TrackKey))
  | .subscribe trackAlias track =>
    if track.named then some (some (trackAlias.toNat - 8, track.key)) else none
  | .authResponse _ => some none
  | _ => none

theorem announces_subscribe (trackAlias : UInt8) (track : MoqTrackId) :
    (ControlMessage.subscribe trackAlias track).announces =
      if track.named then some (some (trackAlias.toNat - 8, track.key)) else none := rfl

/-- A SUBSCRIBE of a daemon: a named track is one of `all` and has an alias from 8 on. -/
def SubscribesProperly (all : List TrackKey) (trackAlias : UInt8) (track : MoqTrackId) : Prop :=
  if track.named then 8 ≤ trackAlias ∧ track.key ∈ all
  else track.key = unnamedData ∧ trackAlias = MOQ_TRACK_DATA

/-- What the server daemon writes to the control stream. -/
def ControlMessage.FromServer (all : List TrackKey) : ControlMessage → Prop
  | .subscribe trackAlias track => SubscribesProperly all trackAlias track
  | .authResponse status => status = 1
  | _ => False

/-- What the client daemon writes to the control stream. -/
def ControlMessage.FromClient (all : List TrackKey) : ControlMessage → Prop
  | .subscribe trackAlias track => SubscribesProperly all trackAlias track
  | .auth token => token = AUTH_TOKEN
  | _ => False

/-- Such a SUBSCRIBE announces the number in its alias, or it is for the unnamed DATA track. -/
theorem SubscribesProperly.cases {all : List TrackKey} {trackAlias : UInt8} {track : MoqTrackId}
    (h : SubscribesProperly all trackAlias track) :
    ((ControlMessage.subscribe trackAlias track).announces = none ∧ track.key = unnamedData ∧
        trackAlias = MOQ_TRACK_DATA) ∨
      ∃ n, (ControlMessage.subscribe trackAlias track).announces = some (some (n, track.key)) ∧
        trackAlias = UInt8.ofNat (8 + n) ∧ track.named = true ∧ track.key ∈ all := by
  unfold SubscribesProperly at h
  rw [announces_subscribe]
  split at h
  · next hnamed =>
    have height : 8 ≤ trackAlias.toNat := UInt8.le_iff_toNat_le.mp h.1
    refine Or.inr ⟨trackAlias.toNat - 8, by rw [if_pos hnamed], ?_, hnamed, h.2⟩
    rw [Nat.add_sub_cancel' height, UInt8.ofNat_toNat]
  · next hnamed => exact Or.inl ⟨by rw [if_neg hnamed], h⟩

/-- The tracks of a daemon without a name are the unnamed DATA track. -/
theorem DaemonConfig.unnamed_track {cfg : DaemonConfig} {track : MoqTrackId}
    (h : track ∈ cfg.tracks) (hnamed : track.named = false) :
    track.key = unnamedData ∧ track.type = MOQ_TRACK_DATA := by
  obtain ⟨name, -, rfl⟩ := List.mem_map.mp h
  have hname : name = TrackName.empty := by
    have hbeq : (name != TrackName.empty) = false := hnamed
    simpa using hbeq
  exact ⟨by rw [hname]; rfl, rfl⟩

/-- A daemon has no more named tracks than it takes. -/
theorem DaemonConfig.length_namedKeys (cfg : DaemonConfig) :
    (namedKeys cfg.tracks).length ≤ MAX_SUBSCRIBE_TRACKS := by
  unfold namedKeys
  rw [List.length_map]
  refine (List.length_filter_le _ _).trans ?_
  rw [DaemonConfig.tracks, List.length_map]
  exact cfg.length_tracks

/-- Subscribing to the tracks of a daemon learns the named ones; the messages announce them. -/
theorem NumbersNamed.subscribeAll {cfg : DaemonConfig} {all : List TrackKey}
    (hroom : all.length ≤ 30)
    {s : Subscriptions} {ks : List TrackKey} (h : NumbersNamed s ks) (hks : ks.Nodup)
    (hsub : ks ⊆ all)
    {tracks : List MoqTrackId} (hcfg : ∀ track ∈ tracks, track ∈ cfg.tracks)
    (hall : namedKeys tracks ⊆ all) :
    NumbersNamed (subscribeAll s tracks).1 (learnAll 30 ks (namedKeys tracks)) ∧
      (subscribeAll s tracks).2.filterMap (·.announces) =
        (announcements 30 ks (namedKeys tracks)).map some ∧
      ∀ m ∈ (subscribeAll s tracks).2, m.FromServer all ∧ m.FromClient all ∧ m.Encodable := by
  induction tracks generalizing s ks with
  | nil => exact ⟨h, rfl, fun m hm => absurd hm List.not_mem_nil⟩
  | cons track tracks ih =>
    have hrest := fun t ht => hcfg t (List.mem_cons_of_mem track ht)
    have hlen : ks.length ≤ 30 := (List.subperm_of_subset hks hsub).length_le.trans hroom
    -- a track without a name has an alias of its own, and takes no number
    cases hnamed : track.named with
    | false =>
      have hkeys : namedKeys (track :: tracks) = namedKeys tracks := by
        unfold namedKeys
        rw [List.filter_cons_of_neg (by rw [hnamed]; exact Bool.false_ne_true)]
      rw [hkeys] at hall ⊢
      obtain ⟨htable, hmessages, hok⟩ := ih h hks hsub hrest hall
      obtain ⟨hkey, htype⟩ := DaemonConfig.unnamed_track (hcfg track List.mem_cons_self) hnamed
      have hproper : SubscribesProperly all (Bishlink.subscribeAlias s track) track := by
        unfold SubscribesProperly
        rw [if_neg (by rw [hnamed]; exact Bool.false_ne_true), subscribeAlias_unnamed s hnamed]
        exact ⟨hkey, htype⟩
      unfold Bishlink.subscribeAll
      rw [subscribeTable_unnamed s hnamed]
      refine ⟨htable, ?_, ?_⟩
      · dsimp only
        rw [List.filterMap_cons_none, hmessages]
        rw [announces_subscribe, if_neg (by rw [hnamed]; exact Bool.false_ne_true)]
      · intro m hm
        rcases List.mem_cons.mp hm with rfl | hm
        · exact ⟨hproper, hproper, trivial⟩
        · exact hok m hm
    | true =>
      have hkeys : namedKeys (track :: tracks) = track.key :: namedKeys tracks := by
        unfold namedKeys
        rw [List.filter_cons_of_pos hnamed, List.map_cons]
      rw [hkeys] at hall ⊢
      have hkey : track.key ∈ all := hall List.mem_cons_self
      -- there is room: the keys in use are among those that may come
      have hnew : track.key ∉ ks → ks.length < 30 := length_lt_of_subset hroom hks hsub hkey
      have halias := h.subscribeAlias hks hlen hnamed
      have hidx : ks.idxOf track.key ≤ 30 := List.idxOf_le_length.trans hlen
      have hnat : (Bishlink.subscribeAlias s track).toNat = 8 + ks.idxOf track.key := by
        rw [halias, toNat_ofNat_byte (by omega)]
      have hproper : SubscribesProperly all (Bishlink.subscribeAlias s track) track := by
        unfold SubscribesProperly
        rw [if_pos hnamed, UInt8.le_iff_toNat_le, hnat]
        exact ⟨Nat.le_add_right 8 _, hkey⟩
      obtain ⟨htable, hmessages, hok⟩ := ih (h.subscribeTable hks hnamed hnew hlen)
        (nodup_learn hks track.key)
        (fun k hk => ((mem_learn hroom hks hsub hkey k).mp hk).elim (fun heq => heq ▸ hkey)
          fun hk => hsub hk) hrest fun k hk => hall (List.mem_cons_of_mem _ hk)
      unfold Bishlink.subscribeAll
      refine ⟨htable, ?_, ?_⟩
      · have hannounces : (ControlMessage.subscribe (Bishlink.subscribeAlias s track)
            track).announces = some (some (ks.idxOf track.key, track.key)) := by
          rw [announces_subscribe, if_pos hnamed, hnat, Nat.add_sub_cancel_left]
        dsimp only
        rw [List.filterMap_cons_some hannounces, hmessages]
        rfl
      · intro m hm
        rcases List.mem_cons.mp hm with rfl | hm
        · exact ⟨hproper, hproper, trivial⟩
        · exact hok m hm

/-! ## The invariant -/

/-- Two daemons and the pointers of their connections to each other. -/
structure DaemonPair where
  client : DaemonConfig
  server : DaemonConfig
  clientPtr : ℕ
  serverPtr : ℕ

/-- The tracks that either daemon names. -/
def DaemonPair.namedKeys (e : DaemonPair) : List TrackKey :=
  Bishlink.namedKeys e.server.tracks ++ Bishlink.namedKeys e.client.tracks

variable {e : DaemonPair}

/-- The tables of the two connections, and the messages under way. -/
structure Shaking (e : DaemonPair) (q r : Transport) (greeted : Bool)
    (up down : List ControlMessage)
    (c d : Conn) (h : Turns TrackKey) : Prop where
  client : q.HasConn false e.clientPtr c
  server : r.HasConn true e.serverPtr d
  clientLive : c.closing = false ∧ c.Answers
  serverLive : d.closing = false ∧ (d.Answers ∨ (d.stream = none ∧ d.findStream 0 = none))
  turns : h.Ordered 30 (namedKeys e.server.tracks) (namedKeys e.client.tracks)
  serverTable : NumbersNamed d.subscriptions h.first
  clientTable : NumbersNamed c.subscriptions h.second
  down_eq : down.filterMap (·.announces) = h.toSecond
  up_eq : up.filterMap (·.announces) = h.toFirst.map some
  down_ok : ∀ m ∈ down, m.FromServer e.namedKeys
  up_ok : ∀ m ∈ up, m.FromClient e.namedKeys
  handed : h.handed = c.authenticated
  guest : d.authenticated = false →
    c.authenticated = false ∧ (∀ m ∈ up, m = .auth AUTH_TOKEN) ∧ ∀ m ∈ down, m.announces ≠ some none
  approved : d.authenticated = true → namedKeys e.server.tracks ⊆ h.first ∧
    (c.authenticated = true ∨ .authResponse 1 ∈ down)
  answered : c.authenticated = true → namedKeys e.client.tracks ⊆ h.second
  asked : greeted = true → d.authenticated = true ∨ .auth AUTH_TOKEN ∈ up

/-- The connection after a SUBSCRIBE. -/
def Conn.learns (c : Conn) (trackAlias : UInt8) (track : MoqTrackId) : Conn :=
  { c with
    subscriptions := addSubscription c.subscriptions track.type track.flags track.name trackAlias }

/-- The announcements of a list of messages that are announcements only. -/
theorem announces_ne_none {ms : List ControlMessage} {l : List (ℕ × TrackKey)}
    (h : ms.filterMap (·.announces) = l.map some) : ∀ m ∈ ms, m.announces ≠ some none := by
  intro m hm hnone
  have hmem : none ∈ ms.filterMap (·.announces) := List.mem_filterMap.mpr ⟨m, hm, hnone⟩
  rw [h] at hmem
  obtain ⟨x, -, hx⟩ := List.mem_map.mp hmem
  exact absurd hx (Option.some_ne_none x)

/-- The messages of the daemons are within the limits. -/
theorem ControlMessage.FromServer.encodable {m : ControlMessage} {all : List TrackKey}
    (h : m.FromServer all) : m.Encodable := by
  cases m with
  | subscribe trackAlias track => trivial
  | authResponse status => trivial
  | _ => exact absurd h id

theorem ControlMessage.FromClient.encodable {m : ControlMessage} {all : List TrackKey}
    (h : m.FromClient all) : m.Encodable := by
  cases m with
  | subscribe trackAlias track => trivial
  | auth token =>
    rw [show token = AUTH_TOKEN from h]
    show AUTH_TOKEN.length ≤ 65535
    decide
  | _ => exact absurd h id

/-- The token of a client is read whether it was approved or not. -/
theorem parseControlMessage_token (isServer authenticated : Bool) :
    parseControlMessage isServer authenticated (ControlMessage.auth AUTH_TOKEN).encode =
      .item (.auth AUTH_TOKEN) (ControlMessage.auth AUTH_TOKEN).encode.length := by
  have htoken : AUTH_TOKEN.length ≤ 65535 := by decide
  have hlen : (ControlMessage.auth AUTH_TOKEN).encode.length = 3 + AUTH_TOKEN.length := by
    simp [ControlMessage.encode, ByteCodec.length_toBE]
    omega
  rw [hlen]
  simpa [parseControlMessage, ControlMessage.encode] using parseAuth_encode htoken

/-- A message with one event, and what the daemon does with it. -/
theorem controlAct_event {lib : FecLib} {io : ℕ → ControlIO} (cfg : DaemonConfig) (isServer : Bool)
    {ptr : ℕ} {q : Reception} {c c' : Conn} {m : ControlMessage} {ev : TransportEvent}
    (hfind : q.transport.findConn ptr = some c)
    (hm : handleControlMessage lib (io q.handled) q.transport c m =
      (q.transport, c', [.event ptr ev])) :
    (controlAct lib io (daemonApp cfg isServer) ptr q m).1.transport =
        ((q.transport.setConn c').calls lib (onTransportEvent cfg isServer ptr ev)).1 ∧
      written ptr 0 (controlAct lib io (daemonApp cfg isServer) ptr q m).2 =
        written ptr 0
          ((q.transport.setConn c').calls lib (onTransportEvent cfg isServer ptr ev)).2 := by
  unfold controlAct
  rw [hfind]
  dsimp only
  rw [hm]
  dsimp only [deliver]
  rw [daemonApp_concat, List.append_nil]
  exact ⟨rfl, rfl⟩

namespace Shaking

variable {q r : Transport} {greeted : Bool} {up down : List ControlMessage} {c d : Conn}
  {h : Turns TrackKey}

/-- Both daemons together name 30 tracks at most. -/
theorem room (e : DaemonPair) : e.namedKeys.length ≤ 30 := by
  have hserver := e.server.length_namedKeys
  have hclient := e.client.length_namedKeys
  rw [DaemonPair.namedKeys, List.length_append]
  have hmax : MAX_SUBSCRIBE_TRACKS = 15 := rfl
  omega

theorem length_first (hs : Shaking e q r greeted up down c d h) : h.first.length ≤ 30 :=
  hs.turns.agree.length_left

theorem length_second (hs : Shaking e q r greeted up down c d h) : h.second.length ≤ 30 :=
  hs.turns.agree.length_right

/-- The client sends the token. -/
theorem greet (hs : Shaking e q r greeted up down c d h) (lib : FecLib) :
    Shaking e (q.call lib (.sendAuth e.clientPtr AUTH_TOKEN)).1 r true
      (up ++ [.auth AUTH_TOKEN]) down
      c d h where
  client := (hs.client.sendAuth lib hs.clientLive.2).1
  server := hs.server
  clientLive := hs.clientLive
  serverLive := hs.serverLive
  turns := hs.turns
  serverTable := hs.serverTable
  clientTable := hs.clientTable
  down_eq := hs.down_eq
  up_eq := by
    rw [List.filterMap_append, hs.up_eq]
    exact List.append_nil _
  down_ok := hs.down_ok
  up_ok := List.forall_mem_append.mpr ⟨hs.up_ok, List.forall_mem_singleton.mpr rfl⟩
  handed := hs.handed
  guest hguest := by
    obtain ⟨hc, hup, hdown⟩ := hs.guest hguest
    exact ⟨hc, List.forall_mem_append.mpr ⟨hup, List.forall_mem_singleton.mpr rfl⟩, hdown⟩
  approved := hs.approved
  answered := hs.answered
  asked _ := Or.inr (List.mem_append_right up List.mem_cons_self)

/-- The server announces its tracks. -/
theorem announce (hs : Shaking e q r greeted up down c d h) (lib : FecLib) (hanswers : d.Answers) :
    ∃ h', Shaking e q (r.calls lib (subscribeToTracks e.server)).1 greeted up
        (down ++ (subscribeAll d.subscriptions e.server.tracks).2) c
        { d with subscriptions := (subscribeAll d.subscriptions e.server.tracks).1 } h' ∧
      namedKeys e.server.tracks ⊆ h'.first := by
  have hroom := room e
  obtain ⟨htable, hmessages, hok⟩ := hs.serverTable.subscribeAll hroom hs.turns.agree.nodup_left
    hs.turns.known.1 (fun _ ht => ht) (List.subset_append_left _ _)
  obtain ⟨hturns, hall⟩ := hs.turns.announceAll hroom (List.Subset.refl _)
  have hmore := prefix_learnAll 30 h.first (namedKeys e.server.tracks)
  refine ⟨h.announceAll 30 (namedKeys e.server.tracks), ?_, hall⟩
  exact
    { client := hs.client
      server := ((hs.server.subscribeTracks lib e.server.tracks).1 hanswers).1
      clientLive := hs.clientLive
      serverLive := ⟨hs.serverLive.1, Or.inl (hanswers.of_streams rfl rfl)⟩
      turns := hturns
      serverTable := htable
      clientTable := hs.clientTable
      down_eq := by
        rw [List.filterMap_append, hs.down_eq, hmessages]
        rfl
      up_eq := hs.up_eq
      down_ok := List.forall_mem_append.mpr ⟨hs.down_ok, fun m hm => (hok m hm).1⟩
      up_ok := hs.up_ok
      handed := hs.handed
      guest := fun hguest => by
        obtain ⟨hc, hup, hdown⟩ := hs.guest hguest
        exact ⟨hc, hup, List.forall_mem_append.mpr ⟨hdown, announces_ne_none hmessages⟩⟩
      approved := fun happroved => by
        obtain ⟨hsub, hresponse⟩ := hs.approved happroved
        exact ⟨fun k hk => hmore.subset (hsub hk), hresponse.imp_right (List.mem_append_left _)⟩
      answered := hs.answered
      asked := hs.asked }

/-- The server approves the client. -/
theorem approve (hs : Shaking e q r greeted up down c d h) (lib : FecLib) (hanswers : d.Answers)
    (hknown : namedKeys e.server.tracks ⊆ h.first) :
    Shaking e q (r.call lib (.respondAuth e.serverPtr true)).1 greeted up
      (down ++ [.authResponse 1])
      c { d with authenticated := true } h.handOver where
  client := hs.client
  server := (hs.server.approve lib hanswers).1
  clientLive := hs.clientLive
  serverLive := ⟨hs.serverLive.1, Or.inl (hanswers.of_streams rfl rfl)⟩
  turns := hs.turns.handOver hknown
  serverTable := hs.serverTable
  clientTable := hs.clientTable
  down_eq := by
    rw [List.filterMap_append, hs.down_eq]
    rfl
  up_eq := hs.up_eq
  down_ok := List.forall_mem_append.mpr ⟨hs.down_ok, List.forall_mem_singleton.mpr rfl⟩
  up_ok := hs.up_ok
  handed := hs.handed
  guest hguest := absurd hguest (by simp)
  approved _ := ⟨hknown, Or.inr (List.mem_append_right down List.mem_cons_self)⟩
  answered := hs.answered
  asked _ := Or.inl rfl

/-- The token was answered. -/
theorem dropAuth {token : Bytes} (hs : Shaking e q r greeted (.auth token :: up) down c d h)
    (happroved : d.authenticated = true) : Shaking e q r greeted up down c d h :=
  { hs with
    up_eq := hs.up_eq
    up_ok := (List.forall_mem_cons.mp hs.up_ok).2
    guest := fun hguest => absurd (happroved.symm.trans hguest) (by decide)
    asked := fun _ => Or.inl happroved }

/-- The server gets to know a track of the client. -/
theorem learnServer {trackAlias : UInt8} {track : MoqTrackId}
    (hs : Shaking e q r greeted (.subscribe trackAlias track :: up) down c d h) :
    ∃ h', Shaking e q (r.setConn (d.learns trackAlias track)) greeted up down c
      (d.learns trackAlias track) h' := by
  obtain ⟨hproper, hok⟩ := List.forall_mem_cons.mp hs.up_ok
  have happroved : d.authenticated = true := by
    by_contra hnot
    have hfirst := (hs.guest (by simpa using hnot)).2.1 _ List.mem_cons_self
    exact absurd hfirst (by simp)
  -- whatever becomes of the table, the rest of the invariant stays
  have hserver : ∀ {s : Subscriptions} {h' : Turns TrackKey},
      h'.Ordered 30 (namedKeys e.server.tracks) (namedKeys e.client.tracks) →
      NumbersNamed s h'.first → up.filterMap (·.announces) = h'.toFirst.map some →
      h'.second = h.second → h'.toSecond = h.toSecond → h'.handed = h.handed →
      h.first ⊆ h'.first →
      Shaking e q (r.setConn { d with subscriptions := s }) greeted up down c
        { d with subscriptions := s } h' := by
    intro s h' hturns htable hup hsecond htoSecond hhanded hmore
    exact
      { client := hs.client
        server := hs.server.setConn hs.server.ptr_eq
        clientLive := hs.clientLive
        serverLive := ⟨hs.serverLive.1, hs.serverLive.2.imp_left fun ha => ha.of_streams rfl rfl⟩
        turns := hturns
        serverTable := htable
        clientTable := hsecond ▸ hs.clientTable
        down_eq := hs.down_eq.trans htoSecond.symm
        up_eq := hup
        down_ok := hs.down_ok
        up_ok := hok
        handed := hhanded.trans hs.handed
        guest := fun hguest => absurd (happroved.symm.trans hguest) (by decide)
        approved := fun ha => ⟨fun k hk => hmore ((hs.approved ha).1 hk), (hs.approved ha).2⟩
        answered := fun ha => hsecond ▸ hs.answered ha
        asked := fun _ => Or.inl happroved }
  have hup := hs.up_eq
  rcases SubscribesProperly.cases hproper with
    ⟨hnone, hkey, halias⟩ | ⟨n, hsome, halias, hnamed, hkey⟩
  · rw [List.filterMap_cons_none hnone] at hup
    refine ⟨h, hserver hs.turns ?_ hup rfl rfl rfl (List.Subset.refl _)⟩
    rw [halias]
    exact hs.serverTable.addUnnamed hkey hs.length_first
  -- the announced number is the next one in the server's numbering, or one it has
  · rw [List.filterMap_cons_some hsome] at hup
    obtain ⟨m, rest, htoFirst, hm, hrest⟩ := List.map_eq_cons_iff.mp hup.symm
    obtain rfl := Option.some.inj hm
    obtain ⟨hturns, hnumber⟩ := hs.turns.learnFirst htoFirst
    have hnew : track.key ∉ h.first → h.first.length < 30 :=
      length_lt_of_subset (room e) hs.turns.agree.nodup_left hs.turns.known.1 hkey
    refine ⟨h.learnFirst 30 track.key rest, hserver hturns ?_ hrest.symm rfl rfl rfl
      (prefix_learn 30 h.first track.key).subset⟩
    exact hs.serverTable.addSubscription hnamed hnew hs.length_first (hnumber ▸ halias)

/-- The client gets to know a track of the server. -/
theorem learnClient {trackAlias : UInt8} {track : MoqTrackId}
    (hs : Shaking e q r greeted up (.subscribe trackAlias track :: down) c d h) :
    ∃ h', Shaking e (q.setConn (c.learns trackAlias track)) r greeted up down
      (c.learns trackAlias track) d h' := by
  obtain ⟨hproper, hok⟩ := List.forall_mem_cons.mp hs.down_ok
  -- whatever becomes of the table, the rest of the invariant stays
  have hclient : ∀ {s : Subscriptions} {h' : Turns TrackKey},
      h'.Ordered 30 (namedKeys e.server.tracks) (namedKeys e.client.tracks) →
      NumbersNamed s h'.second → down.filterMap (·.announces) = h'.toSecond →
      h'.first = h.first → h'.toFirst = h.toFirst → h'.handed = h.handed →
      h.second ⊆ h'.second →
      Shaking e (q.setConn { c with subscriptions := s }) r greeted up down
        { c with subscriptions := s } d h' := by
    intro s h' hturns htable hdown hfirst htoFirst hhanded hmore
    exact
      { client := hs.client.setConn hs.client.ptr_eq
        server := hs.server
        clientLive := ⟨hs.clientLive.1, hs.clientLive.2.of_streams rfl rfl⟩
        serverLive := hs.serverLive
        turns := hturns
        serverTable := hfirst ▸ hs.serverTable
        clientTable := htable
        down_eq := hdown
        up_eq := htoFirst ▸ hs.up_eq
        down_ok := hok
        up_ok := hs.up_ok
        handed := hhanded.trans hs.handed
        guest := fun hguest => (hs.guest hguest).imp_right fun hor =>
          hor.imp_right fun hall => (List.forall_mem_cons.mp hall).2
        approved := fun ha => by
          obtain ⟨hsub, hresponse⟩ := hs.approved ha
          refine ⟨hfirst ▸ hsub, hresponse.imp_right fun hmem => ?_⟩
          exact (List.mem_cons.mp hmem).resolve_left (by simp)
        answered := fun ha k hk => hmore (hs.answered ha hk)
        asked := hs.asked }
  have hdown := hs.down_eq
  rcases SubscribesProperly.cases hproper with
    ⟨hnone, hkey, halias⟩ | ⟨n, hsome, halias, hnamed, hkey⟩
  · rw [List.filterMap_cons_none hnone] at hdown
    refine ⟨h, hclient hs.turns ?_ hdown rfl rfl rfl (List.Subset.refl _)⟩
    rw [halias]
    exact hs.clientTable.addUnnamed hkey hs.length_second
  · rw [List.filterMap_cons_some hsome] at hdown
    obtain ⟨hturns, hnumber⟩ := hs.turns.learnSecond (room e) hdown.symm
    have hnew : track.key ∉ h.second → h.second.length < 30 :=
      length_lt_of_subset (room e) hs.turns.agree.nodup_right hs.turns.known.2 hkey
    refine ⟨h.learnSecond 30 track.key _, hclient hturns ?_ rfl rfl rfl rfl
      (prefix_learn 30 h.second track.key).subset⟩
    exact hs.clientTable.addSubscription hnamed hnew hs.length_second (hnumber ▸ halias)

/-- The client is told that it was approved, and announces its tracks. -/
theorem authComplete (hs : Shaking e q r greeted up (.authResponse 1 :: down) c d h)
    (lib : FecLib) :
    ∃ h', Shaking e
      ((q.setConn { c with authenticated := true }).calls lib (subscribeToTracks e.client)).1 r
        greeted
      (up ++ (subscribeAll c.subscriptions e.client.tracks).2) down
      { c with
        authenticated := true
        subscriptions := (subscribeAll c.subscriptions e.client.tracks).1 } d h' := by
  have hroom := room e
  have hdown := hs.down_eq
  rw [List.filterMap_cons_some
    (show (ControlMessage.authResponse 1).announces = some none from rfl)]
    at hdown
  -- all that the server announced has come, so the client goes on with its numbering
  have htaken := hs.turns.takeOver hdown.symm
  obtain ⟨htable, hmessages, hok⟩ := hs.clientTable.subscribeAll hroom hs.turns.agree.nodup_right
    hs.turns.known.2 (fun _ ht => ht) (List.subset_append_right _ _)
  obtain ⟨hturns, hall⟩ := htaken.answerAll hroom rfl (List.Subset.refl _)
  have hlive := hs.clientLive.2
  have happroved : d.authenticated = true := by
    by_contra hnot
    exact (hs.guest (by simpa using hnot)).2.2 _ List.mem_cons_self rfl
  have hset : (q.setConn { c with authenticated := true }).HasConn false e.clientPtr
      { c with authenticated := true } := hs.client.setConn hs.client.ptr_eq
  refine ⟨(h.takeOver (down.filterMap ControlMessage.announces)).answerAll 30
    (namedKeys e.client.tracks), ?_⟩
  exact
    { client := ((hset.subscribeTracks lib e.client.tracks).1 (hlive.of_streams rfl rfl)).1
      server := hs.server
      clientLive := ⟨hs.clientLive.1, hlive.of_streams rfl rfl⟩
      serverLive := hs.serverLive
      turns := hturns
      serverTable := hs.serverTable
      clientTable := htable
      down_eq := rfl
      up_eq := by
        rw [List.filterMap_append, hs.up_eq, hmessages, ← List.map_append]
        rfl
      down_ok := (List.forall_mem_cons.mp hs.down_ok).2
      up_ok := List.forall_mem_append.mpr ⟨hs.up_ok, fun m hm => (hok m hm).2.1⟩
      handed := rfl
      guest := fun hguest => absurd (happroved.symm.trans hguest) (by decide)
      approved := fun ha => ⟨(hs.approved ha).1, Or.inl rfl⟩
      answered := fun _ => hall
      asked := fun _ => Or.inl happroved }

/-! What does not concern the control stream of an end. -/

theorem of_client (hs : Shaking e q r greeted up down c d h) {q' : Transport} {c' : Conn}
    (hconn : q'.HasConn false e.clientPtr c') (hclosing : c'.closing = c.closing)
    (hauth : c'.authenticated = c.authenticated)
    (hviews : c'.subscriptions.views = c.subscriptions.views) (hanswers : c'.Answers) :
    Shaking e q' r greeted up down c' d h :=
  { hs with
    client := hconn
    clientLive := ⟨hclosing.trans hs.clientLive.1, hanswers⟩
    clientTable := hs.clientTable.of_views hviews
    handed := hs.handed.trans hauth.symm
    guest := fun hguest => by
      rw [hauth]
      exact hs.guest hguest
    approved := fun ha => by
      rw [hauth]
      exact hs.approved ha
    answered := fun ha => hs.answered (hauth ▸ ha) }

theorem of_server (hs : Shaking e q r greeted up down c d h) {r' : Transport} {d' : Conn}
    (hconn : r'.HasConn true e.serverPtr d') (hclosing : d'.closing = d.closing)
    (hauth : d'.authenticated = d.authenticated)
    (hviews : d'.subscriptions.views = d.subscriptions.views)
    (hanswers : d'.Answers ∨ (d'.stream = none ∧ d'.findStream 0 = none)) :
    Shaking e q r' greeted up down c d' h :=
  { hs with
    server := hconn
    serverLive := ⟨hclosing.trans hs.serverLive.1, hanswers⟩
    serverTable := hs.serverTable.of_views hviews
    guest := fun hguest => hs.guest (hauth ▸ hguest)
    approved := fun ha => hs.approved (hauth ▸ ha)
    asked := fun ha => by
      rw [hauth]
      exact hs.asked ha }

end Shaking

end Bishlink
