import Bishlink.ControlCodec

/-!
# From the calls at one end to the messages at the other

`bytesOf` are the bytes that accepted calls write to the control stream,
`receiveChunks` is the other end as the bytes arrive. The receive loop is `Framing.drain` of
the parser as long as the gate is open (`parseControlMessages_drain`), so what it recognises is
known from the codec.
-/

namespace Bishlink

open ByteCodec Framing

/-! ## Calls -/

/-- A call that writes a message to the control stream of a connection. The count of a NACK
is a `uint16_t`. -/
inductive ControlCall where
  | subscribe (track : MoqTrackId)
  | requestKeyframe (track : MoqTrackId)
  | sendUnicast (data : Bytes)
  | sendAuth (token : Bytes)
  | approve
  | sendNack (trackAlias : UInt8) (groupId objectId : UInt32) (missing : List UInt16)
    (count_lt : missing.length < 65536)

/-- The call on a connection: whether it is accepted, and what it does. -/
def ControlCall.run (c : Conn) : ControlCall → Bool × Conn × List Effect
  | .subscribe track => if c.controlOpen then (true, subscribeConn c track) else (false, c, [])
  | .requestKeyframe track =>
    if c.controlOpen then (true, c, writeTrackMessage c 0x06 0 track) else (false, c, [])
  | .sendUnicast data => ((transportSendUnicast c data).1, c, (transportSendUnicast c data).2)
  | .sendAuth token => ((transportSendAuth c token).1, c, (transportSendAuth c token).2)
  | .approve => transportRespondAuth c true
  | .sendNack trackAlias groupId objectId missing _ =>
    (c.controlOpen, c, Bishlink.sendNack c trackAlias groupId objectId (missing.map (·.toNat)))

/-- The message of a call. -/
def ControlCall.message (c : Conn) : ControlCall → ControlMessage
  | .subscribe track => .subscribe (subscribeAlias c.subscriptions track) track
  | .requestKeyframe track => .keyframeRequest 0 track
  | .sendUnicast data => .unicast data
  | .sendAuth token => .auth token
  | .approve => .authResponse 1
  | .sendNack trackAlias groupId objectId missing _ => .nack trackAlias groupId objectId missing

/-- What effects write to a stream. -/
def writtenTo (sid : ℕ) (o : List Effect) : Bytes :=
  o.flatMap fun e =>
    match e with
    | .streamWrite _ s bytes => if s = sid then bytes else []
    | _ => []

theorem writtenTo_append (sid : ℕ) (o o' : List Effect) :
    writtenTo sid (o ++ o') = writtenTo sid o ++ writtenTo sid o' :=
  List.flatMap_append

theorem writtenTo_writeControl {c : Conn} {sid : ℕ} (h : c.stream = some sid) (bytes : Bytes) :
    writtenTo sid (c.writeControl bytes) = bytes := by
  simp [Conn.writeControl, h, writtenTo]

theorem writtenTo_writeTrackMessage {c : Conn} {sid : ℕ} (h : c.stream = some sid)
    (type trackAlias : UInt8) (track : MoqTrackId) :
    writtenTo sid (writeTrackMessage c type trackAlias track) =
      encodeTrackMessage type trackAlias track := by
  rw [writeTrackMessage, writtenTo_append, writtenTo_writeControl h, encodeTrackMessage]
  split
  · rw [writtenTo_writeControl h]
  · rename_i hempty
    have hnil : track.name.bytes = [] := List.eq_nil_of_length_eq_zero (by omega)
    rw [hnil]
    rfl

/-- An accepted call writes its message, encoded. -/
theorem ControlCall.written {c : Conn} {sid : ℕ} (h : c.stream = some sid) {call : ControlCall}
    (haccepted : (call.run c).1 = true) :
    writtenTo sid (call.run c).2.2 = (call.message c).encode := by
  cases call with
  | subscribe track =>
    simp only [run] at haccepted ⊢
    split at haccepted
    · rename_i hopen
      rw [if_pos hopen]
      exact writtenTo_writeTrackMessage h _ _ _
    · simp at haccepted
  | requestKeyframe track =>
    simp only [run] at haccepted ⊢
    split at haccepted
    · rename_i hopen
      rw [if_pos hopen]
      exact writtenTo_writeTrackMessage h _ _ _
    · simp at haccepted
  | sendUnicast data =>
    simp only [run, transportSendUnicast] at haccepted ⊢
    split at haccepted
    · rename_i hopen
      rw [if_pos hopen]
      rw [writtenTo_append, writtenTo_writeControl h, writtenTo_writeControl h]
      rfl
    · simp at haccepted
  | sendAuth token =>
    simp only [run, transportSendAuth] at haccepted ⊢
    split at haccepted
    · simp at haccepted
    split at haccepted
    · simp at haccepted
    rename_i hopen hlen
    rw [if_neg hopen, if_neg hlen]
    rw [writtenTo_append, writtenTo_writeControl h]
    split
    · rw [writtenTo_writeControl h]
      rfl
    · rename_i hempty
      -- an empty token is not written
      have hnil : token = [] := List.eq_nil_of_length_eq_zero (by omega)
      rw [hnil]
      rfl
  | approve =>
    simp only [run, transportRespondAuth] at haccepted ⊢
    split at haccepted
    · simp at haccepted
    · rename_i hopen
      rw [if_neg hopen]
      exact writtenTo_writeControl h _
  | sendNack trackAlias groupId objectId missing hcount =>
    simp only [run] at haccepted ⊢
    rw [Bishlink.sendNack, if_pos haccepted, writtenTo_writeControl h]
    simp [message, ControlMessage.encode, List.flatMap_map]

/-- Calls, each with the connection it finds: all are accepted, on one control stream. What
else happens at this end between the calls is left open. -/
def Accepted (sid : ℕ) (calls : List (Conn × ControlCall)) : Prop :=
  ∀ p ∈ calls, p.1.stream = some sid ∧ (p.2.run p.1).1 = true

/-- The bytes of calls on the control stream. -/
def bytesOf (sid : ℕ) (calls : List (Conn × ControlCall)) : Bytes :=
  calls.flatMap fun p => writtenTo sid (p.2.run p.1).2.2

/-- The messages of calls. -/
def messagesOf (calls : List (Conn × ControlCall)) : List ControlMessage :=
  calls.map fun p => p.2.message p.1

/-- The limits of the parser, on calls. -/
def ControlCall.Bounded : ControlCall → Prop
  | .sendUnicast data => data.length ≤ MAX_CONTROL_PAYLOAD
  | .sendNack _ _ _ missing _ => missing.length ≤ 256
  | _ => True

theorem ControlCall.bounded_message (c : Conn) (call : ControlCall) :
    (call.message c).Bounded ↔ call.Bounded := by
  cases call <;> exact Iff.rfl

/-- A message of an accepted call within the limits can be found again. -/
theorem ControlCall.encodable {c : Conn} {call : ControlCall} (haccepted : (call.run c).1 = true)
    (h : call.Bounded) : (call.message c).Encodable := by
  cases call with
  | sendAuth token =>
    simp only [run, transportSendAuth] at haccepted
    split at haccepted
    · simp at haccepted
    split at haccepted
    · simp at haccepted
    · rename_i hlen
      exact Nat.le_of_not_lt hlen
  | sendUnicast data => exact h
  | sendNack trackAlias groupId objectId missing hcount => exact h
  | _ => trivial

/-- Accepted calls write their messages one after the other. -/
theorem bytesOf_eq {sid : ℕ} {calls : List (Conn × ControlCall)} (h : Accepted sid calls) :
    bytesOf sid calls = (messagesOf calls).flatMap (·.encode) := by
  induction calls with
  | nil => rfl
  | cons p calls ih =>
    obtain ⟨hstream, haccepted⟩ := h p List.mem_cons_self
    have hrest := ih fun q hq => h q (List.mem_cons_of_mem p hq)
    rw [bytesOf] at hrest ⊢
    rw [List.flatMap_cons, ControlCall.written hstream haccepted, hrest]
    rfl

theorem messagesOf_bounded (calls : List (Conn × ControlCall)) :
    (∀ m ∈ messagesOf calls, m.Bounded) ↔ ∀ p ∈ calls, p.2.Bounded := by
  simp only [messagesOf, List.forall_mem_map, ControlCall.bounded_message]

theorem messagesOf_encodable {sid : ℕ} {calls : List (Conn × ControlCall)}
    (h : Accepted sid calls) (hbounded : ∀ p ∈ calls, p.2.Bounded) :
    ∀ m ∈ messagesOf calls, m.Encodable := by
  rw [messagesOf, List.forall_mem_map]
  exact fun p hp => ControlCall.encodable (h p hp).2 (hbounded p hp)

/-! ## Receiving -/

/-- The other end as the chunks of the stream arrive. -/
def receiveChunks (lib : FecLib) (io : ℕ → ℕ → ControlIO) (sid : ℕ) :
    Transport → Conn → List Bytes → ControlLoop
  | t, c, [] => ⟨t, c, [], []⟩
  | t, c, chunk :: chunks =>
    let r := onReceiveControl lib (io chunks.length) sid t c chunk
    let q := receiveChunks lib io sid r.transport r.conn chunks
    { q with messages := r.messages ++ q.messages, effects := r.effects ++ q.effects }

/-- A server that has authenticated the peer, or a client. -/
def GateOpen (t : Transport) (c : Conn) : Prop := (t.isServer && !c.authenticated) = false

/-- With the gate open, the parser is the same at all times. -/
theorem GateOpen.parse_eq {t : Transport} {c : Conn} (h : GateOpen t c) :
    parseControlMessage t.isServer c.authenticated = parseControlMessage false true := by
  rw [GateOpen] at h
  cases hserver : t.isServer <;> cases hauth : c.authenticated
  · rfl
  · rfl
  · simp [hserver, hauth] at h
  · rfl

/-- A NACK only changes the cache of contexts. -/
theorem handleControlMessage_nack (lib : FecLib) (io : ControlIO) (t : Transport) (c : Conn)
    (trackAlias : UInt8) (groupId objectId : UInt32) (missing : List UInt16) :
    ∃ cache effects, handleControlMessage lib io t c (.nack trackAlias groupId objectId missing) =
      ({ t with fecCache := cache }, c, effects) := by
  rw [handleControlMessage]
  cases findSubscriptionByAlias c.subscriptions trackAlias io.uninitTrack with
  | none => exact ⟨t.fecCache, [], rfl⟩
  | some track =>
    dsimp only
    cases t.sentCache.find track groupId objectId with
    | none => exact ⟨t.fecCache, [], rfl⟩
    | some found => exact ⟨_, _, rfl⟩

/-- Handling a message keeps the gate open, and leaves the streams and the state of the
connection alone. -/
theorem handleControlMessage_frame (lib : FecLib) (io : ControlIO) (t : Transport) (c : Conn)
    (m : ControlMessage) :
    let r := handleControlMessage lib io t c m
    (GateOpen t c → GateOpen r.1 r.2.1) ∧ r.2.1.streams = c.streams ∧
      r.2.1.closing = c.closing := by
  cases m with
  | authResponse status =>
    simp only [handleControlMessage]
    refine ⟨fun h => ?_, trivial, trivial⟩
    rw [GateOpen] at h ⊢
    cases hserver : t.isServer with
    | false => rfl
    | true =>
      have hauth : c.authenticated = true := by simpa [hserver] using h
      simp [hauth]
  | data trackAlias payload =>
    simp only [handleControlMessage]
    split <;> exact ⟨id, rfl, rfl⟩
  | nack trackAlias groupId objectId missing =>
    obtain ⟨cache, effects, hnack⟩ :=
      handleControlMessage_nack lib io t c trackAlias groupId objectId missing
    rw [hnack]
    exact ⟨id, rfl, rfl⟩
  | _ => exact ⟨id, rfl, rfl⟩

/-- The loop is the draining of the stream by the parser. -/
theorem parseControlMessages_drain (lib : FecLib) (io : ℕ → ControlIO) {sid fuel : ℕ}
    {t : Transport} {c : Conn} {s : Stream} (hstream : c.findStream sid = some s)
    (hopen : GateOpen t c) :
    let d := drainFuel (parseControlMessage false true) fuel s.ingress
    let q := parseControlMessages lib io sid fuel t c
    q.messages = d.items ∧ q.conn.findStream sid = some { s with ingress := d.rest } ∧
      q.conn.closing = (c.closing || d.stopped.isSome) ∧ GateOpen q.transport q.conn := by
  -- the loop and the drain take the same message in each round
  induction fuel generalizing t c s with
  | zero =>
    refine ⟨rfl, ?_, ?_, hopen⟩
    · exact hstream
    · simp [parseControlMessages, drainFuel]
  | succ fuel ih =>
    rw [parseControlMessages, drainFuel]
    simp only [hstream, controlIteration, recognised, hopen.parse_eq]
    cases hparse : parseControlMessage false true s.ingress with
    | more =>
      refine ⟨rfl, hstream, ?_, hopen⟩
      exact (Bool.or_false _).symm
    | stop r =>
      refine ⟨rfl, hstream, ?_, hopen⟩
      exact (Bool.or_true _).symm
    | item m n =>
      dsimp only
      rw [if_pos rfl]
      obtain ⟨hgate, hstreams, hclosing⟩ := handleControlMessage_frame lib (io fuel) t c m
      generalize handleControlMessage lib (io fuel) t c m = r at hgate hstreams hclosing
      have hfind : (r.2.1.shift sid n).findStream sid =
          some { s with ingress := s.ingress.drop n } := by
        rw [Conn.shift, Conn.findStream_updateStream (f := fun s =>
          { s with ingress := s.ingress.drop n }) fun _ => rfl, Conn.findStream, hstreams]
        show Option.map _ (c.findStream sid) = _
        rw [hstream]
        rfl
      obtain ⟨hmsgs, hrest, hclose, hopen'⟩ := ih hfind (hgate hopen)
      refine ⟨?_, hrest, ?_, hopen'⟩
      · rw [hmsgs]
        rfl
      · rw [hclose]
        show (r.2.1.closing || _) = _
        rw [hclosing]
        rfl

/-- A chunk arrives at the control stream: the bytes left over and the chunk are drained. -/
theorem onReceiveControl_drain (lib : FecLib) (io : ℕ → ControlIO) {sid : ℕ} {t : Transport}
    {c : Conn} {s : Stream} (hstream : c.findStream sid = some s) (hopen : GateOpen t c)
    (chunk : Bytes) :
    let d := drain (parseControlMessage false true) (s.ingress ++ chunk)
    let q := onReceiveControl lib io sid t c chunk
    q.messages = d.items ∧ q.conn.findStream sid = some { s with ingress := d.rest } ∧
      q.conn.closing = (c.closing || d.stopped.isSome) ∧ GateOpen q.transport q.conn := by
  have hfind : (c.receive sid chunk).findStream sid =
      some { s with ingress := s.ingress ++ chunk } := by
    rw [Conn.receive, Conn.findStream_updateStream (f := fun s =>
      { s with ingress := s.ingress ++ chunk }) fun _ => rfl, hstream]
    rfl
  have hrecv : GateOpen t (c.receive sid chunk) := hopen
  rw [onReceiveControl]
  simp only [hfind]
  exact parseControlMessages_drain lib io hfind hrecv

/-- A parser that has refused stays so. -/
theorem stopped_of_feed {parse : Bytes → ControlParse} {d : Drained ControlMessage String}
    {chunk : Bytes} (h : (d.feed parse chunk).stopped = none) : d.stopped = none := by
  cases hd : d.stopped with
  | none => rfl
  | some r => simp [Drained.feed, hd] at h

theorem stopped_of_foldl_feed {parse : Bytes → ControlParse} {d : Drained ControlMessage String}
    {chunks : List Bytes} (h : (chunks.foldl (Drained.feed parse) d).stopped = none) :
    d.stopped = none := by
  induction chunks generalizing d with
  | nil => exact h
  | cons chunk chunks ih => exact stopped_of_feed (ih h)

/-- The chunks arrive: as long as the parser refuses nothing, the end recognises what is fed. -/
theorem receiveChunks_feed (lib : FecLib) (io : ℕ → ℕ → ControlIO) {sid : ℕ} {t : Transport}
    {c : Conn} {s : Stream} {d : Drained ControlMessage String} {chunks : List Bytes}
    (hstream : c.findStream sid = some s) (hopen : GateOpen t c) (hrest : s.ingress = d.rest)
    (hstopped : (chunks.foldl (Drained.feed (parseControlMessage false true)) d).stopped = none) :
    let e := chunks.foldl (Drained.feed (parseControlMessage false true)) d
    let q := receiveChunks lib io sid t c chunks
    d.items ++ q.messages = e.items ∧ q.conn.findStream sid = some { s with ingress := e.rest } ∧
      q.conn.closing = c.closing := by
  induction chunks generalizing t c s d with
  | nil => exact ⟨by simp [receiveChunks], by simp [receiveChunks, hstream, ← hrest], rfl⟩
  | cons chunk chunks ih =>
    have hfed : (d.feed (parseControlMessage false true) chunk).stopped = none :=
      stopped_of_foldl_feed hstopped
    have hd : d.stopped = none := stopped_of_feed hfed
    have hfeed : d.feed (parseControlMessage false true) chunk =
        (drain (parseControlMessage false true) (s.ingress ++ chunk)).prepend d.items := by
      rw [Drained.feed, hd, hrest]
    obtain ⟨hmsgs, hfind, hclosing, hopen'⟩ :=
      onReceiveControl_drain lib (io chunks.length) hstream hopen chunk
    rw [hfeed] at hfed
    have hlive : (drain (parseControlMessage false true) (s.ingress ++ chunk)).stopped = none :=
      hfed
    obtain ⟨hmsgs', hfind', hclosing'⟩ := ih (d := d.feed (parseControlMessage false true) chunk)
      hfind hopen' (by rw [hfeed]; rfl) hstopped
    refine ⟨?_, hfind', ?_⟩
    · simp only [receiveChunks, List.foldl_cons]
      rw [← hmsgs', hfeed, hmsgs, ← List.append_assoc]
      rfl
    · simp only [receiveChunks]
      rw [hclosing', hclosing, hlive]
      simp

/-- Whatever a loop recognises keeps the limits. -/
theorem parseControlMessages_bounded (lib : FecLib) (io : ℕ → ControlIO) {sid fuel : ℕ}
    {t : Transport} {c : Conn} :
    ∀ m ∈ (parseControlMessages lib io sid fuel t c).messages, m.Bounded := by
  induction fuel generalizing t c with
  | zero => simp [parseControlMessages]
  | succ fuel ih =>
    simp only [parseControlMessages]
    split
    · simp
    rename_i s hs
    split
    · intro m hm
      rcases List.mem_append.mp hm with hm | hm
      · rw [recognised] at hm
        split at hm
        · rename_i hparse
          rw [List.mem_singleton.mp hm]
          exact (parseControlMessage_item hparse).2.2
        · simp at hm
      · exact ih m hm
    · simp

/-! ## The channel -/

/-- The end recognised these messages, consumed every byte, and did not close. -/
structure DecodesExactly (q : ControlLoop) (sid : ℕ) (ms : List ControlMessage) : Prop where
  messages : q.messages = ms
  consumed : (q.conn.findStream sid).map (·.ingress) = some []
  live : q.conn.closing = false

/-- Whatever an end recognises keeps the limits. -/
theorem receiveChunks_bounded (lib : FecLib) (io : ℕ → ℕ → ControlIO) {rid : ℕ} {t : Transport}
    {c : Conn} {chunks : List Bytes} :
    ∀ m ∈ (receiveChunks lib io rid t c chunks).messages, m.Bounded := by
  induction chunks generalizing t c with
  | nil => simp [receiveChunks]
  | cons chunk chunks ih =>
    intro m hm
    rcases List.mem_append.mp hm with hm | hm
    · rw [onReceiveControl] at hm
      split at hm
      · simp at hm
      · exact parseControlMessages_bounded lib _ m hm
    · exact ih m hm

/-- However the bytes of accepted calls are cut, the other end gets exactly their messages: this
is so when and only when the payloads of unicast calls and the index lists of NACKs keep the
limits of the parser. -/
theorem controlChannel_iff (lib : FecLib) (io : ℕ → ℕ → ControlIO) (sid rid : ℕ)
    (calls : List (Conn × ControlCall)) (haccepted : Accepted sid calls)
    (t : Transport) (receiver : Conn) (s : Stream) (hstream : receiver.findStream rid = some s)
    (hempty : s.ingress = []) (hlive : receiver.closing = false) (hopen : GateOpen t receiver) :
    (∀ chunks : List Bytes, chunks.flatten = bytesOf sid calls →
      DecodesExactly (receiveChunks lib io rid t receiver chunks) rid (messagesOf calls)) ↔
      ∀ p ∈ calls, p.2.Bounded := by
  have hstable := parseControlMessage_stable false true
  constructor
  · intro h
    rw [← messagesOf_bounded, ← (h [bytesOf sid calls] (by simp)).messages]
    exact receiveChunks_bounded lib io
  · intro hbounded chunks hchunks
    have hframes : ∀ m ∈ messagesOf calls,
        parseControlMessage false true m.encode = .item m m.encode.length := fun m hm =>
      parseControlMessage_encode (messagesOf_encodable haccepted hbounded m hm) rfl
    have hdrain : feedAll (parseControlMessage false true) chunks =
        ⟨messagesOf calls, [], none⟩ := by
      rw [feedAll_eq_drain hstable rfl, hchunks, bytesOf_eq haccepted,
        drain_frames hstable rfl hframes]
    rw [feedAll] at hdrain
    have hfeed := receiveChunks_feed lib io (d := ⟨[], [], none⟩) hstream hopen hempty
      (by rw [hdrain])
    rw [hdrain] at hfeed
    obtain ⟨hmsgs, hfind, hclosing⟩ := hfeed
    exact ⟨hmsgs, by rw [hfind]; rfl, hclosing.trans hlive⟩

/-- An end whose control stream is stream 0. -/
def controlEnd : Conn :=
  { Conn.zero 1 with stream := some 0, streams := [⟨0, true, false, 0, [], true⟩] }

/-- A subscription and a NACK. -/
def smallCalls : List (Conn × ControlCall) :=
  [(controlEnd, .subscribe ⟨MOQ_TRACK_DATA, 0, TrackName.ofBuffer [97]⟩),
    (controlEnd, .sendNack 8 1 2 [0, 3] (by decide))]

/-- They arrive at a client, cut within the first message. -/
theorem controlChannel_small :
    DecodesExactly
      (receiveChunks FecLib.unavailable (fun _ _ => ⟨MoqTrackId.zero, 0, fun _ => 0⟩) 0
        (Transport.init false [] 1280) controlEnd
        [(bytesOf 0 smallCalls).take 3, (bytesOf 0 smallCalls).drop 3]) 0
      [.subscribe 8 ⟨MOQ_TRACK_DATA, 0, TrackName.ofBuffer [97]⟩, .nack 8 1 2 [0, 3]] :=
  (controlChannel_iff FecLib.unavailable (fun _ _ => ⟨MoqTrackId.zero, 0, fun _ => 0⟩) 0 0
    smallCalls (by
      simp [Accepted, smallCalls, controlEnd, ControlCall.run, Conn.controlOpen, Conn.sendOpen,
        Conn.findStream])
    (Transport.init false [] 1280) controlEnd ⟨0, true, false, 0, [], true⟩ rfl rfl rfl rfl).mpr
    (by simp [smallCalls, ControlCall.Bounded]) _ (by simp)

/-- A unicast payload one byte above the limit of the parser is accepted by the sender, and does
not come out at the other end. -/
theorem unicast_lost :
    Accepted 0 [(controlEnd, .sendUnicast (List.replicate (MAX_CONTROL_PAYLOAD + 1) 0))] ∧
      ∃ chunks : List Bytes,
        chunks.flatten =
          bytesOf 0 [(controlEnd, .sendUnicast (List.replicate (MAX_CONTROL_PAYLOAD + 1) 0))] ∧
        ¬DecodesExactly
          (receiveChunks FecLib.unavailable (fun _ _ => ⟨MoqTrackId.zero, 0, fun _ => 0⟩) 0
            (Transport.init false [] 1280) controlEnd chunks) 0
          [.unicast (List.replicate (MAX_CONTROL_PAYLOAD + 1) 0)] := by
  refine ⟨?_, [_], List.flatten_singleton, fun h => ?_⟩
  · intro p hp
    rw [List.mem_singleton.mp hp]
    exact ⟨rfl, rfl⟩
  · have hbounded := receiveChunks_bounded FecLib.unavailable
      (fun _ _ => ⟨MoqTrackId.zero, 0, fun _ => 0⟩) _ (by
        rw [h.messages]
        exact List.mem_singleton_self _)
    rw [ControlMessage.Bounded, List.length_replicate] at hbounded
    omega

end Bishlink
