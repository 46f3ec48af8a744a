import Bishlink.System

/-!
# Receiving with the callback

`on_receive` whole: the receive loop of a stream with the callback in it. The application is a
function of the events it has seen; it answers each with calls of the transport, before the loop
goes on.

`Transport.setInput` replaces the bytes that wait on a stream. No call of the application looks
at them (`call_setInput`), so what it does commutes with more bytes arriving.
-/

namespace Bishlink

/-! ## Calls -/

/-- A call of the transport that an application can make. -/
inductive Call where
  | subscribe (track : MoqTrackId)
  | requestKeyframe (track : MoqTrackId)
  | publish (io : PublishIO) (obj : MoqObject)
  | sendUnicast (conn : ℕ) (data : Bytes)
  | sendAuth (conn : ℕ) (token : Bytes)
  | respondAuth (conn : ℕ) (success : Bool)
  | closeConn (conn : ℕ)

/-- The call as something that happens to the transport. -/
def Call.label : Call → Label
  | .subscribe track => .subscribe track
  | .requestKeyframe track => .requestKeyframe track
  | .publish io obj => .publish io obj
  | .sendUnicast conn data => .conn conn (.sendUnicast data)
  | .sendAuth conn token => .conn conn (.sendAuth token)
  | .respondAuth conn success => .conn conn (.respondAuth success)
  | .closeConn conn => .conn conn .closeConn

/-- A call; one for a connection that is not there does nothing. -/
def Transport.call (lib : FecLib) (t : Transport) (call : Call) : Transport × List Effect :=
  (transportStep lib t call.label).getD (t, [])

/-- Calls, one after the other. -/
def Transport.calls (lib : FecLib) : Transport → List Call → Transport × List Effect
  | t, [] => (t, [])
  | t, call :: calls =>
    let r := t.call lib call
    let q := Transport.calls lib r.1 calls
    (q.1, r.2 ++ q.2)

/-! ## Receiving -/

/-- An application: the calls it makes when it has seen these events, with their connections. -/
abbrev Application := List (ℕ × TransportEvent) → List Call

/-- A transport that receives, the events its application has seen, and how many iterations of
the loop were on whole messages. -/
structure Reception where
  transport : Transport
  seen : List (ℕ × TransportEvent)
  handled : ℕ

/-- The effects of an iteration: each event is a call of the callback. -/
def deliver (lib : FecLib) (app : Application) : Reception → List Effect → Reception × List Effect
  | q, [] => (q, [])
  | q, .event conn ev :: es =>
    let seen := q.seen ++ [(conn, ev)]
    let r := q.transport.calls lib (app seen)
    let d := deliver lib app { q with transport := r.1, seen := seen } es
    (d.1, .event conn ev :: r.2 ++ d.2)
  | q, e :: es =>
    let d := deliver lib app q es
    (d.1, e :: d.2)

/-- An iteration on stream `sid` of a connection, with the callback: what it leads to, what it
does, and whether the loop goes on. `iteration k` is the iteration after `k` whole messages. -/
def receiveStep (lib : FecLib) (app : Application)
    (iteration : ℕ → Transport → Conn → Stream → Iteration) (conn sid : ℕ) (q : Reception) :
    Reception × List Effect × Bool :=
  match q.transport.findConn conn with
  | none => (q, [], false)
  | some c =>
    match c.findStream sid with
    | none => (q, [], false)
    | some s =>
      let r := iteration q.handled q.transport c s
      let d := deliver lib app { q with transport := r.transport.setConn r.conn } r.effects
      if r.goesOn then ({ d.1 with handled := d.1.handled + 1 }, d.2, true)
      else (d.1, d.2, false)

/-- The loops of `parse_control_messages` and `parse_track_stream_messages`. -/
def receiveLoop (lib : FecLib) (app : Application)
    (iteration : ℕ → Transport → Conn → Stream → Iteration) (conn sid : ℕ) :
    (fuel : ℕ) → Reception → Reception × List Effect
  | 0, q => (q, [])
  | fuel + 1, q =>
    let r := receiveStep lib app iteration conn sid q
    if r.2.2 then
      let rest := receiveLoop lib app iteration conn sid fuel r.1
      (rest.1, r.2.1 ++ rest.2)
    else (r.1, r.2.1)

/-- One iteration of `parse_control_messages`; `io k` is what message `k` reads. -/
def controlStep (lib : FecLib) (io : ℕ → ControlIO) (k : ℕ) (t : Transport) (c : Conn)
    (s : Stream) : Iteration := controlIteration lib (io k) t c s.id s.ingress

/-- One iteration of `parse_track_stream_messages`. -/
def trackStep (_ : ℕ) (t : Transport) (c : Conn) (s : Stream) : Iteration := trackIteration t c s

/-- Change the stream `sid` of connection `conn`, if it is this one. -/
def Conn.updateAt (conn sid : ℕ) (f : Stream → Stream) (c : Conn) : Conn :=
  if c.ptr = conn then c.updateStream sid f else c

def Transport.updateStream (t : Transport) (conn sid : ℕ) (f : Stream → Stream) : Transport :=
  { t with conns := t.conns.map (Conn.updateAt conn sid f) }

/-- The reception with a stream changed. -/
def Reception.updateStream (q : Reception) (conn sid : ℕ) (f : Stream → Stream) : Reception :=
  { q with transport := q.transport.updateStream conn sid f }

/-- `on_receive`, the first part: the new bytes go behind those that wait. -/
def Reception.arrive (q : Reception) (conn sid : ℕ) (bytes : Bytes) : Reception :=
  q.updateStream conn sid fun s => { s with ingress := s.ingress ++ bytes }

/-- `on_receive`. Each message takes a byte at least, so there are no more iterations than bytes,
and one to stop. -/
def onReceive (lib : FecLib) (io : ℕ → ControlIO) (app : Application) (conn sid : ℕ)
    (q : Reception) (bytes : Bytes) : Reception × List Effect :=
  let q := q.arrive conn sid bytes
  match (q.transport.findConn conn).bind (·.findStream sid) with
  | none => (q, [])
  | some s =>
    let iteration := if s.isControl then controlStep lib io else trackStep
    receiveLoop lib app iteration conn sid (s.ingress.length + 1) q

/-- Bytes that arrive in chunks. -/
def receiveAll (lib : FecLib) (io : ℕ → ControlIO) (app : Application) (conn sid : ℕ)
    (q : Reception) (chunks : List Bytes) : Reception × List Effect :=
  chunks.foldl (fun r chunk =>
    let d := onReceive lib io app conn sid r.1 chunk
    (d.1, r.2 ++ d.2)) (q, [])

/-! ## Calls do not look at what waits on a stream -/

/-- A publish does not open the stream `sid` of connection `conn`: QUIC opens new streams, and this
one exists. -/
def Call.Spares (conn sid : ℕ) : Call → Prop
  | .publish io _ => io.openStream conn ≠ some sid
  | _ => True

section UpdateStream

variable {conn sid : ℕ} {f : Stream → Stream}

@[simp] theorem updateAt_ptr (c : Conn) : (c.updateAt conn sid f).ptr = c.ptr := by
  rw [Conn.updateAt]
  split <;> rfl

@[simp] theorem updateAt_closing (c : Conn) : (c.updateAt conn sid f).closing = c.closing := by
  rw [Conn.updateAt]
  split <;> rfl

@[simp] theorem updateAt_subscriptions (c : Conn) :
    (c.updateAt conn sid f).subscriptions = c.subscriptions := by
  rw [Conn.updateAt]
  split <;> rfl

@[simp] theorem updateAt_authenticated (c : Conn) :
    (c.updateAt conn sid f).authenticated = c.authenticated := by
  rw [Conn.updateAt]
  split <;> rfl

@[simp] theorem updateAt_stream (c : Conn) : (c.updateAt conn sid f).stream = c.stream := by
  rw [Conn.updateAt]
  split <;> rfl

/-- The fields beside the streams change independently of them. -/
theorem updateAt_with_subscriptions (c : Conn) (s : Subscriptions) :
    { c.updateAt conn sid f with subscriptions := s } =
      Conn.updateAt conn sid f { c with subscriptions := s } := by
  unfold Conn.updateAt
  dsimp only
  split <;> rfl

theorem updateAt_with_closing (c : Conn) (b : Bool) :
    { c.updateAt conn sid f with closing := b } =
      Conn.updateAt conn sid f { c with closing := b } := by
  unfold Conn.updateAt
  dsimp only
  split <;> rfl

theorem updateAt_with_authenticated (c : Conn) (b : Bool) :
    { c.updateAt conn sid f with authenticated := b } =
      Conn.updateAt conn sid f { c with authenticated := b } := by
  unfold Conn.updateAt
  dsimp only
  split <;> rfl

/-- Another stream is opened. -/
theorem updateStream_onStreamOpen (c : Conn) {sid' : ℕ} (h : sid' ≠ sid) (b : Bool) :
    onStreamOpen (c.updateStream sid f) sid' b = (onStreamOpen c sid' b).updateStream sid f := by
  unfold onStreamOpen Conn.updateStream
  dsimp only
  rw [List.map_append, List.map_singleton, if_neg h]

theorem findConn_updateStream (t : Transport) (conn' : ℕ) :
    (t.updateStream conn sid f).findConn conn' =
      (t.findConn conn').map (Conn.updateAt conn sid f) := by
  unfold Transport.findConn Transport.updateStream
  dsimp only
  rw [List.find?_map]
  congr 2
  funext c
  exact congrArg (· == conn') (updateAt_ptr c)

theorem setConn_updateAt (t : Transport) (c : Conn) :
    (t.updateStream conn sid f).setConn (c.updateAt conn sid f) =
      (t.setConn c).updateStream conn sid f := by
  unfold Transport.setConn Transport.updateStream
  dsimp only
  rw [List.map_map, List.map_map]
  congr 1
  refine List.map_congr_left fun x _ => ?_
  dsimp only [Function.comp]
  rw [updateAt_ptr, updateAt_ptr]
  split <;> rfl

/-- What happens to each connection by itself. -/
theorem map_updateAt {B : Conn → Conn × List Effect} {cs : List Conn}
    (hB : ∀ c ∈ cs, B (c.updateAt conn sid f) = ((B c).1.updateAt conn sid f, (B c).2)) :
    ((cs.map (Conn.updateAt conn sid f)).map B).map Prod.fst =
        ((cs.map B).map Prod.fst).map (Conn.updateAt conn sid f) ∧
      ((cs.map (Conn.updateAt conn sid f)).map B).flatMap Prod.snd =
        (cs.map B).flatMap Prod.snd := by
  have hmap : (cs.map (Conn.updateAt conn sid f)).map B =
      (cs.map B).map fun r => (r.1.updateAt conn sid f, r.2) := by
    rw [List.map_map, List.map_map]
    exact List.map_congr_left hB
  rw [hmap]
  constructor
  · rw [List.map_map, List.map_map, List.map_map, List.map_map]
    rfl
  · rw [List.flatMap_map]

/-- A change that no call looks at. -/
structure Unseen (f : Stream → Stream) : Prop where
  id_eq : ∀ s, (f s).id = s.id
  sendOpen_eq : ∀ s, (f s).sendOpen = s.sendOpen

theorem updateStream_sendOpen (hf : Unseen f) (c : Conn) (handle : Option ℕ) :
    (c.updateStream sid f).sendOpen handle = c.sendOpen handle := by
  cases handle with
  | none => rfl
  | some sid' =>
    unfold Conn.sendOpen
    dsimp only
    by_cases heq : sid' = sid
    · subst heq
      rw [Conn.findStream_updateStream hf.id_eq, Option.map_map]
      congr 2
      funext s
      exact hf.sendOpen_eq s
    · rw [Conn.findStream_updateStream_of_ne hf.id_eq heq]

theorem updateAt_sendOpen (hf : Unseen f) (c : Conn) (handle : Option ℕ) :
    (c.updateAt conn sid f).sendOpen handle = c.sendOpen handle := by
  unfold Conn.updateAt
  split
  · exact updateStream_sendOpen hf c handle
  · rfl

theorem updateAt_controlOpen (hf : Unseen f) (c : Conn) :
    (c.updateAt conn sid f).controlOpen = c.controlOpen := by
  rw [Conn.controlOpen, Conn.controlOpen, updateAt_stream, updateAt_sendOpen hf]

theorem updateAt_writeControl (c : Conn) (bytes : Bytes) :
    (c.updateAt conn sid f).writeControl bytes = c.writeControl bytes := by
  rw [Conn.writeControl, Conn.writeControl, updateAt_stream, updateAt_ptr]

/-! The calls on one connection. -/

theorem transportSendUnicast_updateAt (hf : Unseen f) (c : Conn) (data : Bytes) :
    transportSendUnicast (c.updateAt conn sid f) data = transportSendUnicast c data := by
  rw [transportSendUnicast, transportSendUnicast, updateAt_controlOpen hf, updateAt_writeControl,
    updateAt_writeControl]

theorem transportSendAuth_updateAt (hf : Unseen f) (c : Conn) (token : Bytes) :
    transportSendAuth (c.updateAt conn sid f) token = transportSendAuth c token := by
  rw [transportSendAuth, transportSendAuth, updateAt_controlOpen hf, updateAt_writeControl,
    updateAt_writeControl]

theorem transportRespondAuth_updateAt (hf : Unseen f) (c : Conn) (success : Bool) :
    (transportRespondAuth (c.updateAt conn sid f) success).2 =
      ((transportRespondAuth c success).2.1.updateAt conn sid f,
        (transportRespondAuth c success).2.2) := by
  unfold transportRespondAuth
  rw [updateAt_controlOpen hf, updateAt_writeControl, updateAt_with_authenticated,
    updateAt_with_closing, updateAt_ptr]
  split
  · rfl
  · split <;> rfl

/-! Calls on all connections. -/

theorem subscribeConn_updateAt (c : Conn) (track : MoqTrackId) :
    subscribeConn (c.updateAt conn sid f) track =
      ((subscribeConn c track).1.updateAt conn sid f, (subscribeConn c track).2) := by
  unfold subscribeConn writeTrackMessage
  rw [updateAt_with_subscriptions, updateAt_subscriptions, updateAt_writeControl,
    updateAt_writeControl]

theorem transportSubscribe_updateStream (hf : Unseen f) (t : Transport) (track : MoqTrackId) :
    (transportSubscribe (t.updateStream conn sid f) track).2 =
      ((transportSubscribe t track).2.1.updateStream conn sid f,
        (transportSubscribe t track).2.2) := by
  unfold transportSubscribe
  by_cases hserver : t.isServer = true
  · have hbody : ∀ c ∈ t.conns,
        (if (c.updateAt conn sid f).controlOpen = true then
            subscribeConn (c.updateAt conn sid f) track else (c.updateAt conn sid f, [])) =
          ((if c.controlOpen = true then subscribeConn c track else (c, [])).1.updateAt conn sid f,
            (if c.controlOpen = true then subscribeConn c track else (c, [])).2) := by
      intro c _
      rw [updateAt_controlOpen hf, subscribeConn_updateAt]
      split <;> rfl
    obtain ⟨hconns, heffects⟩ :=
      map_updateAt (B := fun c => if c.controlOpen then subscribeConn c track else (c, [])) hbody
    rw [if_pos hserver, if_pos (show (t.updateStream conn sid f).isServer = true from hserver)]
    unfold Transport.updateStream
    dsimp only
    rw [hconns, heffects]
  · rw [if_neg hserver, if_neg (show ¬(t.updateStream conn sid f).isServer = true from hserver)]
    unfold Transport.updateStream
    cases hconns : t.conns with
    | nil => simp only [List.map_nil, hconns]
    | cons c cs =>
      simp only [List.map_cons, updateAt_controlOpen hf, subscribeConn_updateAt]
      split
      · rfl
      · simp only [hconns, List.map_cons]

theorem transportRequestKeyframe_updateStream (hf : Unseen f) (t : Transport)
    (track : MoqTrackId) :
    transportRequestKeyframe (t.updateStream conn sid f) track =
      transportRequestKeyframe t track := by
  unfold transportRequestKeyframe Transport.updateStream
  cases t.conns with
  | nil => rfl
  | cons c cs =>
    simp only [List.map_cons, updateAt_controlOpen hf, writeTrackMessage, updateAt_writeControl]

theorem publishReliableConn_updateAt (hf : Unseen f) {io : PublishIO}
    (hio : io.openStream conn ≠ some sid) (isServer : Bool) (obj : MoqObject) (c : Conn) :
    publishReliableConn io isServer obj (c.updateAt conn sid f) =
      ((publishReliableConn io isServer obj c).1.updateAt conn sid f,
        (publishReliableConn io isServer obj c).2) := by
  by_cases hptr : c.ptr = conn
  -- the change is to a stream that the publish neither reads nor opens
  · have hu : ∀ c' : Conn, c'.ptr = c.ptr → c'.updateAt conn sid f = c'.updateStream sid f :=
      fun c' h => if_pos (h.trans hptr)
    have hsend : (c.updateStream sid f).sendOpen = c.sendOpen :=
      funext (updateStream_sendOpen hf c)
    have hunicast : transportSendUnicast (c.updateAt conn sid f) obj.data =
        transportSendUnicast c obj.data := transportSendUnicast_updateAt hf c obj.data
    have hopen : ∀ sid', io.openStream c.ptr = some sid' → sid' ≠ sid := by
      rintro sid' h rfl
      exact hio (hptr ▸ h)
    rw [hu c rfl] at hunicast ⊢
    rw [hu _ (publishReliableConn_same io isServer obj c).ptr]
    unfold publishReliableConn
    rw [hunicast, hsend]
    have hgate : ((c.updateStream sid f).closing = true ∨ (isServer = true ∧
        ¬isSubscribed (c.updateStream sid f).subscriptions obj.trackId = true)) ↔
        (c.closing = true ∨ (isServer = true ∧ ¬isSubscribed c.subscriptions obj.trackId = true)) :=
      Iff.rfl
    by_cases hskip : c.closing = true ∨ (isServer = true ∧
        ¬isSubscribed c.subscriptions obj.trackId = true)
    · rw [if_pos (hgate.mpr hskip), if_pos hskip]
    rw [if_neg (hgate.not.mpr hskip), if_neg hskip]
    have hsubs : (c.updateStream sid f).subscriptions = c.subscriptions := rfl
    have hptr' : (c.updateStream sid f).ptr = c.ptr := rfl
    rw [hsubs, hptr']
    cases c.subscriptions.entries.find? (·.holds obj.trackId.type obj.trackId.name) with
    | none => rfl
    | some sub =>
      dsimp only
      split
      · rfl
      · cases hnew : io.openStream c.ptr with
        | none => rfl
        | some sid' =>
          dsimp only
          exact congrArg (·, _) (updateStream_onStreamOpen
            { c with
              subscriptions := c.subscriptions.update (·.holds obj.trackId.type obj.trackId.name)
                (fun e => { e with stream := some sid' }) }
            (hopen sid' hnew) true)
  · have hu : ∀ c' : Conn, c'.ptr = c.ptr → c'.updateAt conn sid f = c' :=
      fun c' h => if_neg (fun h' => hptr (h.symm.trans h'))
    rw [hu c rfl, hu _ (publishReliableConn_same io isServer obj c).ptr]

/-- The transport after something that leaves the input of streams alone. -/
def updated (conn sid : ℕ) (f : Stream → Stream) (r : Transport × List Effect) :
    Transport × List Effect := (r.1.updateStream conn sid f, r.2)

theorem publishReliable_updateStream (hf : Unseen f) {io : PublishIO}
    (hio : io.openStream conn ≠ some sid) (t : Transport) (obj : MoqObject) :
    publishReliable io (t.updateStream conn sid f) obj =
      updated conn sid f (publishReliable io t obj) := by
  obtain ⟨hconns, heffects⟩ := map_updateAt
    (B := publishReliableConn io t.isServer obj) fun c (_ : c ∈ t.conns) =>
      publishReliableConn_updateAt hf hio t.isServer obj c
  unfold publishReliable updated Transport.updateStream
  dsimp only
  rw [hconns, heffects]

theorem sendDatagrams_updateAt (t : Transport) (io : PublishIO) (obj : MoqObject)
    (o : ShardedObject) (c : Conn) :
    sendDatagrams (t.updateStream conn sid f) io obj o (c.updateAt conn sid f) =
      sendDatagrams t io obj o c := by
  unfold sendDatagrams symbolDatagram symbolPath
  rw [updateAt_closing, updateAt_subscriptions, updateAt_ptr]
  rfl

theorem publishDatagrams_updateStream (lib : FecLib) (io : PublishIO) (t : Transport)
    (obj : MoqObject) :
    publishDatagrams lib io (t.updateStream conn sid f) obj =
      updated conn sid f (publishDatagrams lib io t obj) := by
  have hshard : shardObject lib io (t.updateStream conn sid f) obj = shardObject lib io t obj := rfl
  have heffects : (t.updateStream conn sid f).conns.flatMap
        (sendDatagrams (t.updateStream conn sid f) io obj (shardObject lib io t obj).1) =
      t.conns.flatMap (sendDatagrams t io obj (shardObject lib io t obj).1) := by
    show (t.conns.map _).flatMap _ = _
    rw [List.flatMap_map]
    exact List.flatMap_congr fun c _ => sendDatagrams_updateAt t io obj _ c
  unfold publishDatagrams
  rw [hshard]
  dsimp only
  rw [heffects]
  rfl

theorem publishDirect_updateStream (hf : Unseen f) (lib : FecLib) {io : PublishIO}
    (hio : io.openStream conn ≠ some sid) (t : Transport) (obj : MoqObject) :
    publishDirect lib io (t.updateStream conn sid f) obj =
      updated conn sid f (publishDirect lib io t obj) := by
  unfold publishDirect
  split
  · exact publishReliable_updateStream hf hio t obj
  · exact publishDatagrams_updateStream lib io t obj

theorem flushFecBuffer_updateStream (hf : Unseen f) (lib : FecLib) {io : PublishIO}
    (hio : io.openStream conn ≠ some sid) (t : Transport) :
    flushFecBuffer lib io (t.updateStream conn sid f) =
      updated conn sid f (flushFecBuffer lib io t) := by
  unfold flushFecBuffer
  by_cases hempty : t.fec.buf = []
  · rw [if_pos hempty, if_pos (show (t.updateStream conn sid f).fec.buf = [] from hempty)]
    rfl
  · rw [if_neg hempty, if_neg (show ¬(t.updateStream conn sid f).fec.buf = [] from hempty)]
    have hdirect := publishDirect_updateStream hf lib hio
      { t with fec := { t.fec with objectId := t.fec.objectId + 1, inFlush := true } }
      (groupedObject t)
    dsimp only
    exact congrArg (fun r : Transport × List Effect => ({ r.1 with fec := { r.1.fec with
      inFlush := false, buf := [], firstPktTime := 0, pktCount := 0 } }, r.2)) hdirect

theorem useFec_updateStream (t : Transport) (track : MoqTrackId) :
    useFec (t.updateStream conn sid f) track = useFec t track := by
  unfold useFec Transport.updateStream
  dsimp only
  rw [List.any_map]
  congr 1
  funext c
  dsimp only [Function.comp]
  rw [updateAt_closing, updateAt_subscriptions]

theorem transportPublish_updateStream (hf : Unseen f) (lib : FecLib) {io : PublishIO}
    (hio : io.openStream conn ≠ some sid) (t : Transport) (obj : MoqObject) :
    (transportPublish lib io (t.updateStream conn sid f) obj).2 =
      updated conn sid f (transportPublish lib io t obj).2 := by
  have hroute : routedToGroup (t.updateStream conn sid f) obj = routedToGroup t obj := by
    rw [routedToGroup, routedToGroup, useFec_updateStream]
    rfl
  unfold transportPublish
  rw [hroute]
  split
  · have hfec : (t.updateStream conn sid f).fec = t.fec := rfl
    unfold groupPacket
    rw [hfec]
    dsimp only
    cases (t.fec.record io obj).append io obj with
    | none => rfl
    | some fec =>
      dsimp only
      split
      · exact flushFecBuffer_updateStream hf lib hio { t with fec := fec }
      · rfl
  · exact publishDirect_updateStream hf lib hio t obj

/-- What an application does commutes with a change of the bytes that wait on a stream. -/
theorem call_updateStream (hf : Unseen f) (lib : FecLib) {call : Call}
    (hcall : call.Spares conn sid) (t : Transport) :
    (t.updateStream conn sid f).call lib call = updated conn sid f (t.call lib call) := by
  have hconn : ∀ (ptr : ℕ) (l : ConnLabel) (g : Conn → Conn × List Effect),
      (∀ (t : Transport) (c : Conn), connStep lib t c l = some (t, g c)) →
      (∀ c : Conn, g (c.updateAt conn sid f) = ((g c).1.updateAt conn sid f, (g c).2)) →
      (transportStep lib (t.updateStream conn sid f) (.conn ptr l)).getD
          (t.updateStream conn sid f, []) =
        updated conn sid f ((transportStep lib t (.conn ptr l)).getD (t, [])) := by
    intro ptr l g hstep hg
    simp only [transportStep, findConn_updateStream]
    cases t.findConn ptr with
    | none => rfl
    | some c =>
      simp only [Option.map_some, hstep, hg, Option.getD_some, setConn_updateAt]
      rfl
  unfold Transport.call
  cases call with
  | subscribe track =>
    exact transportSubscribe_updateStream hf t track
  | requestKeyframe track =>
    show (t.updateStream conn sid f, (transportRequestKeyframe _ track).2) = _
    rw [transportRequestKeyframe_updateStream hf]
    rfl
  | publish io obj => exact transportPublish_updateStream hf lib hcall t obj
  | sendUnicast ptr data =>
    refine hconn ptr _ (fun c => (c, (transportSendUnicast c data).2)) (fun _ _ => rfl) fun c => ?_
    rw [transportSendUnicast_updateAt hf]
  | sendAuth ptr token =>
    refine hconn ptr _ (fun c => (c, (transportSendAuth c token).2)) (fun _ _ => rfl) fun c => ?_
    rw [transportSendAuth_updateAt hf]
  | respondAuth ptr success =>
    refine hconn ptr _ (fun c => (transportRespondAuth c success).2) (fun _ _ => rfl) fun c => ?_
    exact transportRespondAuth_updateAt hf c success
  | closeConn ptr =>
    refine hconn ptr _ transportCloseConn (fun _ _ => rfl) fun c => ?_
    unfold transportCloseConn
    rw [updateAt_with_closing, updateAt_ptr]

theorem calls_updateStream (hf : Unseen f) (lib : FecLib) {calls : List Call}
    (hcalls : ∀ call ∈ calls, call.Spares conn sid) (t : Transport) :
    (t.updateStream conn sid f).calls lib calls = updated conn sid f (t.calls lib calls) := by
  induction calls generalizing t with
  | nil => rfl
  | cons call calls ih =>
    have hrest := fun c hc => hcalls c (List.mem_cons_of_mem call hc)
    unfold Transport.calls
    rw [call_updateStream hf lib (hcalls call List.mem_cons_self)]
    dsimp only [updated]
    rw [ih hrest]
    rfl

/-- The callback does not look at what waits on a stream. -/
theorem deliver_updateStream (hf : Unseen f) (lib : FecLib) {app : Application}
    (happ : ∀ seen, ∀ call ∈ app seen, call.Spares conn sid) (q : Reception) (es : List Effect) :
    deliver lib app (q.updateStream conn sid f) es =
      ((deliver lib app q es).1.updateStream conn sid f, (deliver lib app q es).2) := by
  induction es generalizing q with
  | nil => rfl
  | cons e es ih =>
    cases e with
    | event ptr ev =>
      have hcalls := calls_updateStream hf lib (happ (q.seen ++ [(ptr, ev)])) q.transport
      unfold deliver
      dsimp only [Reception.updateStream]
      rw [hcalls]
      have hrest := ih { q with
        transport := (q.transport.calls lib (app (q.seen ++ [(ptr, ev)]))).1
        seen := q.seen ++ [(ptr, ev)] }
      dsimp only [updated]
      exact congrArg (fun d : Reception × List Effect => (d.1, _ :: _ ++ d.2)) hrest
    | _ =>
      unfold deliver
      rw [ih q]

/-! The stream that is changed, seen through its handle. -/

theorem findStream_updateAt (hf : Unseen f) {c : Conn} (hptr : c.ptr = conn) :
    (c.updateAt conn sid f).findStream sid = (c.findStream sid).map f := by
  rw [Conn.updateAt, if_pos hptr, Conn.findStream_updateStream hf.id_eq]

theorem updateStream_updateStream (hf : Unseen f) (g : Stream → Stream) (t : Transport) :
    (t.updateStream conn sid f).updateStream conn sid g = t.updateStream conn sid (g ∘ f) := by
  unfold Transport.updateStream
  dsimp only
  rw [List.map_map]
  congr 1
  refine List.map_congr_left fun c _ => ?_
  dsimp only [Function.comp]
  rw [Conn.updateAt, updateAt_ptr, Conn.updateAt, Conn.updateAt]
  by_cases hptr : c.ptr = conn
  · rw [if_pos hptr, if_pos hptr, if_pos hptr]
    unfold Conn.updateStream
    dsimp only
    rw [List.map_map]
    congr 1
    refine List.map_congr_left fun s _ => ?_
    dsimp only [Function.comp]
    by_cases hid : s.id = sid
    · simp only [if_pos hid, if_pos ((hf.id_eq s).trans hid)]
    · simp only [if_neg hid]
  · rw [if_neg hptr, if_neg hptr, if_neg hptr]

/-- A connection that is written back may have changed the stream once more. -/
theorem setConn_updateStream {c : Conn} (hptr : c.ptr = conn) (g : Stream → Stream)
    (t : Transport) :
    (t.updateStream conn sid f).setConn (c.updateAt conn sid g) =
      (t.setConn c).updateStream conn sid g := by
  unfold Transport.setConn Transport.updateStream
  dsimp only
  rw [List.map_map, List.map_map]
  congr 1
  refine List.map_congr_left fun x _ => ?_
  dsimp only [Function.comp]
  rw [updateAt_ptr, updateAt_ptr]
  by_cases hx : x.ptr = c.ptr
  · rw [if_pos hx, if_pos hx]
  · have hne : ¬x.ptr = conn := fun h => hx (h.trans hptr.symm)
    rw [if_neg hx, if_neg hx, Conn.updateAt, Conn.updateAt, if_neg hne, if_neg hne]

end UpdateStream

/-- A change that a stream and all like it have already. -/
theorem updateStream_self {t : Transport} {conn sid : ℕ} {f : Stream → Stream} {c : Conn}
    {s : Stream} (hptrs : t.ptrs.Nodup) (hids : (c.streams.map (·.id)).Nodup)
    (hc : t.findConn conn = some c) (hs : c.findStream sid = some s) (hf : f s = s) :
    t.updateStream conn sid f = t := by
  obtain ⟨hmem, hptr⟩ := Transport.findConn_eq_some hc
  have hid : s.id = sid := by
    have hfound := List.find?_some hs
    exact beq_iff_eq.mp hfound
  have hstreams : (c.streams.map fun x => if x.id = sid then f x else x) = c.streams := by
    conv_rhs => rw [← List.map_id c.streams]
    refine List.map_congr_left fun x hx => ?_
    split
    · next hx' =>
      have heq := List.inj_on_of_nodup_map hids hx (List.mem_of_find?_eq_some hs)
        (hx'.trans hid.symm)
      rw [heq, hf]
      rfl
    · rfl
  have hconns : t.conns.map (Conn.updateAt conn sid f) = t.conns := by
    conv_rhs => rw [← List.map_id t.conns]
    refine List.map_congr_left fun x hx => ?_
    rw [Conn.updateAt]
    split
    · next hx' =>
      have heq := List.inj_on_of_nodup_map hptrs hx hmem (hx'.trans hptr.symm)
      rw [heq, Conn.updateStream, hstreams]
      rfl
    · rfl
  rw [Transport.updateStream, hconns]

/-! ## The connections stay the same -/

/-- Writing a connection back as it was found. -/
theorem setConn_self {t : Transport} {conn : ℕ} {c : Conn} (hptrs : t.ptrs.Nodup)
    (h : t.findConn conn = some c) : t.setConn c = t := by
  obtain ⟨hmem, -⟩ := Transport.findConn_eq_some h
  have hmap : (t.conns.map fun x => if x.ptr = c.ptr then c else x) = t.conns := by
    conv_rhs => rw [← List.map_id t.conns]
    refine List.map_congr_left fun x hx => ?_
    split
    · next hptr => exact List.inj_on_of_nodup_map hptrs hmem hx hptr.symm
    · rfl
  unfold Transport.setConn
  rw [hmap]

theorem ptrs_call (lib : FecLib) (t : Transport) (call : Call) :
    (t.call lib call).1.ptrs = t.ptrs := by
  have hconn : ∀ ptr l, ((transportStep lib t (.conn ptr l)).getD (t, [])).1.ptrs = t.ptrs := by
    intro ptr l
    cases hstep : transportStep lib t (.conn ptr l) with
    | none => rfl
    | some r =>
      obtain ⟨c, t₁, c', -, hconn, htr⟩ := transportStep_conn.mp hstep
      obtain ⟨fc, owd, rfl⟩ := connStep_transport hconn
      rw [Option.getD_some, htr, ptrs_setConn]
      rfl
  cases call with
  | subscribe track => exact ptrs_transportSubscribe t track
  | requestKeyframe track => rfl
  | publish io obj => exact ptrs_transportPublish lib io t obj
  | _ => exact hconn _ _

theorem findConn_isSome {t : Transport} {conn : ℕ} :
    (t.findConn conn).isSome = true ↔ conn ∈ t.ptrs := by
  rw [Transport.findConn, List.find?_isSome, Transport.ptrs, List.mem_map]
  constructor
  · rintro ⟨c, hc, hptr⟩
    exact ⟨c, hc, beq_iff_eq.mp hptr⟩
  · rintro ⟨c, hc, hptr⟩
    exact ⟨c, hc, beq_iff_eq.mpr hptr⟩

/-- What a call makes of a connection. -/
theorem call_conn (lib : FecLib) (call : Call) {t : Transport} {conn : ℕ} {c : Conn}
    (hptrs : t.ptrs.Nodup) (hc : t.findConn conn = some c) :
    (t.call lib call).1.isServer = t.isServer ∧
      ∃ c', (t.call lib call).1.findConn conn = some c' ∧ ConnBecomes lib t call.label c c' := by
  obtain ⟨hmem, hptr⟩ := Transport.findConn_eq_some hc
  have hsome : ((t.call lib call).1.findConn conn).isSome = true := by
    rw [findConn_isSome, ptrs_call, ← findConn_isSome, hc]
    rfl
  obtain ⟨c', hc'⟩ := Option.isSome_iff_exists.mp hsome
  obtain ⟨hmem', hptr'⟩ := Transport.findConn_eq_some hc'
  unfold Transport.call at hc' hmem' ⊢
  cases hstep : transportStep lib t call.label with
  | none =>
    rw [hstep] at hc'
    exact ⟨rfl, c', hc', by
      rw [hstep, Option.getD_none] at hmem'
      rw [List.inj_on_of_nodup_map hptrs hmem' hmem (hptr'.trans hptr.symm)]
      exact .kept⟩
  | some r =>
    rw [hstep] at hc' hmem'
    have hsystem : step lib ⟨t, []⟩ call.label = some (⟨r.1, []⟩, r.2) := by
      have hmap : step lib ⟨t, []⟩ call.label =
          (transportStep lib t call.label).map fun r => (⟨r.1, []⟩, r.2) := by
        cases call <;> rfl
      rw [hmap, hstep, Option.map_some]
    refine ⟨step_isServer hsystem, c', hc', ?_⟩
    rcases step_becomes hsystem hmem' with ⟨hnew, -⟩ | ⟨c₀, hmem₀, hptr₀, hbecomes⟩
    · cases call <;> cases hnew
    · rwa [List.inj_on_of_nodup_map hptrs hmem hmem₀ (hptr.trans (hptr'.symm.trans hptr₀))]

theorem ptrs_calls (lib : FecLib) (t : Transport) (calls : List Call) :
    (t.calls lib calls).1.ptrs = t.ptrs := by
  induction calls generalizing t with
  | nil => rfl
  | cons call calls ih => exact (ih _).trans (ptrs_call lib t call)

theorem ptrs_deliver (lib : FecLib) (app : Application) (q : Reception) (es : List Effect) :
    (deliver lib app q es).1.transport.ptrs = q.transport.ptrs := by
  induction es generalizing q with
  | nil => rfl
  | cons e es ih =>
    cases e with
    | event ptr ev => exact (ih _).trans (ptrs_calls lib q.transport _)
    | _ => exact ih q

end Bishlink
