import Bishlink.Control
import Bishlink.Lib.Runs
import Mathlib.Data.List.Nodup

/-!
# The transport as a transition system

Everything that can happen to a `transport_t`, one label for each: what QUIC reports, one
iteration of a receive loop, a datagram, a call of the application, a tick. `step` is the
transport's reaction. A call the application makes in the callback is a label after the
iteration that raised the event.

* `System` adds the connections that ever existed, so that a connection is never confused
  with one whose memory it reuses;
* `step_conn` says once what a step can do to a connection.
-/

namespace Bishlink

open Checked

/-! ## Labels -/

/-- What can happen to one connection. -/
inductive ConnLabel where
  /-- `on_stream_open`, with the state of the send side -/
  | openStream (stream : ℕ) (sendOpen : Bool)
  /-- the send side of a stream closes -/
  | closeSend (stream : ℕ)
  /-- `on_stream_destroy` -/
  | destroyStream (stream : ℕ)
  /-- `on_receive`, up to the receive loop -/
  | receive (stream : ℕ) (bytes : Bytes)
  /-- one iteration of the receive loop of a stream -/
  | iterate (stream : ℕ) (io : ControlIO)
  /-- `on_receive_datagram_frame` -/
  | datagram (io : ReceiveIO) (payload : Bytes)
  | sendUnicast (data : Bytes)
  | sendAuth (token : Bytes)
  | respondAuth (success : Bool)
  | closeConn
  /-- the handshake is ready -/
  | handshake
  /-- QUIC starts to close the connection -/
  | closing

/-- What can happen to a transport. -/
inductive Label where
  /-- `quicly_accept` on a server, `quicly_connect` on a client -/
  | connect (conn : ℕ)
  | conn (conn : ℕ) (label : ConnLabel)
  /-- `QUICLY_ERROR_FREE_CONNECTION` -/
  | free (conn : ℕ)
  | subscribe (track : MoqTrackId)
  | requestKeyframe (track : MoqTrackId)
  | publish (io : PublishIO) (obj : MoqObject)
  /-- the head of `transport_tick` -/
  | tick (io : PublishIO)
  /-- the interface monitor changes the bound addresses -/
  | links (links : List SockAddr)

/-! ## Steps -/

/-- `MAX_CONNECTIONS`. -/
def MAX_CONNECTIONS : ℕ := 32

/-- A transport and all connections it ever had. -/
structure System where
  transport : Transport
  used : List ℕ

/-- A transport before anything happened. -/
def System.init (isServer : Bool) (links : List SockAddr) (maxUdpPayloadSize : ℕ) : System :=
  ⟨Transport.init isServer links maxUdpPayloadSize, []⟩

/-- `on_stream_destroy`. -/
def onStreamDestroy (c : Conn) (sid : ℕ) : Conn :=
  { c with
    subscriptions := clearSubscriptionStream c.subscriptions sid
    streams := c.streams.filter fun s => s.id ≠ sid }

/-- What happens to a connection. A label about a stream that does not exist is refused, and
so is a datagram whose handling leaves an array. -/
def connStep (lib : FecLib) (t : Transport) (c : Conn) :
    ConnLabel → Option (Transport × Conn × List Effect)
  | .openStream sid sendOpen =>
    if (c.findStream sid).isSome then none else some (t, onStreamOpen c sid sendOpen, [])
  | .closeSend sid => some (t, c.updateStream sid (fun s => { s with sendOpen := false }), [])
  | .destroyStream sid => some (t, onStreamDestroy c sid, [])
  | .receive sid bytes => some (t, c.receive sid bytes, [])
  | .iterate sid io =>
    match c.findStream sid with
    | none => none
    | some s =>
      let r := streamIteration lib io t c s
      some (r.transport, r.conn, r.effects)
  | .datagram io payload =>
    match onReceiveDatagramFrame lib io t c payload with
    -- a run ends where memory is touched out of range
    | .error _ => none
    | .ok r => some r
  | .sendUnicast data => some (t, c, (transportSendUnicast c data).2)
  | .sendAuth token => some (t, c, (transportSendAuth c token).2)
  | .respondAuth success => some (t, (transportRespondAuth c success).2)
  | .closeConn => some (t, transportCloseConn c)
  | .handshake => some (t, c, [.event c.ptr .connected])
  | .closing => some (t, { c with closing := true }, [])

/-- The reaction of a transport to everything but a new connection. -/
def transportStep (lib : FecLib) (t : Transport) : Label → Option (Transport × List Effect)
  | .connect _ => none
  | .conn ptr l =>
    match t.findConn ptr with
    | none => none
    | some c =>
      match connStep lib t c l with
      | none => none
      | some (t', c', o) => some (t'.setConn c', o)
  | .free ptr =>
    match t.findConn ptr with
    | none => none
    | some c =>
      some ({ t with conns := t.conns.filter fun c' => c'.ptr ≠ ptr }, [.event c.ptr .disconnected])
  | .subscribe track => some (transportSubscribe t track).2
  | .requestKeyframe track => some (t, (transportRequestKeyframe t track).2)
  | .publish io obj => some (transportPublish lib io t obj).2
  | .tick io => some (tickFecBuffer lib io t)
  | .links links => some ({ t with links := links }, [])

/-- Room for one more connection. -/
def Transport.hasRoom (t : Transport) : Bool :=
  if t.isServer then decide (t.conns.length < MAX_CONNECTIONS) else t.conns.isEmpty

/-- A step of the system: a new connection is one that never existed before. -/
def step (lib : FecLib) (s : System) (l : Label) : Option (System × List Effect) :=
  match l with
  | .connect ptr =>
    if ptr ∉ s.used ∧ s.transport.hasRoom then
      some (⟨{ s.transport with conns := s.transport.conns ++ [Conn.zero ptr] }, ptr :: s.used⟩, [])
    else none
  | l => (transportStep lib s.transport l).map fun r => (⟨r.1, s.used⟩, r.2)

/-! ## Taking steps apart -/

/-- A step of one connection, taken apart. -/
theorem transportStep_conn {lib : FecLib} {t t' : Transport} {ptr : ℕ} {l : ConnLabel}
    {o : List Effect} :
    transportStep lib t (.conn ptr l) = some (t', o) ↔
      ∃ c t₁ c', t.findConn ptr = some c ∧ connStep lib t c l = some (t₁, c', o) ∧
        t' = t₁.setConn c' := by
  simp only [transportStep]
  cases hc : t.findConn ptr with
  | none => simp
  | some c =>
    cases hf : connStep lib t c l with
    | none => simp [hf]
    | some r =>
      obtain ⟨t₁, c', o'⟩ := r
      simp only [hf, Option.some.injEq, Prod.mk.injEq]
      constructor
      · rintro ⟨rfl, rfl⟩
        exact ⟨c, t₁, c', rfl, hf, rfl⟩
      · rintro ⟨_, _, _, rfl, hf', rfl⟩
        rw [hf, Option.some.injEq, Prod.mk.injEq, Prod.mk.injEq] at hf'
        obtain ⟨rfl, rfl, rfl⟩ := hf'
        exact ⟨rfl, rfl⟩

/-- A step of the system is a new connection, or a reaction of the transport. -/
theorem step_eq_some {lib : FecLib} {s s' : System} {l : Label} {o : List Effect}
    (h : step lib s l = some (s', o)) :
    (∃ ptr, l = .connect ptr ∧ ptr ∉ s.used ∧ o = [] ∧ s'.used = ptr :: s.used ∧
      s'.transport = { s.transport with conns := s.transport.conns ++ [Conn.zero ptr] }) ∨
    (transportStep lib s.transport l = some (s'.transport, o) ∧ s'.used = s.used) := by
  cases l with
  | connect ptr =>
    refine Or.inl ?_
    simp only [step] at h
    split at h
    · rename_i hfree
      simp only [Option.some.injEq, Prod.mk.injEq] at h
      obtain ⟨rfl, rfl⟩ := h
      exact ⟨ptr, rfl, hfree.1, rfl, rfl, rfl⟩
    · simp at h
  | _ =>
    refine Or.inr ?_
    simp only [step, Option.map_eq_some_iff, Prod.mk.injEq] at h
    obtain ⟨r, hr, rfl, rfl⟩ := h
    exact ⟨hr, rfl⟩

/-! What receiving does to the transport: the cache of contexts and the delay states are all
it changes outside the connection. -/

theorem handleControlMessage_transport (lib : FecLib) (io : ControlIO) (t : Transport) (c : Conn)
    (m : ControlMessage) :
    ∃ fc, (handleControlMessage lib io t c m).1 = { t with fecCache := fc } := by
  cases m with
  | data trackAlias payload =>
    refine ⟨t.fecCache, ?_⟩
    simp only [handleControlMessage]
    split <;> rfl
  | nack trackAlias groupId objectId missing =>
    simp only [handleControlMessage]
    split
    · exact ⟨t.fecCache, rfl⟩
    · split
      · exact ⟨t.fecCache, rfl⟩
      · exact ⟨_, rfl⟩
  | _ => exact ⟨t.fecCache, rfl⟩

theorem controlIteration_transport (lib : FecLib) (io : ControlIO) (t : Transport) (c : Conn)
    (sid : ℕ) (input : Bytes) :
    ∃ fc, (controlIteration lib io t c sid input).transport = { t with fecCache := fc } := by
  rw [controlIteration]
  split
  · exact ⟨t.fecCache, rfl⟩
  · exact ⟨t.fecCache, rfl⟩
  · exact handleControlMessage_transport lib io t c _

@[simp] theorem trackObjectIteration_transport (t : Transport) (c : Conn) (sid : ℕ)
    (trackAlias : UInt8) (input : Bytes) :
    (trackObjectIteration t c sid trackAlias input).transport = t := by
  simp only [trackObjectIteration]
  split
  · rfl
  · split
    · rfl
    · split <;> rfl

@[simp] theorem trackIteration_transport (t : Transport) (c : Conn) (s : Stream) :
    (trackIteration t c s).transport = t := by
  rw [trackIteration]
  split
  · rfl
  · split <;> simp

theorem streamIteration_transport (lib : FecLib) (io : ControlIO) (t : Transport) (c : Conn)
    (s : Stream) :
    ∃ fc, (streamIteration lib io t c s).transport = { t with fecCache := fc } := by
  rw [streamIteration]
  split
  · exact controlIteration_transport lib io t c s.id s.ingress
  · exact ⟨t.fecCache, by simp⟩

/-- A datagram leaves the connection alone, or it reaches the slots: the ways through
`on_receive_datagram_frame`. -/
theorem onReceiveDatagramFrame_cases {lib : FecLib} {io : ReceiveIO} {t t' : Transport}
    {c c' : Conn} {payload : Bytes} {o : List Effect}
    (h : onReceiveDatagramFrame lib io t c payload = .ok (t', c', o)) :
    (c' = c ∧ (o = [] ∨ (¬(t.isServer = true ∧ c.authenticated = false) ∧
        o = [.datagram c.ptr (FecPacketHeader.decode payload).pathId.toNat
          (telemetryReply io (FecPacketHeader.decode payload)).encode])) ∧
      ∃ owd, t' = { t with owd := owd }) ∨
    (¬(t.isServer = true ∧ c.authenticated = false) ∧ ∃ track r,
      findSubscriptionByAlias c.subscriptions (payload.getD 0 0) io.uninitTrack = some track ∧
      assemble lib t.fecCache io track.type c.assemblers (FecPacketHeader.decode payload)
        (payload.drop FecPacketHeader.size) = .ok r ∧
      t' = { t with fecCache := r.fecCache } ∧ c' = { c with assemblers := r.cache } ∧
      o = .datagram c.ptr (FecPacketHeader.decode payload).pathId.toNat
          (telemetryReply io (FecPacketHeader.decode payload)).encode ::
        assembleEffects io c track (FecPacketHeader.decode payload) r) := by
  -- every early return leaves the connection as it is
  have stop : ∀ {o' : List Effect}, (Except.ok (t, c, o') : Except Fault _) = .ok (t', c', o) →
      c' = c ∧ o = o' ∧ ∃ owd, t' = { t with owd := owd } := by
    intro o' h
    simp only [Except.ok.injEq, Prod.mk.injEq] at h
    obtain ⟨rfl, rfl, rfl⟩ := h
    exact ⟨rfl, rfl, t.owd, rfl⟩
  unfold onReceiveDatagramFrame at h
  split at h
  · obtain ⟨hc, ho, ht⟩ := stop h
    exact Or.inl ⟨hc, Or.inl ho, ht⟩
  rename_i hgate
  simp only [Bool.not_eq_true] at hgate
  split at h
  · obtain ⟨hc, ho, ht⟩ := stop h
    exact Or.inl ⟨hc, Or.inl ho, ht⟩
  rename_i b rest
  split at h
  · simp only [Except.ok.injEq, Prod.mk.injEq] at h
    obtain ⟨rfl, rfl, rfl⟩ := h
    exact Or.inl ⟨rfl, Or.inl rfl, _, rfl⟩
  split at h
  · obtain ⟨hc, ho, ht⟩ := stop h
    exact Or.inl ⟨hc, Or.inl ho, ht⟩
  split at h
  · obtain ⟨hc, ho, ht⟩ := stop h
    exact Or.inl ⟨hc, Or.inl ho, ht⟩
  rename_i track htrack
  simp only at h
  split at h
  · obtain ⟨hc, ho, ht⟩ := stop h
    exact Or.inl ⟨hc, Or.inr ⟨hgate, ho⟩, ht⟩
  split at h
  · obtain ⟨hc, ho, ht⟩ := stop h
    exact Or.inl ⟨hc, Or.inr ⟨hgate, ho⟩, ht⟩
  obtain ⟨r, hr, h⟩ := bind_eq_ok.mp h
  simp only [Except.ok.injEq, Prod.mk.injEq] at h
  obtain ⟨rfl, rfl, rfl⟩ := h
  exact Or.inr ⟨hgate, track, r, htrack, hr, rfl, rfl, rfl⟩

theorem onReceiveDatagramFrame_transport {lib : FecLib} {io : ReceiveIO} {t t' : Transport}
    {c c' : Conn} {payload : Bytes} {o : List Effect}
    (h : onReceiveDatagramFrame lib io t c payload = .ok (t', c', o)) :
    ∃ fc owd, t' = { t with fecCache := fc, owd := owd } := by
  rcases onReceiveDatagramFrame_cases h with ⟨-, -, owd, rfl⟩ | ⟨-, _, r, -, -, rfl, -, -⟩
  · exact ⟨t.fecCache, owd, rfl⟩
  · exact ⟨r.fecCache, t.owd, rfl⟩

/-- What happens to one connection leaves the rest of the transport alone, but for the cache
of contexts and the delay states. -/
theorem connStep_transport {lib : FecLib} {t t' : Transport} {c c' : Conn} {l : ConnLabel}
    {o : List Effect} (h : connStep lib t c l = some (t', c', o)) :
    ∃ fc owd, t' = { t with fecCache := fc, owd := owd } := by
  cases l with
  | openStream sid sendOpen =>
    simp only [connStep] at h
    split at h
    · simp at h
    · simp only [Option.some.injEq, Prod.mk.injEq] at h
      exact ⟨t.fecCache, t.owd, h.1.symm⟩
  | iterate sid io =>
    simp only [connStep] at h
    split at h
    · simp at h
    · rename_i s hs
      obtain ⟨fc, hfc⟩ := streamIteration_transport lib io t c s
      simp only [Option.some.injEq, Prod.mk.injEq] at h
      exact ⟨fc, t.owd, by rw [← h.1, hfc]⟩
  | datagram io payload =>
    simp only [connStep] at h
    split at h
    · simp at h
    · rename_i r hr
      rw [Option.some.injEq] at h
      rw [h] at hr
      exact onReceiveDatagramFrame_transport hr
  | _ =>
    simp only [connStep, Option.some.injEq, Prod.mk.injEq] at h
    exact ⟨t.fecCache, t.owd, h.1.symm⟩

/-! A transport keeps its role. -/

theorem transportPublish_isServer (lib : FecLib) (io : PublishIO) (t : Transport)
    (obj : MoqObject) : (transportPublish lib io t obj).2.1.isServer = t.isServer := by
  simp only [transportPublish, groupPacket, flushFecBuffer, publishDirect]
  split
  · split
    · rfl
    · split
      · split
        · rfl
        · split <;> rfl
      · rfl
  · split <;> rfl

theorem tickFecBuffer_isServer (lib : FecLib) (io : PublishIO) (t : Transport) :
    (tickFecBuffer lib io t).1.isServer = t.isServer := by
  simp only [tickFecBuffer, flushFecBuffer, publishDirect]
  split
  · split
    · rfl
    · split <;> rfl
  · rfl

theorem transportSubscribe_isServer (t : Transport) (track : MoqTrackId) :
    (transportSubscribe t track).2.1.isServer = t.isServer := by
  rw [transportSubscribe]
  split
  · rfl
  · split
    · rfl
    · split <;> rfl

theorem step_isServer {lib : FecLib} {s s' : System} {l : Label} {o : List Effect}
    (h : step lib s l = some (s', o)) : s'.transport.isServer = s.transport.isServer := by
  rcases step_eq_some h with ⟨ptr, -, -, -, -, ht⟩ | ⟨ht, -⟩
  · rw [ht]
  cases l with
  | connect ptr => simp [transportStep] at ht
  | conn ptr l =>
    obtain ⟨c, t₁, c', -, hstep, htr⟩ := transportStep_conn.mp ht
    obtain ⟨fc, owd, rfl⟩ := connStep_transport hstep
    rw [htr]
    rfl
  | free ptr =>
    simp only [transportStep] at ht
    split at ht
    · simp at ht
    · simp only [Option.some.injEq, Prod.mk.injEq] at ht
      rw [← ht.1]
  | subscribe track =>
    simp only [transportStep, Option.some.injEq] at ht
    have htr := transportSubscribe_isServer s.transport track
    rwa [ht] at htr
  | publish io obj =>
    simp only [transportStep, Option.some.injEq] at ht
    have htr := transportPublish_isServer lib io s.transport obj
    rwa [ht] at htr
  | tick io =>
    simp only [transportStep, Option.some.injEq] at ht
    have htr := tickFecBuffer_isServer lib io s.transport
    rwa [ht] at htr
  | _ =>
    simp only [transportStep, Option.some.injEq, Prod.mk.injEq] at ht
    rw [← ht.1]

/-! What a step does to a connection. -/

theorem handleControlMessage_ptr (lib : FecLib) (io : ControlIO) (t : Transport) (c : Conn)
    (m : ControlMessage) : (handleControlMessage lib io t c m).2.1.ptr = c.ptr := by
  cases m with
  | data trackAlias payload =>
    simp only [handleControlMessage]
    split <;> rfl
  | nack trackAlias groupId objectId missing =>
    simp only [handleControlMessage]
    split
    · rfl
    · split <;> rfl
  | _ => rfl

@[simp] theorem trackObjectIteration_ptr (t : Transport) (c : Conn) (sid : ℕ)
    (trackAlias : UInt8) (input : Bytes) :
    (trackObjectIteration t c sid trackAlias input).conn.ptr = c.ptr := by
  simp only [trackObjectIteration]
  split
  · rfl
  · split
    · rfl
    · split <;> rfl

theorem streamIteration_ptr (lib : FecLib) (io : ControlIO) (t : Transport) (c : Conn)
    (s : Stream) : (streamIteration lib io t c s).conn.ptr = c.ptr := by
  rw [streamIteration]
  split
  · rw [controlIteration]
    split
    · rfl
    · rfl
    · exact handleControlMessage_ptr lib io t c _
  · rw [trackIteration]
    split
    · rfl
    · split <;> simp [receiveStreamHeader, Conn.updateStream]

theorem connStep_ptr {lib : FecLib} {t t' : Transport} {c c' : Conn} {l : ConnLabel}
    {o : List Effect} (h : connStep lib t c l = some (t', c', o)) : c'.ptr = c.ptr := by
  cases l with
  | openStream sid sendOpen =>
    simp only [connStep] at h
    split at h
    · simp at h
    · simp only [Option.some.injEq, Prod.mk.injEq] at h
      rw [← h.2.1]
      rfl
  | iterate sid io =>
    simp only [connStep] at h
    split at h
    · simp at h
    · rename_i s hs
      simp only [Option.some.injEq, Prod.mk.injEq] at h
      rw [← h.2.1]
      exact streamIteration_ptr lib io t c s
  | datagram io payload =>
    simp only [connStep] at h
    split at h
    · simp at h
    · rename_i r hr
      rw [Option.some.injEq] at h
      rw [h] at hr
      rcases onReceiveDatagramFrame_cases hr with ⟨rfl, -, -⟩ | ⟨-, _, r, -, -, -, rfl, -⟩
      · rfl
      · rfl
  | respondAuth success =>
    simp only [connStep, Option.some.injEq] at h
    have hc : c' = (transportRespondAuth c success).2.1 :=
      (congrArg (fun r => r.2.1) h).symm
    rw [hc, transportRespondAuth]
    split
    · rfl
    · split <;> rfl
  | _ =>
    simp only [connStep, Option.some.injEq] at h
    have hptr := congrArg (fun r => r.2.1.ptr) h
    exact hptr.symm

/-- A connection that kept its identity, its authentication, its mappings and its slots. -/
structure Conn.Same (c c' : Conn) : Prop where
  ptr : c'.ptr = c.ptr
  authenticated : c'.authenticated = c.authenticated
  mappings : c'.subscriptions.mappings = c.subscriptions.mappings
  assemblers : c'.assemblers = c.assemblers

theorem Conn.Same.refl (c : Conn) : c.Same c := ⟨rfl, rfl, rfl, rfl⟩

theorem publishReliableConn_same (io : PublishIO) (isServer : Bool) (obj : MoqObject) (c : Conn) :
    c.Same (publishReliableConn io isServer obj c).1 := by
  simp only [publishReliableConn]
  split
  · exact Conn.Same.refl c
  split
  · exact Conn.Same.refl c
  split
  · exact Conn.Same.refl c
  split
  · exact ⟨rfl, rfl, mappings_update_stream _ _ _, rfl⟩
  · exact ⟨rfl, rfl, mappings_update_stream _ _ _, rfl⟩

/-- A connection that a publish left alone, or put an object on a stream of. -/
def Published (io : PublishIO) (isServer : Bool) (c c' : Conn) : Prop :=
  c' = c ∨ ∃ obj, c' = (publishReliableConn io isServer obj c).1

/-- Publishing changes a connection at most by a stream. -/
theorem Published.same {io : PublishIO} {isServer : Bool} {c c' : Conn}
    (h : Published io isServer c c') : c.Same c' := by
  rcases h with rfl | ⟨obj, rfl⟩
  · exact Conn.Same.refl c'
  · exact publishReliableConn_same io isServer obj c

theorem publishDirect_conn {lib : FecLib} {io : PublishIO} {t : Transport} {obj : MoqObject}
    {c' : Conn} (hc : c' ∈ (publishDirect lib io t obj).1.conns) :
    ∃ c ∈ t.conns, Published io t.isServer c c' := by
  rw [publishDirect] at hc
  split at hc
  · simp only [publishReliable, List.mem_map, exists_exists_and_eq_and] at hc
    obtain ⟨c, hc, rfl⟩ := hc
    exact ⟨c, hc, Or.inr ⟨obj, rfl⟩⟩
  · exact ⟨c', hc, Or.inl rfl⟩

theorem flushFecBuffer_conn {lib : FecLib} {io : PublishIO} {t : Transport} {c' : Conn}
    (hc : c' ∈ (flushFecBuffer lib io t).1.conns) :
    ∃ c ∈ t.conns, Published io t.isServer c c' := by
  rw [flushFecBuffer] at hc
  split at hc
  · exact ⟨c', hc, Or.inl rfl⟩
  · obtain ⟨c, hc, hchange⟩ := publishDirect_conn hc
    exact ⟨c, hc, hchange⟩

theorem transportPublish_conn {lib : FecLib} {io : PublishIO} {t : Transport} {obj : MoqObject}
    {c' : Conn} (hc : c' ∈ (transportPublish lib io t obj).2.1.conns) :
    ∃ c ∈ t.conns, Published io t.isServer c c' := by
  simp only [transportPublish, groupPacket] at hc
  split at hc
  · split at hc
    · exact ⟨c', hc, Or.inl rfl⟩
    · split at hc
      · obtain ⟨c, hc, hchange⟩ := flushFecBuffer_conn hc
        exact ⟨c, hc, hchange⟩
      · exact ⟨c', hc, Or.inl rfl⟩
  · obtain ⟨c, hc, hchange⟩ := publishDirect_conn hc
    exact ⟨c, hc, hchange⟩

theorem tickFecBuffer_conn {lib : FecLib} {io : PublishIO} {t : Transport} {c' : Conn}
    (hc : c' ∈ (tickFecBuffer lib io t).1.conns) :
    ∃ c ∈ t.conns, Published io t.isServer c c' := by
  rw [tickFecBuffer] at hc
  split at hc
  · exact flushFecBuffer_conn hc
  · exact ⟨c', hc, Or.inl rfl⟩

/-- A connection after `transport_subscribe`: left out, or the body of the loop ran for it. -/
theorem transportSubscribe_conn {t : Transport} {track : MoqTrackId} {c' : Conn}
    (hc : c' ∈ (transportSubscribe t track).2.1.conns) :
    c' ∈ t.conns ∨ ∃ c ∈ t.conns, c.controlOpen = true ∧ c' = (subscribeConn c track).1 := by
  rw [transportSubscribe] at hc
  split at hc
  · simp only [List.mem_map, exists_exists_and_eq_and] at hc
    obtain ⟨c, hc, rfl⟩ := hc
    by_cases hopen : c.controlOpen = true
    · exact Or.inr ⟨c, hc, hopen, by rw [if_pos hopen]⟩
    · exact Or.inl (by rw [if_neg hopen]; exact hc)
  · split at hc
    · rename_i heq
      rw [heq] at hc
      exact absurd hc List.not_mem_nil
    · rename_i c cs heq
      split at hc
      · rename_i hopen
        rcases List.mem_cons.mp hc with rfl | hc
        · exact Or.inr ⟨c, by rw [heq]; exact List.mem_cons_self, hopen, rfl⟩
        · exact Or.inl (by rw [heq]; exact List.mem_cons_of_mem c hc)
      · exact Or.inl hc

/-- What a label can make of a connection. -/
inductive ConnChange (lib : FecLib) (t : Transport) : Label → Conn → Conn → Prop where
  | same {l : Label} {c c' : Conn} (h : c.Same c') : ConnChange lib t l c c'
  | subscribe {track : MoqTrackId} {c : Conn} (h : c.controlOpen = true) :
    ConnChange lib t (.subscribe track) c (subscribeConn c track).1
  | conn {l : ConnLabel} {t' : Transport} {c c' : Conn} {o : List Effect}
    (hfind : t.findConn c.ptr = some c) (h : connStep lib t c l = some (t', c', o)) :
    ConnChange lib t (.conn c.ptr l) c c'

/-- What a label can make of a connection, with what a publish does to its streams. -/
inductive ConnBecomes (lib : FecLib) (t : Transport) : Label → Conn → Conn → Prop where
  | kept {l : Label} {c : Conn} : ConnBecomes lib t l c c
  | subscribe {track : MoqTrackId} {c : Conn} (h : c.controlOpen = true) :
    ConnBecomes lib t (.subscribe track) c (subscribeConn c track).1
  | publish {io : PublishIO} {obj : MoqObject} {c c' : Conn} (h : Published io t.isServer c c') :
    ConnBecomes lib t (.publish io obj) c c'
  | tick {io : PublishIO} {c c' : Conn} (h : Published io t.isServer c c') :
    ConnBecomes lib t (.tick io) c c'
  | conn {l : ConnLabel} {t' : Transport} {c c' : Conn} {o : List Effect}
    (hfind : t.findConn c.ptr = some c) (h : connStep lib t c l = some (t', c', o)) :
    ConnBecomes lib t (.conn c.ptr l) c c'

theorem ConnBecomes.change {lib : FecLib} {t : Transport} {l : Label} {c c' : Conn}
    (h : ConnBecomes lib t l c c') : ConnChange lib t l c c' := by
  cases h with
  | kept => exact .same (Conn.Same.refl c)
  | subscribe h => exact .subscribe h
  | publish h => exact .same h.same
  | tick h => exact .same h.same
  | conn hfind h => exact .conn hfind h

/-- The pointer leads to the connection it is the pointer of. -/
theorem Transport.findConn_eq_some {t : Transport} {ptr : ℕ} {c : Conn}
    (h : t.findConn ptr = some c) : c ∈ t.conns ∧ c.ptr = ptr :=
  ⟨List.mem_of_find?_eq_some h, by simpa using List.find?_some h⟩

/-- A connection written back is found under its pointer. -/
theorem Transport.findConn_setConn {t : Transport} {c c' : Conn}
    (h : t.findConn c'.ptr = some c) : (t.setConn c').findConn c'.ptr = some c' := by
  rw [findConn] at h
  rw [findConn, setConn]
  dsimp only
  rw [List.find?_map]
  have hsame : ((fun x : Conn => x.ptr == c'.ptr) ∘ fun x => if x.ptr = c'.ptr then c' else x) =
      fun x => x.ptr == c'.ptr := by
    funext x
    by_cases hx : x.ptr = c'.ptr <;> simp [hx]
  rw [hsame, h, Option.map_some]
  have hptr : c.ptr = c'.ptr := by simpa using List.find?_some h
  rw [if_pos hptr]

theorem Transport.mem_setConn {t : Transport} {c c' : Conn} (h : c' ∈ (t.setConn c).conns) :
    c' = c ∨ (c' ∈ t.conns ∧ c'.ptr ≠ c.ptr) := by
  obtain ⟨a, ha, rfl⟩ := List.mem_map.mp h
  by_cases hptr : a.ptr = c.ptr
  · exact Or.inl (by rw [if_pos hptr])
  · exact Or.inr (by rw [if_neg hptr]; exact ⟨ha, hptr⟩)

/-- A connection after a step is new, or a connection from before that the label changed. -/
theorem step_becomes {lib : FecLib} {s s' : System} {l : Label} {o : List Effect}
    (h : step lib s l = some (s', o)) {c' : Conn} (hc : c' ∈ s'.transport.conns) :
    (l = .connect c'.ptr ∧ c'.ptr ∉ s.used ∧ c' = Conn.zero c'.ptr) ∨
      ∃ c ∈ s.transport.conns, c'.ptr = c.ptr ∧ ConnBecomes lib s.transport l c c' := by
  have same : c' ∈ s.transport.conns →
      ∃ c ∈ s.transport.conns, c'.ptr = c.ptr ∧ ConnBecomes lib s.transport l c c' :=
    fun hc => ⟨c', hc, rfl, .kept⟩
  rcases step_eq_some h with ⟨ptr, rfl, hfree, -, -, ht⟩ | ⟨ht, -⟩
  · rw [ht] at hc
    rcases List.mem_append.mp hc with hc | hc
    · exact Or.inr (same hc)
    · rw [List.mem_singleton.mp hc]
      exact Or.inl ⟨rfl, hfree, rfl⟩
  refine Or.inr ?_
  cases l with
  | connect ptr => simp [transportStep] at ht
  | conn ptr l =>
    obtain ⟨c, t₁, c₁, hfind, hstep, htr⟩ := transportStep_conn.mp ht
    obtain ⟨fc, owd, rfl⟩ := connStep_transport hstep
    obtain ⟨hmem, rfl⟩ := Transport.findConn_eq_some hfind
    rw [htr] at hc
    rcases Transport.mem_setConn hc with rfl | ⟨hc, -⟩
    · exact ⟨c, hmem, connStep_ptr hstep, .conn hfind hstep⟩
    · exact same hc
  | free ptr =>
    simp only [transportStep] at ht
    split at ht
    · simp at ht
    · simp only [Option.some.injEq, Prod.mk.injEq] at ht
      rw [← ht.1] at hc
      exact same (List.mem_of_mem_filter hc)
  | subscribe track =>
    simp only [transportStep, Option.some.injEq] at ht
    have htr : s'.transport = (transportSubscribe s.transport track).2.1 := by rw [ht]
    rw [htr] at hc
    rcases transportSubscribe_conn hc with hc | ⟨c, hmem, hopen, rfl⟩
    · exact same hc
    · exact ⟨c, hmem, rfl, .subscribe hopen⟩
  | publish io obj =>
    simp only [transportStep, Option.some.injEq] at ht
    have htr : s'.transport = (transportPublish lib io s.transport obj).2.1 := by rw [ht]
    rw [htr] at hc
    obtain ⟨c, hmem, hpub⟩ := transportPublish_conn hc
    exact ⟨c, hmem, hpub.same.ptr, .publish hpub⟩
  | tick io =>
    simp only [transportStep, Option.some.injEq] at ht
    have htr : s'.transport = (tickFecBuffer lib io s.transport).1 := by rw [ht]
    rw [htr] at hc
    obtain ⟨c, hmem, hpub⟩ := tickFecBuffer_conn hc
    exact ⟨c, hmem, hpub.same.ptr, .tick hpub⟩
  -- the other labels change no connection
  | _ =>
    simp only [transportStep, Option.some.injEq, Prod.mk.injEq] at ht
    rw [← ht.1] at hc
    exact same hc

theorem step_conn {lib : FecLib} {s s' : System} {l : Label} {o : List Effect}
    (h : step lib s l = some (s', o)) {c' : Conn} (hc : c' ∈ s'.transport.conns) :
    (l = .connect c'.ptr ∧ c'.ptr ∉ s.used ∧ c' = Conn.zero c'.ptr) ∨
      ∃ c ∈ s.transport.conns, c'.ptr = c.ptr ∧ ConnChange lib s.transport l c c' := by
  rcases step_becomes h hc with hnew | ⟨c, hmem, hptr, hbecomes⟩
  · exact Or.inl hnew
  · exact Or.inr ⟨c, hmem, hptr, hbecomes.change⟩

/-! The pointers of the connections. -/

/-- The pointers of the active connections, in order. -/
def Transport.ptrs (t : Transport) : List ℕ := t.conns.map (·.ptr)

theorem ptrs_map {t : Transport} {f : Conn → Conn} (hf : ∀ c ∈ t.conns, (f c).ptr = c.ptr) :
    (t.conns.map f).map (·.ptr) = t.ptrs := by
  rw [List.map_map]
  exact List.map_congr_left hf

theorem ptrs_publishDirect (lib : FecLib) (io : PublishIO) (t : Transport) (obj : MoqObject) :
    (publishDirect lib io t obj).1.ptrs = t.ptrs := by
  rw [publishDirect]
  split
  · have heq : (publishReliable io t obj).1.conns =
        t.conns.map fun c => (publishReliableConn io t.isServer obj c).1 := by
      simp [publishReliable]
    rw [Transport.ptrs, heq]
    exact ptrs_map fun c _ => (publishReliableConn_same io t.isServer obj c).ptr
  · rfl

theorem ptrs_flushFecBuffer (lib : FecLib) (io : PublishIO) (t : Transport) :
    (flushFecBuffer lib io t).1.ptrs = t.ptrs := by
  rw [flushFecBuffer]
  split
  · rfl
  · exact ptrs_publishDirect lib io _ _

theorem ptrs_transportPublish (lib : FecLib) (io : PublishIO) (t : Transport) (obj : MoqObject) :
    (transportPublish lib io t obj).2.1.ptrs = t.ptrs := by
  simp only [transportPublish, groupPacket]
  split
  · split
    · rfl
    · split
      · exact ptrs_flushFecBuffer lib io _
      · rfl
  · exact ptrs_publishDirect lib io t obj

theorem ptrs_transportSubscribe (t : Transport) (track : MoqTrackId) :
    (transportSubscribe t track).2.1.ptrs = t.ptrs := by
  rw [transportSubscribe]
  split
  · rw [Transport.ptrs]
    dsimp only
    rw [List.map_map, List.map_map]
    refine List.map_congr_left fun c _ => ?_
    dsimp only [Function.comp]
    split
    · rfl
    · rfl
  · split
    · rfl
    · rename_i c cs heq
      split
      · simp [Transport.ptrs, heq, subscribeConn]
      · rfl

theorem ptrs_setConn (t : Transport) (c : Conn) : (t.setConn c).ptrs = t.ptrs := by
  refine ptrs_map fun a _ => ?_
  split
  · rename_i h
    exact h.symm
  · rfl

/-- Every connection has a pointer of its own, and it was never used before. -/
structure System.PtrsOk (s : System) : Prop where
  nodup : s.transport.ptrs.Nodup
  used : ∀ ptr ∈ s.transport.ptrs, ptr ∈ s.used

theorem ptrsOk_init (isServer : Bool) (links : List SockAddr) (mtu : ℕ) :
    (System.init isServer links mtu).PtrsOk :=
  ⟨by simp [System.init, Transport.init, Transport.ptrs], fun _ h => absurd h List.not_mem_nil⟩

theorem ptrsOk_step {lib : FecLib} {s s' : System} {l : Label} {o : List Effect}
    (hok : s.PtrsOk) (h : step lib s l = some (s', o)) : s'.PtrsOk := by
  -- only accepting and freeing change the list of addresses
  have same : s'.transport.ptrs = s.transport.ptrs → s'.used = s.used → s'.PtrsOk :=
    fun hptrs hused => ⟨hptrs ▸ hok.nodup, by rw [hptrs, hused]; exact hok.used⟩
  rcases step_eq_some h with ⟨ptr, -, hfree, -, hused, ht⟩ | ⟨ht, hused⟩
  · have hptrs : s'.transport.ptrs = s.transport.ptrs ++ [ptr] := by
      simp [Transport.ptrs, ht, Conn.zero]
    refine ⟨?_, ?_⟩
    · rw [hptrs, List.nodup_append]
      refine ⟨hok.nodup, List.nodup_singleton ptr, fun a ha b hb => ?_⟩
      rw [List.mem_singleton.mp hb]
      exact fun heq => hfree (heq ▸ hok.used a ha)
    · intro a ha
      rw [hptrs] at ha
      rw [hused]
      rcases List.mem_append.mp ha with ha | ha
      · exact List.mem_cons_of_mem ptr (hok.used a ha)
      · rw [List.mem_singleton.mp ha]
        exact List.mem_cons_self
  cases l with
  | connect ptr => simp [transportStep] at ht
  | conn ptr l =>
    obtain ⟨c, t₁, c', -, hstep, htr⟩ := transportStep_conn.mp ht
    obtain ⟨fc, owd, rfl⟩ := connStep_transport hstep
    refine same ?_ hused
    rw [htr, ptrs_setConn]
    rfl
  | free ptr =>
    simp only [transportStep] at ht
    split at ht
    · simp at ht
    · simp only [Option.some.injEq, Prod.mk.injEq] at ht
      have hsub : s'.transport.ptrs.Sublist s.transport.ptrs := by
        rw [← ht.1]
        exact List.filter_sublist.map _
      exact ⟨hok.nodup.sublist hsub, fun a ha => by rw [hused]; exact hok.used a (hsub.subset ha)⟩
  | subscribe track =>
    simp only [transportStep, Option.some.injEq] at ht
    refine same ?_ hused
    have hptrs := ptrs_transportSubscribe s.transport track
    rwa [ht] at hptrs
  | publish io obj =>
    simp only [transportStep, Option.some.injEq] at ht
    refine same ?_ hused
    have hptrs := ptrs_transportPublish lib io s.transport obj
    rwa [ht] at hptrs
  | tick io =>
    simp only [transportStep, Option.some.injEq] at ht
    refine same ?_ hused
    have hptrs : (tickFecBuffer lib io s.transport).1.ptrs = s.transport.ptrs := by
      rw [tickFecBuffer]
      split
      · exact ptrs_flushFecBuffer lib io s.transport
      · rfl
    rwa [ht] at hptrs
  | _ =>
    simp only [transportStep, Option.some.injEq, Prod.mk.injEq] at ht
    exact same (congrArg Transport.ptrs ht.1).symm hused

/-- In every state a run leads to, a pointer leads to one connection. -/
theorem ptrsOk_run {lib : FecLib} {isServer : Bool} {links : List SockAddr} {mtu : ℕ}
    {labels : List Label} {s : System} {o : List Effect}
    (hrun : Runs.run (step lib) (System.init isServer links mtu) labels = some (s, o)) :
    s.PtrsOk :=
  Runs.invariant (I := System.PtrsOk) (ptrsOk_init isServer links mtu)
    (fun _ _ _ _ hok hstep => ptrsOk_step hok hstep) labels s o hrun

theorem System.PtrsOk.eq_of_ptr {s : System} (hok : s.PtrsOk) {c c' : Conn}
    (hc : c ∈ s.transport.conns) (hc' : c' ∈ s.transport.conns) (h : c.ptr = c'.ptr) : c = c' :=
  List.inj_on_of_nodup_map hok.nodup hc hc' h

end Bishlink
