import Mathlib.Data.List.ReduceOption
import Bishlink.System

/-!
# Who shuts streams down

`quicly_streambuf_egress_shutdown` is called in `remove_subscription` alone, for the stream of the
entry that an UNSUBSCRIBE takes away (`shutdown_mem_iff`).
-/

namespace Bishlink

/-! ## Effects without a shutdown -/

/-- `quicly_streambuf_egress_shutdown`. -/
def Effect.isShutdown : Effect → Bool
  | .streamShutdown _ _ => true
  | _ => false

/-- No stream is shut down. -/
def NoShutdown (o : List Effect) : Prop := ∀ e ∈ o, e.isShutdown = false

namespace NoShutdown

theorem nil : NoShutdown [] := fun _ he => absurd he List.not_mem_nil

theorem of_eq {o o' : List Effect} (h : NoShutdown o) (heq : o = o') : NoShutdown o' := heq ▸ h

theorem singleton {e : Effect} (h : e.isShutdown = false) : NoShutdown [e] := by
  intro e' he'
  rw [List.mem_singleton.mp he']
  exact h

theorem append {o o' : List Effect} (h : NoShutdown o) (h' : NoShutdown o') :
    NoShutdown (o ++ o') := by
  intro e he
  rcases List.mem_append.mp he with he | he
  · exact h e he
  · exact h' e he

theorem flatMap {α : Type} {as : List α} {f : α → List Effect} (h : ∀ a, NoShutdown (f a)) :
    NoShutdown (as.flatMap f) := by
  intro e he
  obtain ⟨a, -, he⟩ := List.mem_flatMap.mp he
  exact h a e he

theorem writeControl (c : Conn) (bytes : Bytes) : NoShutdown (c.writeControl bytes) := by
  unfold Conn.writeControl
  split
  · exact nil
  · exact singleton rfl

theorem writeTrackMessage (c : Conn) (type trackAlias : UInt8) (track : MoqTrackId) :
    NoShutdown (writeTrackMessage c type trackAlias track) := by
  refine append (writeControl c _) ?_
  split
  · exact writeControl c _
  · exact nil

theorem sendUnicast (c : Conn) (data : Bytes) : NoShutdown (transportSendUnicast c data).2 := by
  unfold transportSendUnicast
  split
  · exact append (writeControl c _) (writeControl c _)
  · exact nil

theorem subscribe (t : Transport) (track : MoqTrackId) :
    NoShutdown (transportSubscribe t track).2.2 := by
  unfold transportSubscribe
  split
  · dsimp only
    rw [List.flatMap_map]
    refine flatMap fun c => ?_
    split
    · exact writeTrackMessage c _ _ _
    · exact nil
  · split
    · exact nil
    · split
      · exact writeTrackMessage _ _ _ _
      · exact nil

theorem requestKeyframe (t : Transport) (track : MoqTrackId) :
    NoShutdown (transportRequestKeyframe t track).2 := by
  unfold transportRequestKeyframe
  split
  · exact nil
  · split
    · exact nil
    · exact writeTrackMessage _ _ _ _

theorem writeObject (c : Conn) (sid : ℕ) (data : Bytes) : NoShutdown (writeObject c sid data) :=
  append (singleton rfl) (singleton rfl)

theorem publishReliableConn (io : PublishIO) (isServer : Bool) (obj : MoqObject) (c : Conn) :
    NoShutdown (publishReliableConn io isServer obj c).2 := by
  unfold Bishlink.publishReliableConn
  split
  · exact nil
  split
  · exact sendUnicast c obj.data
  dsimp only
  split
  · exact writeObject c _ _
  split
  · exact nil
  · exact append (singleton rfl) (writeObject c _ _)

theorem sendDatagrams (t : Transport) (io : PublishIO) (obj : MoqObject) (o : ShardedObject)
    (c : Conn) : NoShutdown (sendDatagrams t io obj o c) := by
  unfold Bishlink.sendDatagrams
  split
  · exact nil
  split
  · exact nil
  · intro e he
    obtain ⟨s, -, rfl⟩ := List.mem_map.mp he
    rfl

theorem publishDirect (lib : FecLib) (io : PublishIO) (t : Transport) (obj : MoqObject) :
    NoShutdown (publishDirect lib io t obj).2 := by
  unfold Bishlink.publishDirect
  split
  · unfold publishReliable
    dsimp only
    rw [List.flatMap_map]
    exact flatMap fun c => publishReliableConn io t.isServer obj c
  · exact flatMap fun c => sendDatagrams t io obj _ c

theorem flush (lib : FecLib) (io : PublishIO) (t : Transport) :
    NoShutdown (flushFecBuffer lib io t).2 := by
  unfold flushFecBuffer
  split
  · exact nil
  · exact publishDirect lib io _ _

theorem publish (lib : FecLib) (io : PublishIO) (t : Transport) (obj : MoqObject) :
    NoShutdown (transportPublish lib io t obj).2.2 := by
  unfold transportPublish
  split
  · unfold groupPacket
    dsimp only
    split
    · exact nil
    · split
      · exact flush lib io _
      · exact nil
  · exact publishDirect lib io t obj

theorem tick (lib : FecLib) (io : PublishIO) (t : Transport) :
    NoShutdown (tickFecBuffer lib io t).2 := by
  unfold tickFecBuffer
  split
  · exact flush lib io t
  · exact nil

theorem sendNack (c : Conn) (trackAlias : UInt8) (groupId objectId : UInt32) (missing : List ℕ) :
    NoShutdown (sendNack c trackAlias groupId objectId missing) := by
  unfold Bishlink.sendNack
  split
  · exact writeControl c _
  · exact nil

theorem assembleEffects (io : ReceiveIO) (c : Conn) (track : MoqTrackId) (h : FecPacketHeader)
    (r : AssembleResult) : NoShutdown (assembleEffects io c track h r) := by
  unfold Bishlink.assembleEffects
  refine append (append ?_ ?_) ?_
  · split
    · exact nil
    · unfold objectLost
      split
      · exact nil
      · exact singleton rfl
  · split
    · exact nil
    · exact sendNack c _ _ _ _
  · split
    · exact nil
    · exact singleton rfl

theorem datagram {lib : FecLib} {io : ReceiveIO} {t t' : Transport} {c c' : Conn}
    {payload : Bytes} {o : List Effect}
    (h : onReceiveDatagramFrame lib io t c payload = .ok (t', c', o)) : NoShutdown o := by
  rcases onReceiveDatagramFrame_cases h with ⟨-, ho, -⟩ | ⟨-, _, r, -, -, -, -, rfl⟩
  · rcases ho with rfl | ⟨-, rfl⟩
    · exact nil
    · exact singleton rfl
  · exact append (singleton rfl) (assembleEffects io c _ _ r)

theorem trackObject (t : Transport) (c : Conn) (sid : ℕ) (trackAlias : UInt8) (input : Bytes) :
    NoShutdown (trackObjectIteration t c sid trackAlias input).effects := by
  unfold trackObjectIteration
  dsimp only
  split
  · exact nil
  split
  · exact nil
  split
  · exact singleton rfl
  · split
    · exact nil
    · exact singleton rfl

theorem retransmit (lib : FecLib) (cache : FecCache) (io : ControlIO) (c : Conn) (o : SentObject)
    (data : Bytes) (trackAlias : UInt8) (missing : List UInt16) :
    NoShutdown (retransmit lib cache io c o data trackAlias missing).1 := by
  intro e he
  unfold Bishlink.retransmit at he
  dsimp only at he
  rw [List.reduceOption_mem_iff, List.mem_mapIdx] at he
  obtain ⟨k, hk, hsend⟩ := he
  split at hsend
  · exact absurd hsend (by simp)
  · rw [← Option.some.inj hsend]
    rfl

/-- Only UNSUBSCRIBE takes an entry with a stream away. -/
theorem message {lib : FecLib} {io : ControlIO} {t : Transport} {c : Conn} {m : ControlMessage}
    {ptr sid : ℕ} (h : .streamShutdown ptr sid ∈ (handleControlMessage lib io t c m).2.2) :
    ∃ trackAlias track, m = .unsubscribe trackAlias track ∧ ptr = c.ptr ∧
      (removeSubscription c.subscriptions track.type track.name).2 = some sid := by
  have quiet : ∀ {o : List Effect}, NoShutdown o → .streamShutdown ptr sid ∉ o :=
    fun ho hmem => Bool.noConfusion (ho _ hmem)
  cases m with
  | unsubscribe trackAlias track =>
    refine ⟨trackAlias, track, rfl, ?_⟩
    simp only [handleControlMessage] at h
    rcases List.mem_append.mp h with h | h
    · split at h
      · exact absurd h List.not_mem_nil
      · next sid' hsid =>
        rw [List.mem_singleton, Effect.streamShutdown.injEq] at h
        obtain ⟨rfl, rfl⟩ := h
        exact ⟨rfl, hsid⟩
    · exact absurd h (quiet (singleton rfl))
  | data trackAlias payload =>
    simp only [handleControlMessage] at h
    split at h
    · exact absurd h List.not_mem_nil
    · exact absurd h (quiet (singleton rfl))
  | nack trackAlias groupId objectId missing =>
    simp only [handleControlMessage] at h
    split at h
    · exact absurd h List.not_mem_nil
    · split at h
      · exact absurd h List.not_mem_nil
      · exact absurd h (quiet (retransmit lib _ io c _ _ _ _))
  | unknown type => exact absurd h List.not_mem_nil
  | _ => exact absurd h (quiet (singleton rfl))

theorem conn {lib : FecLib} {t t' : Transport} {c c' : Conn} {l : ConnLabel} {o : List Effect}
    (h : connStep lib t c l = some (t', c', o)) (hl : ∀ control io, l ≠ .iterate control io) :
    NoShutdown o := by
  have ho := congrArg (fun r => r.map fun r => r.2.2) h
  cases l with
  | iterate control io => exact absurd rfl (hl control io)
  | openStream sid sendOpen =>
    simp only [connStep] at h
    split at h
    · exact absurd h (by simp)
    · simp only [Option.some.injEq, Prod.mk.injEq] at h
      rw [← h.2.2]
      exact nil
  | datagram io payload =>
    simp only [connStep] at h
    split at h
    · exact absurd h (by simp)
    · next r hr =>
      rw [Option.some.injEq] at h
      rw [h] at hr
      exact datagram hr
  | sendUnicast data => exact of_eq (sendUnicast c data) (Option.some.inj ho)
  | sendAuth token =>
    refine of_eq (o := (transportSendAuth c token).2) ?_ (Option.some.inj ho)
    unfold transportSendAuth
    split
    · exact nil
    split
    · exact nil
    · refine append (writeControl c _) ?_
      split
      · exact writeControl c _
      · exact nil
  | respondAuth success =>
    refine of_eq (o := (transportRespondAuth c success).2.2) ?_ (Option.some.inj ho)
    unfold transportRespondAuth
    split
    · exact nil
    · dsimp only
      split
      · exact writeControl c _
      · exact append (writeControl c _) (singleton rfl)
  | handshake => exact of_eq (singleton rfl) (Option.some.inj ho)
  | closeConn => exact of_eq (singleton rfl) (Option.some.inj ho)
  | _ => exact of_eq nil (Option.some.inj ho)

theorem transport {lib : FecLib} {t t' : Transport} {l : Label} {o : List Effect}
    (h : transportStep lib t l = some (t', o)) (hl : ∀ ptr cl, l ≠ .conn ptr cl) :
    NoShutdown o := by
  have ho := congrArg (fun r => r.map Prod.snd) h
  cases l with
  | connect ptr => exact absurd h (by simp [transportStep])
  | conn ptr cl => exact absurd rfl (hl ptr cl)
  | free ptr =>
    simp only [transportStep] at h
    split at h
    · exact absurd h (by simp)
    · simp only [Option.some.injEq, Prod.mk.injEq] at h
      rw [← h.2]
      exact singleton rfl
  | subscribe track => exact of_eq (subscribe t track) (Option.some.inj ho)
  | requestKeyframe track => exact of_eq (requestKeyframe t track) (Option.some.inj ho)
  | publish io obj => exact of_eq (publish lib io t obj) (Option.some.inj ho)
  | tick io => exact of_eq (tick lib io t) (Option.some.inj ho)
  | links links => exact of_eq nil (Option.some.inj ho)

end NoShutdown

/-! ## UNSUBSCRIBE -/

/-- The stream of the entry that an iteration takes away: an UNSUBSCRIBE is at the front of the
control stream. -/
def unsubscribedStream (s : System) : Label → Option (ℕ × ℕ)
  | .conn ptr (.iterate control _) =>
    (s.transport.findConn ptr).bind fun c =>
      (c.findStream control).bind fun st =>
        if st.isControl then
          match parseControlMessage s.transport.isServer c.authenticated st.ingress with
          | .item (.unsubscribe _ track) _ =>
            (c.subscriptions.entries.find? (·.holds track.type track.name)).bind fun e =>
              e.stream.map fun sid => (ptr, sid)
          | _ => none
        else none
  | _ => none

/-- An iteration shuts down the stream of the entry that it takes away. -/
theorem shutdown_mem_iteration_iff {lib : FecLib} {io : ControlIO} {s : System} {c : Conn}
    {st : Stream} {control ptr sid : ℕ} (hfind : s.transport.findConn c.ptr = some c)
    (hst : c.findStream control = some st) :
    .streamShutdown ptr sid ∈ (streamIteration lib io s.transport c st).effects ↔
      unsubscribedStream s (.conn c.ptr (.iterate control io)) = some (ptr, sid) := by
  unfold unsubscribedStream streamIteration
  dsimp only
  rw [hfind, Option.bind_some, hst, Option.bind_some]
  by_cases hcontrol : st.isControl = true
  · rw [if_pos hcontrol, if_pos hcontrol]
    unfold controlIteration
    -- only UNSUBSCRIBE makes a message handler shut a stream down
    cases hparse : parseControlMessage s.transport.isServer c.authenticated st.ingress with
    | more => exact iff_of_false List.not_mem_nil (by simp)
    | stop reason =>
      refine iff_of_false (fun h => ?_) (by simp)
      exact absurd (List.mem_singleton.mp h) (by simp)
    | item m consumed =>
      dsimp only
      constructor
      · intro h
        obtain ⟨trackAlias, track, rfl, rfl, hsid⟩ := NoShutdown.message h
        obtain ⟨e, hentry, hstream⟩ := Option.bind_eq_some_iff.mp hsid
        dsimp only
        rw [hentry, Option.bind_some, hstream]
        rfl
      · intro h
        cases m with
        | unsubscribe trackAlias track =>
          obtain ⟨e, hentry, hstream⟩ := Option.bind_eq_some_iff.mp h
          obtain ⟨sid', hsid', heq⟩ := Option.map_eq_some_iff.mp hstream
          obtain ⟨rfl, rfl⟩ := Prod.mk.inj heq
          have hremoved : (removeSubscription c.subscriptions track.type track.name).2 =
              some sid' := Option.bind_eq_some_iff.mpr ⟨e, hentry, hsid'⟩
          simp only [handleControlMessage]
          rw [hremoved]
          exact List.mem_append_left _ List.mem_cons_self
        | _ => exact absurd h (by simp)
  · rw [if_neg hcontrol, if_neg hcontrol]
    refine iff_of_false (fun h => ?_) (by simp)
    have hquiet : NoShutdown (trackIteration s.transport c st).effects := by
      unfold trackIteration
      split
      · exact .nil
      · split
        · exact .trackObject _ _ _ _ _
        · exact .trackObject _ _ _ _ _
    exact Bool.noConfusion (hquiet _ h)

/-- A step shuts down the stream of the entry that it takes away, and no other. -/
theorem shutdown_mem_iff {lib : FecLib} {s s' : System} {l : Label} {o : List Effect}
    (h : step lib s l = some (s', o)) {ptr sid : ℕ} :
    .streamShutdown ptr sid ∈ o ↔ unsubscribedStream s l = some (ptr, sid) := by
  have quiet : NoShutdown o → unsubscribedStream s l = none →
      (.streamShutdown ptr sid ∈ o ↔ unsubscribedStream s l = some (ptr, sid)) := by
    intro ho hl
    rw [hl]
    exact iff_of_false (fun hmem => Bool.noConfusion (ho _ hmem)) (by simp)
  rcases step_eq_some h with ⟨_, rfl, -, rfl, -⟩ | ⟨ht, -⟩
  · exact quiet .nil rfl
  cases l with
  | conn ptr' l =>
    obtain ⟨c, t₁, c₁, hfind, hstep, -⟩ := transportStep_conn.mp ht
    obtain ⟨-, rfl⟩ := Transport.findConn_eq_some hfind
    by_cases hl : ∃ control io, l = .iterate control io
    · obtain ⟨control, io, rfl⟩ := hl
      simp only [connStep] at hstep
      split at hstep
      · exact absurd hstep (by simp)
      · next st hst =>
        simp only [Option.some.injEq, Prod.mk.injEq] at hstep
        rw [← hstep.2.2]
        exact shutdown_mem_iteration_iff hfind hst
    · refine quiet (.conn hstep fun control io heq => hl ⟨control, io, heq⟩) ?_
      cases l with
      | iterate control io => exact absurd ⟨control, io, rfl⟩ hl
      | _ => rfl
  | _ => exact quiet (.transport ht (fun _ _ heq => Label.noConfusion heq)) rfl

end Bishlink
