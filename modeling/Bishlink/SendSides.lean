import Bishlink.StreamHandles

/-!
# Send sides

Whether the send side of a stream is open is decided by how the stream was opened and by what closed
it (`sendSides_step`): the unidirectional streams of the peer have none, and `STOP_SENDING` and a
reset close it. The handles in the tables lead to streams whatever becomes of the control stream
(`tracksOk_step`).
-/

namespace Bishlink

/-! ## The track handles alone

`HandlesOk` also speaks of `conn->stream`, which is left behind when the control stream is
destroyed. What it says of the entries of the table holds all the same. -/

/-- The connection without the handle of its control stream. -/
def Conn.forgetControl (c : Conn) : Conn := { c with stream := none }

/-- The handles in the table of a connection are in order. -/
def Conn.TracksOk (isServer : Bool) (c : Conn) : Prop := c.forgetControl.HandlesOk isServer

theorem Conn.HandlesOk.forget {isServer : Bool} {c : Conn} (h : c.HandlesOk isServer) :
    c.TracksOk isServer :=
  ⟨⟨fun _ hs => absurd hs (by simp [Conn.forgetControl]), h.live.tracks⟩, h.once, h.silent, h.read⟩

theorem Conn.TracksOk.of_sublist {isServer : Bool} {c c' : Conn} (h : c.TracksOk isServer)
    (hstreams : c'.streams = c.streams)
    (hsub : c'.subscriptions.handles.Sublist c.subscriptions.handles) : c'.TracksOk isServer :=
  Conn.HandlesOk.of_sublist h hstreams rfl hsub

@[simp] theorem Conn.forgetControl_subscriptions (c : Conn) :
    c.forgetControl.subscriptions = c.subscriptions := rfl

@[simp] theorem Conn.forgetControl_authenticated (c : Conn) :
    c.forgetControl.authenticated = c.authenticated := rfl

/-- Handling a message does not depend on the handle of the control stream. -/
theorem handleControlMessage_forgetControl (lib : FecLib) (io : ControlIO) (t : Transport)
    (c : Conn) (m : ControlMessage) :
    (handleControlMessage lib io t c.forgetControl m).2.1.forgetControl =
      (handleControlMessage lib io t c m).2.1.forgetControl := by
  cases m with
  | data trackAlias payload =>
    simp only [handleControlMessage, Conn.forgetControl_subscriptions]
    cases findSubscriptionByAlias c.subscriptions trackAlias MoqTrackId.zero <;> rfl
  | nack trackAlias groupId objectId missing =>
    simp only [handleControlMessage, Conn.forgetControl_subscriptions]
    cases findSubscriptionByAlias c.subscriptions trackAlias io.uninitTrack with
    | none => rfl
    | some track =>
      dsimp only
      cases t.sentCache.find track groupId objectId <;> rfl
  | _ => rfl

theorem trackObjectIteration_forgetControl (t : Transport) (c : Conn) (sid : ℕ)
    (trackAlias : UInt8) (input : Bytes) :
    (trackObjectIteration t c.forgetControl sid trackAlias input).conn.forgetControl =
      (trackObjectIteration t c sid trackAlias input).conn.forgetControl := by
  unfold trackObjectIteration
  dsimp only
  rw [Conn.forgetControl_authenticated]
  split
  · rfl
  · split
    · rfl
    · split <;> rfl

theorem streamIteration_forgetControl (lib : FecLib) (io : ControlIO) (t : Transport) (c : Conn)
    (s : Stream) :
    (streamIteration lib io t c.forgetControl s).conn.forgetControl =
      (streamIteration lib io t c s).conn.forgetControl := by
  unfold streamIteration
  split
  · unfold controlIteration
    rw [Conn.forgetControl_authenticated]
    cases parseControlMessage t.isServer c.authenticated s.ingress with
    | more => rfl
    | stop reason => rfl
    | item m consumed =>
      have hsame := congrArg (·.shift s.id consumed)
        (handleControlMessage_forgetControl lib io t c m)
      exact hsame
  · unfold trackIteration
    cases s.ingress with
    | nil => rfl
    | cons b rest =>
      dsimp only
      split
      · exact trackObjectIteration_forgetControl t c s.id s.trackAlias (b :: rest)
      · exact trackObjectIteration_forgetControl t (receiveStreamHeader c s.id b) s.id b rest

theorem publishReliableConn_forgetControl (io : PublishIO) (isServer : Bool) (obj : MoqObject)
    (c : Conn) :
    (publishReliableConn io isServer obj c.forgetControl).1.forgetControl =
      (publishReliableConn io isServer obj c).1.forgetControl := by
  have hclosing : c.forgetControl.closing = c.closing := rfl
  have hopen : ∀ handle, c.forgetControl.sendOpen handle = c.sendOpen handle := fun _ => rfl
  have hptr : c.forgetControl.ptr = c.ptr := rfl
  unfold publishReliableConn
  rw [hclosing, Conn.forgetControl_subscriptions, hptr]
  split
  · rfl
  · cases c.subscriptions.entries.find? (·.holds obj.trackId.type obj.trackId.name) with
    | none => rfl
    | some sub =>
      dsimp only
      rw [hopen]
      cases sub.stream with
      | none => cases io.openStream c.ptr <;> rfl
      | some sid =>
        cases c.sendOpen (some sid) with
        | true => rfl
        | false => cases io.openStream c.ptr <;> rfl

/-- One step on one connection, whatever stream it destroys. -/
theorem tracksOk_conn {lib : FecLib} {s : System} {t' : Transport} {c c' : Conn} {l : ConnLabel}
    {o : List Effect} (h : c.TracksOk s.transport.isServer)
    (hquic : Label.Quic s (.conn c.ptr l))
    (hstep : connStep lib s.transport c l = some (t', c', o)) :
    c'.TracksOk s.transport.isServer := by
  -- what leaves streams and table alone keeps the handles
  have same : c'.streams = c.streams → c'.subscriptions = c.subscriptions →
      c'.TracksOk s.transport.isServer :=
    fun hstreams hsubs => h.of_sublist hstreams (by rw [hsubs])
  cases l with
  | openStream sid sendOpen =>
    simp only [connStep] at hstep
    split at hstep
    · exact absurd hstep (by simp)
    · next hnew =>
      simp only [Option.some.injEq, Prod.mk.injEq] at hstep
      rw [← hstep.2.1]
      have hfresh : c.findStream sid = none := by simpa using hnew
      exact (Conn.HandlesOk.onStreamOpen h hfresh sendOpen).forget
  | closeSend sid =>
    simp only [connStep, Option.some.injEq, Prod.mk.injEq] at hstep
    rw [← hstep.2.1]
    exact Conn.HandlesOk.updateStream h (fun _ => rfl) (fun _ hread => hread) fun _ _ hnil => hnil
  | destroyStream sid =>
    simp only [connStep, Option.some.injEq, Prod.mk.injEq] at hstep
    rw [← hstep.2.1]
    exact Conn.HandlesOk.onStreamDestroy h (Option.some_ne_none sid).symm
  | receive sid bytes =>
    simp only [connStep, Option.some.injEq, Prod.mk.injEq] at hstep
    rw [← hstep.2.1]
    refine Conn.HandlesOk.updateStream h (fun _ => rfl) (fun _ hread => hread) fun _ hown _ => ?_
    exact absurd (hown.symm.trans hquic) (by decide)
  | iterate sid io =>
    simp only [connStep] at hstep
    split at hstep
    · exact absurd hstep (by simp)
    · next st hst =>
      simp only [Option.some.injEq, Prod.mk.injEq] at hstep
      rw [← hstep.2.1]
      have hfound : c.forgetControl.findStream sid = some st := hst
      have hok := (handlesOk_stream h lib io s.transport hfound).forget
      unfold Conn.TracksOk at hok ⊢
      rw [streamIteration_forgetControl] at hok
      exact hok
  | datagram io payload =>
    simp only [connStep] at hstep
    split at hstep
    · exact absurd hstep (by simp)
    · next r hr =>
      rw [Option.some.injEq] at hstep
      rw [hstep] at hr
      rcases onReceiveDatagramFrame_cases hr with ⟨rfl, -, -⟩ | ⟨-, _, r, -, -, -, rfl, -⟩
      · exact h
      · exact same rfl rfl
  | respondAuth success =>
    simp only [connStep, Option.some.injEq] at hstep
    have hc : c' = (transportRespondAuth c success).2.1 := (congrArg (fun r => r.2.1) hstep).symm
    rw [hc, transportRespondAuth]
    split
    · exact h
    · split <;> exact h.of_sublist rfl (List.Sublist.refl _)
  | _ =>
    simp only [connStep, Option.some.injEq] at hstep
    have hc := congrArg (fun r => r.2.1) hstep
    dsimp only [transportCloseConn] at hc
    rw [← hc]
    exact h.of_sublist rfl (List.Sublist.refl _)

theorem tracksOk_published {io : PublishIO} {isServer : Bool} {c c' : Conn}
    (h : c.TracksOk isServer) (hnew : ∀ sid, io.openStream c.ptr = some sid →
      ownUni isServer sid = true ∧ c.findStream sid = none)
    (hpub : Published io isServer c c') : c'.TracksOk isServer := by
  rcases hpub with rfl | ⟨obj, rfl⟩
  · exact h
  · have hok := (handlesOk_published h hnew (Or.inr ⟨obj, rfl⟩)).forget
    unfold Conn.TracksOk at hok ⊢
    rw [publishReliableConn_forgetControl] at hok
    exact hok

/-- A step keeps the handles in the tables in order. -/
theorem tracksOk_step {lib : FecLib} {s s' : System} {l : Label} {o : List Effect}
    (hok : ∀ c ∈ s.transport.conns, c.TracksOk s.transport.isServer) (hquic : l.Quic s)
    (h : step lib s l = some (s', o)) :
    ∀ c ∈ s'.transport.conns, c.TracksOk s'.transport.isServer := by
  intro c' hc'
  rw [step_isServer h]
  rcases step_becomes h hc' with ⟨-, -, hzero⟩ | ⟨c, hmem, -, hbecomes⟩
  · rw [hzero]
    exact (Conn.HandlesOk.zero _ _).forget
  cases hbecomes with
  | kept => exact hok c' hmem
  | @subscribe track _ hopen =>
    exact (hok c hmem).of_sublist rfl (handles_subscribeTable c.subscriptions track)
  | publish hpub => exact tracksOk_published (hok c hmem) (hquic c hmem) hpub
  | tick hpub => exact tracksOk_published (hok c hmem) (hquic c hmem) hpub
  | conn hfind hstep => exact tracksOk_conn (hok c hmem) hquic hstep

/-! ## Send sides -/

/-- The ids of the unidirectional streams of the peer. -/
def peerUni (isServer : Bool) (sid : ℕ) : Bool := sid % 4 == if isServer then 2 else 3

theorem peerUni_of_ownUni {isServer : Bool} {sid : ℕ} (h : ownUni isServer sid = true) :
    peerUni isServer sid = false := by
  unfold ownUni at h
  unfold peerUni
  rw [beq_iff_eq] at h
  rw [h]
  cases isServer <;> rfl

/-- The send side of a stream was closed: `on_stop_sending`, `on_receive_reset`. -/
def ClosedIn (labels : List Label) (ptr sid : ℕ) : Prop := .conn ptr (.closeSend sid) ∈ labels

/-- The label closes the send side of a stream. -/
def Label.closes (ptr sid : ℕ) : Label → Bool
  | .conn ptr' (.closeSend sid') => ptr' == ptr && sid' == sid
  | _ => false

theorem Label.closes_iff {ptr sid : ℕ} {l : Label} :
    l.closes ptr sid = true ↔ l = .conn ptr (.closeSend sid) := by
  constructor
  · intro h
    unfold Label.closes at h
    split at h
    · rw [Bool.and_eq_true, beq_iff_eq, beq_iff_eq] at h
      rw [h.1, h.2]
    · exact absurd h Bool.false_ne_true
  · rintro rfl
    simp [Label.closes]

instance (labels : List Label) (ptr sid : ℕ) : Decidable (ClosedIn labels ptr sid) :=
  decidable_of_iff (∃ l ∈ labels, l.closes ptr sid = true) (by simp [ClosedIn, Label.closes_iff])

/-- The send side of a stream is open as long as nothing closes it, but for the unidirectional
streams of the peer. -/
def Conn.SendSides (isServer : Bool) (labels : List Label) (c : Conn) : Prop :=
  ∀ st ∈ c.streams, st.sendOpen = true ↔
    peerUni isServer st.id = false ∧ ¬ClosedIn labels c.ptr st.id

/-- The streams of a connection keep their send sides. -/
def Conn.KeepsSides (c c' : Conn) : Prop :=
  ∀ st' ∈ c'.streams, ∃ st ∈ c.streams, st'.id = st.id ∧ st'.sendOpen = st.sendOpen

namespace Conn.KeepsSides

variable {c c' c'' : Conn}

theorem of_eq (h : c'.streams = c.streams) : c.KeepsSides c' :=
  fun st hst => ⟨st, h ▸ hst, rfl, rfl⟩

theorem trans (h : c.KeepsSides c') (h' : c'.KeepsSides c'') : c.KeepsSides c'' := by
  intro st'' hst''
  obtain ⟨st', hst', hid', hopen'⟩ := h' st'' hst''
  obtain ⟨st, hst, hid, hopen⟩ := h st' hst'
  exact ⟨st, hst, hid'.trans hid, hopen'.trans hopen⟩

theorem updateStream (c : Conn) (sid : ℕ) {f : Stream → Stream} (hid : ∀ st, (f st).id = st.id)
    (hopen : ∀ st, (f st).sendOpen = st.sendOpen) : c.KeepsSides (c.updateStream sid f) := by
  intro st' hst'
  obtain ⟨st, hst, rfl⟩ := List.mem_map.mp hst'
  refine ⟨st, hst, ?_, ?_⟩
  · split
    · exact hid st
    · rfl
  · split
    · exact hopen st
    · rfl

theorem shift (c : Conn) (sid consumed : ℕ) : c.KeepsSides (c.shift sid consumed) :=
  updateStream c sid (fun _ => rfl) fun _ => rfl

theorem trackObject (t : Transport) (c : Conn) (sid : ℕ) (trackAlias : UInt8) (input : Bytes) :
    c.KeepsSides (trackObjectIteration t c sid trackAlias input).conn := by
  unfold trackObjectIteration
  dsimp only
  split
  · exact of_eq rfl
  · split
    · exact of_eq rfl
    · split
      · exact of_eq rfl
      · exact shift c sid _

theorem message (lib : FecLib) (io : ControlIO) (t : Transport) (c : Conn) (m : ControlMessage) :
    c.KeepsSides (handleControlMessage lib io t c m).2.1 := by
  cases m with
  | data trackAlias payload =>
    simp only [handleControlMessage]
    split <;> exact of_eq rfl
  | nack trackAlias groupId objectId missing =>
    simp only [handleControlMessage]
    split
    · exact of_eq rfl
    · split <;> exact of_eq rfl
  | _ => exact of_eq rfl

theorem iteration (lib : FecLib) (io : ControlIO) (t : Transport) (c : Conn) (s : Stream) :
    c.KeepsSides (streamIteration lib io t c s).conn := by
  unfold streamIteration
  split
  · unfold controlIteration
    split
    · exact of_eq rfl
    · exact of_eq rfl
    · exact (message lib io t c _).trans (shift _ s.id _)
  · unfold trackIteration
    split
    · exact of_eq rfl
    · next b rest _ =>
      split
      · exact trackObject t c s.id _ _
      · have hheader : c.KeepsSides (receiveStreamHeader c s.id b) :=
          updateStream c s.id (fun _ => rfl) fun _ => rfl
        exact hheader.trans (trackObject t _ s.id b rest)

end Conn.KeepsSides

theorem closedIn_concat {pre : List Label} {l : Label} {ptr sid : ℕ} :
    ClosedIn (pre ++ [l]) ptr sid ↔ ClosedIn pre ptr sid ∨ l = .conn ptr (.closeSend sid) := by
  unfold ClosedIn
  rw [List.mem_append, List.mem_singleton, eq_comm (a := Label.conn ptr (.closeSend sid))]

section SendSides

variable {isServer : Bool} {pre : List Label} {l : Label} {c c' : Conn}

/-- A label that closes no stream of the connection. -/
theorem sendSides_of_kept (h : c.SendSides isServer pre) (hptr : c'.ptr = c.ptr)
    (hl : ∀ sid, l ≠ .conn c.ptr (.closeSend sid)) (hkept : c.KeepsSides c') :
    c'.SendSides isServer (pre ++ [l]) := by
  intro st' hst'
  obtain ⟨st, hst, hid, hopen⟩ := hkept st' hst'
  rw [hopen, hid, hptr, closedIn_concat, or_iff_left (hl st.id)]
  exact h st hst

/-- A stream is opened: with a send side, but for the unidirectional streams of the peer. -/
theorem sendSides_onStreamOpen (h : c.SendSides isServer pre)
    (hl : ∀ sid, l ≠ .conn c.ptr (.closeSend sid)) {sid : ℕ} {sendOpen : Bool}
    (hside : sendOpen = !peerUni isServer sid) (hnew : ¬ClosedIn pre c.ptr sid) :
    (onStreamOpen c sid sendOpen).SendSides isServer (pre ++ [l]) := by
  intro st hst
  rw [closedIn_concat]
  show _ ↔ _ ∧ ¬(ClosedIn pre c.ptr st.id ∨ l = .conn c.ptr (.closeSend st.id))
  rw [or_iff_left (hl st.id)]
  rcases List.mem_append.mp hst with hold | hnewst
  · exact h st hold
  · rw [List.mem_singleton.mp hnewst, and_iff_left hnew, hside, Bool.not_eq_true']

/-- The send side of a stream closes. -/
theorem sendSides_closeSend (h : c.SendSides isServer pre) (sid : ℕ) :
    (c.updateStream sid fun st => { st with sendOpen := false }).SendSides isServer
      (pre ++ [.conn c.ptr (.closeSend sid)]) := by
  intro st' hst'
  obtain ⟨st, hst, rfl⟩ := List.mem_map.mp hst'
  rw [closedIn_concat]
  show _ ↔ _ ∧ ¬(ClosedIn pre c.ptr _ ∨ Label.conn c.ptr (.closeSend sid) = _)
  by_cases hid : st.id = sid
  · rw [if_pos hid]
    refine iff_of_false (by simp) fun hnot => hnot.2 (Or.inr ?_)
    show Label.conn c.ptr (.closeSend sid) = .conn c.ptr (.closeSend st.id)
    rw [hid]
  · rw [if_neg hid, or_iff_left]
    · exact h st hst
    · intro heq
      injection heq with _ heq
      injection heq with heq
      exact hid heq.symm

/-- A publish opens at most one stream, with a send side. -/
theorem sendSides_published {io : PublishIO} (h : c.SendSides isServer pre)
    (hl : ∀ sid, l ≠ .conn c.ptr (.closeSend sid))
    (hnew : ∀ sid, io.openStream c.ptr = some sid →
      ownUni isServer sid = true ∧ ¬ClosedIn pre c.ptr sid)
    (hpub : Published io isServer c c') : c'.SendSides isServer (pre ++ [l]) := by
  rcases hpub with rfl | ⟨obj, rfl⟩
  · exact sendSides_of_kept h rfl hl (.of_eq rfl)
  unfold publishReliableConn
  split
  · exact sendSides_of_kept h rfl hl (.of_eq rfl)
  split
  · exact sendSides_of_kept h rfl hl (.of_eq rfl)
  dsimp only
  split
  · exact sendSides_of_kept h rfl hl (.of_eq rfl)
  split
  · exact sendSides_of_kept h rfl hl (.of_eq rfl)
  · next sid hsid =>
    obtain ⟨hown, hfresh⟩ := hnew sid hsid
    refine @sendSides_onStreamOpen _ _ _ c h hl sid true ?_ hfresh
    rw [peerUni_of_ownUni hown]
    rfl

end SendSides

/-- The streams a label opens: connection, stream, and whether it has a send side. -/
def Label.opened (s : System) : Label → List (ℕ × ℕ × Bool)
  | .conn ptr (.openStream sid sendOpen) => [(ptr, sid, sendOpen)]
  | .publish io _ => s.transport.conns.filterMap fun c =>
    (io.openStream c.ptr).map fun sid => (c.ptr, sid, true)
  | .tick io => s.transport.conns.filterMap fun c =>
    (io.openStream c.ptr).map fun sid => (c.ptr, sid, true)
  | _ => []

/-- What QUIC promises about the send sides: a stream is opened with one, but for the unidirectional
streams of the peer, and nothing closes the send side of a stream that is not open yet. -/
def Label.OpensSides (pre : List Label) (s : System) (l : Label) : Prop :=
  ∀ p ∈ l.opened s, p.2.2 = (!peerUni s.transport.isServer p.2.1) ∧ ¬ClosedIn pre p.1 p.2.1

instance (pre : List Label) (s : System) (l : Label) : Decidable (l.OpensSides pre s) := by
  unfold Label.OpensSides
  infer_instance

theorem mem_opened {s : System} {io : PublishIO} {c : Conn} {sid : ℕ}
    (hc : c ∈ s.transport.conns) (hsid : io.openStream c.ptr = some sid) :
    (c.ptr, sid, true) ∈ s.transport.conns.filterMap fun c =>
      (io.openStream c.ptr).map fun sid => (c.ptr, sid, true) :=
  List.mem_filterMap.mpr ⟨c, hc, by rw [hsid]; rfl⟩

/-- One step on one connection that closes no send side. -/
theorem sendSides_conn {lib : FecLib} {s : System} {t' : Transport} {c c' : Conn} {l : ConnLabel}
    {o : List Effect} {pre : List Label} (h : c.SendSides s.transport.isServer pre)
    (hquic : Label.OpensSides pre s (.conn c.ptr l)) (hl : ∀ sid, l ≠ .closeSend sid)
    (hstep : connStep lib s.transport c l = some (t', c', o)) :
    c'.SendSides s.transport.isServer (pre ++ [.conn c.ptr l]) := by
  have hlabel : ∀ sid, Label.conn c.ptr l ≠ .conn c.ptr (.closeSend sid) := by
    intro sid heq
    injection heq with _ heq
    exact hl sid heq
  have hptr := connStep_ptr hstep
  cases l with
  | openStream sid sendOpen =>
    simp only [connStep] at hstep
    split at hstep
    · exact absurd hstep (by simp)
    · simp only [Option.some.injEq, Prod.mk.injEq] at hstep
      rw [← hstep.2.1]
      -- QUIC gives out a new number, with the sides of its kind
      obtain ⟨hside, hnew⟩ := hquic _ (List.mem_singleton_self _)
      exact sendSides_onStreamOpen h hlabel hside hnew
  | closeSend sid => exact absurd rfl (hl sid)
  | destroyStream sid =>
    simp only [connStep, Option.some.injEq, Prod.mk.injEq] at hstep
    refine sendSides_of_kept h hptr hlabel fun st hst => ⟨st, ?_, rfl, rfl⟩
    rw [← hstep.2.1] at hst
    exact List.mem_of_mem_filter hst
  | receive sid bytes =>
    simp only [connStep, Option.some.injEq, Prod.mk.injEq] at hstep
    refine sendSides_of_kept h hptr hlabel ?_
    rw [← hstep.2.1]
    exact .updateStream c sid (fun _ => rfl) fun _ => rfl
  | iterate sid io =>
    simp only [connStep] at hstep
    split at hstep
    · exact absurd hstep (by simp)
    · next st _ =>
      simp only [Option.some.injEq, Prod.mk.injEq] at hstep
      refine sendSides_of_kept h hptr hlabel ?_
      rw [← hstep.2.1]
      exact .iteration lib io s.transport c st
  | datagram io payload =>
    simp only [connStep] at hstep
    split at hstep
    · exact absurd hstep (by simp)
    · next r hr =>
      rw [Option.some.injEq] at hstep
      rw [hstep] at hr
      refine sendSides_of_kept h hptr hlabel ?_
      rcases onReceiveDatagramFrame_cases hr with ⟨rfl, -, -⟩ | ⟨-, _, r, -, -, -, rfl, -⟩
      · exact .of_eq rfl
      · exact .of_eq rfl
  | respondAuth success =>
    simp only [connStep, Option.some.injEq] at hstep
    have hc : c' = (transportRespondAuth c success).2.1 := (congrArg (fun r => r.2.1) hstep).symm
    refine sendSides_of_kept h hptr hlabel ?_
    rw [hc, transportRespondAuth]
    split
    · exact .of_eq rfl
    · split <;> exact .of_eq rfl
  | _ =>
    simp only [connStep, Option.some.injEq] at hstep
    have hc := congrArg (fun r => r.2.1) hstep
    dsimp only [transportCloseConn] at hc
    refine sendSides_of_kept h hptr hlabel ?_
    rw [← hc]
    exact .of_eq rfl

/-- A step keeps the account of the send sides. -/
theorem sendSides_step {lib : FecLib} {s s' : System} {l : Label} {o : List Effect}
    {pre : List Label} (hok : ∀ c ∈ s.transport.conns, c.SendSides s.transport.isServer pre)
    (hquic : l.Quic s) (hsides : l.OpensSides pre s) (h : step lib s l = some (s', o)) :
    ∀ c ∈ s'.transport.conns, c.SendSides s'.transport.isServer (pre ++ [l]) := by
  intro c' hc'
  rw [step_isServer h]
  by_cases hclose : ∃ ptr sid, l = .conn ptr (.closeSend sid)
  · obtain ⟨ptr, sid, rfl⟩ := hclose
    rcases step_eq_some h with ⟨_, hne, -⟩ | ⟨ht, -⟩
    · exact absurd hne (by simp)
    obtain ⟨c, t₁, c₁, hfind, hstep, htr⟩ := transportStep_conn.mp ht
    obtain ⟨hmem, rfl⟩ := Transport.findConn_eq_some hfind
    simp only [connStep, Option.some.injEq, Prod.mk.injEq] at hstep
    obtain ⟨rfl, rfl, -⟩ := hstep
    rw [htr] at hc'
    rcases Transport.mem_setConn hc' with rfl | ⟨hold, hne⟩
    · exact sendSides_closeSend (hok c hmem) sid
    · refine sendSides_of_kept (hok c' hold) rfl (fun sid' heq => ?_) (.of_eq rfl)
      injection heq with heq
      exact hne heq.symm
  · have hl : ∀ ptr sid, l ≠ .conn ptr (.closeSend sid) := fun ptr sid heq => hclose ⟨ptr, sid, heq⟩
    rcases step_becomes h hc' with ⟨-, -, hzero⟩ | ⟨c, hmem, -, hbecomes⟩
    · rw [hzero]
      exact fun st hst => absurd hst List.not_mem_nil
    cases hbecomes with
    | kept => exact sendSides_of_kept (hok c' hmem) rfl (hl _) (.of_eq rfl)
    | subscribe hopen => exact sendSides_of_kept (hok c hmem) rfl (hl _) (.of_eq rfl)
    | publish hpub =>
      exact sendSides_published (hok c hmem) (hl _)
        (fun sid hsid => ⟨(hquic c hmem sid hsid).1, (hsides _ (mem_opened hmem hsid)).2⟩) hpub
    | tick hpub =>
      exact sendSides_published (hok c hmem) (hl _)
        (fun sid hsid => ⟨(hquic c hmem sid hsid).1, (hsides _ (mem_opened hmem hsid)).2⟩) hpub
    | conn hfind hstep =>
      exact sendSides_conn (hok c hmem) hsides (fun sid heq => hl c.ptr sid (by rw [heq])) hstep

end Bishlink
