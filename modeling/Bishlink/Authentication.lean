import Bishlink.System

/-!
# The authentication gate

A connection of a server is a guest until it is authenticated. What a guest's input can do
is small (`guest_step`): it raises no event about tracks or objects and no datagram, and it
leaves the flag and the table alone unless it takes one of two ways past the gate. These are
`Gated`'s cases: an authentication response, which only a client should get, and the header
of a track stream, which is handled before the flag is looked at.
-/

namespace Bishlink

/-! ## Guests -/

/-- The effects a guest must not cause: events about tracks and objects, and datagrams. -/
def Effect.privileged : Effect → Bool
  | .event _ (.subscribe _) => true
  | .event _ (.unsubscribe _) => true
  | .event _ (.keyframeRequest _) => true
  | .event _ (.object _ _) => true
  | .datagram _ _ _ => true
  | _ => false

/-- What the peer sends. -/
def ConnLabel.fromPeer : ConnLabel → Bool
  | .receive _ _ => true
  | .iterate _ _ => true
  | .datagram _ _ => true
  | _ => false

/-- The input of a stream stays behind the gate: on the control stream it does not start with
a positive authentication response, and the header of a track stream does not name an
active entry that another stream, or none, is mapped to. -/
def Stream.Gated (s : Stream) (table : Subscriptions) : Prop :=
  if s.isControl then ¬[0x05, 0x01] <+: s.ingress
  else
    match s.ingress with
    | [] => True
    | b :: _ =>
      s.headerReceived = true ∨
        ∀ e ∈ table.entries.find? (·.hasAlias b), e.stream = some s.id

/-- A label of a connection that stays behind the gate. -/
def Gated (c : Conn) : ConnLabel → Prop
  | .iterate sid _ => ∀ s ∈ c.findStream sid, s.Gated c.subscriptions
  | _ => True

/-- A label that, where its connection is a guest, stays behind the gate. -/
def StaysGated (s : System) : Label → Prop
  | .conn ptr l => ∀ c ∈ s.transport.findConn ptr, c.authenticated = false → Gated c l
  | _ => True

instance (s : Stream) (table : Subscriptions) : Decidable (s.Gated table) := by
  unfold Stream.Gated
  split
  · infer_instance
  · split <;> infer_instance

instance (c : Conn) (l : ConnLabel) : Decidable (Gated c l) := by
  unfold Gated
  split <;> infer_instance

instance (s : System) (l : Label) : Decidable (StaysGated s l) := by
  unfold StaysGated
  split <;> infer_instance

/-! ## One step of a guest -/

/-- The messages a guest gets through: authentication, its response, and unknown types. -/
theorem parseControlMessage_guest {input : Bytes} {m : ControlMessage} {n : ℕ}
    (h : parseControlMessage true false input = .item m n) :
    (∃ token, m = .auth token) ∨
      (∃ status rest, m = .authResponse status ∧ input = 0x05 :: status :: rest) ∨
      ∃ type, m = .unknown type := by
  cases input with
  | nil => simp [parseControlMessage] at h
  | cons type rest =>
    simp only [parseControlMessage, Bool.not_false, Bool.and_self] at h
    split at h
    -- a guest's message is refused, or is not there whole
    · simp only [parseTrackMessage, if_true] at h
      split at h <;> simp at h
    split at h
    · simp only [parseUnicast, if_true] at h
      split at h
      · simp at h
      · split at h
        · simp at h
        · split at h <;> simp at h
    split at h
    · simp only [parseAuth] at h
      split at h
      · simp at h
      · split at h
        · simp at h
        · simp only [Framing.Parsed.item.injEq] at h
          exact Or.inl ⟨_, h.1.symm⟩
    split at h
    · rename_i htype
      simp only [parseAuthResponse] at h
      split at h
      · simp at h
      · simp only [Framing.Parsed.item.injEq] at h
        rename_i hlen
        cases rest with
        | nil => simp at hlen
        | cons status rest => exact Or.inr (Or.inl ⟨status, rest, h.1.symm, by rw [htype]⟩)
    split at h
    · simp only [parseData, if_true] at h
      split at h
      · simp at h
      · split at h
        · simp at h
        · split at h <;> simp at h
    split at h
    · simp only [parseNack, if_true] at h
      split at h
      · simp at h
      · split at h <;> simp at h
    · simp only [Framing.Parsed.item.injEq] at h
      exact Or.inr (Or.inr ⟨_, h.1.symm⟩)

/-- An authentication response is taken whatever the role. -/
theorem parseControlMessage_authResponse (isServer authenticated : Bool) (status : UInt8)
    (rest : Bytes) :
    parseControlMessage isServer authenticated (0x05 :: status :: rest) =
      .item (.authResponse status) 2 := by
  simp [parseControlMessage, parseAuthResponse]

/-- An iteration on the control stream of a guest: nothing privileged, and the flag is the
only thing that can change, by a positive response. -/
theorem controlIteration_guest {t : Transport} {c : Conn} (hserver : t.isServer = true)
    (hguest : c.authenticated = false) (lib : FecLib) (io : ControlIO) (sid : ℕ) (input : Bytes) :
    let r := controlIteration lib io t c sid input
    (∀ e ∈ r.effects, e.privileged = false) ∧ r.conn.subscriptions = c.subscriptions ∧
      (r.conn.authenticated = false ↔ ¬[0x05, 0x01] <+: input) := by
  have hstart : (∀ m n, parseControlMessage true false input = .item m n → m ≠ .authResponse 1) →
      ¬[0x05, 0x01] <+: input := by
    rintro hne ⟨rest, rfl⟩
    exact hne _ _ (parseControlMessage_authResponse true false 0x01 rest) rfl
  simp only [controlIteration, hserver, hguest]
  split
  · rename_i hparse
    exact ⟨by simp, rfl, iff_of_true hguest (hstart (by simp [hparse]))⟩
  · rename_i hparse
    exact ⟨by simp [Conn.close, Effect.privileged], rfl,
      iff_of_true hguest (hstart (by simp [hparse]))⟩
  · rename_i m n hparse
    rcases parseControlMessage_guest hparse with
      ⟨token, rfl⟩ | ⟨status, rest, rfl, rfl⟩ | ⟨type, rfl⟩
    · refine ⟨by simp [handleControlMessage, Effect.privileged], rfl, iff_of_true hguest ?_⟩
      exact hstart (by simp [hparse])
    · refine ⟨by simp [handleControlMessage, Effect.privileged], rfl, ?_⟩
      have hpre : [0x05, 0x01] <+: 0x05 :: status :: rest ↔ status = 1 := by
        rw [List.cons_prefix_cons, List.cons_prefix_cons]
        simp only [List.nil_prefix, and_true, true_and]
        exact eq_comm
      rw [hpre]
      show (c.authenticated || status == 1) = false ↔ status ≠ 1
      rw [hguest, Bool.false_or, beq_eq_false_iff_ne]
    · refine ⟨by simp [handleControlMessage], rfl, iff_of_true hguest ?_⟩
      exact hstart (by simp [hparse])

/-- An object on a track stream of a guest closes the connection. -/
theorem trackObjectIteration_guest {t : Transport} {c : Conn} (hserver : t.isServer = true)
    (hguest : c.authenticated = false) (sid : ℕ) (trackAlias : UInt8) (input : Bytes) :
    let r := trackObjectIteration t c sid trackAlias input
    (∀ e ∈ r.effects, e.privileged = false) ∧ r.conn.subscriptions = c.subscriptions ∧
      r.conn.authenticated = false := by
  simp only [trackObjectIteration, hserver, hguest]
  split
  · exact ⟨by simp, rfl, hguest⟩
  split
  · exact ⟨by simp, rfl, hguest⟩
  · exact ⟨by simp [Conn.close, Effect.privileged], rfl, hguest⟩

/-- An iteration on a track stream of a guest: nothing privileged, and the table is the only
thing that can change, by the stream of the entry the header names. -/
theorem trackIteration_guest {t : Transport} {c : Conn} {s : Stream}
    (hserver : t.isServer = true) (hguest : c.authenticated = false)
    (htrack : s.isControl = false) :
    let r := trackIteration t c s
    (∀ e ∈ r.effects, e.privileged = false) ∧ r.conn.authenticated = false ∧
      (r.conn.subscriptions = c.subscriptions ↔ s.Gated c.subscriptions) := by
  simp only [trackIteration, Stream.Gated, htrack, Bool.false_eq_true, if_false]
  cases s.ingress with
  | nil => exact ⟨by simp, hguest, by simp⟩
  | cons b rest =>
    dsimp only
    by_cases hheader : s.headerReceived = true
    · rw [if_pos hheader]
      obtain ⟨hquiet, htable, hauth⟩ := trackObjectIteration_guest hserver hguest
        s.id s.trackAlias (b :: rest)
      exact ⟨hquiet, hauth, iff_of_true htable (Or.inl hheader)⟩
    · rw [if_neg hheader]
      obtain ⟨hquiet, htable, hauth⟩ := trackObjectIteration_guest
        (c := receiveStreamHeader c s.id b) hserver hguest s.id b rest
      refine ⟨hquiet, hauth, ?_⟩
      rw [htable]
      simp only [hheader, Bool.false_eq_true, false_or]
      exact mapStream_eq_self_iff

/-- What a guest's input does: nothing privileged, and it leaves the flag and the table alone
exactly when it stays behind the gate. -/
theorem guest_step {lib : FecLib} {t t' : Transport} {c c' : Conn} {l : ConnLabel}
    {o : List Effect} (hserver : t.isServer = true) (hguest : c.authenticated = false)
    (hpeer : l.fromPeer = true) (h : connStep lib t c l = some (t', c', o)) :
    (∀ e ∈ o, e.privileged = false) ∧
      (c'.authenticated = false ∧ c'.subscriptions = c.subscriptions ↔ Gated c l) := by
  cases l with
  | receive sid bytes =>
    simp only [connStep, Option.some.injEq, Prod.mk.injEq] at h
    obtain ⟨-, rfl, rfl⟩ := h
    exact ⟨by simp, iff_of_true ⟨hguest, rfl⟩ trivial⟩
  | iterate sid io =>
    simp only [connStep] at h
    split at h
    · simp at h
    rename_i s hs
    simp only [Option.some.injEq, Prod.mk.injEq] at h
    obtain ⟨-, rfl, rfl⟩ := h
    have hgated : Gated c (.iterate sid io) ↔ s.Gated c.subscriptions := by simp [Gated, hs]
    rw [hgated, streamIteration]
    -- the control stream takes messages in, any other stream may turn into a track stream
    by_cases hcontrol : s.isControl = true
    · rw [if_pos hcontrol]
      obtain ⟨hquiet, htable, hauth⟩ := controlIteration_guest hserver hguest lib io
        s.id s.ingress
      refine ⟨hquiet, ?_⟩
      rw [hauth, and_iff_left htable, Stream.Gated, if_pos hcontrol]
    · rw [if_neg hcontrol]
      obtain ⟨hquiet, hauth, htable⟩ := trackIteration_guest (s := s) hserver hguest
        (by simpa using hcontrol)
      exact ⟨hquiet, by rw [and_iff_right hauth, htable]⟩
  | datagram io payload =>
    simp only [connStep] at h
    split at h
    · simp at h
    rename_i r hr
    rw [Option.some.injEq] at h
    unfold onReceiveDatagramFrame at hr
    rw [h, if_pos (by simp [hserver, hguest])] at hr
    simp only [Except.ok.injEq, Prod.mk.injEq] at hr
    obtain ⟨-, rfl, rfl⟩ := hr
    exact ⟨by simp, iff_of_true ⟨hguest, rfl⟩ trivial⟩
  | _ => simp [ConnLabel.fromPeer] at hpeer

/-- What is not the peer's doing leaves the flag alone, but for the application's approval. -/
theorem connStep_authenticated {lib : FecLib} {t t' : Transport} {c c' : Conn} {l : ConnLabel}
    {o : List Effect} (hpeer : l.fromPeer = false) (h : connStep lib t c l = some (t', c', o)) :
    c'.authenticated = c.authenticated ∨ l = .respondAuth true := by
  cases l with
  | receive sid bytes => simp [ConnLabel.fromPeer] at hpeer
  | iterate sid io => simp [ConnLabel.fromPeer] at hpeer
  | datagram io payload => simp [ConnLabel.fromPeer] at hpeer
  | openStream sid sendOpen =>
    simp only [connStep] at h
    split at h
    · simp at h
    · simp only [Option.some.injEq, Prod.mk.injEq] at h
      exact Or.inl (by rw [← h.2.1]; rfl)
  | respondAuth success =>
    cases success with
    | true => exact Or.inr rfl
    | false =>
      refine Or.inl ?_
      simp only [connStep, Option.some.injEq] at h
      rw [← congrArg (fun r => r.2.1.authenticated) h]
      simp only [transportRespondAuth]
      split <;> rfl
  | _ =>
    simp only [connStep, Option.some.injEq] at h
    have hauth := congrArg (fun r => r.2.1.authenticated) h
    exact Or.inl hauth.symm

/-! ## Whole runs -/

/-- A connection is authenticated after a step because the step is the application's approval,
or because it was before. -/
theorem authenticated_step {lib : FecLib} {s s' : System} {l : Label} {o : List Effect}
    (hserver : s.transport.isServer = true) (hgated : StaysGated s l)
    (h : step lib s l = some (s', o)) {c' : Conn} (hc : c' ∈ s'.transport.conns)
    (hauth : c'.authenticated = true) :
    l = .conn c'.ptr (.respondAuth true) ∨
      ∃ c ∈ s.transport.conns, c.ptr = c'.ptr ∧ c.authenticated = true := by
  rcases step_conn h hc with ⟨-, -, hzero⟩ | ⟨c, hmem, hptr, hchange⟩
  · have hfalse : c'.authenticated = false := by rw [hzero]; rfl
    simp [hfalse] at hauth
  by_cases hbefore : c.authenticated = true
  · exact Or.inr ⟨c, hmem, hptr.symm, hbefore⟩
  have hguest : c.authenticated = false := by simpa using hbefore
  refine Or.inl ?_
  cases hchange with
  | same hsame => exact absurd (hsame.authenticated ▸ hauth) hbefore
  | subscribe hopen => exact absurd hauth hbefore
  | @conn l t' _ _ _ hfind hstep =>
    cases hpeer : l.fromPeer with
    | true =>
      have hstay := (guest_step hserver hguest hpeer hstep).2.mpr (hgated c hfind hguest)
      simp [hstay.1] at hauth
    | false =>
      rcases connStep_authenticated hpeer hstep with hsame | rfl
      · exact absurd (hsame ▸ hauth) hbefore
      · rw [hptr]

/-- In a run whose guests stay behind the gate, who is authenticated was approved. -/
theorem approved_of_authenticated {lib : FecLib} {links : List SockAddr} {mtu : ℕ}
    {labels : List Label} {s : System} {o : List Effect}
    (hguard : Runs.Along (step lib) StaysGated (System.init true links mtu) labels)
    (hrun : Runs.run (step lib) (System.init true links mtu) labels = some (s, o)) :
    s.transport.isServer = true ∧ ∀ c ∈ s.transport.conns, c.authenticated = true →
      Label.conn c.ptr (.respondAuth true) ∈ labels := by
  refine Runs.run_induction_along (step lib) (G := StaysGated)
    (P := fun labels s _ => s.transport.isServer = true ∧ ∀ c ∈ s.transport.conns,
      c.authenticated = true → Label.conn c.ptr (.respondAuth true) ∈ labels)
    ⟨rfl, fun c hc => absurd hc List.not_mem_nil⟩ ?_ labels s o hguard hrun
  intro labels s _ l s' _ _ ih hgated hstep
  refine ⟨(step_isServer hstep).trans ih.1, fun c' hc hauth => ?_⟩
  rcases authenticated_step ih.1 hgated hstep hc hauth with rfl | ⟨c, hmem, hptr, hbefore⟩
  · simp
  · rw [← hptr]
    exact List.mem_append_left _ (ih.2 c hmem hbefore)

/-- In every run of a server whose guests stay behind the gate, a connection is authenticated
only if the application approved it. Before that its peer raises no privileged event, gets
no datagram, and does not change its table. -/
theorem gate_holds (lib : FecLib) (links : List SockAddr) (mtu : ℕ) (labels : List Label)
    (s : System) (o : List Effect)
    (hguard : Runs.Along (step lib) StaysGated (System.init true links mtu) labels)
    (hrun : Runs.run (step lib) (System.init true links mtu) labels = some (s, o)) :
    (∀ c ∈ s.transport.conns, c.authenticated = true →
      Label.conn c.ptr (.respondAuth true) ∈ labels) ∧
    ∀ ptr l s' o', l.fromPeer = true → Label.conn ptr (.respondAuth true) ∉ labels →
      StaysGated s (.conn ptr l) → step lib s (.conn ptr l) = some (s', o') →
      (∀ e ∈ o', e.privileged = false) ∧
        ∀ c c', s.transport.findConn ptr = some c → s'.transport.findConn ptr = some c' →
          c'.subscriptions = c.subscriptions := by
  obtain ⟨hserver, happroved⟩ := approved_of_authenticated hguard hrun
  refine ⟨happroved, fun ptr l s' o' hpeer hnot hgated hstep => ?_⟩
  rcases step_eq_some hstep with ⟨_, hl, -⟩ | ⟨ht, -⟩
  · cases hl
  obtain ⟨c, t₁, c₁, hfind, hconn, htr⟩ := transportStep_conn.mp ht
  obtain ⟨hmem, rfl⟩ := Transport.findConn_eq_some hfind
  have hguest : c.authenticated = false := by
    by_contra hauth
    exact hnot (happroved c hmem (by simpa using hauth))
  obtain ⟨hquiet, hiff⟩ := guest_step hserver hguest hpeer hconn
  refine ⟨hquiet, fun c₀ c' hfind₀ hfind' => ?_⟩
  rw [hfind, Option.some.injEq] at hfind₀
  obtain ⟨fc, owd, rfl⟩ := connStep_transport hconn
  have hptr := connStep_ptr hconn
  have hc' : (({ s.transport with fecCache := fc, owd := owd } : Transport).setConn c₁).findConn
      c₁.ptr = some c₁ := Transport.findConn_setConn (c := c) (by rw [hptr]; exact hfind)
  rw [htr, ← hptr, hc', Option.some.injEq] at hfind'
  rw [← hfind', ← hfind₀]
  exact (hiff.mpr (hgated c hfind hguest)).2

/-- A peer connects, opens the control stream and sends bytes on it. -/
def guestRun (bytes : Bytes) : List Label :=
  [.connect 1, .conn 1 (.openStream 0 true), .conn 1 (.receive 0 bytes),
    .conn 1 (.iterate 0 ControlIO.still)]

set_option maxRecDepth 4000 in
/-- A guest that sends a token is still a guest. -/
theorem gate_holds_token :
    ∃ s o, Runs.run (step FecLib.unavailable) (System.init true [] 1280)
        (guestRun [0x04, 0x00, 0x01, 0x2a]) = some (s, o) ∧
      ∀ c ∈ s.transport.conns, c.authenticated = true →
        Label.conn c.ptr (.respondAuth true) ∈ guestRun [0x04, 0x00, 0x01, 0x2a] :=
  ⟨_, _, rfl, (gate_holds FecLib.unavailable [] 1280 (guestRun [0x04, 0x00, 0x01, 0x2a]) _ _
    (by decide) rfl).1⟩

set_option maxRecDepth 4000 in
/-- A guest that sends an authentication response to a server is authenticated, though the
application approved nobody. -/
theorem guest_authenticates_itself :
    ∃ s o c, Runs.run (step FecLib.unavailable) (System.init true [] 1280)
        (guestRun [0x05, 0x01]) = some (s, o) ∧
      c ∈ s.transport.conns ∧ c.authenticated = true ∧
      Label.conn c.ptr (.respondAuth true) ∉ guestRun [0x05, 0x01] :=
  ⟨_, _, _, rfl, List.mem_singleton_self _, rfl, by simp [guestRun]⟩

end Bishlink
