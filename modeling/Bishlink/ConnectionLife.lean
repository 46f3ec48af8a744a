import Mathlib.Logic.Function.Basic
import Bishlink.ConnectionSweep
import Bishlink.Lib.Lives

/-!
# The lives of connections

The part of `transport_tick` that hands packets to connections and accepts new ones, followed by
the service loop: a tick. What QUIC decides is given for each tick. An address can come back once
its connection has been freed, so what is said of a connection is said of the events about an
address from one acceptance to the next (`connection_lives`).
-/

namespace Bishlink

open Runs

/-! ## Packets -/

/-- A packet from `quicly_decode_packet`: the connections that `quicly_is_destination` finds it to
be for, and the connection that is allocated when `quicly_accept` takes it. -/
structure Incoming where
  destined : ℕ → Bool
  accept : Option ℕ

/-- What happens to a connection. -/
inductive LifeEvent where
  | accepted (conn : ℕ)
  | received (conn : ℕ)
  | service (event : ServiceEvent)
deriving DecidableEq

def ServiceEvent.conn : ServiceEvent → ℕ
  | .connected conn => conn
  | .sent conn => conn
  | .disconnected conn => conn

def LifeEvent.conn : LifeEvent → ℕ
  | .accepted conn => conn
  | .received conn => conn
  | .service event => event.conn

/-- The connections of a transport. Connections are pointers, 0 is NULL; `conns` are the first
`conn_count` entries, and `handshakeComplete` is the field of the connection at the address. -/
structure Endpoint where
  isServer : Bool
  conns : List ℕ
  clientConn : ℕ
  handshakeComplete : ℕ → Bool

/-- The connection that a packet is handed to. No new connection is at NULL or at an address that is
in use. -/
def receivePacket (e : Endpoint) (p : Incoming) : Option (Endpoint × List LifeEvent) :=
  if e.isServer then
    match e.conns.find? p.destined with
    | some conn => some (e, [.received conn])
    | none =>
      if e.conns.length < MAX_CONNECTIONS then
        match p.accept with
        | none => some (e, [])
        | some conn =>
          -- `calloc` gives no address out that is in use
          if conn = 0 ∨ conn ∈ e.conns then none
          else some ({ e with
            conns := e.conns ++ [conn]
            -- `calloc` clears the new connection
            handshakeComplete := Function.update e.handshakeComplete conn false },
            [.accepted conn, .received conn])
      else some (e, [])
  else if e.clientConn = 0 then some (e, [])
  else some (e, [.received e.clientConn])

/-! ## The service loop -/

/-- What QUIC says of a connection in the service loop: `quicly_connection_is_ready`, and what
`quicly_send` does. -/
structure ConnQuic where
  ready : Bool
  batches : ℕ
  final : SendEnd

/-- A connection is connected once. -/
def Endpoint.services (e : Endpoint) (quic : ℕ → ConnQuic) (conn : ℕ) : ConnService :=
  ⟨!e.handshakeComplete conn && (quic conn).ready, (quic conn).batches, (quic conn).final⟩

/-- `active_count` connections. -/
def Endpoint.active (e : Endpoint) : List ℕ :=
  if e.isServer then e.conns else if e.clientConn = 0 then [] else [e.clientConn]

/-- The loop starts. -/
def Endpoint.sweep (e : Endpoint) : Sweep :=
  ⟨e.isServer, e.conns, e.conns.length, e.clientConn, 0, e.active.length, []⟩

/-- The service loop. -/
def serve (e : Endpoint) (quic : ℕ → ConnQuic) : Option (Endpoint × List LifeEvent) :=
  (Loop.leave (sweepStep (e.services quic)) (MAX_CONNECTIONS + 1) e.sweep).map fun s =>
    ({ e with
      conns := s.conns.take s.connCount
      clientConn := s.clientConn
      handshakeComplete := fun conn =>
        e.handshakeComplete conn || (decide (conn ∈ e.active) && (quic conn).ready) },
      s.events.map .service)

/-! ## Ticks -/

/-- A call of `transport_tick`: the packets that are read, and what QUIC says afterwards. -/
structure ConnTick where
  packets : List Incoming
  quic : ℕ → ConnQuic

def connTick (e : Endpoint) (k : ConnTick) : Option (Endpoint × List LifeEvent) :=
  match run receivePacket e k.packets with
  | none => none
  | some (e₁, o₁) =>
    match serve e₁ k.quic with
    | none => none
    | some (e₂, o₂) => some (e₂, o₁ ++ o₂)

/-- A server without connections. -/
def Endpoint.server : Endpoint := ⟨true, [], 0, fun _ => false⟩

/-- A client with its connection. -/
def Endpoint.client (conn : ℕ) : Endpoint := ⟨false, [], conn, fun _ => false⟩

/-! ## Lives -/

/-- The phases of an address: no connection, one whose handshake goes on, and one that has been
reported connected. -/
inductive Phase where
  | gone
  | handshake
  | connected
deriving DecidableEq

/-- The life of a connection: it is accepted, it is reported connected at most once, and when it is
reported disconnected it is gone. Only in between it is handed packets and sends. -/
def Phase.next : Phase → LifeEvent → Option Phase
  | .gone, .accepted _ => some .handshake
  | .handshake, .received _ => some .handshake
  | .handshake, .service (.connected _) => some .connected
  | .handshake, .service (.sent _) => some .handshake
  | .handshake, .service (.disconnected _) => some .gone
  | .connected, .received _ => some .connected
  | .connected, .service (.sent _) => some .connected
  | .connected, .service (.disconnected _) => some .gone
  | _, _ => none

/-- The phase of a connection in use. -/
def Phase.ofComplete (complete : Bool) : Phase := if complete then .connected else .handshake

/-- The phase of an address. -/
def Endpoint.phase (e : Endpoint) (conn : ℕ) : Phase :=
  if conn ∈ e.active then .ofComplete (e.handshakeComplete conn) else .gone

/-- The connections after an event: a new one is put at the end, and one that is gone is taken
out. -/
def follow (conns : List ℕ) : LifeEvent → List ℕ
  | .accepted conn => conns ++ [conn]
  | .service (.disconnected conn) => conns.erase conn
  | _ => conns

/-- What ticks keep: a server has no more connections than its table, all of them different and none
of them NULL, and a client has no table. -/
structure Endpoint.WellFormed (e : Endpoint) : Prop where
  length_le : e.conns.length ≤ MAX_CONNECTIONS
  nodup : e.conns.Nodup
  nonNull : ∀ conn ∈ e.conns, conn ≠ 0
  server : e.isServer = true → e.clientConn = 0
  client : e.isServer = false → e.conns = []

/-- Events lead from one state to another: they take each address from its phase to its new phase,
and the table is the old one with the changes that they report. -/
structure Endpoint.Leads (e : Endpoint) (o : List LifeEvent) (e' : Endpoint) : Prop where
  lives : ∀ conn, Lives.check Phase.next (e.phase conn) (Lives.about LifeEvent.conn conn o) =
    some (e'.phase conn)
  table : e'.active = o.foldl follow e.active

namespace Endpoint

variable {e e' e'' : Endpoint} {conn : ℕ} {o o' : List LifeEvent}

theorem Leads.refl (e : Endpoint) : e.Leads [] e := ⟨fun _ => rfl, rfl⟩

theorem Leads.append (h : e.Leads o e') (h' : e'.Leads o' e'') : e.Leads (o ++ o') e'' := by
  refine ⟨fun conn => ?_, ?_⟩
  · exact Lives.check_about_append LifeEvent.conn (h.lives conn) (h'.lives conn)
  · rw [List.foldl_append, ← h.table]
    exact h'.table

theorem wellFormed_server : server.WellFormed :=
  ⟨Nat.zero_le _, List.nodup_nil, by simp [server], fun _ => rfl, fun h => absurd h (by decide)⟩

theorem wellFormed_client (conn : ℕ) : (client conn).WellFormed :=
  ⟨Nat.zero_le _, List.nodup_nil, by simp [client], fun h => absurd h Bool.false_ne_true,
    fun _ => rfl⟩

theorem active_server (h : e.isServer = true) : e.active = e.conns := if_pos h

theorem active_client (h : e.isServer = false) :
    e.active = if e.clientConn = 0 then [] else [e.clientConn] := by
  unfold active
  rw [h, if_neg Bool.false_ne_true]

theorem WellFormed.nodup_active (h : e.WellFormed) : e.active.Nodup := by
  unfold active
  split
  · exact h.nodup
  · split
    · exact List.nodup_nil
    · exact List.nodup_singleton _

end Endpoint

/-! ## Receiving -/

section Receive

variable {e e' : Endpoint} {p : Incoming} {o : List LifeEvent}

/-- What a packet does: it is dropped, it is handed to a connection, or it starts a new one. -/
theorem receivePacket_cases (h : receivePacket e p = some (e', o)) :
    (e' = e ∧ o = []) ∨ (∃ conn ∈ e.active, e' = e ∧ o = [.received conn]) ∨
      ∃ conn, e.isServer = true ∧ e.conns.length < MAX_CONNECTIONS ∧ conn ≠ 0 ∧ conn ∉ e.conns ∧
        e' = { e with
          conns := e.conns ++ [conn]
          handshakeComplete := Function.update e.handshakeComplete conn false } ∧
        o = [.accepted conn, .received conn] := by
  unfold receivePacket at h
  by_cases hserver : e.isServer = true
  · rw [if_pos hserver] at h
    cases hfind : e.conns.find? p.destined with
    | some conn =>
      rw [hfind] at h
      simp only [Option.some.injEq, Prod.mk.injEq] at h
      refine Or.inr (Or.inl ⟨conn, ?_, h.1.symm, h.2.symm⟩)
      rw [Endpoint.active_server hserver]
      exact List.mem_of_find?_eq_some hfind
    | none =>
      rw [hfind] at h
      dsimp only at h
      by_cases hroom : e.conns.length < MAX_CONNECTIONS
      · rw [if_pos hroom] at h
        cases haccept : p.accept with
        | none =>
          rw [haccept] at h
          simp only [Option.some.injEq, Prod.mk.injEq] at h
          exact Or.inl ⟨h.1.symm, h.2.symm⟩
        | some conn =>
          rw [haccept] at h
          dsimp only at h
          by_cases hused : conn = 0 ∨ conn ∈ e.conns
          · rw [if_pos hused] at h
            exact absurd h.symm (Option.some_ne_none _)
          · rw [if_neg hused, Option.some.injEq, Prod.mk.injEq] at h
            obtain ⟨hnull, hnew⟩ := not_or.mp hused
            exact Or.inr (Or.inr ⟨conn, hserver, hroom, hnull, hnew, h.1.symm, h.2.symm⟩)
      · rw [if_neg hroom, Option.some.injEq, Prod.mk.injEq] at h
        exact Or.inl ⟨h.1.symm, h.2.symm⟩
  · rw [if_neg hserver] at h
    by_cases hgone : e.clientConn = 0
    · rw [if_pos hgone, Option.some.injEq, Prod.mk.injEq] at h
      exact Or.inl ⟨h.1.symm, h.2.symm⟩
    · rw [if_neg hgone, Option.some.injEq, Prod.mk.injEq] at h
      refine Or.inr (Or.inl ⟨e.clientConn, ?_, h.1.symm, h.2.symm⟩)
      rw [Endpoint.active_client (by simpa using hserver), if_neg hgone]
      exact List.mem_singleton_self _

/-- A connection that is in use is handed packets. -/
theorem Endpoint.next_received {conn : ℕ} (hactive : conn ∈ e.active) (conn' : ℕ) :
    (e.phase conn).next (.received conn') = some (e.phase conn) := by
  unfold Endpoint.phase
  rw [if_pos hactive]
  cases e.handshakeComplete conn <;> rfl

/-- A connection is accepted. -/
theorem leads_accept {conn : ℕ} (hserver : e.isServer = true) (hnew : conn ∉ e.conns)
    (hserver' : e'.isServer = true) (hconns : e'.conns = e.conns ++ [conn])
    (hcomplete : e'.handshakeComplete = Function.update e.handshakeComplete conn false) :
    e.Leads [.accepted conn, .received conn] e' := by
  refine ⟨fun conn' => ?_, ?_⟩
  · unfold Endpoint.phase
    rw [Endpoint.active_server hserver, Endpoint.active_server hserver', hconns, hcomplete]
    by_cases heq : conn = conn'
    · subst heq
      rw [Lives.about_of_all LifeEvent.conn (by simp [LifeEvent.conn]), if_neg hnew,
        if_pos (List.mem_append_right _ (List.mem_singleton_self conn)), Function.update_self]
      rfl
    · rw [Lives.about_of_none LifeEvent.conn (by simpa [LifeEvent.conn] using heq),
        Function.update_of_ne (fun h => heq h.symm), Lives.check_nil]
      have hmem : conn' ∈ e.conns ++ [conn] ↔ conn' ∈ e.conns := by
        rw [List.mem_append, List.mem_singleton]
        exact or_iff_left fun h => heq h.symm
      congr 1
      exact if_congr hmem.symm rfl rfl
  · rw [Endpoint.active_server hserver, Endpoint.active_server hserver', hconns]
    rfl

/-- A packet. -/
theorem leads_receivePacket (hwf : e.WellFormed) (h : receivePacket e p = some (e', o)) :
    e'.WellFormed ∧ e.Leads o e' := by
  rcases receivePacket_cases h with ⟨rfl, rfl⟩ | ⟨conn, hactive, rfl, rfl⟩ |
    ⟨conn, hserver, hroom, hnull, hnew, rfl, rfl⟩
  · exact ⟨hwf, .refl e'⟩
  · refine ⟨hwf, fun conn' => ?_, rfl⟩
    by_cases heq : conn = conn'
    · rw [← heq, Lives.about_of_all LifeEvent.conn (by simp [LifeEvent.conn]), Lives.check_cons,
        Endpoint.next_received hactive]
      rfl
    · rw [Lives.about_of_none LifeEvent.conn (by simpa [LifeEvent.conn] using heq)]
      rfl
  · refine ⟨⟨?_, ?_, ?_, hwf.server, fun hclient => ?_⟩, leads_accept hserver hnew hserver rfl rfl⟩
    · rw [List.length_append, List.length_singleton]
      exact hroom
    · rw [List.nodup_append]
      refine ⟨hwf.nodup, List.nodup_singleton conn, ?_⟩
      rintro c hc c' hc' rfl
      rw [List.mem_singleton.mp hc'] at hc
      exact hnew hc
    · intro c hc
      rcases List.mem_append.mp hc with hc | hc
      · exact hwf.nonNull c hc
      · rw [List.mem_singleton.mp hc]
        exact hnull
    · exact absurd (hserver.symm.trans hclient) (by decide)

end Receive

/-! ## Serving -/

section Serve

variable {e e' : Endpoint} {quic : ℕ → ConnQuic} {o : List LifeEvent}

/-- What the service loop leaves. -/
def Endpoint.served (e : Endpoint) (quic : ℕ → ConnQuic) : Endpoint :=
  { e with
    conns := e.conns.filter fun conn => !freed (e.services quic) conn
    clientConn := if freed (e.services quic) e.clientConn then 0 else e.clientConn
    handshakeComplete := fun conn =>
      e.handshakeComplete conn || (decide (conn ∈ e.active) && (quic conn).ready) }

/-- The loop is left, and has served every connection in turn. -/
theorem serve_eq (hwf : e.WellFormed) (quic : ℕ → ConnQuic) :
    serve e quic = some (e.served quic,
      (e.active.flatMap (serviceConn (e.services quic))).map .service) := by
  have hlen := hwf.length_le
  rw [MAX_CONNECTIONS] at hlen
  unfold serve
  rcases Bool.eq_false_or_eq_true e.isServer with hserver | hserver
  -- the sweep of a server leaves those behind that are not freed
  · have hnull := hwf.server hserver
    have hactive := Endpoint.active_server hserver
    obtain ⟨v, unused, hends, hv⟩ := @ends_between (e.services quic) [] e.conns [] []
      (by rw [List.length_nil]; omega) hwf.nonNull
    have hstart : e.sweep = .between [] e.conns [] [] := by
      unfold Endpoint.sweep Sweep.between
      rw [hserver, hnull, hactive, List.nil_append, List.append_nil, List.length_nil, Nat.zero_add]
    have hrounds : v.length < MAX_CONNECTIONS + 1 := by
      rw [← List.length_map, hv, MAX_CONNECTIONS]
      omega
    rw [hstart, hends.leave_eq hrounds, Option.map_some, Option.some.injEq, Prod.mk.injEq]
    unfold Sweep.between Endpoint.served
    dsimp only
    rw [List.nil_append, List.nil_append, List.append_nil, List.length_nil, Nat.add_zero,
      List.take_left, hactive, hnull, ite_self]
    exact ⟨rfl, rfl⟩
  -- a client serves its one connection, or none
  · have hactive := Endpoint.active_client hserver
    have hconns := hwf.client hserver
    by_cases hnull : e.clientConn = 0
    · rw [if_pos hnull] at hactive
      have hstop : sweepStep (e.services quic) e.sweep = none := by
        unfold sweepStep Endpoint.sweep
        rw [hactive, if_neg (by simp)]
      rw [(Loop.Ends.done hstop).leave_eq (Nat.succ_pos _), Option.map_some, Option.some.injEq,
        Prod.mk.injEq]
      unfold Endpoint.sweep Endpoint.served
      rw [hactive, hconns, hnull, ite_self]
      exact ⟨rfl, rfl⟩
    · rw [if_neg hnull] at hactive
      have hstart : e.sweep = .client [] e.clientConn := by
        unfold Endpoint.sweep Sweep.client
        rw [hserver, hconns, hactive]
        rfl
      obtain ⟨v, hends, hv⟩ := client_swept (e.services quic) [] hnull
      rw [hstart, hends.leave_eq (by
          rw [← List.length_map, hv, MAX_CONNECTIONS, List.length_singleton]
          decide),
        Option.map_some, Option.some.injEq, Prod.mk.injEq]
      unfold Endpoint.served
      dsimp only
      rw [hactive, hconns, List.flatMap_singleton]
      exact ⟨rfl, rfl⟩

/-- The connections that are not freed are left, in their order. -/
theorem active_served (e : Endpoint) (quic : ℕ → ConnQuic) :
    (e.served quic).active = e.active.filter fun conn => !freed (e.services quic) conn := by
  rcases Bool.eq_false_or_eq_true e.isServer with hserver | hserver
  · rw [Endpoint.active_server (e := e.served quic) hserver, Endpoint.active_server hserver]
    rfl
  · rw [Endpoint.active_client (e := e.served quic) hserver, Endpoint.active_client hserver]
    unfold Endpoint.served
    dsimp only
    by_cases hnull : e.clientConn = 0
    · rw [hnull, ite_self, if_pos rfl]
      rfl
    · rw [if_neg hnull, List.filter_singleton]
      cases freed (e.services quic) e.clientConn with
      | true => rfl
      | false => exact if_neg hnull

/-- The events of a round. -/
theorem conn_serviceConn (io : ℕ → ConnService) (conn : ℕ) :
    ∀ event ∈ serviceConn io conn, event.conn = conn := by
  intro event hevent
  unfold serviceConn at hevent
  rw [List.mem_append, List.mem_append] at hevent
  rcases hevent with (hconnected | hsent) | hdisconnected
  · split at hconnected
    · rw [List.mem_singleton.mp hconnected]
      rfl
    · exact absurd hconnected List.not_mem_nil
  · rw [List.eq_of_mem_replicate hsent]
    rfl
  · split at hdisconnected
    · rw [List.mem_singleton.mp hdisconnected]
      rfl
    · exact absurd hdisconnected List.not_mem_nil

/-- The life of a connection in a round. -/
theorem check_serviceConn (e : Endpoint) (quic : ℕ → ConnQuic) (conn : ℕ) :
    Lives.check Phase.next (.ofComplete (e.handshakeComplete conn))
        ((serviceConn (e.services quic) conn).map .service) =
      some (if freed (e.services quic) conn then .gone
        else .ofComplete (e.handshakeComplete conn || (quic conn).ready)) := by
  have hsent : ∀ complete n, Lives.check Phase.next (.ofComplete complete)
      ((List.replicate n (ServiceEvent.sent conn)).map .service) = some (.ofComplete complete) := by
    intro complete n
    refine Lives.check_stay fun event hevent => ?_
    rw [List.map_replicate] at hevent
    rw [List.eq_of_mem_replicate hevent]
    cases complete <;> rfl
  have hfirst : Lives.check Phase.next (.ofComplete (e.handshakeComplete conn))
      ((if (e.services quic conn).connects = true then [ServiceEvent.connected conn]
        else []).map .service) =
          some (.ofComplete (e.handshakeComplete conn || (quic conn).ready)) := by
    unfold Endpoint.services
    dsimp only
    cases e.handshakeComplete conn <;> cases (quic conn).ready <;> rfl
  have hlast : ∀ complete, Lives.check Phase.next (.ofComplete complete)
      ((if (e.services quic conn).final = .free then [ServiceEvent.disconnected conn]
        else []).map .service) =
          some (if freed (e.services quic) conn then .gone else .ofComplete complete) := by
    intro complete
    unfold freed
    by_cases hfinal : (e.services quic conn).final = .free
    · rw [if_pos hfinal, decide_eq_true hfinal]
      cases complete <;> rfl
    · rw [if_neg hfinal, decide_eq_false hfinal]
      rfl
  unfold serviceConn
  rw [List.map_append, List.map_append, Lives.check_append, Lives.check_append, hfirst,
    Option.bind_some, hsent, Option.bind_some, hlast]

/-- What the events of the rounds take out of the table. -/
theorem follow_serviceConn (io : ℕ → ConnService) (conns : List ℕ) (conn : ℕ) :
    ((serviceConn io conn).map .service).foldl follow conns =
      if freed io conn then conns.erase conn else conns := by
  have hsent : ∀ n, ((List.replicate n (ServiceEvent.sent conn)).map .service).foldl follow conns =
      conns := by
    intro n
    induction n with
    | zero => rfl
    | succ n ih => exact ih
  have hfirst : ((if (io conn).connects = true then [ServiceEvent.connected conn]
      else []).map .service).foldl follow conns = conns := by
    split <;> rfl
  unfold serviceConn freed
  rw [List.map_append, List.map_append, List.foldl_append, List.foldl_append, hfirst, hsent]
  by_cases hfinal : (io conn).final = .free
  · rw [if_pos hfinal, decide_eq_true hfinal]
    rfl
  · rw [if_neg hfinal, decide_eq_false hfinal]
    rfl

theorem follow_flatMap (io : ℕ → ConnService) {conns served : List ℕ} (hnodup : conns.Nodup) :
    ((served.flatMap (serviceConn io)).map .service).foldl follow conns =
      conns.filter fun conn => !(decide (conn ∈ served) && freed io conn) := by
  induction served generalizing conns with
  | nil =>
    rw [List.filter_eq_self.mpr (by simp)]
    rfl
  | cons c served ih =>
    rw [List.flatMap_cons, List.map_append, List.foldl_append, follow_serviceConn]
    by_cases hfreed : freed io c = true
    · rw [if_pos hfreed, ih (hnodup.erase c), hnodup.erase_eq_filter, List.filter_filter]
      apply List.filter_congr
      intro conn _
      by_cases heq : conn = c
      · rw [heq, hfreed]
        simp
      · simp [heq]
    · rw [if_neg hfreed, ih hnodup]
      apply List.filter_congr
      intro conn _
      by_cases heq : conn = c
      · rw [heq]
        simp [hfreed]
      · simp [heq]

/-- The service loop. -/
theorem leads_serve (hwf : e.WellFormed) (h : serve e quic = some (e', o)) :
    e'.WellFormed ∧ e.Leads o e' := by
  rw [serve_eq hwf, Option.some.injEq, Prod.mk.injEq] at h
  obtain ⟨rfl, rfl⟩ := h
  refine ⟨⟨?_, hwf.nodup.filter _, ?_, fun hserver => ?_, fun hclient => ?_⟩, fun conn => ?_, ?_⟩
  · exact (List.length_filter_le _ _).trans hwf.length_le
  · exact fun conn hconn => hwf.nonNull conn (List.mem_filter.mp hconn).1
  · show (if freed (e.services quic) e.clientConn then 0 else e.clientConn) = 0
    rw [hwf.server hserver, ite_self]
  · show e.conns.filter _ = []
    rw [hwf.client hclient]
    rfl
  -- every connection is served once, so what it is told is what its own service tells it
  · have habout := Lives.about_flatMap LifeEvent.conn hwf.nodup_active
      (f := fun conn => (serviceConn (e.services quic) conn).map .service)
      (fun conn event hevent => by
        obtain ⟨event, hmem, rfl⟩ := List.mem_map.mp hevent
        exact conn_serviceConn _ conn event hmem) conn
    rw [← List.map_flatMap] at habout
    rw [habout]
    unfold Endpoint.phase
    by_cases hactive : conn ∈ e.active
    · rw [if_pos hactive, if_pos hactive, check_serviceConn]
      cases hfreed : freed (e.services quic) conn with
      | true =>
        rw [if_pos rfl, if_neg]
        rw [active_served, List.mem_filter, hfreed]
        exact fun hkept => absurd hkept.2 (by decide)
      | false =>
        rw [if_neg Bool.false_ne_true, if_pos]
        · show _ = some (Phase.ofComplete (e.handshakeComplete conn ||
            (decide (conn ∈ e.active) && (quic conn).ready)))
          rw [decide_eq_true hactive, Bool.true_and]
        · rw [active_served, List.mem_filter, hfreed]
          exact ⟨hactive, rfl⟩
    · rw [if_neg hactive, if_neg hactive, if_neg]
      · rfl
      · rw [active_served, List.mem_filter]
        exact fun hkept => hactive hkept.1
  · rw [follow_flatMap _ hwf.nodup_active, active_served]
    apply List.filter_congr
    intro conn hactive
    rw [decide_eq_true hactive, Bool.true_and]

end Serve

/-! ## Runs of ticks -/

section Ticks

variable {e e' : Endpoint} {k : ConnTick} {o : List LifeEvent}

/-- The packets of a tick. -/
theorem leads_packets {ps : List Incoming} (hwf : e.WellFormed)
    (h : run receivePacket e ps = some (e', o)) : e'.WellFormed ∧ e.Leads o e' :=
  run_related (R := fun e o e' => Endpoint.Leads e o e') Endpoint.Leads.refl
    (fun _ _ _ _ _ hfirst hrest => hfirst.append hrest)
    (fun _ _ _ _ hwf hstep => leads_receivePacket hwf hstep) hwf ps e' o h

/-- A tick, taken apart. -/
theorem connTick_eq_some (h : connTick e k = some (e', o)) :
    ∃ e₁ o₁ o₂, run receivePacket e k.packets = some (e₁, o₁) ∧ serve e₁ k.quic = some (e', o₂) ∧
      o = o₁ ++ o₂ := by
  unfold connTick at h
  cases hpackets : run receivePacket e k.packets with
  | none =>
    rw [hpackets] at h
    exact absurd h.symm (Option.some_ne_none _)
  | some r =>
    obtain ⟨e₁, o₁⟩ := r
    rw [hpackets] at h
    dsimp only at h
    cases hserve : serve e₁ k.quic with
    | none =>
      rw [hserve] at h
      exact absurd h.symm (Option.some_ne_none _)
    | some r =>
      obtain ⟨e₂, o₂⟩ := r
      rw [hserve] at h
      simp only [Option.some.injEq, Prod.mk.injEq] at h
      refine ⟨e₁, o₁, o₂, rfl, ?_, h.2.symm⟩
      rw [hserve, h.1]

theorem leads_connTick (hwf : e.WellFormed) (h : connTick e k = some (e', o)) :
    e'.WellFormed ∧ e.Leads o e' := by
  obtain ⟨e₁, o₁, o₂, hpackets, hserve, rfl⟩ := connTick_eq_some h
  obtain ⟨hwf₁, hleads₁⟩ := leads_packets hwf hpackets
  obtain ⟨hwf', hleads⟩ := leads_serve hwf₁ hserve
  exact ⟨hwf', hleads₁.append hleads⟩

/-- A connection that is ready in a tick and stays has been reported connected. -/
theorem phase_connected (hwf : e.WellFormed) (h : connTick e k = some (e', o)) {conn : ℕ}
    (hactive : conn ∈ e'.active) (hready : (k.quic conn).ready = true) :
    e'.phase conn = .connected := by
  obtain ⟨e₁, o₁, o₂, hpackets, hserve, -⟩ := connTick_eq_some h
  rw [serve_eq (leads_packets hwf hpackets).1, Option.some.injEq, Prod.mk.injEq] at hserve
  obtain ⟨rfl, -⟩ := hserve
  have hbefore := hactive
  rw [active_served, List.mem_filter] at hbefore
  unfold Endpoint.phase
  rw [if_pos hactive]
  show Phase.ofComplete (e₁.handshakeComplete conn ||
    (decide (conn ∈ e₁.active) && (k.quic conn).ready)) = _
  rw [decide_eq_true hbefore.1, hready, Bool.true_and, Bool.or_true]
  rfl

/-- The loop over the connections ends in every tick. -/
theorem exists_connTick (hwf : e.WellFormed)
    (hpackets : ∃ r, run receivePacket e k.packets = some r) : ∃ r, connTick e k = some r := by
  obtain ⟨⟨e₁, o₁⟩, hpackets⟩ := hpackets
  unfold connTick
  rw [hpackets]
  dsimp only
  rw [serve_eq (leads_packets hwf hpackets).1]
  exact ⟨_, rfl⟩

/-- A server without connections, or a client that has just made its connection. -/
def Endpoint.Starts (e : Endpoint) : Prop := e = .server ∨ ∃ conn, e = .client conn

theorem Endpoint.Starts.wellFormed (h : e.Starts) : e.WellFormed := by
  rcases h with rfl | ⟨conn, rfl⟩
  · exact wellFormed_server
  · exact wellFormed_client conn

/-- Over any ticks: the events about each address are lives of connections, one after the other;
the table is what was accepted and has not been freed, in the order in which it was accepted, and
never more than it has room for; the loop always ends, and leaves no connection that is ready
without its CONNECTED event. -/
theorem connection_lives {e₀ : Endpoint} (hstart : e₀.Starts) {ks : List ConnTick}
    (hrun : run connTick e₀ ks = some (e, o)) :
    (∀ conn, Lives.check Phase.next (e₀.phase conn) (Lives.about LifeEvent.conn conn o) =
      some (e.phase conn)) ∧
    e.active = o.foldl follow e₀.active ∧ e.conns.length ≤ MAX_CONNECTIONS ∧ e.active.Nodup ∧
    ∀ k : ConnTick, (∃ r, run receivePacket e k.packets = some r) →
      ∃ e' o', connTick e k = some (e', o') ∧
        ∀ conn ∈ e'.active, (k.quic conn).ready = true → e'.phase conn = .connected := by
  obtain ⟨hwf, hleads⟩ := run_related (R := fun e o e' => Endpoint.Leads e o e')
    Endpoint.Leads.refl (fun _ _ _ _ _ hfirst hrest => hfirst.append hrest)
    (fun _ _ _ _ hwf hstep => leads_connTick hwf hstep) hstart.wellFormed ks e o hrun
  refine ⟨hleads.lives, hleads.table, hwf.length_le, hwf.nodup_active, fun k hpackets => ?_⟩
  obtain ⟨⟨e', o'⟩, htick⟩ := exists_connTick hwf hpackets
  exact ⟨e', o', htick, fun conn hactive hready => phase_connected hwf htick hactive hready⟩

end Ticks

/-- What QUIC says of connections that all do the same. -/
def ConnTick.all (packets : List Incoming) (ready : Bool) (final : SendEnd) : ConnTick :=
  ⟨packets, fun _ => ⟨ready, 1, final⟩⟩

/-- A connection at address 5 becomes ready and is freed, and another one takes the address. -/
def reuseTicks : List ConnTick :=
  [.all [⟨fun _ => false, some 5⟩, ⟨fun conn => conn == 5, none⟩] false .idle,
    .all [] true .idle, .all [] true .free, .all [⟨fun _ => false, some 5⟩] true .idle]

theorem connection_lives_reuse : ∃ e o, run connTick .server reuseTicks = some (e, o) ∧
    e.active = [5] ∧ o.count (.service (.connected 5)) = 2 ∧
    Lives.check Phase.next .gone (Lives.about LifeEvent.conn 5 o) = some .connected := by
  have hlives := connection_lives (Or.inl rfl)
    (show run connTick .server reuseTicks = some (_, _) from rfl)
  exact ⟨_, _, rfl, rfl, by decide, hlives.1 5⟩

end Bishlink
