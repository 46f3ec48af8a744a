import Bishlink.ConnectionLife

/-!
# Connections under names of their own

`transport_tick` knows a connection by its address, which another connection can have later. The
transition system gives every connection a name that is never used again. The ticks are runs of the
system: when the connections are named in the order in which they are accepted, the system takes the
labels of each event, whatever else it does in between (`ticks_refine`).
-/

namespace Bishlink

open Runs

/-! ## Names -/

/-- The names of the connections at their addresses, and how many there were. -/
structure Names where
  name : ℕ → ℕ
  count : ℕ

namespace Names

/-- A connection that is accepted gets the next name. -/
def after (n : Names) : LifeEvent → Names
  | .accepted conn => ⟨Function.update n.name conn n.count, n.count + 1⟩
  | _ => n

/-- What an event is for the system. -/
def labels (n : Names) : LifeEvent → List Label
  | .accepted _ => [.connect n.count]
  | .service (.connected conn) => [.conn (n.name conn) .handshake]
  | .service (.disconnected conn) => [.free (n.name conn)]
  | _ => []

/-- A client names its connection before the first tick. -/
def first (e : Endpoint) : Names := ⟨fun _ => 0, e.active.length⟩

end Names

def Endpoint.opening (e : Endpoint) : List Label := (List.range e.active.length).map .connect

/-- The labels that make, connect or free a connection. -/
def Label.isLife : Label → Bool
  | .connect _ => true
  | .conn _ .handshake => true
  | .free _ => true
  | _ => false

/-- The labels of events, and others anywhere before, between and after them. -/
inductive Interleaved : Names → List LifeEvent → Names → List Label → Prop where
  | nil (n : Names) : Interleaved n [] n []
  | other {n n' : Names} {o : List LifeEvent} {l : Label} {ls : List Label} (h : l.isLife = false)
    (rest : Interleaved n o n' ls) : Interleaved n o n' (l :: ls)
  | event {n n' : Names} {event : LifeEvent} {o : List LifeEvent} {ls : List Label}
    (rest : Interleaved (n.after event) o n' ls) :
    Interleaved n (event :: o) n' (n.labels event ++ ls)

/-! ## What ticks do to the table -/

/-- An event that can happen to a table. -/
def Possible (isServer : Bool) (conns : List ℕ) : LifeEvent → Prop
  | .accepted conn => isServer = true ∧ conns.length < MAX_CONNECTIONS ∧ conn ∉ conns
  | .received conn => conn ∈ conns
  | .service event => event.conn ∈ conns

/-- Events that can happen to a table one after the other. -/
def Admitted (isServer : Bool) : List ℕ → List LifeEvent → Prop
  | _, [] => True
  | conns, event :: o => Possible isServer conns event ∧ Admitted isServer (follow conns event) o

section Admitted

variable {isServer : Bool} {conns : List ℕ} {o o' : List LifeEvent}

theorem admitted_append (h : Admitted isServer conns o)
    (h' : Admitted isServer (o.foldl follow conns) o') : Admitted isServer conns (o ++ o') := by
  induction o generalizing conns with
  | nil => exact h'
  | cons event o ih => exact ⟨h.1, ih h.2 h'⟩

/-- Events that leave the table alone. -/
theorem admitted_stay
    (h : ∀ event ∈ o, Possible isServer conns event ∧ follow conns event = conns) :
    Admitted isServer conns o ∧ o.foldl follow conns = conns := by
  induction o with
  | nil => exact ⟨trivial, rfl⟩
  | cons event o ih =>
    obtain ⟨hallowed, hsame⟩ := h event List.mem_cons_self
    obtain ⟨hadmitted, hfollow⟩ :=
      ih fun event' hevent => h event' (List.mem_cons_of_mem event hevent)
    refine ⟨⟨hallowed, ?_⟩, ?_⟩
    · rw [hsame]
      exact hadmitted
    · rw [List.foldl_cons, hsame, hfollow]

/-- A round of the service loop. -/
theorem admitted_serviceConn (io : ℕ → ConnService) {conn : ℕ} (hconn : conn ∈ conns) :
    Admitted isServer conns ((serviceConn io conn).map .service) := by
  unfold serviceConn
  rw [List.map_append]
  obtain ⟨hadmitted, hfollow⟩ := @admitted_stay isServer conns
    (((if (io conn).connects then [ServiceEvent.connected conn] else []) ++
      List.replicate (io conn).batches (ServiceEvent.sent conn)).map .service) (by
    intro event hevent
    obtain ⟨event, hmem, rfl⟩ := List.mem_map.mp hevent
    rcases List.mem_append.mp hmem with hconnected | hsent
    · split at hconnected
      · rw [List.mem_singleton.mp hconnected]
        exact ⟨hconn, rfl⟩
      · exact absurd hconnected List.not_mem_nil
    · rw [List.eq_of_mem_replicate hsent]
      exact ⟨hconn, rfl⟩)
  refine admitted_append hadmitted ?_
  rw [hfollow]
  by_cases hfinal : (io conn).final = .free
  · rw [if_pos hfinal]
    exact ⟨hconn, trivial⟩
  · rw [if_neg hfinal]
    exact trivial

/-- The rounds of connections that are in the table. -/
theorem admitted_rounds (io : ℕ → ConnService) {served : List ℕ} (hnodup : conns.Nodup)
    (hserved : served.Nodup) (hmem : served ⊆ conns) :
    Admitted isServer conns ((served.flatMap (serviceConn io)).map .service) := by
  induction served generalizing conns with
  | nil => exact trivial
  | cons conn served ih =>
    obtain ⟨hnot, hserved⟩ := List.nodup_cons.mp hserved
    rw [List.flatMap_cons, List.map_append]
    refine admitted_append (admitted_serviceConn io (hmem List.mem_cons_self)) ?_
    rw [follow_serviceConn]
    split
    · refine ih (hnodup.erase conn) hserved fun c hc => ?_
      rw [hnodup.mem_erase_iff]
      exact ⟨ne_of_mem_of_not_mem hc hnot, hmem (List.mem_cons_of_mem conn hc)⟩
    · exact ih hnodup hserved fun c hc => hmem (List.mem_cons_of_mem conn hc)

end Admitted

/-- What ticks do: events that can happen, which lead to the new state. -/
structure Endpoint.Moves (e : Endpoint) (o : List LifeEvent) (e' : Endpoint) : Prop where
  admitted : Admitted e.isServer e.active o
  leads : e.Leads o e'
  isServer : e'.isServer = e.isServer

section Moves

variable {e e' e'' : Endpoint} {o o' : List LifeEvent}

theorem Endpoint.Moves.refl (e : Endpoint) : e.Moves [] e := ⟨trivial, .refl e, rfl⟩

theorem Endpoint.Moves.append (h : e.Moves o e') (h' : e'.Moves o' e'') :
    e.Moves (o ++ o') e'' := by
  refine ⟨admitted_append h.admitted ?_, h.leads.append h'.leads, h'.isServer.trans h.isServer⟩
  rw [← h.leads.table, ← h.isServer]
  exact h'.admitted

theorem moves_receivePacket {p : Incoming} (hwf : e.WellFormed)
    (h : receivePacket e p = some (e', o)) : e'.WellFormed ∧ e.Moves o e' := by
  obtain ⟨hwf', hleads⟩ := leads_receivePacket hwf h
  refine ⟨hwf', ?_, hleads, ?_⟩
  · rcases receivePacket_cases h with ⟨-, rfl⟩ | ⟨conn, hactive, -, rfl⟩ |
      ⟨conn, hserver, hroom, -, hnew, -, rfl⟩
    · exact trivial
    · exact ⟨hactive, trivial⟩
    · rw [Endpoint.active_server hserver]
      exact ⟨⟨hserver, hroom, hnew⟩, List.mem_append_right _ (List.mem_singleton_self conn),
        trivial⟩
  · rcases receivePacket_cases h with ⟨rfl, -⟩ | ⟨conn, -, rfl, -⟩ | ⟨conn, -, -, -, -, rfl, -⟩
    · rfl
    · rfl
    · rfl

theorem moves_serve {quic : ℕ → ConnQuic} (hwf : e.WellFormed) (h : serve e quic = some (e', o)) :
    e'.WellFormed ∧ e.Moves o e' := by
  obtain ⟨hwf', hleads⟩ := leads_serve hwf h
  rw [serve_eq hwf, Option.some.injEq, Prod.mk.injEq] at h
  obtain ⟨rfl, rfl⟩ := h
  exact ⟨hwf', admitted_rounds _ hwf.nodup_active hwf.nodup_active (List.Subset.refl _), hleads,
    rfl⟩

theorem moves_connTick {k : ConnTick} (hwf : e.WellFormed) (h : connTick e k = some (e', o)) :
    e'.WellFormed ∧ e.Moves o e' := by
  obtain ⟨e₁, o₁, o₂, hpackets, hserve, rfl⟩ := connTick_eq_some h
  obtain ⟨hwf₁, hmoves₁⟩ := run_related (R := fun e o e' => Endpoint.Moves e o e')
    Endpoint.Moves.refl (fun _ _ _ _ _ hfirst hrest => hfirst.append hrest)
    (fun _ _ _ _ hwf hstep => moves_receivePacket hwf hstep) hwf _ _ _ hpackets
  obtain ⟨hwf', hmoves⟩ := moves_serve hwf₁ hserve
  exact ⟨hwf', hmoves₁.append hmoves⟩

end Moves

/-! ## The system takes the labels -/

/-- The system has the connections of a table under their names. -/
structure Names.Of (n : Names) (isServer : Bool) (conns : List ℕ) (s : System) : Prop where
  ok : s.PtrsOk
  isServer : s.transport.isServer = isServer
  ptrs : s.transport.ptrs = conns.map n.name
  used_lt : ∀ ptr ∈ s.used, ptr < n.count

section Simulation

variable {lib : FecLib} {n n' : Names} {isServer : Bool} {conns : List ℕ} {s s' : System}
  {l : Label} {out : List Effect}

/-- A label that is not about the life of a connection leaves the table alone. -/
theorem ptrs_step (hlife : l.isLife = false) (h : step lib s l = some (s', out)) :
    s'.transport.ptrs = s.transport.ptrs ∧ s'.used = s.used := by
  rcases step_eq_some h with ⟨ptr, rfl, -, -, -, -⟩ | ⟨ht, hused⟩
  · simp [Label.isLife] at hlife
  refine ⟨?_, hused⟩
  cases l with
  | connect ptr => simp [Label.isLife] at hlife
  | conn ptr l =>
    obtain ⟨c, t₁, c', -, hstep, htr⟩ := transportStep_conn.mp ht
    obtain ⟨fc, owd, rfl⟩ := connStep_transport hstep
    rw [htr, ptrs_setConn]
    rfl
  | free ptr => simp [Label.isLife] at hlife
  | subscribe track =>
    simp only [transportStep, Option.some.injEq] at ht
    have hptrs := ptrs_transportSubscribe s.transport track
    rwa [ht] at hptrs
  | publish io obj =>
    simp only [transportStep, Option.some.injEq] at ht
    have hptrs := ptrs_transportPublish lib io s.transport obj
    rwa [ht] at hptrs
  | tick io =>
    simp only [transportStep, Option.some.injEq] at ht
    have hptrs : (tickFecBuffer lib io s.transport).1.ptrs = s.transport.ptrs := by
      rw [tickFecBuffer]
      split
      · exact ptrs_flushFecBuffer lib io s.transport
      · rfl
    rwa [ht] at hptrs
  | requestKeyframe track =>
    simp only [transportStep, Option.some.injEq, Prod.mk.injEq] at ht
    rw [← ht.1]
  | links links =>
    simp only [transportStep, Option.some.injEq, Prod.mk.injEq] at ht
    rw [← ht.1]
    rfl

theorem Names.Of.other (hof : n.Of isServer conns s) (hlife : l.isLife = false)
    (h : step lib s l = some (s', out)) : n.Of isServer conns s' := by
  obtain ⟨hptrs, hused⟩ := ptrs_step hlife h
  exact ⟨ptrsOk_step hof.ok h, (step_isServer h).trans hof.isServer, hptrs.trans hof.ptrs,
    fun ptr hptr => hof.used_lt ptr (hused ▸ hptr)⟩

/-- The connection with the name is found. -/
theorem Names.Of.exists_find (hof : n.Of isServer conns s) {conn : ℕ} (hconn : conn ∈ conns) :
    ∃ c, s.transport.findConn (n.name conn) = some c ∧ c.ptr = n.name conn := by
  have hmem : n.name conn ∈ s.transport.ptrs := hof.ptrs ▸ List.mem_map_of_mem hconn
  obtain ⟨c, hc, hptr⟩ := List.mem_map.mp hmem
  have hsome : (s.transport.findConn (n.name conn)).isSome := by
    rw [Transport.findConn, List.find?_isSome]
    exact ⟨c, hc, beq_iff_eq.mpr hptr⟩
  obtain ⟨c', hfind⟩ := Option.isSome_iff_exists.mp hsome
  exact ⟨c', hfind, (Transport.findConn_eq_some hfind).2⟩

/-- A connection is accepted under a new name. -/
theorem Names.Of.accepted (lib : FecLib) (hof : n.Of isServer conns s) {conn : ℕ}
    (hallowed : Possible isServer conns (.accepted conn)) :
    ∃ s', step lib s (.connect n.count) = some (s', []) ∧
      (n.after (.accepted conn)).Of isServer (conns ++ [conn]) s' := by
  obtain ⟨hserver, hroom, hnew⟩ := hallowed
  have hlength : s.transport.conns.length = conns.length := by
    have hptrs := congrArg List.length hof.ptrs
    rw [Transport.ptrs, List.length_map, List.length_map] at hptrs
    exact hptrs
  have hfree : n.count ∉ s.used ∧ s.transport.hasRoom = true := by
    refine ⟨fun hused => absurd (hof.used_lt _ hused) (Nat.lt_irrefl _), ?_⟩
    rw [Transport.hasRoom, hof.isServer, if_pos hserver, hlength]
    exact decide_eq_true hroom
  have hstep : step lib s (.connect n.count) = some (⟨{ s.transport with
      conns := s.transport.conns ++ [Conn.zero n.count] }, n.count :: s.used⟩, []) := if_pos hfree
  refine ⟨_, hstep, ptrsOk_step hof.ok hstep, hof.isServer, ?_, ?_⟩
  · have hsame : conns.map (Function.update n.name conn n.count) = conns.map n.name :=
      List.map_congr_left fun c hc => Function.update_of_ne (ne_of_mem_of_not_mem hc hnew) ..
    show (s.transport.conns ++ [Conn.zero n.count]).map (·.ptr) =
      (conns ++ [conn]).map (Function.update n.name conn n.count)
    rw [List.map_append, List.map_append, hsame, ← hof.ptrs, List.map_singleton,
      List.map_singleton, Function.update_self]
    rfl
  · intro ptr hptr
    rcases List.mem_cons.mp hptr with rfl | hptr
    · exact Nat.lt_succ_self _
    · exact (hof.used_lt ptr hptr).trans (Nat.lt_succ_self _)

/-- A connection is ready. -/
theorem Names.Of.connected (lib : FecLib) (hof : n.Of isServer conns s) {conn : ℕ}
    (hconn : conn ∈ conns) :
    ∃ s', step lib s (.conn (n.name conn) .handshake) =
        some (s', [.event (n.name conn) .connected]) ∧ n.Of isServer conns s' := by
  obtain ⟨c, hfind, hptr⟩ := hof.exists_find hconn
  have hstep : step lib s (.conn (n.name conn) .handshake) =
      some (⟨s.transport.setConn c, s.used⟩, [.event (n.name conn) .connected]) := by
    simp only [step, transportStep, hfind, connStep, Option.map_some, hptr]
  exact ⟨_, hstep, ptrsOk_step hof.ok hstep, hof.isServer, (ptrs_setConn _ c).trans hof.ptrs,
    hof.used_lt⟩

/-- A connection is freed. -/
theorem Names.Of.disconnected (lib : FecLib) (hof : n.Of isServer conns s) {conn : ℕ}
    (hconn : conn ∈ conns) :
    ∃ s', step lib s (.free (n.name conn)) =
        some (s', [.event (n.name conn) .disconnected]) ∧
      n.Of isServer (conns.erase conn) s' := by
  obtain ⟨c, hfind, hptr⟩ := hof.exists_find hconn
  have hstep : step lib s (.free (n.name conn)) = some (⟨{ s.transport with
      conns := s.transport.conns.filter fun c' => c'.ptr ≠ n.name conn }, s.used⟩,
      [.event (n.name conn) .disconnected]) := by
    simp only [step, transportStep, hfind, Option.map_some, hptr]
  refine ⟨_, hstep, ptrsOk_step hof.ok hstep, hof.isServer, ?_, hof.used_lt⟩
  have hnodup : (conns.map n.name).Nodup := hof.ptrs ▸ hof.ok.nodup
  have hinj := List.inj_on_of_nodup_map hnodup
  show (s.transport.conns.filter fun c' => c'.ptr ≠ n.name conn).map (·.ptr) =
    (conns.erase conn).map n.name
  have hfilter : (s.transport.conns.filter fun c' => c'.ptr ≠ n.name conn).map (·.ptr) =
      s.transport.ptrs.filter fun ptr => ptr ≠ n.name conn := by
    rw [Transport.ptrs, List.filter_map]
    rfl
  rw [hfilter, hof.ptrs, List.filter_map, (hnodup.of_map).erase_eq_filter]
  congr 1
  apply List.filter_congr
  intro c' hc'
  by_cases heq : c' = conn
  · simp [heq]
  · have hne : n.name c' ≠ n.name conn := fun h => heq (hinj hc' hconn h)
    simp [heq, hne]

/-- What the labels of an event do. -/
theorem Names.Of.event (lib : FecLib) (hof : n.Of isServer conns s) {event : LifeEvent}
    (hallowed : Possible isServer conns event) :
    ∃ s' out, run (step lib) s (n.labels event) = some (s', out) ∧
      (n.after event).Of isServer (follow conns event) s' := by
  have single : ∀ {l s' out}, step lib s l = some (s', out) →
      run (step lib) s [l] = some (s', out ++ []) :=
    fun hstep => run_cons.mpr ⟨_, _, _, hstep, rfl, rfl⟩
  cases event with
  | accepted conn =>
    obtain ⟨s', hstep, hof'⟩ := hof.accepted lib hallowed
    exact ⟨s', _, single hstep, hof'⟩
  | received conn => exact ⟨s, [], rfl, hof⟩
  | service event =>
    cases event with
    | connected conn =>
      obtain ⟨s', hstep, hof'⟩ := hof.connected lib hallowed
      exact ⟨s', _, single hstep, hof'⟩
    | sent conn => exact ⟨s, [], rfl, hof⟩
    | disconnected conn =>
      obtain ⟨s', hstep, hof'⟩ := hof.disconnected lib hallowed
      exact ⟨s', _, single hstep, hof'⟩

/-- The labels of events that can happen, with others in between: the system refuses none of those
that are about the lives of connections. -/
theorem Names.Of.interleaved (lib : FecLib) {o : List LifeEvent} {ls : List Label}
    (hls : Interleaved n o n' ls) {conns : List ℕ} {s : System} (hof : n.Of isServer conns s)
    (hadmitted : Admitted isServer conns o) :
    Along (step lib) (fun s l => l.isLife = true → ∃ r, step lib s l = some r) s ls ∧
      ∀ s' out, run (step lib) s ls = some (s', out) →
        n'.Of isServer (o.foldl follow conns) s' := by
  induction hls generalizing conns s with
  | nil n =>
    refine ⟨trivial, fun s' out hrun => ?_⟩
    rw [run, Option.some.injEq, Prod.mk.injEq] at hrun
    rw [← hrun.1]
    exact hof
  | other hlife rest ih =>
    refine ⟨⟨fun h => absurd (hlife.symm.trans h) Bool.false_ne_true, fun s₁ o₁ hstep => ?_⟩, ?_⟩
    · exact (ih (hof.other hlife hstep) hadmitted).1
    · intro s' out hrun
      obtain ⟨s₁, o₁, o₂, hstep, hrun, -⟩ := run_cons.mp hrun
      exact (ih (hof.other hlife hstep) hadmitted).2 s' o₂ hrun
  | event rest ih =>
    obtain ⟨s₁, o₁, hrun₁, hof₁⟩ := hof.event lib hadmitted.1
    obtain ⟨halong, hafter⟩ := ih hof₁ hadmitted.2
    refine ⟨along_append (along_of_run (fun _ _ r htaken _ => ⟨r, htaken⟩) hrun₁)
      fun s₂ o₂ hrun₂ => ?_, fun s' out hrun => ?_⟩
    · rw [hrun₁, Option.some.injEq, Prod.mk.injEq] at hrun₂
      rw [← hrun₂.1]
      exact halong
    · obtain ⟨s₂, o₂, o₃, hrun₂, hrest, -⟩ := run_append.mp hrun
      rw [hrun₁, Option.some.injEq, Prod.mk.injEq] at hrun₂
      rw [← hrun₂.1] at hrest
      exact hafter s' o₃ hrest

end Simulation

/-! ## Ticks are runs of the system -/

/-- A client connects before the first tick. -/
theorem of_opening (lib : FecLib) {e : Endpoint} (hstart : e.Starts) (links : List SockAddr)
    (mtu : ℕ) :
    ∃ s, run (step lib) (System.init e.isServer links mtu) e.opening = some (s, []) ∧
      (Names.first e).Of e.isServer e.active s := by
  have hok := ptrsOk_init e.isServer links mtu
  rcases hstart with rfl | ⟨conn, rfl⟩
  · exact ⟨_, rfl, hok, rfl, rfl, fun ptr hptr => absurd hptr List.not_mem_nil⟩
  · by_cases hnull : conn = 0
    · rw [hnull]
      exact ⟨_, rfl, hok, rfl, rfl, fun ptr hptr => absurd hptr List.not_mem_nil⟩
    · have hactive : (Endpoint.client conn).active = [conn] := if_neg hnull
      have hstep : step lib (System.init false links mtu) (.connect 0) =
          some (⟨{ (System.init false links mtu).transport with conns := [Conn.zero 0] }, [0]⟩,
            []) :=
        rfl
      refine ⟨_, ?_, ptrsOk_step hok hstep, rfl, ?_, ?_⟩
      · rw [Endpoint.opening, hactive]
        exact run_cons.mpr ⟨_, _, _, hstep, rfl, rfl⟩
      · rw [hactive]
        rfl
      · intro ptr hptr
        rw [List.mem_singleton.mp hptr, Names.first, hactive]
        exact Nat.one_pos

/-- For any ticks, and any labels with the events of the ticks in between: the system takes all
labels that make, connect or free a connection, and then has the connections of the table in their
order, each under a name that no connection had before. -/
theorem ticks_refine (lib : FecLib) {e₀ e : Endpoint} (hstart : e₀.Starts) {ks : List ConnTick}
    {o : List LifeEvent} (hrun : run connTick e₀ ks = some (e, o)) (links : List SockAddr) (mtu : ℕ)
    {n : Names} {ls : List Label} (hls : Interleaved (.first e₀) o n ls) :
    Along (step lib) (fun s l => l.isLife = true → ∃ r, step lib s l = some r)
      (System.init e₀.isServer links mtu) (e₀.opening ++ ls) ∧
    ∀ s out, run (step lib) (System.init e₀.isServer links mtu) (e₀.opening ++ ls) =
        some (s, out) →
      s.transport.ptrs = e.active.map n.name ∧ s.transport.ptrs.Nodup ∧
        ∀ ptr ∈ s.used, ptr < n.count := by
  obtain ⟨-, hmoves⟩ := run_related (R := fun e o e' => Endpoint.Moves e o e')
    Endpoint.Moves.refl (fun _ _ _ _ _ hfirst hrest => hfirst.append hrest)
    (fun _ _ _ _ hwf hstep => moves_connTick hwf hstep) hstart.wellFormed ks e o hrun
  obtain ⟨s₀, hopening, hof₀⟩ := of_opening lib hstart links mtu
  obtain ⟨halong, hafter⟩ := hof₀.interleaved lib hls hmoves.admitted
  refine ⟨along_append (along_of_run (fun _ _ r htaken _ => ⟨r, htaken⟩) hopening)
    fun s₁ o₁ hrun₁ => ?_, fun s out hrun => ?_⟩
  · rw [hopening, Option.some.injEq, Prod.mk.injEq] at hrun₁
    rw [← hrun₁.1]
    exact halong
  · obtain ⟨s₁, o₁, o₂, hrun₁, hrest, -⟩ := run_append.mp hrun
    rw [hopening, Option.some.injEq, Prod.mk.injEq] at hrun₁
    rw [← hrun₁.1] at hrest
    have hof := hafter s o₂ hrest
    rw [← hmoves.leads.table] at hof
    exact ⟨hof.ptrs, hof.ok.nodup, hof.used_lt⟩

/-- The labels of a connection that is freed and another one at its address; a stream opens in
between. -/
def reuseLabels : List Label :=
  [.connect 0, .conn 0 (.openStream 0 true), .conn 0 .handshake, .free 0, .connect 1,
    .conn 1 .handshake]

theorem ticks_refine_reuse : ∃ s out,
    run (step FecLib.unavailable) (System.init true [] 1200) reuseLabels = some (s, out) ∧
      s.transport.ptrs = [1] ∧ s.transport.ptrs.Nodup ∧ ∀ ptr ∈ s.used, ptr < 2 := by
  have hls : Interleaved (.first .server)
      [.accepted 5, .received 5, .received 5, .service (.sent 5), .service (.connected 5),
        .service (.sent 5), .service (.sent 5), .service (.disconnected 5), .accepted 5,
        .received 5, .service (.connected 5), .service (.sent 5)] _ reuseLabels :=
    .event (.other rfl (.event (.event (.event (.event (.event (.event (.event (.event (.event
      (.event (.event (.nil _)))))))))))))
  have hrefine := (ticks_refine FecLib.unavailable (Or.inl rfl)
    (show run connTick .server reuseTicks = some (_, _) from rfl) [] 1200 hls).2
  exact ⟨_, _, rfl, hrefine _ _ rfl⟩

end Bishlink
