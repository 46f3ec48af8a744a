import Bishlink.Lib.CloseGap
import Bishlink.Lib.Loop
import Bishlink.System

/-!
# The service loop over the connections

The loop at the end of `transport_tick` with the table it closes gaps in: a freed connection is
taken out with `memmove`, the index goes back by one, past zero if it has to, and forward again.
What `quicly_send` says is given for each connection.
-/

namespace Bishlink

open CloseGap

/-- How `quicly_send` ends the inner loop: it has nothing to send, the connection is free, or it
fails. -/
inductive SendEnd where
  | idle
  | free
  | error
deriving DecidableEq

/-- A connection during a tick: whether its handshake is ready for the first time, how many
times `quicly_send` returns packets, and how it ends. -/
structure ConnService where
  connects : Bool
  batches : ℕ
  final : SendEnd

/-- A connection that `quicly_send` reports as free. -/
def freed (io : ℕ → ConnService) (c : ℕ) : Bool := decide ((io c).final = .free)

/-- What the loop does for a connection. -/
inductive ServiceEvent where
  | connected (conn : ℕ)
  | sent (conn : ℕ)
  | disconnected (conn : ℕ)
deriving DecidableEq

/-- The body of the loop for a connection, but for the table. -/
def serviceConn (io : ℕ → ConnService) (conn : ℕ) : List ServiceEvent :=
  (if (io conn).connects then [.connected conn] else []) ++
    List.replicate (io conn).batches (.sent conn) ++
    (if (io conn).final = .free then [.disconnected conn] else [])

/-- The loop between two rounds. Connections are pointers, 0 is NULL; `conns` has entries from
`connCount` on that are not in use. -/
structure Sweep where
  isServer : Bool
  conns : List ℕ
  connCount : ℕ
  clientConn : ℕ
  i : ℕ
  activeCount : ℕ
  events : List ServiceEvent

/-- The connection of the round. -/
def Sweep.current (s : Sweep) : ℕ := if s.isServer then s.conns.getD s.i 0 else s.clientConn

/-- `i--` and `++i` on a `size_t`. -/
def decr (i : ℕ) : ℕ := (i + (2 ^ 64 - 1)) % 2 ^ 64

def incr (i : ℕ) : ℕ := (i + 1) % 2 ^ 64

/-- A round of the loop. -/
def sweepStep (io : ℕ → ConnService) (s : Sweep) : Option Sweep :=
  if s.i < s.activeCount then
    if s.current = 0 then some { s with i := incr s.i }
    else if (io s.current).final = .free then
      if s.isServer then
        some { s with
          conns := memmove s.conns s.i (s.i + 1) (s.connCount - s.i - 1)
          connCount := s.connCount - 1
          -- `i--` in the body and `i++` in the head of the loop: at 0 the index wraps around
          i := incr (decr s.i)
          activeCount := s.connCount - 1
          events := s.events ++ serviceConn io s.current }
      else
        some { s with
          clientConn := 0
          i := incr s.i
          activeCount := 0
          events := s.events ++ serviceConn io s.current }
    else some { s with i := incr s.i, events := s.events ++ serviceConn io s.current }
  else none

/-- `conns[0 .. conn_count)` of a server: different connections, none of them NULL. -/
structure ServerTable where
  conns : List ℕ
  length_le : conns.length ≤ MAX_CONNECTIONS
  nodup : conns.Nodup
  nonNull : ∀ c ∈ conns, c ≠ 0

namespace ServerTable

/-- What a loop leaves is a table again. -/
def sweep (t : ServerTable) (io : ℕ → ConnService) : ServerTable where
  conns := t.conns.filter fun c => !freed io c
  length_le := (List.length_filter_le _ _).trans t.length_le
  nodup := t.nodup.filter _
  nonNull c hc := t.nonNull c (List.mem_filter.mp hc).1

end ServerTable

/-- The loop of a server starts with the connections of its table. -/
def Sweep.server (table : ServerTable) (unused : List ℕ) : Sweep :=
  ⟨true, table.conns ++ unused, table.conns.length, 0, 0, table.conns.length, []⟩

/-- The loop of a client that has its connection. -/
def Sweep.client (conns : List ℕ) (conn : ℕ) : Sweep := ⟨false, conns, 0, conn, 0, 1, []⟩

/-! ## A round -/

theorem incr_decr {i : ℕ} (h : i < 2 ^ 64) : incr (decr i) = i := by
  rw [incr, decr]
  omega

theorem incr_of_lt {i : ℕ} (h : i < 2 ^ 32) : incr i = i + 1 := by
  rw [incr]
  omega

section

variable {io : ℕ → ConnService} {kept rest unused : List ℕ} {c : ℕ}
  {events : List ServiceEvent}

/-- The loop of a server with `kept` behind it and `rest` to come. -/
def Sweep.between (kept rest unused : List ℕ) (events : List ServiceEvent) : Sweep :=
  ⟨true, kept ++ rest ++ unused, kept.length + rest.length, 0, kept.length,
    kept.length + rest.length, events⟩

theorem current_between : (Sweep.between kept (c :: rest) unused events).current = c := by
  show (kept ++ c :: rest ++ unused).getD kept.length 0 = c
  rw [List.append_assoc, List.cons_append, List.getD_eq_getElem?_getD,
    List.getElem?_append_right (Nat.le_refl _), Nat.sub_self, List.getElem?_cons_zero,
    Option.getD_some]

theorem sweepStep_end : sweepStep io (.between kept [] unused events) = none := by
  rw [sweepStep, if_neg]
  exact Nat.lt_irrefl _

theorem between_lt :
    (Sweep.between kept (c :: rest) unused events).i <
      (Sweep.between kept (c :: rest) unused events).activeCount := by
  show kept.length < kept.length + (rest.length + 1)
  omega

/-- A connection that stays. -/
theorem sweepStep_keep (hlen : kept.length < 2 ^ 32) (hc : c ≠ 0) (hfinal : (io c).final ≠ .free) :
    sweepStep io (.between kept (c :: rest) unused events) =
      some (.between (kept ++ [c]) rest unused (events ++ serviceConn io c)) := by
  have hconns : kept ++ c :: rest ++ unused = kept ++ [c] ++ rest ++ unused := by
    rw [List.append_assoc kept [c], List.singleton_append]
  have hi : incr kept.length = (kept ++ [c]).length := by
    rw [incr_of_lt hlen, List.length_append, List.length_singleton]
  have hcount : kept.length + (c :: rest).length = (kept ++ [c]).length + rest.length := by
    rw [List.length_append, List.length_singleton, List.length_cons]
    omega
  rw [sweepStep, if_pos between_lt, current_between, if_neg hc, if_neg hfinal]
  unfold Sweep.between
  rw [hconns, hi, hcount]

/-- A connection that is freed: the ones behind it move down, and the next round is at the same
index. -/
theorem sweepStep_free (hlen : kept.length < 2 ^ 32) (hc : c ≠ 0) (hfinal : (io c).final = .free) :
    sweepStep io (.between kept (c :: rest) unused events) =
      some (.between kept rest (lastMoved c rest :: unused) (events ++ serviceConn io c)) := by
  have hmoved : kept.length + (c :: rest).length - kept.length - 1 = rest.length := by
    rw [List.length_cons]
    omega
  have hcount : kept.length + (c :: rest).length - 1 = kept.length + rest.length := by
    rw [List.length_cons]
    omega
  have hconns : memmove (kept ++ c :: rest ++ unused) kept.length (kept.length + 1) rest.length =
      kept ++ rest ++ lastMoved c rest :: unused := by
    rw [List.append_assoc, List.cons_append]
    exact memmove_split kept rest unused c
  have hi : incr (decr kept.length) = kept.length := incr_decr (by omega)
  rw [sweepStep, if_pos between_lt, current_between, if_neg hc, if_pos hfinal]
  unfold Sweep.between
  dsimp only
  rw [if_pos rfl, hmoved, hconns, hcount, hi]

end

/-! ## The loop -/

/-- The rounds that are left visit the connections that are left, in order, and keep those that
are not freed. -/
theorem ends_between (io : ℕ → ConnService) {kept rest unused : List ℕ} {events : List ServiceEvent}
    (hlen : kept.length + rest.length < 2 ^ 32) (hrest : ∀ c ∈ rest, c ≠ 0) :
    ∃ v unused', Loop.Ends (sweepStep io) (.between kept rest unused events) v
        (.between (kept ++ rest.filter fun c => !freed io c) [] unused'
          (events ++ rest.flatMap (serviceConn io))) ∧
      v.map Sweep.current = rest := by
  induction rest generalizing kept unused events with
  | nil =>
    refine ⟨[], unused, ?_, rfl⟩
    rw [List.filter_nil, List.flatMap_nil, List.append_nil, List.append_nil]
    exact .done sweepStep_end
  | cons c rest ih =>
    rw [List.length_cons] at hlen
    have hc := hrest c List.mem_cons_self
    have htail := fun c' hc' => hrest c' (List.mem_cons_of_mem c hc')
    by_cases hfinal : (io c).final = .free
    · obtain ⟨v, unused', hends, hv⟩ := @ih kept (lastMoved c rest :: unused)
        (events ++ serviceConn io c) (by omega) htail
      have hfreed : freed io c = true := decide_eq_true hfinal
      refine ⟨_ :: v, unused', .next (sweepStep_free (by omega) hc hfinal) ?_, ?_⟩
      · rw [List.filter_cons_of_neg (by rw [hfreed]; decide), List.flatMap_cons,
          ← List.append_assoc]
        exact hends
      · rw [List.map_cons, hv, current_between]
    · have hlong : (kept ++ [c]).length + rest.length < 2 ^ 32 := by
        rw [List.length_append, List.length_singleton]
        omega
      obtain ⟨v, unused', hends, hv⟩ := @ih (kept ++ [c]) unused (events ++ serviceConn io c)
        hlong htail
      have hfreed : freed io c = false := decide_eq_false hfinal
      refine ⟨_ :: v, unused', .next (sweepStep_keep (by omega) hc hfinal) ?_, ?_⟩
      · rw [List.filter_cons_of_pos (by rw [hfreed]; rfl), List.flatMap_cons, ← List.append_assoc]
        rw [List.append_assoc kept, List.singleton_append] at hends
        exact hends
      · rw [List.map_cons, hv, current_between]

/-- The connection that an event reports disconnected. -/
def ServiceEvent.disconnectedConn : ServiceEvent → Option ℕ
  | .disconnected conn => some conn
  | _ => none

theorem disconnectedConn_eq_some {e : ServiceEvent} {c : ℕ} :
    e.disconnectedConn = some c ↔ e = .disconnected c := by
  cases e with
  | connected conn => simp [ServiceEvent.disconnectedConn]
  | sent conn => simp [ServiceEvent.disconnectedConn]
  | disconnected conn => simp [ServiceEvent.disconnectedConn]

/-- A round reports its connection disconnected if it is freed, and no other. -/
theorem disconnected_serviceConn (io : ℕ → ConnService) (c : ℕ) :
    (serviceConn io c).filterMap ServiceEvent.disconnectedConn =
      if freed io c then [c] else [] := by
  have hsent : (List.replicate (io c).batches (ServiceEvent.sent c)).filterMap
      ServiceEvent.disconnectedConn = [] := by
    rw [List.filterMap_eq_nil_iff]
    intro e he
    rw [List.eq_of_mem_replicate he]
    rfl
  rw [serviceConn, List.filterMap_append, List.filterMap_append, hsent, List.append_nil, freed]
  by_cases hfinal : (io c).final = .free
  · rw [if_pos hfinal, if_pos (decide_eq_true hfinal)]
    split
    · rfl
    · rfl
  · rw [if_neg hfinal, decide_eq_false hfinal, if_neg Bool.false_ne_true]
    split
    · rfl
    · rfl

/-- The connections reported disconnected are the freed ones. -/
theorem disconnected_flatMap (io : ℕ → ConnService) (table : List ℕ) :
    (table.flatMap (serviceConn io)).filterMap ServiceEvent.disconnectedConn =
      table.filter (freed io) := by
  induction table with
  | nil => rfl
  | cons c table ih =>
    rw [List.flatMap_cons, List.filterMap_append, ih, disconnected_serviceConn, List.filter_cons]
    split
    · rfl
    · rfl

/-- How often a connection is reported disconnected. -/
theorem count_disconnected (events : List ServiceEvent) (c : ℕ) :
    events.count (.disconnected c) =
      (events.filterMap ServiceEvent.disconnectedConn).count c := by
  rw [List.count_filterMap, List.count_eq_countP]
  apply List.countP_congr
  intro e _
  rw [beq_iff_eq, beq_iff_eq, disconnectedConn_eq_some]

/-- The loop over a table: it visits each connection once, reports each freed one disconnected
once and no other, and leaves the others in their order. -/
structure Swept (io : ℕ → ConnService) (table : ServerTable) (v : List Sweep) (t : Sweep) :
    Prop where
  visits : ∀ c, (v.map Sweep.current).count c = if c ∈ table.conns then 1 else 0
  raises : ∀ c, t.events.count (.disconnected c) =
    if c ∈ table.conns ∧ freed io c = true then 1 else 0
  leaves : t.conns.take t.connCount = (table.sweep io).conns
  nodup : (t.conns.take t.connCount).Nodup

/-- The loop of a server ends, and has swept its table. -/
theorem server_swept (io : ℕ → ConnService) (table : ServerTable) (unused : List ℕ) :
    (∃ v t, Loop.Ends (sweepStep io) (.server table unused) v t) ∧
      ∀ v t, Loop.Ends (sweepStep io) (.server table unused) v t → Swept io table v t := by
  have hlen := table.length_le
  rw [MAX_CONNECTIONS] at hlen
  obtain ⟨v, unused', hends, hv⟩ := @ends_between io [] table.conns unused []
    (by rw [List.length_nil]; omega) table.nonNull
  have hstart : Sweep.between [] table.conns unused [] = .server table unused := by
    rw [Sweep.between, Sweep.server, List.length_nil, Nat.zero_add, List.nil_append]
  rw [hstart] at hends
  refine ⟨⟨v, _, hends⟩, fun v' t' hends' => ?_⟩
  obtain ⟨rfl, rfl⟩ := hends.unique hends'
  have hleft : (Sweep.between ([] ++ table.conns.filter fun c => !freed io c) [] unused'
      ([] ++ table.conns.flatMap (serviceConn io))).conns.take
        (Sweep.between ([] ++ table.conns.filter fun c => !freed io c) [] unused'
          ([] ++ table.conns.flatMap (serviceConn io))).connCount =
      (table.sweep io).conns := by
    unfold Sweep.between
    dsimp only
    rw [List.nil_append, List.append_nil, List.length_nil, Nat.add_zero, List.take_left]
    rfl
  refine ⟨?_, ?_, hleft, ?_⟩
  · intro c
    rw [hv]
    exact table.nodup.count
  · intro c
    show ([] ++ table.conns.flatMap (serviceConn io)).count (ServiceEvent.disconnected c) = _
    rw [List.nil_append, count_disconnected, disconnected_flatMap,
      (table.nodup.filter (freed io)).count]
    simp only [List.mem_filter]
  · rw [hleft]
    exact (table.sweep io).nodup

/-- The loop of a client runs once, and forgets a connection that is freed. -/
theorem client_swept (io : ℕ → ConnService) (conns : List ℕ) {conn : ℕ} (hnull : conn ≠ 0) :
    ∃ v, Loop.Ends (sweepStep io) (.client conns conn) v
        ⟨false, conns, 0, if freed io conn then 0 else conn, 1, if freed io conn then 0 else 1,
          serviceConn io conn⟩ ∧
      v.map Sweep.current = [conn] := by
  have hstep : sweepStep io (.client conns conn) =
      some ⟨false, conns, 0, if freed io conn then 0 else conn, 1,
        if freed io conn then 0 else 1, serviceConn io conn⟩ := by
    by_cases hfinal : (io conn).final = .free
    · simp [sweepStep, Sweep.client, Sweep.current, hnull, hfinal, incr, freed]
    · simp [sweepStep, Sweep.client, Sweep.current, hnull, hfinal, incr, freed]
  refine ⟨_, .next hstep (.done ?_), rfl⟩
  unfold sweepStep
  rw [if_neg]
  dsimp only
  split <;> omega

/-! ## The table of the system -/

/-- A connection that is not freed is still found. -/
theorem findConn_filter {t : Transport} {ptr ptr' : ℕ} (hne : ptr' ≠ ptr) :
    ({ t with conns := t.conns.filter fun c => c.ptr ≠ ptr } : Transport).findConn ptr' =
      t.findConn ptr' := by
  rw [Transport.findConn, Transport.findConn, List.find?_filter]
  congr 1
  funext c
  by_cases hc : c.ptr = ptr'
  · simp [hc, hne]
  · simp [hc]

/-- Freeing connections one after the other, as the system does, leaves the others in their
order. -/
theorem run_free (lib : FecLib) {t : Transport} {ptrs : List ℕ} (hnodup : ptrs.Nodup)
    (hfind : ∀ ptr ∈ ptrs, (t.findConn ptr).isSome) :
    Runs.run (transportStep lib) t (ptrs.map .free) =
      some ({ t with conns := t.conns.filter fun c => c.ptr ∉ ptrs },
        ptrs.map fun ptr => .event ptr .disconnected) := by
  induction ptrs generalizing t with
  | nil => simp
  | cons ptr ptrs ih =>
    obtain ⟨hnot, hnodup⟩ := List.nodup_cons.mp hnodup
    obtain ⟨c, hc⟩ := Option.isSome_iff_exists.mp (hfind ptr List.mem_cons_self)
    obtain ⟨-, hptr⟩ := Transport.findConn_eq_some hc
    have hrest : ∀ ptr' ∈ ptrs,
        (({ t with conns := t.conns.filter fun c => c.ptr ≠ ptr } : Transport).findConn
          ptr').isSome := by
      intro ptr' hptr'
      rw [findConn_filter (ne_of_mem_of_not_mem hptr' hnot)]
      exact hfind ptr' (List.mem_cons_of_mem ptr hptr')
    have hfilter : (t.conns.filter fun c => c.ptr ≠ ptr).filter (fun c => c.ptr ∉ ptrs) =
        t.conns.filter fun c => c.ptr ∉ ptr :: ptrs := by
      rw [List.filter_filter]
      apply List.filter_congr
      intro c _
      simp [Bool.and_comm]
    have hstep : transportStep lib t (.free ptr) =
        some ({ t with conns := t.conns.filter fun c => c.ptr ≠ ptr },
          [.event ptr .disconnected]) := by
      rw [transportStep, hc]
      dsimp only
      rw [hptr]
    have hrun := ih hnodup hrest
    rw [hfilter] at hrun
    exact Runs.run_cons.mpr ⟨_, _, _, hstep, hrun, rfl⟩

/-- The loop leaves the table of the system without the freed connections. -/
theorem sweep_system (lib : FecLib) (io : ℕ → ConnService) {t : Transport} {table : ServerTable}
    (htable : t.conns.map (·.ptr) = table.conns) :
    ∃ t' o, Runs.run (transportStep lib) t ((table.conns.filter (freed io)).map .free) =
        some (t', o) ∧
      t'.conns.map (·.ptr) = (table.sweep io).conns := by
  have hfind : ∀ ptr ∈ table.conns.filter (freed io), (t.findConn ptr).isSome := by
    intro ptr hptr
    have hmem := (List.mem_filter.mp hptr).1
    rw [← htable] at hmem
    obtain ⟨c, hc, hcptr⟩ := List.mem_map.mp hmem
    rw [Transport.findConn, List.find?_isSome]
    exact ⟨c, hc, beq_iff_eq.mpr hcptr⟩
  refine ⟨_, _, run_free lib (table.nodup.filter (freed io)) hfind, ?_⟩
  show (t.conns.filter fun c => c.ptr ∉ table.conns.filter (freed io)).map (·.ptr) =
    table.conns.filter fun ptr => !freed io ptr
  rw [← htable, List.filter_map (l := t.conns) (p := fun ptr => !freed io ptr)]
  congr 1
  apply List.filter_congr
  intro c hc
  have hmem : c.ptr ∈ t.conns.map (·.ptr) := List.mem_map_of_mem hc
  simp only [List.mem_filter, hmem, true_and, Function.comp_apply]
  cases hfreed : freed io c.ptr with
  | true => rfl
  | false => rfl

end Bishlink
