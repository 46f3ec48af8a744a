import Bishlink.Lib.Runs
import Bishlink.Sockets

/-!
# Path states and the addresses of the links

`path_states[i]` belongs to link `i` by its index alone. The ifmon loop of `transport_tick` closes
the gap of a removed address in `fds[]` and `local_addrs[]`, and takes the entry behind the last
one for an added address; `path_states[]` stays as it is. `follows_address_iff` says in which runs
each address keeps its own state all the same.
-/

namespace Bishlink

open Runs

/-! ## The tables -/

/-- `path_state_t` as it is zeroed, and `pathflow_update_state`. -/
structure Pathflow (σ μ : Type*) where
  zero : σ
  updateState : σ → μ → σ

/-- The sockets and `path_states`. -/
structure PathTable (σ : Type*) where
  table : SocketTable
  pathStates : List σ
  length_socks : table.socks.length ≤ TRANSPORT_MAX_PATHS
  length_pathStates : pathStates.length = TRANSPORT_MAX_PATHS

/-- One round of the ifmon loop, or the loop that updates the path states: link `i` with what was
measured for it. -/
inductive PathLabel (μ : Type*) where
  | ifmon (fd : Option ℕ) (msg : IfmonPipeMsg)
  | update (measured : ℕ → μ)

/-- An update of a path state, by the address of its link. -/
structure PathUpdate (μ : Type*) where
  addr : SockAddr
  measured : μ
deriving DecidableEq

variable {σ μ : Type*}

namespace PathTable

/-- A transport whose path states are zeroed. -/
def fresh (lib : Pathflow σ μ) (table : SocketTable)
    (h : table.socks.length ≤ TRANSPORT_MAX_PATHS) : PathTable σ where
  table := table
  pathStates := List.replicate TRANSPORT_MAX_PATHS lib.zero
  length_socks := h
  length_pathStates := List.length_replicate

/-- The links of a transport: the sockets with the states that `transport_publish` uses for
them. -/
def links (s : PathTable σ) : List (LocalSocket × σ) := s.table.socks.zip s.pathStates

/-- The loop over `pathflow_update_state`. -/
def update (lib : Pathflow σ μ) (measured : ℕ → μ) (s : PathTable σ) : PathTable σ :=
  { s with
    pathStates := s.pathStates.mapIdx fun i state =>
      if i < s.table.socks.length then lib.updateState state (measured i) else state
    length_pathStates := by rw [List.length_mapIdx, s.length_pathStates] }

/-- One round of the ifmon loop. -/
def ifmon (fd : Option ℕ) (msg : IfmonPipeMsg) (s : PathTable σ) : PathTable σ :=
  { s with
    table := (s.table.handle fd msg).1
    length_socks := s.table.length_handle_le fd msg s.length_socks }

/-- The updates of a loop, by address. -/
def updates (measured : ℕ → μ) (s : PathTable σ) : List (PathUpdate μ) :=
  s.table.socks.mapIdx fun i sock => ⟨sock.addr, measured i⟩

end PathTable

/-- What `transport_tick` does to the links, and the updates it makes. -/
def pathStep (lib : Pathflow σ μ) (s : PathTable σ) :
    PathLabel μ → Option (PathTable σ × List (PathUpdate μ))
  | .ifmon fd msg => some (s.ifmon fd msg, [])
  | .update measured => some (s.update lib measured, s.updates measured)

/-! ## States that follow their address -/

/-- The state of a link is what updates of its address make of a fresh one. -/
def Measured (lib : Pathflow σ μ) (o : List (PathUpdate μ)) (s : PathTable σ) : Prop :=
  ∀ link ∈ s.links, ∃ us : List (PathUpdate μ), us.Sublist o ∧ (∀ u ∈ us, u.addr = link.1.addr) ∧
    link.2 = us.foldl (fun state u => lib.updateState state u.measured) lib.zero

/-- A removed address takes its state along and leaves the other links as they are, and an added
address comes with a fresh state. -/
def Keeps (lib : Pathflow σ μ) (s s' : PathTable σ) : PathLabel μ → Prop
  | .ifmon _ msg =>
    if msg.isAdded then
      ∀ sock, s'.table.socks = s.table.socks ++ [sock] → s'.links = s.links ++ [(sock, lib.zero)]
    else s'.links = s.links.eraseP fun link => link.1.addr.ip == msg.ip
  | .update _ => True

/-- In a run every path state stays with its address. -/
def FollowsAddress (lib : Pathflow σ μ) (s₀ : PathTable σ) (labels : List (PathLabel μ)) : Prop :=
  (∀ pre s o, pre <+: labels → run (pathStep lib) s₀ pre = some (s, o) → Measured lib o s) ∧
    Along (pathStep lib) (fun s l => ∀ s' o, pathStep lib s l = some (s', o) → Keeps lib s s' l)
      s₀ labels

/-- What has to hold before a step: an added address gets an entry that is still zeroed, and the
links behind a removed address have the same states as the ones before them, from the removed one
on. -/
def InPlace (lib : Pathflow σ μ) (s : PathTable σ) : PathLabel μ → Prop
  | .ifmon fd msg =>
    if msg.isAdded then
      s.table.accepts msg.ip = true → fd.isSome = true →
        s.pathStates[s.table.socks.length]? = some lib.zero
    else
      ∀ i, s.table.socks.findIdx? (fun sock => sock.addr.ip == msg.ip) = some i →
        ∀ j, i ≤ j → j + 1 < s.table.socks.length → s.pathStates[j]? = s.pathStates[j + 1]?
  | .update _ => True

/-! ## Parallel arrays -/

section Parallel

variable {α β : Type*}

/-- Two columns that agree as far as the rows go. -/
theorem zip_eq_zip_iff {as : List α} {bs bs' : List β} (h : as.length ≤ bs.length)
    (h' : as.length ≤ bs'.length) :
    as.zip bs = as.zip bs' ↔ ∀ j, j < as.length → bs[j]? = bs'[j]? := by
  induction as generalizing bs bs' with
  | nil => simp
  | cons a as ih =>
    cases bs with
    | nil => simp at h
    | cons b bs =>
      cases bs' with
      | nil => simp at h'
      | cons b' bs' =>
        rw [List.length_cons, List.length_cons, Nat.add_le_add_iff_right] at h h'
        rw [List.zip_cons_cons, List.zip_cons_cons, List.cons.injEq, ih h h']
        constructor
        · rintro ⟨hhead, htail⟩ j hj
          cases j with
          | zero => exact congrArg some (Prod.mk.inj hhead).2
          | succ j => exact htail j (Nat.lt_of_succ_lt_succ hj)
        · intro hall
          refine ⟨?_, fun j hj => hall (j + 1) (Nat.succ_lt_succ hj)⟩
          rw [Option.some.inj (hall 0 (Nat.zero_lt_succ _))]

/-- A row is taken out of one column only. The other column keeps its entries exactly when the
entries from that row on are equal. -/
theorem zip_eraseP_iff (p : α → Bool) {as : List α} {bs : List β} (h : as.length ≤ bs.length) :
    (as.eraseP p).zip bs = (as.zip bs).eraseP (fun x => p x.1) ↔
      ∀ i, as.findIdx? p = some i → ∀ j, i ≤ j → j + 1 < as.length → bs[j]? = bs[j + 1]? := by
  induction as generalizing bs with
  | nil => simp
  | cons a as ih =>
    cases bs with
    | nil => simp at h
    | cons b bs =>
      rw [List.length_cons, List.length_cons, Nat.add_le_add_iff_right] at h
      by_cases hp : p a = true
      · rw [List.eraseP_cons_of_pos hp, List.zip_cons_cons,
          List.eraseP_cons_of_pos (p := fun x : α × β => p x.1) hp, List.findIdx?_cons, if_pos hp]
        have hshift : as.zip (b :: bs) = as.zip bs ↔
            ∀ j, j < as.length → (b :: bs)[j]? = bs[j]? :=
          zip_eq_zip_iff (Nat.le_succ_of_le h) h
        rw [hshift]
        constructor
        · intro hall i hi j _ hj
          exact hall j (Nat.lt_of_succ_lt_succ hj)
        · intro hall j hj
          exact hall 0 rfl j (Nat.zero_le j) (Nat.succ_lt_succ hj)
      · rw [List.eraseP_cons_of_neg hp, List.zip_cons_cons, List.zip_cons_cons,
          List.eraseP_cons_of_neg (p := fun x : α × β => p x.1) hp, List.cons.injEq,
          List.findIdx?_cons, if_neg hp, ih h]
        constructor
        · rintro ⟨-, hall⟩ i hi j hij hj
          obtain ⟨i', hi', rfl⟩ := Option.map_eq_some_iff.mp hi
          obtain ⟨j', rfl⟩ : ∃ j', j = j' + 1 := ⟨j - 1, by omega⟩
          exact hall i' hi' j' (Nat.le_of_succ_le_succ hij) (Nat.lt_of_succ_lt_succ hj)
        · intro hall
          refine ⟨rfl, fun i hi j hij hj => ?_⟩
          exact hall (i + 1) (Option.map_eq_some_iff.mpr ⟨i, hi, rfl⟩) (j + 1)
            (Nat.succ_le_succ hij) (Nat.succ_lt_succ hj)

/-- A row is added to one column; the other has an entry there already. -/
theorem zip_concat {as : List α} {bs : List β} {a : α} {b : β} (h : bs[as.length]? = some b) :
    (as ++ [a]).zip bs = as.zip bs ++ [(a, b)] := by
  induction as generalizing bs with
  | nil =>
    cases bs with
    | nil => exact absurd h (by simp)
    | cons b' bs => rw [Option.some.inj h]; rfl
  | cons a' as ih =>
    cases bs with
    | nil => exact absurd h (by simp)
    | cons b' bs =>
      rw [List.cons_append, List.zip_cons_cons, List.zip_cons_cons, List.cons_append]
      rw [ih h]

end Parallel

/-! ## One step -/

variable {lib : Pathflow σ μ} {s s' : PathTable σ} {o : List (PathUpdate μ)}

theorem PathTable.length_socks_le (s : PathTable σ) :
    s.table.socks.length ≤ s.pathStates.length := by
  rw [s.length_pathStates]
  exact s.length_socks

/-- The sockets after an added address. -/
theorem handle_added {t : SocketTable} {fd : Option ℕ} {msg : IfmonPipeMsg}
    (hadded : msg.isAdded = true) :
    (¬(t.accepts msg.ip = true ∧ fd.isSome = true) ∧ (t.handle fd msg).1.socks = t.socks) ∨
      (t.accepts msg.ip = true ∧ fd.isSome = true ∧
        ∃ sock, (t.handle fd msg).1.socks = t.socks ++ [sock]) := by
  unfold SocketTable.handle SocketTable.add
  rw [if_pos hadded]
  by_cases haccepts : t.accepts msg.ip = true
  · rw [if_pos haccepts]
    cases fd with
    | none => exact Or.inl ⟨fun h => Bool.false_ne_true h.2, rfl⟩
    | some fd => exact Or.inr ⟨haccepts, rfl, _, rfl⟩
  · rw [if_neg haccepts]
    exact Or.inl ⟨fun h => haccepts h.1, rfl⟩

/-- The sockets after a removed address. -/
theorem handle_removed {t : SocketTable} (fd : Option ℕ) {msg : IfmonPipeMsg}
    (hremoved : ¬msg.isAdded = true) :
    (t.handle fd msg).1.socks = t.socks.eraseP fun sock => sock.addr.ip == msg.ip := by
  unfold SocketTable.handle SocketTable.remove
  rw [if_neg hremoved]
  split
  · next hnone =>
    rw [List.find?_eq_none] at hnone
    exact (List.eraseP_of_forall_not hnone).symm
  · rfl

/-- A step keeps the states with their addresses exactly when it is in place. -/
theorem keeps_iff_inPlace {l : PathLabel μ} (h : pathStep lib s l = some (s', o)) :
    Keeps lib s s' l ↔ InPlace lib s l := by
  cases l with
  | update measured => exact Iff.rfl
  | ifmon fd msg =>
    simp only [pathStep, Option.some.injEq, Prod.mk.injEq] at h
    obtain ⟨rfl, -⟩ := h
    unfold Keeps InPlace
    dsimp only
    by_cases hadded : msg.isAdded = true
    · rw [if_pos hadded, if_pos hadded]
      show (∀ sock, (s.table.handle fd msg).1.socks = s.table.socks ++ [sock] →
        (s.table.handle fd msg).1.socks.zip s.pathStates = _) ↔ _
      rcases handle_added hadded with ⟨hleft, hsame⟩ | ⟨haccepts, hfd, new, hnew⟩
      · refine iff_of_true (fun sock hsock => ?_) fun haccepts hfd => absurd ⟨haccepts, hfd⟩ hleft
        rw [hsame] at hsock
        have hlen := congrArg List.length hsock
        rw [List.length_append, List.length_singleton] at hlen
        omega
      · have hlt : s.table.socks.length < s.pathStates.length := by
          simp only [SocketTable.accepts, Bool.and_eq_true, decide_eq_true_eq] at haccepts
          rw [s.length_pathStates]
          exact haccepts.1
        have hentry := List.getElem?_eq_getElem hlt
        rw [hnew, zip_concat hentry, hentry, Option.some.injEq]
        constructor
        · intro hall _ _
          have hlast := List.append_cancel_left (hall new rfl)
          exact (Prod.mk.inj (List.singleton_inj.mp hlast)).2
        · intro hzero sock hsock
          rw [hzero haccepts hfd, List.singleton_inj.mp (List.append_cancel_left hsock)]
          rfl
    · rw [if_neg hadded, if_neg hadded]
      show (s.table.handle fd msg).1.socks.zip s.pathStates = _ ↔ _
      rw [handle_removed fd hadded]
      exact zip_eraseP_iff (fun sock : LocalSocket => sock.addr.ip == msg.ip) s.length_socks_le

/-- Updates of the links: each of them goes on from its own state. -/
theorem measured_update {all : List (PathUpdate μ)} (measured : ℕ → μ)
    (h : Measured lib all s) :
    Measured lib (all ++ s.updates measured) (s.update lib measured) := by
  intro link hlink
  obtain ⟨i, hi⟩ := List.mem_iff_getElem?.mp hlink
  obtain ⟨hsock, hstate⟩ := List.getElem?_zip_eq_some.mp hi
  have hlen : i < s.table.socks.length := by
    obtain ⟨hlt, -⟩ := List.getElem?_eq_some_iff.mp hsock
    exact hlt
  have hold : s.pathStates[i]?.map (fun state => lib.updateState state (measured i)) =
      some link.2 := by
    rw [← hstate]
    show _ = (s.pathStates.mapIdx _)[i]?
    rw [List.getElem?_mapIdx]
    congr 1
    funext state
    rw [if_pos hlen]
  obtain ⟨state, hstate', hnew⟩ := Option.map_eq_some_iff.mp hold
  have hmem : (link.1, state) ∈ s.links :=
    List.mem_of_getElem? (List.getElem?_zip_eq_some.mpr ⟨hsock, hstate'⟩)
  obtain ⟨us, hsub, haddr, hfold⟩ := h (link.1, state) hmem
  have hupdate : (⟨link.1.addr, measured i⟩ : PathUpdate μ) ∈ s.updates measured := by
    refine List.mem_of_getElem? (i := i) ?_
    unfold PathTable.updates
    have hsock' : s.table.socks[i]? = some link.1 := hsock
    rw [List.getElem?_mapIdx, hsock', Option.map_some]
  refine ⟨us ++ [⟨link.1.addr, measured i⟩], ?_, ?_, ?_⟩
  · exact hsub.append (List.singleton_sublist.mpr hupdate)
  · intro u hu
    rcases List.mem_append.mp hu with hu | hu
    · exact haddr u hu
    · rw [List.mem_singleton.mp hu]
  · rw [List.foldl_append, ← hfold, ← hnew]
    rfl

/-- An address is added or removed, and the others keep their states. -/
theorem measured_ifmon {all : List (PathUpdate μ)} {fd : Option ℕ} {msg : IfmonPipeMsg}
    (h : Measured lib all s) (hkeeps : Keeps lib s (s.ifmon fd msg) (.ifmon fd msg : PathLabel μ)) :
    Measured lib all (s.ifmon fd msg) := by
  unfold Keeps at hkeeps
  dsimp only at hkeeps
  by_cases hadded : msg.isAdded = true
  · rw [if_pos hadded] at hkeeps
    rcases handle_added hadded with ⟨-, hsame⟩ | ⟨-, -, sock, hnew⟩
    · have hlinks : (s.ifmon fd msg).links = s.links := congrArg (·.zip s.pathStates) hsame
      intro link hlink
      rw [hlinks] at hlink
      exact h link hlink
    · intro link hlink
      rw [hkeeps sock hnew] at hlink
      rcases List.mem_append.mp hlink with hlink | hlink
      · exact h link hlink
      · rw [List.mem_singleton.mp hlink]
        exact ⟨[], List.nil_sublist all, fun _ hu => absurd hu List.not_mem_nil, rfl⟩
  · rw [if_neg hadded] at hkeeps
    intro link hlink
    rw [hkeeps] at hlink
    exact h link (List.mem_of_mem_eraseP hlink)

/-! ## Runs -/

/-- In a run in which every step is in place each link has the state of its address. -/
theorem measured_run {s₀ : PathTable σ} (hinit : Measured lib [] s₀)
    {labels : List (PathLabel μ)} (hplace : Along (pathStep lib) (InPlace lib) s₀ labels)
    (hrun : run (pathStep lib) s₀ labels = some (s, o)) : Measured lib o s := by
  refine run_induction_along (pathStep lib) (G := InPlace lib) (P := fun _ s o => Measured lib o s)
    hinit ?_ labels s o hplace hrun
  intro labels s o l s' o' _ ih hplace hstep
  have hkeeps := (keeps_iff_inPlace hstep).mpr hplace
  cases l with
  | ifmon fd msg =>
    simp only [pathStep, Option.some.injEq, Prod.mk.injEq] at hstep
    obtain ⟨rfl, rfl⟩ := hstep
    rw [List.append_nil]
    exact measured_ifmon ih hkeeps
  | update measured =>
    simp only [pathStep, Option.some.injEq, Prod.mk.injEq] at hstep
    obtain ⟨rfl, rfl⟩ := hstep
    exact measured_update measured ih

theorem measured_fresh (lib : Pathflow σ μ) {table : SocketTable}
    (h : table.socks.length ≤ TRANSPORT_MAX_PATHS) :
    Measured lib [] (PathTable.fresh lib table h) := by
  intro link hlink
  have hzero := List.eq_of_mem_replicate (List.of_mem_zip hlink).2
  exact ⟨[], List.Sublist.refl [], fun _ hu => absurd hu List.not_mem_nil, hzero⟩

/-- Path states stay with their addresses exactly in the runs in which an address is added only
while the entry behind the last link is still zeroed, and the links from a removed one on have
equal states. -/
theorem follows_address_iff (lib : Pathflow σ μ) (table : SocketTable)
    (h : table.socks.length ≤ TRANSPORT_MAX_PATHS) (labels : List (PathLabel μ)) :
    FollowsAddress lib (PathTable.fresh lib table h) labels ↔
      Along (pathStep lib) (InPlace lib) (PathTable.fresh lib table h) labels := by
  have hkeeps : ∀ s₀, Along (pathStep lib)
      (fun s l => ∀ s' o, pathStep lib s l = some (s', o) → Keeps lib s s' l) s₀ labels ↔
      Along (pathStep lib) (InPlace lib) s₀ labels := by
    intro s₀
    refine along_congr (I := fun _ => True) (fun _ _ _ _ _ _ => trivial) (fun s l _ => ?_) trivial
    constructor
    · intro hall
      cases l with
      | ifmon fd msg => exact (keeps_iff_inPlace rfl).mp (hall _ _ rfl)
      | update measured => trivial
    · intro hplace s' o hstep
      exact (keeps_iff_inPlace hstep).mpr hplace
  refine ⟨fun hfollows => (hkeeps _).mp hfollows.2, fun hplace => ⟨?_, (hkeeps _).mpr hplace⟩⟩
  intro pre s o hpre hrun
  exact measured_run (measured_fresh lib h) (along_front hpre hplace) hrun

/-- What was measured for a link, one after the other. -/
def measurements : Pathflow (List ℕ) ℕ := ⟨[], fun state m => state ++ [m]⟩

def twoLinks : SocketTable :=
  ⟨false, [⟨3, .inet 1 0⟩, ⟨4, .inet 2 0⟩], .inet 0 0, []⟩

/-- One loop over the path states, then one of the addresses is removed. -/
def updateThenRemove (addr : UInt32) : List (PathLabel ℕ) :=
  [.update id, .ifmon none ⟨0, .v4 addr, false⟩]

/-- The last link goes and the other one keeps its state; when the first one goes, the link that
is left gets the state of the first. -/
theorem follows_address_iff_last :
    FollowsAddress measurements (PathTable.fresh measurements twoLinks (by decide))
      (updateThenRemove 2) := by
  refine (follows_address_iff measurements twoLinks (by decide) (updateThenRemove 2)).mpr ?_
  refine ⟨trivial, fun s₁ o₁ h₁ => ⟨?_, fun _ _ _ => trivial⟩⟩
  simp only [pathStep, Option.some.injEq, Prod.mk.injEq] at h₁
  obtain ⟨rfl, -⟩ := h₁
  show ∀ i, [false, true].findIdx? id = some i → ∀ j, i ≤ j → j + 1 < 2 → _
  intro i hi j hij hj
  have hlast : [false, true].findIdx? id = some 1 := rfl
  rw [hlast] at hi
  injection hi
  omega

/-- The first address is removed: the entry of the second link was made of the updates of the
first. -/
theorem not_follows_address_first :
    ¬FollowsAddress measurements (PathTable.fresh measurements twoLinks (by decide))
      (updateThenRemove 1) := by
  intro h
  have hkeeps : [((⟨4, .inet 2 0⟩ : LocalSocket), [0])] = [(⟨4, .inet 2 0⟩, [1])] :=
    (h.2.2 _ _ rfl).1 _ _ rfl
  exact absurd hkeeps (by decide)

end Bishlink
