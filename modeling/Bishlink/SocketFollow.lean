import Bishlink.SocketAddresses

/-!
# Sockets that follow the interfaces

`Followed` takes one snapshot after the other through the whole pipeline and remembers which
addresses were opened and which of them are still there; it is what the pipeline does
whenever its pipe is empty (`followed_run`), however the ticks lie between the snapshots.

* `UpdateOk`: what an update must meet for the sockets to follow it;
* `Follows.step`: an update that meets it keeps `Follows`.
-/

namespace Bishlink

open Runs

/-- The addresses on the interfaces of a snapshot. -/
def Snapshot.ips (s : Snapshot) : List IpAddr := s.ifaces.flatMap fun f => f.addrs.map (·.ip)

/-- The watcher's previous list, the addresses with sockets, every address that was opened,
and those of them that have been on an interface ever since. -/
structure Followed where
  prev : Snapshot
  table : AddressTable
  opened : List IpAddr
  standing : List IpAddr

/-- The configured sockets, before the first change. -/
def Followed.start (first : Snapshot) (t : SocketTable) : Followed := ⟨first, t.addresses, [], []⟩

/-- After the messages of a snapshot. -/
def Followed.after (f : Followed) (curr prev : Snapshot) (msgs : List IfmonPipeMsg) : Followed :=
  let opened := f.table.opensAll msgs
  { prev := prev
    table := f.table.settle msgs
    opened := f.opened ++ opened
    standing := (f.standing ++ opened).filter fun x => x ∈ curr.ips }

/-- A snapshot taken through the pipeline; the output is what it opens. -/
def followStep (f : Followed) (curr : Snapshot) : Option (Followed × List IpAddr) :=
  (watcherStep f.prev curr).map fun r =>
    let msgs := r.2.flatMap onIfmonUpdate
    (f.after curr r.1 msgs, f.table.opensAll msgs)

/-! ## Updates the sockets can follow -/

/-- An address of the new snapshot that the update leaves with at most one socket, and with
the one it had: it is gained by no interface, and lost by none if it was opened; or it is
gained once, lost by none and has no socket; or it is gained once and lost once, has a
socket, and there is room for everything gained. -/
def AddressOk (f : Followed) (curr : Snapshot) (x : IpAddr) : Prop :=
  ((gained f.prev curr).count x = 0 ∧
      ((lost f.prev curr).count x = 0 ∨ x ∉ f.table.addrs ∨ x ∉ f.opened)) ∨
    ((gained f.prev curr).count x = 1 ∧ (lost f.prev curr).count x = 0 ∧ x ∉ f.table.addrs) ∨
    ((gained f.prev curr).count x = 1 ∧ (lost f.prev curr).count x = 1 ∧ x ∈ f.table.addrs ∧
      f.table.HasRoom (gained f.prev curr))

/-- Every opened address that no interface has any more was lost by an interface that
remains, and the addresses of the new snapshot are as above, unless the table is full and
loses nothing. -/
def UpdateOk (f : Followed) (curr : Snapshot) : Prop :=
  (∀ x ∈ f.table.addrs, x ∈ f.opened → x ∉ curr.ips → x ∈ lost f.prev curr) ∧
    (f.table.Stuck (lost f.prev curr) ∨ ∀ x ∈ curr.ips, AddressOk f curr x)

instance (t : AddressTable) (new : List IpAddr) : Decidable (t.HasRoom new) := by
  unfold AddressTable.HasRoom
  infer_instance

instance (t : AddressTable) (gone : List IpAddr) : Decidable (t.Stuck gone) := by
  unfold AddressTable.Stuck
  infer_instance

instance (f : Followed) (curr : Snapshot) (x : IpAddr) : Decidable (AddressOk f curr x) := by
  unfold AddressOk
  infer_instance

instance (f : Followed) (curr : Snapshot) : Decidable (UpdateOk f curr) := by
  unfold UpdateOk
  infer_instance

/-! ## One update -/

/-- The sockets follow the latest snapshot: no address twice and at most four, none that was
opened and is gone, and every opened one that is still there. -/
structure Follows (latest : Snapshot) (f : Followed) : Prop where
  nodup : f.table.addrs.Nodup
  length_le : f.table.addrs.length ≤ TRANSPORT_MAX_PATHS
  present : ∀ x ∈ f.table.addrs, x ∈ f.opened → x ∈ latest.ips
  standing : ∀ x ∈ f.standing, x ∈ f.table.addrs ∧ x ∈ f.opened

theorem mem_ips_of_gained {prev curr : Snapshot} {x : IpAddr} (h : x ∈ gained prev curr) :
    x ∈ curr.ips := by
  obtain ⟨f, hf, hx⟩ := List.mem_flatMap.mp h
  refine List.mem_flatMap.mpr ⟨f, hf, ?_⟩
  unfold gainedBy at hx
  split at hx
  · exact hx
  · obtain ⟨a, ha, rfl⟩ := List.mem_map.mp hx
    exact List.mem_map_of_mem (List.mem_filter.mp ha).1

/-- A difference that is not delivered has no messages. -/
theorem msgs_of_watcherStep {prev curr prev' : Snapshot} {ups : List IfmonUpdate}
    (h : watcherStep prev curr = some (prev', ups)) :
    ups.flatMap onIfmonUpdate = onIfmonUpdate (generateUpdate prev.ifaces curr.ifaces false) := by
  rcases watcherStep_cases h with ⟨-, -, rfl⟩ | ⟨hempty, -, rfl⟩
  · exact List.flatMap_singleton _ _
  · simp only [IfmonUpdate.nonempty, Bool.or_eq_false_iff, Bool.not_eq_false',
      List.isEmpty_iff] at hempty
    rw [onIfmonUpdate, hempty.1.1, hempty.2]
    simp

/-- A step of `followStep`, with the messages counted. -/
theorem followStep_spec {f f' : Followed} {curr : Snapshot} {o : List IpAddr}
    (h : followStep f curr = some (f', o)) :
    ∃ msgs, (addedIps msgs).Perm (gained f.prev curr) ∧ removedIps msgs = lost f.prev curr ∧
      f'.table = f.table.settle msgs ∧ f'.opened = f.opened ++ f.table.opensAll msgs ∧
      f'.standing = (f.standing ++ f.table.opensAll msgs).filter fun x => x ∈ curr.ips := by
  simp only [followStep, Option.map_eq_some_iff, Prod.mk.injEq] at h
  obtain ⟨⟨prev', ups⟩, hstep, rfl, -⟩ := h
  have hmsgs := msgs_of_watcherStep hstep
  refine ⟨ups.flatMap onIfmonUpdate, ?_, ?_, rfl, rfl, rfl⟩
  · rw [hmsgs]
    exact addedIps_onIfmonUpdate f.prev curr
  · rw [hmsgs]
    exact removedIps_onIfmonUpdate f.prev curr

/-- An update that meets the condition: the sockets follow the new snapshot. -/
theorem Follows.step {latest curr : Snapshot} {f f' : Followed} {o : List IpAddr}
    (hf : Follows latest f) (hok : UpdateOk f curr) (h : followStep f curr = some (f', o)) :
    Follows curr f' := by
  obtain ⟨msgs, hgained, hlost, htable, hopened, hstanding⟩ := followStep_spec h
  obtain ⟨hgone, hpresent⟩ := hok
  have hadded : ∀ x, (addedIps msgs).count x = (gained f.prev curr).count x := fun x =>
    hgained.count_eq x
  have hone : ∀ x, f.table.addrs.count x ≤ 1 := List.nodup_iff_count_le_one.mp hf.nodup
  -- an address that no interface has: it can only lose its socket
  have haway : ∀ x, x ∉ curr.ips → (f.table.opensAll msgs).count x = 0 ∧
      (f.table.settle msgs).addrs.count x =
        f.table.addrs.count x - (lost f.prev curr).count x := by
    intro x hx
    have hnone : (addedIps msgs).count x = 0 := by
      rw [hadded, List.count_eq_zero]
      exact fun hmem => hx (mem_ips_of_gained hmem)
    have hle := f.table.count_opensAll_le msgs x
    exact ⟨by omega, by rw [f.table.count_settle_of_not_added hnone, hlost]⟩
  -- an address of the new snapshot: at most one socket, and one if it was or is opened
  have hhere : ∀ x ∈ curr.ips, (f.table.settle msgs).addrs.count x ≤ 1 ∧
      (x ∈ f.table.addrs ∧ x ∈ f.opened ∨ x ∈ f.table.opensAll msgs →
        x ∈ (f.table.settle msgs).addrs) := by
    intro x hx
    have hle := f.table.count_opensAll_le msgs x
    have hx₁ := hone x
    rw [hadded] at hle
    rcases hpresent with hstuck | hpresent
    · obtain ⟨hsettle, hopens⟩ := AddressTable.Stuck.settle_eq (hlost ▸ hstuck)
      rw [hsettle, hopens]
      refine ⟨hx₁, ?_⟩
      rintro (h | h)
      · exact h.1
      · exact absurd h (by simp)
    · rcases hpresent x hx with ⟨hg, hl⟩ | ⟨hg, hl, hnot⟩ | ⟨hg, hl, hmem, hroom⟩
      · have hcount := f.table.count_settle_of_not_added (x := x) (by rw [hadded]; exact hg)
        rw [hlost] at hcount
        refine ⟨by omega, ?_⟩
        rintro (⟨hmem, hop⟩ | hop)
        · have hpos := List.count_pos_iff.mpr hmem
          rcases hl with hl | hl | hl
          · exact List.count_pos_iff.mp (by omega)
          · exact absurd hmem hl
          · exact absurd hop hl
        · have hpos := List.count_pos_iff.mpr hop
          omega
      · have hcount := f.table.count_settle_of_not_removed (x := x) (by rw [hlost]; exact hl)
        have hzero := List.count_eq_zero_of_not_mem hnot
        refine ⟨by omega, ?_⟩
        rintro (⟨hmem, -⟩ | hop)
        · exact absurd hmem hnot
        · have hpos := List.count_pos_iff.mpr hop
          exact List.count_pos_iff.mp (by omega)
      -- what arrives is in another order than the condition names it, with the same counts
      · have hroom' : f.table.HasRoom (addedIps msgs) := by
          refine ⟨by rw [hgained.length_eq]; exact hroom.1, fun a ha y hy => ?_⟩
          refine hroom.2 a ?_ y (hgained.mem_iff.mp hy)
          rcases List.mem_append.mp ha with ha | ha
          · exact List.mem_append_left _ ha
          · exact List.mem_append_right _ (hgained.mem_iff.mp ha)
        have hpos := List.count_pos_iff.mpr hmem
        have hcount := hroom'.count_settle (x := x) (by omega) (by rw [hadded]; exact hg)
          (by rw [hlost]; exact hl)
        exact ⟨by omega, fun _ => List.count_pos_iff.mp (by omega)⟩
  refine ⟨?_, ?_, ?_, ?_⟩
  · rw [htable, List.nodup_iff_count_le_one]
    intro x
    by_cases hx : x ∈ curr.ips
    · exact (hhere x hx).1
    · have hx₁ := hone x
      have haway := (haway x hx).2
      omega
  · rw [htable]
    exact f.table.length_settle_le msgs hf.length_le
  · intro x hmem hop
    by_contra hx
    obtain ⟨hnot, hcount⟩ := haway x hx
    rw [htable] at hmem
    rw [hopened, List.mem_append] at hop
    have hpos := List.count_pos_iff.mpr hmem
    rcases hop with hop | hop
    · have hx₁ := hone x
      have hlostx : 0 < (lost f.prev curr).count x :=
        List.count_pos_iff.mpr (hgone x (List.count_pos_iff.mp (by omega)) hop hx)
      omega
    · have := List.count_pos_iff.mpr hop
      omega
  · intro x hx
    rw [hstanding, List.mem_filter, decide_eq_true_eq, List.mem_append] at hx
    obtain ⟨hor, hx⟩ := hx
    rw [htable, hopened, List.mem_append]
    rcases hor with hst | hop
    · exact ⟨(hhere x hx).2 (Or.inl (hf.standing x hst)), Or.inl (hf.standing x hst).2⟩
    · exact ⟨(hhere x hx).2 (Or.inr hop), Or.inr hop⟩

/-! ## Snapshots and ticks in any order -/

/-- `socket` and `bind` succeed at every message of a tick. -/
def SocketLabel.Succeeds : SocketLabel → Prop
  | .snapshot _ => True
  | .tick io => ∀ n, ∃ fd, io n = some fd

/-- The snapshots among the labels. -/
def snapshots (labels : List SocketLabel) : List Snapshot :=
  labels.filterMap fun l => match l with
    | .snapshot curr => some curr
    | .tick _ => none

/-- The pipeline and `Followed`: they agree once the pipe is emptied. -/
structure Settles (s : SocketState) (effects : List SocketEffect) (f : Followed) : Prop where
  prev : f.prev = s.prev
  table : f.table = s.table.addresses.settle s.queue
  opened : f.opened =
    effects.filterMap SocketEffect.openedIp ++ s.table.addresses.opensAll s.queue

/-- Whenever the pipe is empty, the pipeline has done what `Followed` does. -/
theorem followed_run (first : Snapshot) (t : SocketTable) :
    ∀ labels s effects, run socketStep ⟨first, [], t⟩ labels = some (s, effects) →
      (∀ l ∈ labels, l.Succeeds) →
      ∃ f o, run followStep (Followed.start first t) (snapshots labels) = some (f, o) ∧
        Settles s effects f := by
  -- snapshots move on what is followed; ticks only work off the queue
  refine run_induction socketStep
    (P := fun labels s effects => (∀ l ∈ labels, l.Succeeds) →
      ∃ f o, run followStep (Followed.start first t) (snapshots labels) = some (f, o) ∧
        Settles s effects f) ?_ ?_
  · exact fun _ => ⟨_, _, rfl, rfl, rfl, rfl⟩
  · intro labels s effects l s' effects' _ ih hstep hio
    obtain ⟨f, o, hrun, hsettles⟩ := ih fun l hl => hio l (List.mem_append_left _ hl)
    cases l with
    | snapshot curr =>
      simp only [socketStep, Option.map_eq_some_iff, Prod.mk.injEq] at hstep
      obtain ⟨⟨prev', ups⟩, hwatch, rfl, rfl⟩ := hstep
      have hfollow : followStep f curr =
          some (f.after curr prev' (ups.flatMap onIfmonUpdate),
            f.table.opensAll (ups.flatMap onIfmonUpdate)) := by
        rw [followStep, hsettles.prev, hwatch, Option.map_some]
      have hsnaps : snapshots (labels ++ [.snapshot curr]) = snapshots labels ++ [curr] := by
        simp [snapshots]
      rw [hsnaps]
      refine ⟨_, _, run_concat.mpr ⟨f, o, _, hrun, hfollow, rfl⟩, rfl, ?_, ?_⟩
      · rw [AddressTable.settle_append, ← hsettles.table]
        rfl
      · rw [Followed.after, List.append_nil, AddressTable.opensAll_append, ← hsettles.table,
          ← List.append_assoc,
          ← hsettles.opened]
    | tick io =>
      simp only [socketStep, Option.some.injEq, Prod.mk.injEq] at hstep
      obtain ⟨rfl, rfl⟩ := hstep
      have hsnaps : snapshots (labels ++ [.tick io]) = snapshots labels := by simp [snapshots]
      obtain ⟨htable, hopens⟩ := s.table.drain_addresses
        (hio (.tick io) (List.mem_append_right _ List.mem_cons_self)) s.queue
      rw [hsnaps]
      refine ⟨f, o, hrun, hsettles.prev, ?_, ?_⟩
      · rw [AddressTable.settle_nil, htable]
        exact hsettles.table
      · rw [List.filterMap_append, hopens, AddressTable.opensAll, List.append_nil]
        exact hsettles.opened

/-- The sockets stay within their array. -/
theorem length_socks_le {first : Snapshot} {t : SocketTable} {labels : List SocketLabel}
    {s : SocketState} {effects : List SocketEffect}
    (hcount : t.socks.length ≤ TRANSPORT_MAX_PATHS)
    (hrun : run socketStep ⟨first, [], t⟩ labels = some (s, effects)) :
    s.table.socks.length ≤ TRANSPORT_MAX_PATHS := by
  refine invariant (I := fun s => s.table.socks.length ≤ TRANSPORT_MAX_PATHS)
    hcount ?_ labels s effects hrun
  intro s l s' effects hs hstep
  cases l with
  | snapshot curr =>
    simp only [socketStep, Option.map_eq_some_iff, Prod.mk.injEq] at hstep
    obtain ⟨r, -, rfl, -⟩ := hstep
    exact hs
  | tick io =>
    simp only [socketStep, Option.some.injEq, Prod.mk.injEq] at hstep
    rw [← hstep.1]
    exact s.table.length_drain_le io s.queue hs

/-- In a run whose updates all meet the condition, the sockets follow the interfaces in every
state with an empty pipe, and there are never more than four of them. -/
theorem sockets_follow (first : Snapshot) (t : SocketTable) (labels : List SocketLabel)
    (hdistinct : t.addresses.addrs.Nodup) (hcount : t.socks.length ≤ TRANSPORT_MAX_PATHS)
    (hio : ∀ l ∈ labels, l.Succeeds)
    (hok : Along followStep UpdateOk (Followed.start first t) (snapshots labels))
    {s : SocketState} {effects : List SocketEffect}
    (hrun : run socketStep ⟨first, [], t⟩ labels = some (s, effects)) :
    s.table.socks.length ≤ TRANSPORT_MAX_PATHS ∧
      (s.queue = [] →
        ∃ f o, run followStep (Followed.start first t) (snapshots labels) = some (f, o) ∧
          (∀ x ∈ s.table.addresses.addrs, x ∈ effects.filterMap SocketEffect.openedIp →
            x ∈ ((snapshots labels).getLastD first).ips) ∧
          (∀ x ∈ f.standing, x ∈ s.table.addresses.addrs) ∧
          s.table.addresses.addrs.Nodup) := by
  refine ⟨length_socks_le hcount hrun, ?_⟩
  · intro hempty
    obtain ⟨f, o, hfollow, hsettles⟩ := followed_run first t labels s effects hrun hio
    have hinit : Follows first (Followed.start first t) :=
      ⟨hdistinct, by simpa [Followed.start, SocketTable.addresses] using hcount,
        fun x _ hx => absurd hx (by simp [Followed.start]),
        fun x hx => absurd hx (by simp [Followed.start])⟩
    have hfollows := run_induction_along followStep
      (P := fun snaps f _ => Follows (snaps.getLastD first) f) hinit
      (fun snaps f o curr f' o' _ hf hok hstep => by
        rw [show (snaps ++ [curr]).getLastD first = curr by simp]
        exact hf.step hok hstep) (snapshots labels) f o hok hfollow
    have htable : f.table = s.table.addresses := by rw [hsettles.table, hempty]; rfl
    have hopened : f.opened = effects.filterMap SocketEffect.openedIp := by
      rw [hsettles.opened, hempty]
      exact List.append_nil _
    refine ⟨f, o, hfollow, ?_, ?_, ?_⟩
    · rw [← htable, ← hopened]
      exact hfollows.present
    · rw [← htable]
      exact fun x hx => (hfollows.standing x hx).1
    · rw [← htable]
      exact hfollows.nodup

/-! ## An update that is followed, and one that is not -/

/-- A snapshot without interfaces. -/
def noInterfaces : Snapshot := ⟨[], by decide, by decide, by decide, by decide⟩

/-- A snapshot with one interface that has one IPv4 address. -/
def oneInterface (addr : UInt32) (prefixLen : UInt8) : Snapshot where
  ifaces := [⟨2, [], [⟨.v4 addr, prefixLen⟩]⟩]
  count_le := by simp [IFMON_MAX_INTERFACES]
  nodup_index := by simp
  addrCount_le := by simp [IFMON_MAX_IPS_PER_IFACE]
  nodup_addrs := by simp

/-- A client bound to 10.0.0.1. -/
def boundClient : SocketTable := ⟨false, [⟨3, .inet 0x0A000001 0⟩], .inet 0x0A000001 0, []⟩

/-- 10.0.1.1 appears and its prefix changes: its socket is there, once. -/
theorem sockets_follow_prefixChange :
    ∃ s effects, run socketStep ⟨noInterfaces, [], boundClient⟩
        [.snapshot (oneInterface 0x0A000101 24), .tick some,
          .snapshot (oneInterface 0x0A000101 16), .tick some] = some (s, effects) ∧
      (.v4 0x0A000101) ∈ s.table.addresses.addrs ∧ s.table.addresses.addrs.Nodup := by
  have h := sockets_follow noInterfaces boundClient
    [.snapshot (oneInterface 0x0A000101 24), .tick some,
      .snapshot (oneInterface 0x0A000101 16), .tick some]
    (by decide) (by decide) (by simp [SocketLabel.Succeeds]) (by decide) rfl
  obtain ⟨f, o, -, -, -, hnodup⟩ := h.2 rfl
  exact ⟨_, _, rfl, by decide, hnodup⟩

/-- 10.0.1.1 goes away with its interface: its socket stays. -/
theorem removedInterface_keeps_socket :
    ∃ s effects, run socketStep ⟨noInterfaces, [], boundClient⟩
        [.snapshot (oneInterface 0x0A000101 24), .tick some, .snapshot noInterfaces,
          .tick some] = some (s, effects) ∧
      s.queue = [] ∧
      ¬∀ x ∈ s.table.addresses.addrs, x ∈ effects.filterMap SocketEffect.openedIp →
        x ∈ noInterfaces.ips :=
  ⟨_, _, rfl, rfl, by decide⟩

end Bishlink
