import Bishlink.State
import Bishlink.Lib.FixedArray
import Mathlib.Data.Finset.Basic
import Mathlib.Data.List.Nodup

/-!
# Interface snapshots and their differences

`ifmon_list_t`, `ifmon_update_t`, `generate_update`, and the loop of the watcher thread
around it. A snapshot has at most 16 interfaces, each with an index of its own and at most
16 different addresses.
-/

namespace Bishlink

open FixedArray

/-- `IFMON_MAX_INTERFACES`. -/
def IFMON_MAX_INTERFACES : ℕ := 16

/-- `IFMON_MAX_IPS_PER_IFACE`. -/
def IFMON_MAX_IPS_PER_IFACE : ℕ := 16

/-! ## Snapshots -/

/-- `family` and `ip` of an `ifmon_addr_t`; an IPv4 address is the value `ntohl` gives. -/
inductive IpAddr where
  | v4 (addr : UInt32)
  | v6 (addr : Bytes)
deriving DecidableEq

/-- `ifmon_addr_t`. -/
structure IfmonAddr where
  ip : IpAddr
  prefixLen : UInt8
deriving DecidableEq

/-- `ifmon_iface_t`; `addrs` is `addrs[0 .. addr_count)`, `hwAddr` the string. -/
structure IfmonIface where
  index : UInt32
  hwAddr : Bytes
  addrs : List IfmonAddr
deriving DecidableEq

/-- The interfaces of an `ifmon_list_t` as the watcher takes it. -/
structure Snapshot where
  ifaces : List IfmonIface
  count_le : ifaces.length ≤ IFMON_MAX_INTERFACES
  nodup_index : (ifaces.map (·.index)).Nodup
  addrCount_le : ∀ f ∈ ifaces, f.addrs.length ≤ IFMON_MAX_IPS_PER_IFACE
  nodup_addrs : ∀ f ∈ ifaces, f.addrs.Nodup

/-- The first interface with an index. -/
def findIface (ifaces : List IfmonIface) (index : UInt32) : Option IfmonIface :=
  ifaces.find? (·.index == index)

theorem index_of_findIface {ifaces : List IfmonIface} {index : UInt32} {f : IfmonIface}
    (h : findIface ifaces index = some f) : f ∈ ifaces ∧ f.index = index :=
  ⟨List.mem_of_find?_eq_some h, by simpa using List.find?_some h⟩

theorem findIface_eq_none {ifaces : List IfmonIface} {index : UInt32} :
    findIface ifaces index = none ↔ ∀ f ∈ ifaces, f.index ≠ index := by
  simp [findIface]

/-- The interfaces of a snapshot are found by their index. -/
theorem Snapshot.findIface_of_mem (s : Snapshot) {f : IfmonIface} (h : f ∈ s.ifaces) :
    findIface s.ifaces f.index = some f := by
  cases hfind : findIface s.ifaces f.index with
  | none => exact absurd rfl (findIface_eq_none.mp hfind f h)
  | some g =>
    obtain ⟨hmem, hindex⟩ := index_of_findIface hfind
    rw [List.inj_on_of_nodup_map s.nodup_index hmem h hindex]

/-! ## Differences -/

/-- `ifmon_iface_diff_t`. -/
structure IfmonIfaceDiff where
  index : UInt32
  hwAddrChanged : Bool
  addrsAdded : List IfmonAddr
  addrsRemoved : List IfmonAddr
deriving DecidableEq

/-- `ifmon_update_t`. -/
structure IfmonUpdate where
  isInitial : Bool
  interfaces : List IfmonIface
  added : List UInt32
  removed : List UInt32
  modified : List IfmonIfaceDiff
deriving DecidableEq

/-- The comparison in the inner loops of `generate_update`. -/
def sameAddr (ca pa : IfmonAddr) : Bool :=
  match ca.ip, pa.ip with
  | .v4 c, .v4 p => ca.prefixLen == pa.prefixLen && c == p
  | .v6 c, .v6 p => ca.prefixLen == pa.prefixLen && c == p
  | _, _ => false

theorem sameAddr_iff {ca pa : IfmonAddr} : sameAddr ca pa = true ↔ ca = pa := by
  obtain ⟨cip, clen⟩ := ca
  obtain ⟨pip, plen⟩ := pa
  cases cip <;> cases pip <;> simp [sameAddr, and_comm]

theorem any_sameAddr_left {a : IfmonAddr} {as : List IfmonAddr} :
    (as.any fun pa => sameAddr a pa) = true ↔ a ∈ as := by
  simp only [List.any_eq_true, sameAddr_iff]
  exact ⟨fun ⟨_, hmem, h⟩ => h ▸ hmem, fun h => ⟨a, h, rfl⟩⟩

theorem any_sameAddr_right {a : IfmonAddr} {as : List IfmonAddr} :
    (as.any fun ca => sameAddr ca a) = true ↔ a ∈ as := by
  simp only [List.any_eq_true, sameAddr_iff, exists_eq_right]

/-- The addresses of the current interface that the previous one lacks. -/
def addrsAdded (prevIf currIf : IfmonIface) : List IfmonAddr :=
  currIf.addrs.foldl (fun added ca =>
    if !prevIf.addrs.any fun pa => sameAddr ca pa then
      push IFMON_MAX_IPS_PER_IFACE added ca
    else added) []

/-- The addresses of the previous interface that the current one lacks. -/
def addrsRemoved (prevIf currIf : IfmonIface) : List IfmonAddr :=
  prevIf.addrs.foldl (fun removed pa =>
    if !currIf.addrs.any fun ca => sameAddr ca pa then
      push IFMON_MAX_IPS_PER_IFACE removed pa
    else removed) []

/-- What `generate_update` records about an interface that both lists have. -/
def ifaceDiff (prevIf currIf : IfmonIface) : IfmonIfaceDiff where
  index := currIf.index
  hwAddrChanged := prevIf.hwAddr != currIf.hwAddr
  addrsAdded := addrsAdded prevIf currIf
  addrsRemoved := addrsRemoved prevIf currIf

/-- `hw_changed || addrs_added_count > 0 || addrs_removed_count > 0`. -/
def IfmonIfaceDiff.changed (d : IfmonIfaceDiff) : Bool :=
  d.hwAddrChanged || !d.addrsAdded.isEmpty || !d.addrsRemoved.isEmpty

/-- The first loop of `generate_update`, for one current interface. -/
def compareIface (prev : List IfmonIface) (up : IfmonUpdate) (currIf : IfmonIface) :
    IfmonUpdate :=
  match findIface prev currIf.index with
  | none => { up with added := push IFMON_MAX_INTERFACES up.added currIf.index }
  | some prevIf =>
    if (ifaceDiff prevIf currIf).changed then
      { up with modified := push IFMON_MAX_INTERFACES up.modified (ifaceDiff prevIf currIf) }
    else up

/-- The second loop of `generate_update`, for one previous interface. -/
def checkRemoved (curr : List IfmonIface) (up : IfmonUpdate) (prevIf : IfmonIface) :
    IfmonUpdate :=
  if curr.any (·.index == prevIf.index) then up
  else { up with removed := push IFMON_MAX_INTERFACES up.removed prevIf.index }

/-- `generate_update`. -/
def generateUpdate (prev curr : List IfmonIface) (isInitial : Bool) : IfmonUpdate :=
  let up : IfmonUpdate :=
    { isInitial := isInitial, interfaces := curr, added := [], removed := [], modified := [] }
  if isInitial then up
  else prev.foldl (checkRemoved curr) (curr.foldl (compareIface prev) up)

/-- `added_count > 0 || removed_count > 0 || modified_count > 0`. -/
def IfmonUpdate.nonempty (up : IfmonUpdate) : Bool :=
  !up.added.isEmpty || !up.removed.isEmpty || !up.modified.isEmpty

/-- The loop of `watcher_thread_func`, for one event at which `ifmon_list_get` succeeds: the
new `prev_list` and the update passed to the callback. -/
def watcherStep (prev curr : Snapshot) : Option (Snapshot × List IfmonUpdate) :=
  let up := generateUpdate prev.ifaces curr.ifaces false
  if up.nonempty then some (curr, [up]) else some (prev, [])

/-- The update that `ifmon_watch_start` passes to the callback. -/
def initialUpdate (first : Snapshot) : IfmonUpdate := generateUpdate [] first.ifaces true

/-! ## What the difference records -/

theorem addrsAdded_eq {prevIf currIf : IfmonIface}
    (h : currIf.addrs.length ≤ IFMON_MAX_IPS_PER_IFACE) :
    addrsAdded prevIf currIf = currIf.addrs.filter fun a => a ∉ prevIf.addrs := by
  have hfit := (List.length_filter_le
    (fun ca => !prevIf.addrs.any fun pa => sameAddr ca pa) currIf.addrs).trans h
  rw [addrsAdded, foldl_push_filter, pushAll_eq (by simpa using hfit), List.nil_append]
  apply List.filter_congr
  intro a _
  rw [Bool.eq_iff_iff, Bool.not_eq_true', ← Bool.not_eq_true, any_sameAddr_left, decide_eq_true_eq]

theorem addrsRemoved_eq {prevIf currIf : IfmonIface}
    (h : prevIf.addrs.length ≤ IFMON_MAX_IPS_PER_IFACE) :
    addrsRemoved prevIf currIf = prevIf.addrs.filter fun a => a ∉ currIf.addrs := by
  have hfit := (List.length_filter_le
    (fun pa => !currIf.addrs.any fun ca => sameAddr ca pa) prevIf.addrs).trans h
  rw [addrsRemoved, foldl_push_filter, pushAll_eq (by simpa using hfit), List.nil_append]
  apply List.filter_congr
  intro a _
  rw [Bool.eq_iff_iff, Bool.not_eq_true', ← Bool.not_eq_true, any_sameAddr_right,
    decide_eq_true_eq]

theorem mem_addrsAdded {prevIf currIf : IfmonIface}
    (h : currIf.addrs.length ≤ IFMON_MAX_IPS_PER_IFACE) {a : IfmonAddr} :
    a ∈ addrsAdded prevIf currIf ↔ a ∈ currIf.addrs ∧ a ∉ prevIf.addrs := by
  rw [addrsAdded_eq h, List.mem_filter, decide_eq_true_eq]

theorem mem_addrsRemoved {prevIf currIf : IfmonIface}
    (h : prevIf.addrs.length ≤ IFMON_MAX_IPS_PER_IFACE) {a : IfmonAddr} :
    a ∈ addrsRemoved prevIf currIf ↔ a ∈ prevIf.addrs ∧ a ∉ currIf.addrs := by
  rw [addrsRemoved_eq h, List.mem_filter, decide_eq_true_eq]

/-- The difference that is kept for a current interface. -/
def changedDiff (prev : List IfmonIface) (currIf : IfmonIface) : Option IfmonIfaceDiff :=
  (findIface prev currIf.index).bind fun prevIf =>
    if (ifaceDiff prevIf currIf).changed then some (ifaceDiff prevIf currIf) else none

/-- The first loop: the new indices and the changed interfaces, as far as they fit. -/
theorem foldl_compareIface (prev curr : List IfmonIface) (up : IfmonUpdate) :
    curr.foldl (compareIface prev) up =
      { up with
        added := pushAll IFMON_MAX_INTERFACES up.added
          ((curr.map (·.index)).filter fun i => (findIface prev i).isNone)
        modified := pushAll IFMON_MAX_INTERFACES up.modified
          (curr.filterMap (changedDiff prev)) } := by
  induction curr generalizing up with
  | nil => rfl
  | cons f curr ih =>
    rw [List.foldl_cons, ih, List.map_cons, List.filter_cons, List.filterMap_cons,
      compareIface, changedDiff]
    cases hfind : findIface prev f.index with
    | none => rfl
    | some g =>
      by_cases hchanged : (ifaceDiff g f).changed
      · simp [hchanged, pushAll_cons]
      · simp [hchanged]

/-- The second loop: the indices that are gone, as far as they fit. -/
theorem foldl_checkRemoved (prev curr : List IfmonIface) (up : IfmonUpdate) :
    prev.foldl (checkRemoved curr) up =
      { up with
        removed := pushAll IFMON_MAX_INTERFACES up.removed
          ((prev.map (·.index)).filter fun i => (findIface curr i).isNone) } := by
  induction prev generalizing up with
  | nil => rfl
  | cons f prev ih =>
    have hfind : (findIface curr f.index).isNone = !curr.any (·.index == f.index) := by
      rw [findIface, List.any_eq_not_all_not, Bool.not_not, Bool.eq_iff_iff]
      simp
    rw [List.foldl_cons, ih, List.map_cons, List.filter_cons, checkRemoved, hfind]
    by_cases hany : curr.any (·.index == f.index)
    · simp [hany]
    · simp [hany, pushAll_cons]

/-- The difference of two snapshots: nothing is cut off. -/
theorem generateUpdate_eq (prev curr : Snapshot) :
    generateUpdate prev.ifaces curr.ifaces false =
      { isInitial := false
        interfaces := curr.ifaces
        added := (curr.ifaces.map (·.index)).filter fun i => (findIface prev.ifaces i).isNone
        removed := (prev.ifaces.map (·.index)).filter fun i => (findIface curr.ifaces i).isNone
        modified := curr.ifaces.filterMap (changedDiff prev.ifaces) } := by
  have hcurr := curr.count_le
  have hprev := prev.count_le
  have hadded := (List.length_filter_le (fun i => (findIface prev.ifaces i).isNone)
    (curr.ifaces.map (·.index))).trans_eq (List.length_map _)
  have hremoved := (List.length_filter_le (fun i => (findIface curr.ifaces i).isNone)
    (prev.ifaces.map (·.index))).trans_eq (List.length_map _)
  have hmodified := List.length_filterMap_le (changedDiff prev.ifaces) curr.ifaces
  rw [generateUpdate, if_neg (by decide), foldl_compareIface, foldl_checkRemoved,
    pushAll_eq (by simp only [List.length_nil]; omega),
    pushAll_eq (by simp only [List.length_nil]; omega),
    pushAll_eq (by simp only [List.length_nil]; omega)]
  rfl

end Bishlink
