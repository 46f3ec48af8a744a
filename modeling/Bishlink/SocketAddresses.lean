import Bishlink.Sockets
import Bishlink.InterfaceReplay

/-!
# The addresses that have sockets

`AddressTable` is the socket table without descriptors and ports: a list of addresses to
which a message adds one, or from which it takes the first that is equal. `settle` handles a
list of messages; how often an address is in the table afterwards is counted.

* `drain_addresses`: when `socket` and `bind` succeed, the ifmon loop does to the socket
  table what `settle` does to its addresses;
* `addedIps_onIfmonUpdate`, `removedIps_onIfmonUpdate`: the messages of an update report the
  addresses that the interfaces of the new snapshot gained and lost.
-/

namespace Bishlink

/-! ## Tables of addresses -/

/-- The addresses in the order of their sockets; `last` is the one that a full round of
removals leaves behind. -/
structure AddressTable where
  addrs : List IpAddr
  last : IpAddr
deriving DecidableEq

namespace AddressTable

/-- The address that new ones are checked against. -/
def bound (t : AddressTable) : IpAddr := t.addrs.head?.getD t.last

def accepts (t : AddressTable) (ip : IpAddr) : Bool :=
  decide (t.addrs.length < TRANSPORT_MAX_PATHS) && lowOctetMatches t.bound ip

/-- One message. -/
def handle (t : AddressTable) (msg : IfmonPipeMsg) : AddressTable :=
  if msg.isAdded then
    if t.accepts msg.ip then { t with addrs := t.addrs ++ [msg.ip] } else t
  else if msg.ip ∈ t.addrs then ⟨t.addrs.erase msg.ip, msg.ip⟩ else t

/-- The address that a message opens. -/
def opens (t : AddressTable) (msg : IfmonPipeMsg) : List IpAddr :=
  if msg.isAdded ∧ t.accepts msg.ip then [msg.ip] else []

/-- All messages, in order. -/
def settle (t : AddressTable) (msgs : List IfmonPipeMsg) : AddressTable := msgs.foldl handle t

/-- The addresses that the messages open. -/
def opensAll : AddressTable → List IfmonPipeMsg → List IpAddr
  | _, [] => []
  | t, msg :: msgs => t.opens msg ++ opensAll (t.handle msg) msgs

@[simp] theorem settle_nil (t : AddressTable) : t.settle [] = t := rfl

theorem settle_cons (t : AddressTable) (msg : IfmonPipeMsg) (msgs : List IfmonPipeMsg) :
    t.settle (msg :: msgs) = (t.handle msg).settle msgs := rfl

theorem settle_append (t : AddressTable) (msgs msgs' : List IfmonPipeMsg) :
    t.settle (msgs ++ msgs') = (t.settle msgs).settle msgs' :=
  List.foldl_append

theorem opensAll_append (t : AddressTable) (msgs msgs' : List IfmonPipeMsg) :
    t.opensAll (msgs ++ msgs') = t.opensAll msgs ++ (t.settle msgs).opensAll msgs' := by
  induction msgs generalizing t with
  | nil => rfl
  | cons msg msgs ih =>
    rw [List.cons_append, opensAll, opensAll, ih, List.append_assoc, settle_cons]

end AddressTable

/-! ## Counting an address -/

/-- The addresses that messages report added. -/
def addedIps (msgs : List IfmonPipeMsg) : List IpAddr :=
  (msgs.filter fun m => m.isAdded).map (·.ip)

/-- The addresses that messages report removed. -/
def removedIps (msgs : List IfmonPipeMsg) : List IpAddr :=
  (msgs.filter fun m => !m.isAdded).map (·.ip)

theorem addedIps_cons (msg : IfmonPipeMsg) (msgs : List IfmonPipeMsg) :
    addedIps (msg :: msgs) = (if msg.isAdded then [msg.ip] else []) ++ addedIps msgs := by
  cases hadded : msg.isAdded <;> simp [addedIps, hadded]

theorem addedIps_append (msgs msgs' : List IfmonPipeMsg) :
    addedIps (msgs ++ msgs') = addedIps msgs ++ addedIps msgs' := by
  simp [addedIps]

theorem removedIps_append (msgs msgs' : List IfmonPipeMsg) :
    removedIps (msgs ++ msgs') = removedIps msgs ++ removedIps msgs' := by
  simp [removedIps]

theorem count_addedIps_cons (msg : IfmonPipeMsg) (msgs : List IfmonPipeMsg) (x : IpAddr) :
    (addedIps (msg :: msgs)).count x =
      (addedIps msgs).count x + if msg.isAdded = true ∧ msg.ip = x then 1 else 0 := by
  cases hadded : msg.isAdded <;> simp [addedIps, hadded, List.count_cons]

theorem count_removedIps_cons (msg : IfmonPipeMsg) (msgs : List IfmonPipeMsg) (x : IpAddr) :
    (removedIps (msg :: msgs)).count x =
      (removedIps msgs).count x + if msg.isAdded = false ∧ msg.ip = x then 1 else 0 := by
  cases hadded : msg.isAdded <;> simp [removedIps, hadded, List.count_cons]

namespace AddressTable

/-- One message, counted: it opens the address, or takes one of its sockets away. -/
theorem count_handle (t : AddressTable) (msg : IfmonPipeMsg) (x : IpAddr) :
    (t.handle msg).addrs.count x =
      t.addrs.count x + (t.opens msg).count x -
        if msg.isAdded = false ∧ msg.ip = x then 1 else 0 := by
  unfold handle opens
  by_cases hadded : msg.isAdded = true
  · rw [if_pos hadded]
    by_cases haccept : t.accepts msg.ip = true
    · rw [if_pos haccept, if_pos ⟨hadded, haccept⟩, if_neg (by simp [hadded]), List.count_append]
      rfl
    · rw [if_neg haccept, if_neg (fun h => haccept h.2), if_neg (by simp [hadded])]
      simp
  · have hopens : ¬(msg.isAdded = true ∧ t.accepts msg.ip = true) := fun h => hadded h.1
    rw [if_neg hadded, if_neg hopens, List.count_nil, Nat.add_zero]
    rw [Bool.not_eq_true] at hadded
    by_cases hmem : msg.ip ∈ t.addrs
    · rw [if_pos hmem]
      by_cases hx : msg.ip = x
      · subst hx
        rw [if_pos ⟨hadded, rfl⟩, List.count_erase_self]
      · rw [if_neg (fun h => hx h.2), List.count_erase_of_ne (fun h => hx h.symm), Nat.sub_zero]
    · rw [if_neg hmem]
      by_cases hx : msg.ip = x
      · subst hx
        rw [List.count_eq_zero_of_not_mem hmem, Nat.zero_sub]
      · rw [if_neg (fun h => hx h.2), Nat.sub_zero]

theorem count_opens_le (t : AddressTable) (msg : IfmonPipeMsg) (x : IpAddr) :
    (t.opens msg).count x ≤ if msg.isAdded = true ∧ msg.ip = x then 1 else 0 := by
  unfold opens
  split
  · next h =>
    by_cases hx : msg.ip = x
    · rw [if_pos ⟨h.1, hx⟩, hx, List.count_singleton_self]
    · rw [List.count_singleton, if_neg (by simpa using hx)]
      omega
  · simp

theorem count_opensAll_le (t : AddressTable) (msgs : List IfmonPipeMsg) (x : IpAddr) :
    (t.opensAll msgs).count x ≤ (addedIps msgs).count x := by
  induction msgs generalizing t with
  | nil => simp [opensAll]
  | cons msg msgs ih =>
    have hfirst := t.count_opens_le msg x
    have hrest := ih (t.handle msg)
    rw [opensAll, List.count_append, count_addedIps_cons]
    omega

/-- An address that no message reports added loses a socket with each report of removal. -/
theorem count_settle_of_not_added (t : AddressTable) {msgs : List IfmonPipeMsg} {x : IpAddr}
    (h : (addedIps msgs).count x = 0) :
    (t.settle msgs).addrs.count x = t.addrs.count x - (removedIps msgs).count x := by
  induction msgs generalizing t with
  | nil => simp [removedIps]
  | cons msg msgs ih =>
    rw [count_addedIps_cons] at h
    have hopens := t.count_opens_le msg x
    rw [settle_cons, ih (t.handle msg) (by omega), count_handle, count_removedIps_cons]
    omega

/-- An address that no message reports removed gains a socket whenever it is opened. -/
theorem count_settle_of_not_removed (t : AddressTable) {msgs : List IfmonPipeMsg} {x : IpAddr}
    (h : (removedIps msgs).count x = 0) :
    (t.settle msgs).addrs.count x = t.addrs.count x + (t.opensAll msgs).count x := by
  induction msgs generalizing t with
  | nil => simp [opensAll]
  | cons msg msgs ih =>
    rw [count_removedIps_cons] at h
    rw [settle_cons, ih (t.handle msg) (by omega), count_handle, opensAll, List.count_append]
    omega

theorem length_handle_le (t : AddressTable) (msg : IfmonPipeMsg)
    (h : t.addrs.length ≤ TRANSPORT_MAX_PATHS) :
    (t.handle msg).addrs.length ≤ TRANSPORT_MAX_PATHS := by
  unfold handle
  split
  · split
    · next haccept =>
      simp only [accepts, Bool.and_eq_true, decide_eq_true_eq] at haccept
      simp only [List.length_append, List.length_singleton]
      omega
    · exact h
  · split
    · exact (List.length_erase_le).trans h
    · exact h

/-- No more than four addresses have sockets. -/
theorem length_settle_le (t : AddressTable) (msgs : List IfmonPipeMsg)
    (h : t.addrs.length ≤ TRANSPORT_MAX_PATHS) :
    (t.settle msgs).addrs.length ≤ TRANSPORT_MAX_PATHS := by
  induction msgs generalizing t with
  | nil => exact h
  | cons msg msgs ih => exact ih (t.handle msg) (t.length_handle_le msg h)

/-! ## Updates that fit, and updates of a full table -/

/-- The table has room for all the new addresses, and whichever address comes first, they
pass the check against it. -/
def HasRoom (t : AddressTable) (new : List IpAddr) : Prop :=
  t.addrs.length + new.length ≤ TRANSPORT_MAX_PATHS ∧
    ∀ a ∈ t.last :: t.addrs ++ new, ∀ x ∈ new, lowOctetMatches a x = true

theorem bound_mem (t : AddressTable) : t.bound ∈ t.last :: t.addrs := by
  unfold bound
  cases haddrs : t.addrs with
  | nil => simp
  | cons a as => simp

theorem mem_handle {t : AddressTable} {msg : IfmonPipeMsg} {a : IpAddr}
    (h : a ∈ (t.handle msg).last :: (t.handle msg).addrs) :
    a ∈ t.last :: t.addrs ∨ (msg.isAdded = true ∧ a = msg.ip) := by
  unfold handle at h
  split at h
  · next hadded =>
    split at h
    · simp only [List.mem_cons, List.mem_append, List.not_mem_nil, or_false] at h ⊢
      tauto
    · exact Or.inl h
  · split at h
    · next hmem =>
      left
      rcases List.mem_cons.mp h with rfl | h
      · exact List.mem_cons_of_mem _ hmem
      · exact List.mem_cons_of_mem _ (List.mem_of_mem_erase h)
    · exact Or.inl h

theorem HasRoom.accepts {t : AddressTable} {msg : IfmonPipeMsg} {msgs : List IfmonPipeMsg}
    (h : t.HasRoom (addedIps (msg :: msgs))) (hadded : msg.isAdded = true) :
    t.accepts msg.ip = true := by
  obtain ⟨hlen, hoctet⟩ := h
  rw [addedIps_cons, if_pos hadded, List.singleton_append] at hlen hoctet
  rw [List.length_cons] at hlen
  rw [AddressTable.accepts, Bool.and_eq_true, decide_eq_true_eq]
  refine ⟨by omega, ?_⟩
  apply hoctet _ _ msg.ip List.mem_cons_self
  exact List.mem_append_left _ t.bound_mem

theorem HasRoom.handle {t : AddressTable} {msg : IfmonPipeMsg} {msgs : List IfmonPipeMsg}
    (h : t.HasRoom (addedIps (msg :: msgs))) : (t.handle msg).HasRoom (addedIps msgs) := by
  obtain ⟨hlen, hoctet⟩ := h
  rw [addedIps_cons] at hlen hoctet
  constructor
  · unfold AddressTable.handle
    split
    · next hadded =>
      rw [if_pos hadded, List.singleton_append, List.length_cons] at hlen
      split
      · simp only [List.length_append, List.length_singleton]
        omega
      · omega
    · next hadded =>
      rw [if_neg hadded, List.nil_append] at hlen
      split
      · have herase : (t.addrs.erase msg.ip).length ≤ t.addrs.length := List.length_erase_le
        exact (Nat.add_le_add_right herase _).trans hlen
      · exact hlen
  · intro a ha x hx
    apply hoctet a _ x (List.mem_append_right _ hx)
    rcases List.mem_append.mp ha with ha | ha
    · rcases mem_handle ha with ha | ⟨hadded, rfl⟩
      · exact List.mem_append_left _ ha
      · exact List.mem_append_right _ (by simp [hadded])
    · exact List.mem_append_right _ (List.mem_append_right _ ha)

/-- With room, everything reported added is opened. -/
theorem HasRoom.count_opensAll {t : AddressTable} {msgs : List IfmonPipeMsg}
    (h : t.HasRoom (addedIps msgs)) (x : IpAddr) :
    (t.opensAll msgs).count x = (addedIps msgs).count x := by
  induction msgs generalizing t with
  | nil => rfl
  | cons msg msgs ih =>
    rw [opensAll, List.count_append, ih h.handle, count_addedIps_cons, Nat.add_comm]
    congr 1
    unfold opens
    by_cases hadded : msg.isAdded = true
    · rw [if_pos ⟨hadded, h.accepts hadded⟩, List.count_singleton]
      simp [hadded]
    · rw [if_neg (fun h => hadded h.1), if_neg (fun h => hadded h.1), List.count_nil]

/-- With room, an address that has a socket and is reported added and removed, in either
order, has one socket afterwards. -/
theorem HasRoom.count_settle {t : AddressTable} {msgs : List IfmonPipeMsg}
    (h : t.HasRoom (addedIps msgs)) {x : IpAddr} (hcount : t.addrs.count x = 1)
    (hadded : (addedIps msgs).count x = 1)
    (hremoved : (removedIps msgs).count x = 1) : (t.settle msgs).addrs.count x = 1 := by
  induction msgs generalizing t with
  | nil => exact hcount
  | cons msg msgs ih =>
    have hhandle := t.count_handle msg x
    have hopens := (h.count_opensAll x)
    rw [opensAll, List.count_append, h.handle.count_opensAll] at hopens
    rw [count_addedIps_cons] at hadded hopens
    rw [count_removedIps_cons] at hremoved
    rw [settle_cons]
    by_cases hx : msg.ip = x
    · by_cases hisAdded : msg.isAdded = true
      · -- opened a second time: the report of removal is still to come
        rw [if_pos ⟨hisAdded, hx⟩] at hadded hopens
        rw [if_neg (by simp [hisAdded])] at hremoved hhandle
        rw [count_settle_of_not_added (t.handle msg) (by omega)]
        omega
      · -- closed: the report that adds it is still to come
        rw [if_neg (fun h => hisAdded h.1)] at hadded hopens
        rw [if_pos ⟨by simpa using hisAdded, hx⟩] at hremoved hhandle
        rw [count_settle_of_not_removed (t.handle msg) (by omega), h.handle.count_opensAll]
        omega
    · rw [if_neg (fun h => hx h.2)] at hadded hopens hremoved hhandle
      exact ih h.handle (by omega) (by omega) (by omega)

/-- The table is full and holds none of the addresses that are gone. -/
def Stuck (t : AddressTable) (gone : List IpAddr) : Prop :=
  t.addrs.length = TRANSPORT_MAX_PATHS ∧ ∀ x ∈ gone, x ∉ t.addrs

/-- Nothing happens to such a table. -/
theorem Stuck.settle_eq {t : AddressTable} {msgs : List IfmonPipeMsg}
    (h : t.Stuck (removedIps msgs)) : t.settle msgs = t ∧ t.opensAll msgs = [] := by
  induction msgs with
  | nil => exact ⟨rfl, rfl⟩
  | cons msg msgs ih =>
    have hgone : ∀ x ∈ removedIps msgs, x ∈ removedIps (msg :: msgs) := fun x hx => by
      have hcount := count_removedIps_cons msg msgs x
      have hpos := List.count_pos_iff.mpr hx
      exact List.count_pos_iff.mp (by omega)
    have hrest := ih ⟨h.1, fun x hx => h.2 x (hgone x hx)⟩
    have haccept : t.accepts msg.ip = false := by
      rw [accepts, h.1]
      rfl
    have hhandle : t.handle msg = t := by
      unfold handle
      rw [haccept]
      by_cases hadded : msg.isAdded = true
      · rw [if_pos hadded, if_neg (by decide)]
      · rw [if_neg hadded, if_neg (h.2 msg.ip (by simp [removedIps, hadded]))]
    have hopens : t.opens msg = [] := by
      unfold opens
      rw [haccept]
      simp
    rw [settle_cons, opensAll, hhandle, hopens]
    exact hrest

end AddressTable

/-! ## The socket table and its addresses -/

namespace SocketTable

/-- The addresses of the sockets. -/
def addresses (t : SocketTable) : AddressTable := ⟨t.socks.map (·.addr.ip), t.last.ip⟩

end SocketTable

/-- The address of a socket that was opened. -/
def SocketEffect.openedIp : SocketEffect → Option IpAddr
  | .opened _ addr => some addr.ip
  | _ => none

namespace SocketTable

theorem bound_addresses (t : SocketTable) : t.addresses.bound = t.bound.ip := by
  unfold AddressTable.bound addresses bound
  cases t.socks with
  | nil => rfl
  | cons s socks => rfl

theorem accepts_addresses (t : SocketTable) (ip : IpAddr) :
    t.addresses.accepts ip = t.accepts ip := by
  rw [AddressTable.accepts, accepts, bound_addresses, addresses, List.length_map]

/-- One round of the loop, when `socket` and `bind` succeed. -/
theorem handle_addresses (t : SocketTable) (fd : ℕ) (msg : IfmonPipeMsg) :
    (t.handle (some fd) msg).1.addresses = t.addresses.handle msg ∧
      (t.handle (some fd) msg).2.filterMap SocketEffect.openedIp = t.addresses.opens msg := by
  unfold handle AddressTable.handle AddressTable.opens
  rw [accepts_addresses]
  by_cases hadded : msg.isAdded = true
  · rw [if_pos hadded, if_pos hadded, add]
    by_cases haccept : t.accepts msg.ip = true
    · have hpaths : ∀ rs : List SockAddr, (rs.map fun r =>
          SocketEffect.openPath r (msg.ip.toSockAddr t.newPort)).filterMap
            SocketEffect.openedIp = [] := fun rs => by
        simp [List.filterMap_map, SocketEffect.openedIp, Function.comp_def]
      rw [if_pos haccept, if_pos haccept, if_pos ⟨hadded, haccept⟩]
      refine ⟨by simp [addresses], ?_⟩
      simp only [List.filterMap_cons, SocketEffect.openedIp, IpAddr.ip_toSockAddr, hpaths]
    · rw [if_neg haccept, if_neg haccept, if_neg (fun h => haccept h.2)]
      exact ⟨rfl, rfl⟩
  · have hopens : ¬(msg.isAdded = true ∧ t.accepts msg.ip = true) := fun h => hadded h.1
    rw [if_neg hadded, if_neg hadded, if_neg hopens, remove]
    cases hfind : t.socks.find? fun s => s.addr.ip == msg.ip with
    | none =>
      have hmem : msg.ip ∉ t.addresses.addrs := by
        rw [List.find?_eq_none] at hfind
        simpa [addresses] using hfind
      rw [if_neg hmem]
      exact ⟨rfl, rfl⟩
    | some s =>
      have hs : s.addr.ip = msg.ip := by simpa using List.find?_some hfind
      have hmem : msg.ip ∈ t.addresses.addrs :=
        hs ▸ List.mem_map_of_mem (f := fun s => s.addr.ip) (List.mem_of_find?_eq_some hfind)
      have herase : t.addresses.addrs.erase msg.ip =
          (t.socks.eraseP fun s => s.addr.ip == msg.ip).map (·.addr.ip) := by
        rw [addresses, List.erase_eq_eraseP, List.eraseP_map]
        congr 2
        funext s
        exact Bool.beq_comm
      rw [if_pos hmem, herase]
      exact ⟨by rw [addresses, hs], rfl⟩

/-- The whole loop, when `socket` and `bind` succeed. -/
theorem drain_addresses {io : ℕ → Option ℕ} (hio : ∀ n, ∃ fd, io n = some fd) (t : SocketTable)
    (msgs : List IfmonPipeMsg) :
    (t.drain io msgs).1.addresses = t.addresses.settle msgs ∧
      (t.drain io msgs).2.filterMap SocketEffect.openedIp = t.addresses.opensAll msgs := by
  induction msgs generalizing t with
  | nil => exact ⟨rfl, rfl⟩
  | cons msg msgs ih =>
    obtain ⟨fd, hfd⟩ := hio msgs.length
    obtain ⟨haddresses, hopens⟩ := t.handle_addresses fd msg
    obtain ⟨hrest, hopensRest⟩ := ih (t.handle (some fd) msg).1
    rw [drain, hfd, AddressTable.settle_cons, AddressTable.opensAll, List.filterMap_append,
      hrest, hopensRest, haddresses, hopens]
    exact ⟨rfl, rfl⟩

end SocketTable

/-! ## What the messages report about two snapshots -/

/-- The addresses that an interface of the new snapshot has and did not have before. -/
def gainedBy (prev : List IfmonIface) (f : IfmonIface) : List IpAddr :=
  match findIface prev f.index with
  | none => f.addrs.map (·.ip)
  | some g => (f.addrs.filter fun a => a ∉ g.addrs).map (·.ip)

/-- The addresses that an interface of the new snapshot had before and lost. -/
def lostBy (prev : List IfmonIface) (f : IfmonIface) : List IpAddr :=
  match findIface prev f.index with
  | none => []
  | some g => (g.addrs.filter fun a => a ∉ f.addrs).map (·.ip)

/-- The addresses gained by the interfaces of the new snapshot. -/
def gained (prev curr : Snapshot) : List IpAddr := curr.ifaces.flatMap (gainedBy prev.ifaces)

/-- The addresses lost by the interfaces that both snapshots have. -/
def lost (prev curr : Snapshot) : List IpAddr := curr.ifaces.flatMap (lostBy prev.ifaces)

theorem addedIps_map_addrMsg (index : UInt32) (as : List IfmonAddr) :
    addedIps (as.map (addrMsg index true)) = as.map (·.ip) ∧
      removedIps (as.map (addrMsg index true)) = [] ∧
      addedIps (as.map (addrMsg index false)) = [] ∧
      removedIps (as.map (addrMsg index false)) = as.map (·.ip) := by
  simp [addedIps, removedIps, List.filter_map, addrMsg, Function.comp_def]

/-- The messages about a modified interface. -/
theorem ips_diffMsgs (d : IfmonIfaceDiff) :
    addedIps (diffMsgs d) = d.addrsAdded.map (·.ip) ∧
      removedIps (diffMsgs d) = d.addrsRemoved.map (·.ip) := by
  obtain ⟨hadd, hadd', -, -⟩ := addedIps_map_addrMsg d.index d.addrsAdded
  obtain ⟨-, -, hrem, hrem'⟩ := addedIps_map_addrMsg d.index d.addrsRemoved
  rw [diffMsgs, addedIps_append, removedIps_append, hadd, hadd', hrem, hrem', List.append_nil,
    List.nil_append]
  exact ⟨rfl, rfl⟩

section Snapshots

variable (prev curr : Snapshot)

/-- The messages about the interface of the new snapshot, if it was there before. -/
theorem ips_changedDiff {f : IfmonIface} (hf : f ∈ curr.ifaces) {g : IfmonIface}
    (hg : findIface prev.ifaces f.index = some g) :
    addedIps ((changedDiff prev.ifaces f).toList.flatMap diffMsgs) = gainedBy prev.ifaces f ∧
      removedIps ((changedDiff prev.ifaces f).toList.flatMap diffMsgs) =
        lostBy prev.ifaces f := by
  have hflen := curr.addrCount_le f hf
  have hglen := prev.addrCount_le g (index_of_findIface hg).1
  have hadded : (ifaceDiff g f).addrsAdded = f.addrs.filter fun a => a ∉ g.addrs :=
    addrsAdded_eq hflen
  have hremoved : (ifaceDiff g f).addrsRemoved = g.addrs.filter fun a => a ∉ f.addrs :=
    addrsRemoved_eq hglen
  obtain ⟨hadd, hrem⟩ := ips_diffMsgs (ifaceDiff g f)
  simp only [gainedBy, lostBy, changedDiff, hg, Option.bind_some]
  by_cases hchanged : (ifaceDiff g f).changed = true
  · rw [if_pos hchanged, Option.toList_some, List.flatMap_singleton, hadd, hrem, hadded, hremoved]
    exact ⟨rfl, rfl⟩
  · -- nothing was added and nothing was removed
    rw [if_neg hchanged]
    simp only [IfmonIfaceDiff.changed, Bool.or_eq_true, Bool.not_eq_true', not_or,
      Bool.not_eq_false, List.isEmpty_iff, hadded, hremoved] at hchanged
    rw [hchanged.1.2, hchanged.2]
    exact ⟨rfl, rfl⟩

/-- What `on_ifmon_update` reports removed: exactly what was lost. -/
theorem removedIps_onIfmonUpdate :
    removedIps (onIfmonUpdate (generateUpdate prev.ifaces curr.ifaces false)) = lost prev curr := by
  rw [generateUpdate_eq, onIfmonUpdate, if_neg Bool.false_ne_true, removedIps_append, lost]
  have hnew : ∀ is : List UInt32,
      removedIps (is.flatMap (addedIfaceMsgs curr.ifaces)) = [] := by
    intro is
    induction is with
    | nil => rfl
    | cons i is ih =>
      rw [List.flatMap_cons, removedIps_append, ih, List.append_nil, addedIfaceMsgs]
      cases findIface curr.ifaces i with
      | none => rfl
      | some f => exact (addedIps_map_addrMsg i f.addrs).2.1
  rw [hnew, List.nil_append]
  suffices h : ∀ fs : List IfmonIface, (∀ f ∈ fs, f ∈ curr.ifaces) →
      removedIps ((fs.filterMap (changedDiff prev.ifaces)).flatMap diffMsgs) =
        fs.flatMap (lostBy prev.ifaces) from h curr.ifaces fun _ hf => hf
  intro fs
  induction fs with
  | nil => exact fun _ => rfl
  | cons f fs ih =>
    intro hmem
    have htail := ih fun f' hf' => hmem f' (List.mem_cons_of_mem f hf')
    have hhead : (f :: fs).filterMap (changedDiff prev.ifaces) =
        (changedDiff prev.ifaces f).toList ++ fs.filterMap (changedDiff prev.ifaces) := by
      rw [List.filterMap_cons]
      cases changedDiff prev.ifaces f <;> rfl
    rw [hhead, List.flatMap_append, removedIps_append, htail, List.flatMap_cons]
    cases hg : findIface prev.ifaces f.index with
    | none => simp [changedDiff, lostBy, hg, removedIps]
    | some g => rw [(ips_changedDiff prev curr (hmem f List.mem_cons_self) hg).2]

/-- What `on_ifmon_update` reports added: what was gained, the added interfaces first. -/
theorem addedIps_onIfmonUpdate :
    (addedIps (onIfmonUpdate (generateUpdate prev.ifaces curr.ifaces false))).Perm
      (gained prev curr) := by
  rw [generateUpdate_eq, onIfmonUpdate, if_neg Bool.false_ne_true, addedIps_append, gained]
  suffices h : ∀ fs : List IfmonIface, (∀ f ∈ fs, f ∈ curr.ifaces) →
      (addedIps (((fs.map (·.index)).filter fun i => (findIface prev.ifaces i).isNone).flatMap
          (addedIfaceMsgs curr.ifaces)) ++
        addedIps ((fs.filterMap (changedDiff prev.ifaces)).flatMap diffMsgs)).Perm
        (fs.flatMap (gainedBy prev.ifaces)) from h curr.ifaces fun _ hf => hf
  intro fs
  induction fs with
  | nil => exact fun _ => List.Perm.refl _
  | cons f fs ih =>
    intro hmem
    have htail := ih fun f' hf' => hmem f' (List.mem_cons_of_mem f hf')
    have hf := hmem f List.mem_cons_self
    have hhead : (f :: fs).filterMap (changedDiff prev.ifaces) =
        (changedDiff prev.ifaces f).toList ++ fs.filterMap (changedDiff prev.ifaces) := by
      rw [List.filterMap_cons]
      cases changedDiff prev.ifaces f <;> rfl
    rw [hhead, List.flatMap_append, addedIps_append, List.flatMap_cons, List.map_cons,
      List.filter_cons]
    cases hg : findIface prev.ifaces f.index with
    | none =>
      have hmsgs : addedIps (addedIfaceMsgs curr.ifaces f.index) = gainedBy prev.ifaces f := by
        rw [addedIfaceMsgs, curr.findIface_of_mem hf, gainedBy, hg]
        exact (addedIps_map_addrMsg f.index f.addrs).1
      have hdiff : changedDiff prev.ifaces f = none := by simp [changedDiff, hg]
      rw [if_pos (by rfl), List.flatMap_cons, addedIps_append, hmsgs, hdiff, List.append_assoc]
      exact htail.append_left _
    | some g =>
      rw [if_neg (by simp), (ips_changedDiff prev curr hf hg).1]
      exact (List.perm_append_comm_assoc _ _ _).trans (htail.append_left _)

end Snapshots

end Bishlink
