import Bishlink.Interfaces

/-!
# From interface updates to local sockets

`on_ifmon_update` writes a message for each added or removed address into a pipe; the ifmon
loop of `transport_tick` reads them and opens and closes sockets. `socketStep` is the
pipeline from the snapshots of the watcher to `fds[]` and `local_addrs[]`.
-/

namespace Bishlink

/-! ## The messages -/

/-- `ifmon_pipe_msg_t`; the address of a message has no port yet. -/
structure IfmonPipeMsg where
  index : UInt32
  ip : IpAddr
  isAdded : Bool
deriving DecidableEq

/-- The message about one address of an interface. -/
def addrMsg (index : UInt32) (isAdded : Bool) (a : IfmonAddr) : IfmonPipeMsg :=
  ⟨index, a.ip, isAdded⟩

/-- The messages about an added interface: all its addresses. -/
def addedIfaceMsgs (interfaces : List IfmonIface) (idx : UInt32) : List IfmonPipeMsg :=
  match findIface interfaces idx with
  | none => []
  | some iface => iface.addrs.map (addrMsg idx true)

/-- The messages about a modified interface: first what was added, then what was removed. -/
def diffMsgs (diff : IfmonIfaceDiff) : List IfmonPipeMsg :=
  diff.addrsAdded.map (addrMsg diff.index true) ++
    diff.addrsRemoved.map (addrMsg diff.index false)

/-- `on_ifmon_update`; `update->removed` is not read. -/
def onIfmonUpdate (update : IfmonUpdate) : List IfmonPipeMsg :=
  if update.isInitial then []
  else update.added.flatMap (addedIfaceMsgs update.interfaces) ++
    update.modified.flatMap diffMsgs

/-! ## The sockets -/

namespace SockAddr

/-- The family and the address of a socket address. -/
def ip : SockAddr → IpAddr
  | .inet addr _ => .v4 addr
  | .inet6 addr _ => .v6 addr

/-- The port of a socket address. -/
def port : SockAddr → UInt16
  | .inet _ port => port
  | .inet6 _ port => port

end SockAddr

/-- The socket address of an address and a port. -/
def IpAddr.toSockAddr (port : UInt16) : IpAddr → SockAddr
  | .v4 addr => .inet addr port
  | .v6 addr => .inet6 addr port

@[simp] theorem IpAddr.ip_toSockAddr (port : UInt16) (ip : IpAddr) :
    (ip.toSockAddr port).ip = ip := by
  cases ip <;> rfl

/-- `fds[i]` with `local_addrs[i]`. -/
structure LocalSocket where
  fd : ℕ
  addr : SockAddr
deriving DecidableEq

/-- The sockets of a transport: the entries below `num_fds`; `last` is what `local_addrs[0]`
still holds when there is none. `remoteAddrs` are the `remote_addrs` of a client that has its
connection. -/
structure SocketTable where
  isServer : Bool
  socks : List LocalSocket
  last : SockAddr
  remoteAddrs : List SockAddr
deriving DecidableEq

/-- What the loop does besides changing the table. -/
inductive SocketEffect where
  | opened (fd : ℕ) (addr : SockAddr)
  | closed (fd : ℕ) (addr : SockAddr)
  | openPath (remote : SockAddr) (addr : SockAddr)
deriving DecidableEq

/-- The check of a new IPv4 address against an IPv4 `local_addrs[0]`: the same low octet. -/
def lowOctetMatches (bound new : IpAddr) : Bool :=
  match bound, new with
  | .v4 b, .v4 n => b &&& 0xFF == n &&& 0xFF
  | _, _ => true

/-- The check of a new address against a remote one: IPv4 addresses share their /24. -/
def sameSubnet (remote new : IpAddr) : Bool :=
  match remote, new with
  | .v4 r, .v4 n => r &&& 0xFFFFFF00 == n &&& 0xFFFFFF00
  | _, _ => true

namespace SocketTable

/-- `local_addrs[0]`. -/
def bound (t : SocketTable) : SockAddr := ((t.socks.head?).map (·.addr)).getD t.last

/-- `num_fds < TRANSPORT_MAX_PATHS`, and the new address passes the check against the bound
one. -/
def accepts (t : SocketTable) (ip : IpAddr) : Bool :=
  decide (t.socks.length < TRANSPORT_MAX_PATHS) && lowOctetMatches t.bound.ip ip

/-- The port of a new socket. -/
def newPort (t : SocketTable) : UInt16 := if t.isServer then t.bound.port else 0

/-- The message of an added address; `fd` is what `socket` and `bind` give, if both
succeed. -/
def add (t : SocketTable) (fd : Option ℕ) (ip : IpAddr) : SocketTable × List SocketEffect :=
  if t.accepts ip then
    match fd with
    | none => (t, [])
    | some fd =>
      let addr := ip.toSockAddr t.newPort
      ({ t with socks := t.socks ++ [⟨fd, addr⟩] }, .opened fd addr ::
        (t.remoteAddrs.filter fun r => sameSubnet r.ip ip).map fun r => .openPath r addr)
  else (t, [])

/-- The message of a removed address: close its first socket and close the gap. -/
def remove (t : SocketTable) (ip : IpAddr) : SocketTable × List SocketEffect :=
  match t.socks.find? fun s => s.addr.ip == ip with
  | none => (t, [])
  | some s =>
    ({ t with socks := t.socks.eraseP fun s => s.addr.ip == ip, last := s.addr },
      [.closed s.fd s.addr])

/-- One round of the ifmon loop. -/
def handle (t : SocketTable) (fd : Option ℕ) (msg : IfmonPipeMsg) :
    SocketTable × List SocketEffect :=
  if msg.isAdded then t.add fd msg.ip else t.remove msg.ip

/-- The ifmon loop of `transport_tick`: read the pipe until it is empty. The `n`-th message
gets what `socket` and `bind` give it. -/
def drain (io : ℕ → Option ℕ) : SocketTable → List IfmonPipeMsg → SocketTable × List SocketEffect
  | t, [] => (t, [])
  | t, msg :: msgs =>
    let r := t.handle (io msgs.length) msg
    let rest := drain io r.1 msgs
    (rest.1, r.2 ++ rest.2)

theorem length_handle_le (t : SocketTable) (fd : Option ℕ) (msg : IfmonPipeMsg)
    (h : t.socks.length ≤ TRANSPORT_MAX_PATHS) :
    (t.handle fd msg).1.socks.length ≤ TRANSPORT_MAX_PATHS := by
  unfold handle
  split
  · unfold add
    split
    · next haccept =>
      simp only [accepts, Bool.and_eq_true, decide_eq_true_eq] at haccept
      cases fd with
      | none => exact h
      | some fd =>
        simp only [List.length_append, List.length_singleton]
        omega
    · exact h
  · unfold remove
    split
    · exact h
    · exact (List.length_eraseP_le).trans h

/-- No more than four sockets, whatever `socket` and `bind` give. -/
theorem length_drain_le (t : SocketTable) (io : ℕ → Option ℕ) (msgs : List IfmonPipeMsg)
    (h : t.socks.length ≤ TRANSPORT_MAX_PATHS) :
    (t.drain io msgs).1.socks.length ≤ TRANSPORT_MAX_PATHS := by
  induction msgs generalizing t with
  | nil => exact h
  | cons msg msgs ih => exact ih _ (t.length_handle_le (io msgs.length) msg h)

end SocketTable

/-! ## The pipeline -/

/-- The watcher's previous list, the pipe and the sockets. -/
structure SocketState where
  prev : Snapshot
  queue : List IfmonPipeMsg
  table : SocketTable

/-- The watcher takes a snapshot, or the transport runs its tick; `io` is what `socket` and
`bind` give, by the number of messages that are still in the pipe. -/
inductive SocketLabel where
  | snapshot (curr : Snapshot)
  | tick (io : ℕ → Option ℕ)

/-- One step of the pipeline; every write to the pipe succeeds. -/
def socketStep (s : SocketState) : SocketLabel → Option (SocketState × List SocketEffect)
  | .snapshot curr =>
    (watcherStep s.prev curr).map fun r =>
      ({ s with prev := r.1, queue := s.queue ++ r.2.flatMap onIfmonUpdate }, [])
  | .tick io =>
    let r := s.table.drain io s.queue
    some ({ s with queue := [], table := r.1 }, r.2)

end Bishlink
