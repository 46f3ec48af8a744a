import Bishlink.Lib.CloseGap
import Bishlink.Lib.FixedArray
import Bishlink.Lib.Runs
import Bishlink.Sockets

/-!
# The socket a packet is sent from

`fds[]` and `local_addrs[]` as the arrays they are: an entry that is removed is overwritten by the
ones behind it, and an entry that is no longer used keeps its value. `SocketArrays.handle` is the
ifmon loop of `transport_tick` over these arrays, and it does what `SocketTable.handle` does
(`Refines.handle`). The send loop falls back to `fds[0]`, whether it is used or not.
-/

namespace Bishlink

open CloseGap

/-- `fds[]` and `local_addrs[]`, of which the first `num_fds` entries are in use. -/
structure SocketArrays where
  isServer : Bool
  entries : List LocalSocket
  numFds : ℕ
  remoteAddrs : List SockAddr
deriving DecidableEq

namespace SocketArrays

/-- The entries in use. -/
def live (a : SocketArrays) : List LocalSocket := a.entries.take a.numFds

/-- `fds[0]` and `local_addrs[0]`. -/
def first (a : SocketArrays) : LocalSocket := a.entries.headD ⟨0, .inet 0 0⟩

/-- `num_fds < TRANSPORT_MAX_PATHS`, and the check of a new address against `local_addrs[0]`. -/
def accepts (a : SocketArrays) (ip : IpAddr) : Bool :=
  decide (a.numFds < TRANSPORT_MAX_PATHS) && lowOctetMatches a.first.addr.ip ip

/-- The port of a new socket. -/
def newPort (a : SocketArrays) : UInt16 := if a.isServer then a.first.addr.port else 0

/-- The message of an added address; `fd` is what `socket` and `bind` give, if both succeed. -/
def add (a : SocketArrays) (fd : Option ℕ) (ip : IpAddr) : SocketArrays × List SocketEffect :=
  if a.accepts ip then
    match fd with
    | none => (a, [])
    | some fd =>
      let addr := ip.toSockAddr a.newPort
      ({ a with entries := a.entries.set a.numFds ⟨fd, addr⟩, numFds := a.numFds + 1 },
        .opened fd addr ::
          (a.remoteAddrs.filter fun r => sameSubnet r.ip ip).map fun r => .openPath r addr)
  else (a, [])

/-- The message of a removed address: the first entry in use with it is closed, and the loop moves
the ones behind it down. -/
def remove (a : SocketArrays) (ip : IpAddr) : SocketArrays × List SocketEffect :=
  match a.live.findIdx? fun s => s.addr.ip == ip with
  | none => (a, [])
  | some i =>
    ({ a with entries := shiftDown a.entries i (a.numFds - 1 - i), numFds := a.numFds - 1 },
      ((a.entries[i]?).map fun s => SocketEffect.closed s.fd s.addr).toList)

/-- One round of the ifmon loop. -/
def handle (a : SocketArrays) (fd : Option ℕ) (msg : IfmonPipeMsg) :
    SocketArrays × List SocketEffect :=
  if msg.isAdded then a.add fd msg.ip else a.remove msg.ip

/-- `out_fd`: the first socket in use with the address of `src`, or else `fds[0]`. A source
address may be of no family at all. -/
def outFd (a : SocketArrays) (src : Option SockAddr) : ℕ :=
  ((src.bind fun addr => a.live.find? fun s => s.addr.ip == addr.ip).map (·.fd)).getD a.first.fd

end SocketArrays

/-- The sockets of `transport_create`: one for each bind host, with the descriptor that `socket`
gave it. The entries behind them are zero. -/
def boundSockets (isServer : Bool) (port : UInt16) (binds : List (ℕ × IpAddr))
    (remoteAddrs : List SockAddr) : SocketArrays where
  isServer := isServer
  entries := (binds.map fun b => ⟨b.1, b.2.toSockAddr (if isServer then port else 0)⟩) ++
    List.replicate (TRANSPORT_MAX_PATHS - binds.length) ⟨0, .inet 0 0⟩
  numFds := binds.length
  remoteAddrs := remoteAddrs

/-! ## Runs -/

/-- The arrays, and the sockets that are open. -/
structure SendState where
  arrays : SocketArrays
  opened : List ℕ
deriving DecidableEq

/-- A message of the ifmon pipe with what `socket` and `bind` give for it, or packets that
`quicly_send` returns with a source address. -/
inductive SendLabel where
  | ifmon (msg : IfmonPipeMsg) (fd : Option ℕ)
  | send (src : Option SockAddr)
deriving DecidableEq

/-- The open sockets after one is opened or closed. -/
def SocketEffect.opens (opened : List ℕ) : SocketEffect → List ℕ
  | .opened fd _ => opened ++ [fd]
  | .closed fd _ => opened.filter (· ≠ fd)
  | .openPath _ _ => opened

/-- A step; the output is the descriptor that packets are sent from. `socket` never gives a
descriptor that is open. -/
def fdStep (s : SendState) : SendLabel → Option (SendState × List ℕ)
  | .ifmon msg fd =>
    if ∀ d ∈ fd, d ∉ s.opened then
      let r := s.arrays.handle fd msg
      some (⟨r.1, r.2.foldl SocketEffect.opens s.opened⟩, [])
    else none
  | .send src => some (s, [s.arrays.outFd src])

/-- The sockets that are bound at the start are open. -/
def fdInit (isServer : Bool) (port : UInt16) (binds : List (ℕ × IpAddr))
    (remoteAddrs : List SockAddr) : SendState :=
  ⟨boundSockets isServer port binds remoteAddrs, binds.map Prod.fst⟩

/-- The entries in use are exactly the open sockets, each once. -/
def LiveSockets (s : SendState) : Prop :=
  (s.arrays.live.map (·.fd)).Nodup ∧ ∀ fd, fd ∈ s.arrays.live.map (·.fd) ↔ fd ∈ s.opened

/-- Packets with this source address are sent from an open socket, and from one that is bound to
the address if there is one. -/
def SendsLive (s : SendState) (src : Option SockAddr) : Prop :=
  s.arrays.outFd src ∈ s.opened ∧
    ∀ e ∈ s.arrays.live, src = some e.addr →
      ∃ e' ∈ s.arrays.live, e'.fd = s.arrays.outFd src ∧ e'.addr = e.addr

/-- At a send. -/
def SendLabel.Live (s : SendState) : SendLabel → Prop
  | .ifmon _ _ => True
  | .send src => SendsLive s src

/-- At a send some socket is open. -/
def SendLabel.HasSocket (s : SendState) : SendLabel → Prop
  | .ifmon _ _ => True
  | .send _ => 0 < s.arrays.numFds

/-! ## What a message does to the arrays -/

namespace SocketArrays

/-- There are as many entries as the arrays have. -/
structure Sized (a : SocketArrays) : Prop where
  entries : a.entries.length = TRANSPORT_MAX_PATHS
  numFds : a.numFds ≤ TRANSPORT_MAX_PATHS

theorem length_live {a : SocketArrays} (h : a.Sized) : a.live.length = a.numFds := by
  rw [live, List.length_take, h.entries]
  have hle := h.numFds
  omega

/-- The arrays after a message: `used` are the entries in use, and when there are none the first
entry is what was left there. -/
structure Becomes (a a' : SocketArrays) (used : List LocalSocket) (left : LocalSocket) :
    Prop where
  sized : a'.Sized
  live : a'.live = used
  first : a'.first = used.headD left
  isServer : a'.isServer = a.isServer
  remoteAddrs : a'.remoteAddrs = a.remoteAddrs

theorem becomes_of_entries (a : SocketArrays) {used rest : List LocalSocket}
    {left : LocalSocket} (hlen : used.length + rest.length = TRANSPORT_MAX_PATHS)
    (hleft : used = [] → ∃ tail, rest = left :: tail) :
    Becomes a { a with entries := used ++ rest, numFds := used.length } used left where
  sized := by
    refine ⟨?_, ?_⟩
    · dsimp only
      rw [List.length_append, hlen]
    · dsimp only
      omega
  live := List.take_left
  first := by
    cases hused : used with
    | nil =>
      obtain ⟨tail, rfl⟩ := hleft hused
      rfl
    | cons s used => rfl
  isServer := rfl
  remoteAddrs := rfl

/-- A message of an added address: nothing, or a new socket behind those in use. -/
theorem add_cases {a : SocketArrays} (h : a.Sized) (fd : Option ℕ) (ip : IpAddr) :
    ((a.accepts ip = false ∨ fd = none) ∧ a.add fd ip = (a, [])) ∨
      ∃ d, fd = some d ∧ a.accepts ip = true ∧
        Becomes a (a.add fd ip).1 (a.live ++ [⟨d, ip.toSockAddr a.newPort⟩])
          ⟨d, ip.toSockAddr a.newPort⟩ ∧
        (a.add fd ip).2 = .opened d (ip.toSockAddr a.newPort) ::
          (a.remoteAddrs.filter fun r => sameSubnet r.ip ip).map fun r =>
            .openPath r (ip.toSockAddr a.newPort) := by
  unfold add
  by_cases haccept : a.accepts ip = true
  swap
  · rw [if_neg haccept]
    exact Or.inl ⟨Or.inl ((Bool.not_eq_true _).mp haccept), rfl⟩
  rw [if_pos haccept]
  cases fd with
  | none => exact Or.inl ⟨Or.inr rfl, rfl⟩
  | some d =>
    have hroom : a.numFds < a.entries.length := by
      rw [accepts, Bool.and_eq_true, decide_eq_true_iff] at haccept
      rw [h.entries]
      exact haccept.1
    have hset : a.entries.set a.numFds ⟨d, ip.toSockAddr a.newPort⟩ =
        (a.live ++ [⟨d, ip.toSockAddr a.newPort⟩]) ++ a.entries.drop (a.numFds + 1) := by
      rw [List.set_eq_take_append_cons_drop, if_pos hroom, live, List.append_assoc,
        List.singleton_append]
    have hcount : a.numFds + 1 =
        (a.live ++ [(⟨d, ip.toSockAddr a.newPort⟩ : LocalSocket)]).length := by
      rw [List.length_append, List.length_singleton, length_live h]
    refine Or.inr ⟨d, rfl, haccept, ?_, rfl⟩
    dsimp only
    rw [hset, hcount]
    apply becomes_of_entries
    · rw [← hcount, List.length_drop, ← h.entries]
      omega
    · intro hnil
      simp at hnil

/-- A message of a removed address: nothing if no socket in use has it. The entries behind its
first socket move down, and the place behind them keeps what it had. -/
theorem remove_cases {a : SocketArrays} (h : a.Sized) (ip : IpAddr) :
    (a.remove ip = (a, []) ∧ ∀ s ∈ a.live, s.addr.ip ≠ ip) ∨
      ∃ pre s post, a.live = pre ++ s :: post ∧ s.addr.ip = ip ∧ (∀ e ∈ pre, e.addr.ip ≠ ip) ∧
        Becomes a (a.remove ip).1 (pre ++ post) s ∧ (a.remove ip).2 = [.closed s.fd s.addr] := by
  rw [remove]
  cases hfind : a.live.findIdx? fun s => s.addr.ip == ip with
  | none =>
    refine Or.inl ⟨rfl, fun s hs heq => ?_⟩
    have hnone := List.findIdx?_eq_none_iff.mp hfind s hs
    rw [heq, beq_self_eq_true] at hnone
    simp at hnone
  | some i =>
    obtain ⟨pre, s, post, hlive, rfl, hmatch, hpre⟩ := FixedArray.findIdx?_split hfind
    have hentries : a.entries = pre ++ s :: (post ++ a.entries.drop a.numFds) := by
      have hsplit := List.take_append_drop a.numFds a.entries
      rw [← live] at hsplit
      rw [← List.cons_append, ← List.append_assoc, ← hlive, hsplit]
    have hcount : a.numFds = pre.length + 1 + post.length := by
      rw [← length_live h, hlive, List.length_append, List.length_cons]
      omega
    have hentry : a.entries[pre.length]? = some s := by
      rw [hentries]
      exact FixedArray.getElem?_split _ _ _
    have hmoves : a.numFds - 1 - pre.length = post.length := by omega
    have hleft : a.numFds - 1 = (pre ++ post).length := by
      rw [List.length_append]
      omega
    -- the entries behind it move down by one, and the last of them stays twice
    have hshift : shiftDown a.entries pre.length post.length =
        (pre ++ post) ++ lastMoved s post :: a.entries.drop a.numFds := by
      rw [← shiftDown_split, ← hentries]
    refine Or.inr ⟨pre, s, post, hlive, beq_iff_eq.mp hmatch,
      fun e he => beq_eq_false_iff_ne.mp (hpre e he), ?_, ?_⟩
    · dsimp only
      rw [hmoves, hshift, hleft]
      apply becomes_of_entries
      · have hlen := congrArg List.length hentries
        rw [h.entries, List.length_append, List.length_cons, List.length_append] at hlen
        rw [List.length_append, List.length_cons]
        omega
      · -- the last socket: the entry stays as it was
        intro hnil
        rw [(List.append_eq_nil_iff.mp hnil).2]
        exact ⟨_, rfl⟩
    · dsimp only
      rw [hentry]
      rfl

/-! ## The arrays and the table -/

/-- The table of the sockets in use. -/
structure Refines (a : SocketArrays) (t : SocketTable) : Prop where
  sized : a.Sized
  isServer : t.isServer = a.isServer
  socks : t.socks = a.live
  bound : t.bound = a.first.addr
  remoteAddrs : t.remoteAddrs = a.remoteAddrs

theorem Refines.accepts {a : SocketArrays} {t : SocketTable} (h : Refines a t) (ip : IpAddr) :
    t.accepts ip = a.accepts ip := by
  rw [SocketTable.accepts, SocketArrays.accepts, h.socks, length_live h.sized, h.bound]

theorem Refines.newPort {a : SocketArrays} {t : SocketTable} (h : Refines a t) :
    t.newPort = a.newPort := by
  rw [SocketTable.newPort, SocketArrays.newPort, h.isServer, h.bound]

/-- A table with the same sockets in use. -/
theorem Becomes.refines {a a' : SocketArrays} {t t' : SocketTable} {used : List LocalSocket}
    {left : LocalSocket} (hb : Becomes a a' used left) (h : Refines a t) (hsocks : t'.socks = used)
    (hlast : used = [] → t'.last = left.addr) (hserver : t'.isServer = t.isServer)
    (hremotes : t'.remoteAddrs = t.remoteAddrs) : Refines a' t' where
  sized := hb.sized
  isServer := by rw [hserver, h.isServer, hb.isServer]
  socks := by rw [hsocks, hb.live]
  bound := by
    rw [SocketTable.bound, hb.first, hsocks]
    cases hused : used with
    | nil => exact hlast hused
    | cons s used => rfl
  remoteAddrs := by rw [hremotes, h.remoteAddrs, hb.remoteAddrs]

theorem Refines.add {a : SocketArrays} {t : SocketTable} (h : Refines a t) (fd : Option ℕ)
    (ip : IpAddr) :
    Refines (a.add fd ip).1 (t.add fd ip).1 ∧ (a.add fd ip).2 = (t.add fd ip).2 := by
  rcases add_cases h.sized fd ip with ⟨hreason, hsame⟩ | ⟨d, rfl, haccept, hb, heffects⟩
  · have htable : t.add fd ip = (t, []) := by
      unfold SocketTable.add
      rw [h.accepts]
      rcases hreason with hrefused | rfl
      · rw [hrefused, if_neg Bool.false_ne_true]
      · split
        · rfl
        · rfl
    rw [hsame, htable]
    exact ⟨h, rfl⟩
  · unfold SocketTable.add
    rw [h.accepts, if_pos haccept, heffects]
    dsimp only
    rw [h.newPort]
    refine ⟨hb.refines h ?_ (fun hnil => by simp at hnil) rfl rfl, ?_⟩
    · dsimp only
      rw [h.socks]
    · rw [h.remoteAddrs]

theorem Refines.remove {a : SocketArrays} {t : SocketTable} (h : Refines a t) (ip : IpAddr) :
    Refines (a.remove ip).1 (t.remove ip).1 ∧ (a.remove ip).2 = (t.remove ip).2 := by
  rcases remove_cases h.sized ip with ⟨hsame, hnone⟩ | ⟨pre, s, post, hlive, hs, hpre, hb, heffects⟩
  · have hfind : (t.socks.find? fun s => s.addr.ip == ip) = none := by
      rw [List.find?_eq_none, h.socks]
      intro s hs hmatch
      exact hnone s hs (beq_iff_eq.mp hmatch)
    rw [hsame, SocketTable.remove, hfind]
    exact ⟨h, rfl⟩
  · have hnot : ∀ e ∈ pre, ¬(e.addr.ip == ip) = true := fun e he hmatch =>
      hpre e he (beq_iff_eq.mp hmatch)
    have hfind : (t.socks.find? fun s => s.addr.ip == ip) = some s := by
      rw [h.socks, hlive, List.find?_append, List.find?_eq_none.mpr hnot, Option.none_or,
        List.find?_cons_of_pos (by simp [hs])]
    have herase : (t.socks.eraseP fun s => s.addr.ip == ip) = pre ++ post := by
      rw [h.socks, hlive, List.eraseP_append_right _ hnot, List.eraseP_cons_of_pos (by simp [hs])]
    rw [heffects, SocketTable.remove, hfind]
    exact ⟨hb.refines h herase (fun _ => rfl) rfl rfl, rfl⟩

/-- One round of the ifmon loop does to the arrays what it does to the table. -/
theorem Refines.handle {a : SocketArrays} {t : SocketTable} (h : Refines a t) (fd : Option ℕ)
    (msg : IfmonPipeMsg) :
    Refines (a.handle fd msg).1 (t.handle fd msg).1 ∧
      (a.handle fd msg).2 = (t.handle fd msg).2 := by
  unfold SocketArrays.handle SocketTable.handle
  split
  · exact h.add fd msg.ip
  · exact h.remove msg.ip

end SocketArrays

/-! ## The sockets in use are the open ones -/

/-- An address with its port. -/
theorem SockAddr.eq_of_ip_port {a b : SockAddr} (hip : a.ip = b.ip) (hport : a.port = b.port) :
    a = b := by
  cases a with
  | inet addr port =>
    cases b with
    | inet addr' port' =>
      obtain rfl := IpAddr.v4.inj hip
      rw [show port = port' from hport]
    | inet6 addr' port' => simp [SockAddr.ip] at hip
  | inet6 addr port =>
    cases b with
    | inet addr' port' => simp [SockAddr.ip] at hip
    | inet6 addr' port' =>
      obtain rfl := IpAddr.v6.inj hip
      rw [show port = port' from hport]

theorem IpAddr.port_toSockAddr (port : UInt16) (ip : IpAddr) :
    (ip.toSockAddr port).port = port := by
  cases ip with
  | v4 addr => rfl
  | v6 addr => rfl

/-- The entries in use are the open sockets, and all sockets ever bound have one port, so that an
address is told by its IP address alone. -/
structure SendInv (port : UInt16) (s : SendState) : Prop where
  sized : s.arrays.Sized
  client : s.arrays.isServer = false → port = 0
  ports : ∀ e ∈ s.arrays.live, e.addr.port = port
  firstPort : s.arrays.first.addr.port = port
  live : LiveSockets s

theorem SendInv.newPort {port : UInt16} {s : SendState} (h : SendInv port s) :
    s.arrays.newPort = port := by
  rw [SocketArrays.newPort]
  cases hserver : s.arrays.isServer with
  | true => exact h.firstPort
  | false => exact (h.client hserver).symm

/-- The arrays change, and the sockets in use are again the open ones. -/
theorem SendInv.of_becomes {port : UInt16} {s : SendState} {a' : SocketArrays}
    {used : List LocalSocket} {left : LocalSocket} {opened : List ℕ} (h : SendInv port s)
    (hb : s.arrays.Becomes a' used left) (hused : ∀ e ∈ used, e.addr.port = port)
    (hleft : left.addr.port = port) (hnodup : (used.map (·.fd)).Nodup)
    (hopened : ∀ fd, fd ∈ used.map (·.fd) ↔ fd ∈ opened) : SendInv port ⟨a', opened⟩ where
  sized := hb.sized
  client hserver := h.client (hb.isServer.symm.trans hserver)
  ports := by
    dsimp only
    rw [hb.live]
    exact hused
  firstPort := by
    dsimp only
    rw [hb.first]
    cases used with
    | nil => exact hleft
    | cons e used => exact hused e List.mem_cons_self
  live := by
    rw [LiveSockets]
    dsimp only
    rw [hb.live]
    exact ⟨hnodup, hopened⟩

/-- Opening paths opens no socket. -/
theorem foldl_opens_openPath (opened : List ℕ) (addr : SockAddr) (remotes : List SockAddr) :
    (remotes.map fun r => SocketEffect.openPath r addr).foldl SocketEffect.opens opened =
      opened := by
  induction remotes with
  | nil => rfl
  | cons r remotes ih => exact ih

theorem SendInv.add {port : UInt16} {s : SendState} (h : SendInv port s) {fd : Option ℕ}
    (hfresh : ∀ d ∈ fd, d ∉ s.opened) (ip : IpAddr) :
    SendInv port ⟨(s.arrays.add fd ip).1,
      (s.arrays.add fd ip).2.foldl SocketEffect.opens s.opened⟩ := by
  rcases s.arrays.add_cases h.sized fd ip with ⟨-, hsame⟩ | ⟨d, rfl, -, hb, heffects⟩
  · rw [hsame]
    exact h
  obtain ⟨hnodup, hopened⟩ := h.live
  have hnew := hfresh d rfl
  have hnewPort : (ip.toSockAddr s.arrays.newPort).port = port :=
    (IpAddr.port_toSockAddr _ ip).trans h.newPort
  rw [heffects, List.foldl_cons, foldl_opens_openPath]
  apply h.of_becomes hb
  · intro e he
    rcases List.mem_append.mp he with he | he
    · exact h.ports e he
    · rw [List.mem_singleton.mp he]
      exact hnewPort
  · exact hnewPort
  · rw [List.map_append, List.map_singleton, List.nodup_append]
    refine ⟨hnodup, List.nodup_singleton d, ?_⟩
    rintro fd hfd fd' hfd' rfl
    rw [List.mem_singleton.mp hfd'] at hfd
    exact hnew ((hopened d).mp hfd)
  · intro fd
    rw [List.map_append, List.map_singleton, List.mem_append, hopened]
    exact List.mem_append.symm

theorem SendInv.remove {port : UInt16} {s : SendState} (h : SendInv port s) (ip : IpAddr) :
    SendInv port ⟨(s.arrays.remove ip).1,
      (s.arrays.remove ip).2.foldl SocketEffect.opens s.opened⟩ := by
  rcases s.arrays.remove_cases h.sized ip with
    ⟨hsame, -⟩ | ⟨pre, e, post, hlive, -, -, hb, heffects⟩
  · rw [hsame]
    exact h
  obtain ⟨hnodup, hopened⟩ := h.live
  have hports := h.ports
  rw [hlive] at hnodup hopened hports
  rw [List.map_append, List.map_cons] at hnodup hopened
  obtain ⟨hnot, hrest⟩ := List.nodup_cons.mp (List.nodup_middle.mp hnodup)
  have hsub : ∀ x ∈ pre ++ post, x ∈ pre ++ e :: post := by
    intro x hx
    rcases List.mem_append.mp hx with hx | hx
    · exact List.mem_append_left _ hx
    · exact List.mem_append_right _ (List.mem_cons_of_mem e hx)
  rw [heffects, List.foldl_cons, List.foldl_nil]
  apply h.of_becomes hb
  · exact fun x hx => hports x (hsub x hx)
  · exact hports e (List.mem_append_right _ List.mem_cons_self)
  · rw [List.map_append]
    exact hrest
  · intro fd
    rw [SocketEffect.opens, List.mem_filter, ← hopened fd, decide_eq_true_iff, List.map_append]
    constructor
    · intro hmem
      refine ⟨?_, fun heq => hnot (heq ▸ hmem)⟩
      rcases List.mem_append.mp hmem with hmem | hmem
      · exact List.mem_append_left _ hmem
      · exact List.mem_append_right _ (List.mem_cons_of_mem _ hmem)
    · rintro ⟨hmem, hne⟩
      rcases List.mem_append.mp hmem with hmem | hmem
      · exact List.mem_append_left _ hmem
      · exact List.mem_append_right _ ((List.mem_cons.mp hmem).resolve_left hne)

/-- Every step keeps the entries in use the open sockets. -/
theorem SendInv.step {port : UInt16} {s s' : SendState} {l : SendLabel} {o : List ℕ}
    (h : SendInv port s) (hstep : fdStep s l = some (s', o)) : SendInv port s' := by
  cases l with
  | send src =>
    rw [fdStep, Option.some.injEq, Prod.mk.injEq] at hstep
    rw [← hstep.1]
    exact h
  | ifmon msg fd =>
    rw [fdStep] at hstep
    by_cases hfresh : ∀ d ∈ fd, d ∉ s.opened
    · rw [if_pos hfresh, Option.some.injEq, Prod.mk.injEq] at hstep
      rw [← hstep.1, SocketArrays.handle]
      by_cases hadded : msg.isAdded = true
      · rw [if_pos hadded]
        exact h.add hfresh msg.ip
      · rw [if_neg hadded]
        exact h.remove msg.ip
    · rw [if_neg hfresh] at hstep
      simp at hstep

/-- The sockets of `transport_create`. -/
theorem sendInv_init (isServer : Bool) (port : UInt16) {binds : List (ℕ × IpAddr)}
    (remoteAddrs : List SockAddr) (hne : binds ≠ []) (hlen : binds.length ≤ TRANSPORT_MAX_PATHS)
    (hfds : (binds.map Prod.fst).Nodup) :
    SendInv (if isServer then port else 0) (fdInit isServer port binds remoteAddrs) := by
  have hlive : (boundSockets isServer port binds remoteAddrs).live =
      binds.map fun b => ⟨b.1, b.2.toSockAddr (if isServer then port else 0)⟩ :=
    List.take_left' (List.length_map _)
  have hfdsEq : (boundSockets isServer port binds remoteAddrs).live.map (·.fd) =
      binds.map Prod.fst := by
    rw [hlive, List.map_map]
    rfl
  have hports : ∀ e ∈ (boundSockets isServer port binds remoteAddrs).live,
      e.addr.port = if isServer then port else 0 := by
    intro e he
    rw [hlive] at he
    obtain ⟨b, -, rfl⟩ := List.mem_map.mp he
    exact IpAddr.port_toSockAddr _ b.2
  refine ⟨⟨?_, hlen⟩, ?_, hports, ?_, ?_, ?_⟩
  · show ((binds.map _) ++ List.replicate (TRANSPORT_MAX_PATHS - binds.length) _).length = _
    rw [List.length_append, List.length_map, List.length_replicate]
    omega
  · intro hclient
    rw [show isServer = false from hclient, if_neg Bool.false_ne_true]
  · cases binds with
    | nil => exact absurd rfl hne
    | cons b binds => exact IpAddr.port_toSockAddr _ b.2
  · exact hfdsEq ▸ hfds
  · intro fd
    rw [show (fdInit isServer port binds remoteAddrs).arrays =
      boundSockets isServer port binds remoteAddrs from rfl, hfdsEq]
    exact Iff.rfl

/-! ## Sending -/

/-- With a socket in use, `fds[0]` is one. -/
theorem SocketArrays.first_mem_live {a : SocketArrays} (h : a.Sized) (hpos : 0 < a.numFds) :
    a.first ∈ a.live := by
  rw [first, live]
  cases hentries : a.entries with
  | nil =>
    have hlen := h.entries
    rw [hentries] at hlen
    simp [TRANSPORT_MAX_PATHS] at hlen
  | cons e entries =>
    obtain ⟨n, hn⟩ : ∃ n, a.numFds = n + 1 := ⟨a.numFds - 1, by omega⟩
    rw [hn, List.take_succ_cons]
    exact List.mem_cons_self

/-- The descriptor of a send belongs to a socket in use, one with the address if there is one. -/
theorem SocketArrays.outFd_mem {a : SocketArrays} (h : a.Sized) (hpos : 0 < a.numFds)
    (src : Option SockAddr) :
    ∃ e' ∈ a.live, e'.fd = a.outFd src ∧
      ∀ e ∈ a.live, src = some e.addr → e'.addr.ip = e.addr.ip := by
  rw [outFd]
  cases hfind : src.bind fun addr => a.live.find? fun s => s.addr.ip == addr.ip with
  | none =>
    refine ⟨a.first, first_mem_live h hpos, rfl, ?_⟩
    rintro e he rfl
    rw [Option.bind_some] at hfind
    exact absurd (beq_self_eq_true e.addr.ip) (List.find?_eq_none.mp hfind e he)
  | some e' =>
    obtain ⟨addr, rfl, hfind⟩ := Option.bind_eq_some_iff.mp hfind
    refine ⟨e', List.mem_of_find?_eq_some hfind, rfl, ?_⟩
    rintro e he heq
    have hip := List.find?_some hfind
    rw [Option.some.inj heq] at hip
    exact beq_iff_eq.mp hip

/-- At a send, the socket is as it should be exactly when some socket is open. -/
theorem SendInv.live_iff {port : UInt16} {s : SendState} (h : SendInv port s) (l : SendLabel) :
    LiveSockets s ∧ l.Live s ↔ l.HasSocket s := by
  cases l with
  | ifmon msg fd => exact iff_of_true ⟨h.live, trivial⟩ trivial
  | send src =>
    show LiveSockets s ∧ SendsLive s src ↔ 0 < s.arrays.numFds
    constructor
    · rintro ⟨-, hopen, -⟩
      by_contra hzero
      have hlive : s.arrays.live = [] := by
        rw [SocketArrays.live, Nat.eq_zero_of_not_pos hzero, List.take_zero]
      rw [← h.live.2, hlive] at hopen
      simp at hopen
    · intro hpos
      obtain ⟨e', he', hfd, hip⟩ := s.arrays.outFd_mem h.sized hpos src
      refine ⟨h.live, ?_, ?_⟩
      · rw [← h.live.2, ← hfd]
        exact List.mem_map_of_mem he'
      · intro e he hsrc
        refine ⟨e', he', hfd, SockAddr.eq_of_ip_port (hip e he hsrc) ?_⟩
        rw [h.ports e' he', h.ports e he]

instance (s : SendState) : Decidable (LiveSockets s) :=
  decidable_of_iff ((s.arrays.live.map (·.fd)).Nodup ∧
      (∀ fd ∈ s.arrays.live.map (·.fd), fd ∈ s.opened) ∧
        ∀ fd ∈ s.opened, fd ∈ s.arrays.live.map (·.fd))
    (and_congr_right fun _ => ⟨fun h fd => ⟨h.1 fd, h.2 fd⟩,
      fun h => ⟨fun fd => (h fd).mp, fun fd => (h fd).mpr⟩⟩)

instance (s : SendState) (src : Option SockAddr) : Decidable (SendsLive s src) := by
  unfold SendsLive
  infer_instance

instance (s : SendState) : (l : SendLabel) → Decidable (l.Live s)
  | .ifmon _ _ => .isTrue trivial
  | .send src => inferInstanceAs (Decidable (SendsLive s src))

instance (s : SendState) : (l : SendLabel) → Decidable (l.HasSocket s)
  | .ifmon _ _ => .isTrue trivial
  | .send _ => inferInstanceAs (Decidable (0 < s.arrays.numFds))

/-- Over any run from bound sockets, the entries in use are the open sockets; and packets are
sent from the sockets they should be exactly when none is sent while no socket is open. -/
theorem sends_live_iff (isServer : Bool) (port : UInt16) (remoteAddrs : List SockAddr)
    {binds : List (ℕ × IpAddr)} (hne : binds ≠ []) (hlen : binds.length ≤ TRANSPORT_MAX_PATHS)
    (hfds : (binds.map Prod.fst).Nodup) (labels : List SendLabel) :
    (∀ s o, Runs.run fdStep (fdInit isServer port binds remoteAddrs) labels = some (s, o) →
        LiveSockets s) ∧
      (Runs.Along fdStep (fun s l => LiveSockets s ∧ l.Live s)
          (fdInit isServer port binds remoteAddrs) labels ↔
        Runs.Along fdStep (fun s l => l.HasSocket s) (fdInit isServer port binds remoteAddrs)
          labels) := by
  have hinit := sendInv_init isServer port remoteAddrs hne hlen hfds
  constructor
  · intro s o hrun
    exact (Runs.invariant hinit (fun _ _ _ _ h hstep => h.step hstep) labels s o hrun).live
  · exact Runs.along_congr (fun _ _ _ _ h hstep => SendInv.step h hstep)
      (fun _ l h => h.live_iff l) hinit

/-- 127.0.0.1. -/
def loopbackIp : IpAddr := .v4 0x7F000001

/-- Another address comes, the first one goes, and packets are sent from both and from no address
in particular. -/
def changingSockets : List SendLabel :=
  [.ifmon ⟨1, .v4 0x7F000101, true⟩ (some 4), .send (some (.inet 0x7F000001 0)),
    .send (some (.inet 0x7F000101 0)), .ifmon ⟨1, loopbackIp, false⟩ none,
    .send (some (.inet 0x7F000101 0)), .send none]

theorem sends_live_client :
    (∃ s, Runs.run fdStep (fdInit false 0 [(3, loopbackIp)] []) changingSockets =
        some (s, [3, 4, 4, 4])) ∧
      Runs.Along fdStep (fun s l => LiveSockets s ∧ l.Live s)
        (fdInit false 0 [(3, loopbackIp)] []) changingSockets :=
  ⟨⟨_, rfl⟩, (sends_live_iff false 0 [] (by decide) (by decide) (by decide)
    changingSockets).2.mpr (by decide)⟩

/-- The only address is removed: the next packet is sent from the descriptor that was closed. -/
theorem sent_from_closed :
    ¬∀ (isServer : Bool) (port : UInt16) (remoteAddrs : List SockAddr)
        (binds : List (ℕ × IpAddr)), binds ≠ [] → binds.length ≤ TRANSPORT_MAX_PATHS →
        (binds.map Prod.fst).Nodup → ∀ labels,
        Runs.Along fdStep (fun s l => LiveSockets s ∧ l.Live s)
          (fdInit isServer port binds remoteAddrs) labels := by
  intro h
  have hruns := h false 0 [] [(3, loopbackIp)] (by decide) (by decide) (by decide)
    [.ifmon ⟨1, loopbackIp, false⟩ none, .send (some (.inet 0x7F000001 0))]
  revert hruns
  decide

end Bishlink
