import Bishlink.Lib.FirstMatch
import Bishlink.Lib.Loop
import Bishlink.Interfaces

/-!
# The interface scan

`ifmon_list_get` as it is built for the BSDs and macOS: one pass over the routing messages that
`sysctl` has put into the scratchpad. The cursor is a byte offset; each path through the loop body
has to move it on. The path that skips an interface by its name does not (`scan_ends_iff`).
-/

namespace Bishlink

open FirstMatch Loop

/-! ## Routing messages -/

/-- `sockaddr_dl`: the name in `sdl_data` and the address behind `LLADDR`. -/
structure SockaddrDl where
  name : Bytes
  lladdr : Bytes
deriving DecidableEq

/-- `if_msghdr`: `ifm_flags & IFF_UP`, `ifm_index`, and the address behind it if it is `AF_LINK`. -/
structure IfMsghdr where
  up : Bool
  index : UInt32
  link : Option SockaddrDl
deriving DecidableEq

/-- The address at `RTAX_IFA` if it is `AF_INET` or `AF_INET6`, with what is at `RTAX_NETMASK`. -/
inductive IfaAddr where
  | v4 (addr : UInt32) (netmask : Option UInt32)
  | v6 (addr : Bytes) (netmask : Option Bytes)
deriving DecidableEq

/-- What a routing message says, by `rtm_type`. -/
inductive RtBody where
  | RTM_IFINFO (ifm : IfMsghdr)
  | RTM_NEWADDR (index : UInt32) (addr : Option IfaAddr)
  | other
deriving DecidableEq

/-- `rt_msghdr` with the rest of its message. -/
structure RtMsg where
  msglen : ℕ
  body : RtBody
deriving DecidableEq

/-- The length of a buffer that messages tile. -/
def bufferLen (msgs : List RtMsg) : ℕ := (msgs.map (·.msglen)).sum

/-- The message whose header is at an offset of the buffer. -/
def messageAt : List RtMsg → (offset : ℕ) → Option RtMsg
  | [], _ => none
  | m :: ms, offset =>
    if offset = 0 then some m
    else if offset < m.msglen then none
    else messageAt ms (offset - m.msglen)

/-! ## Interface names -/

/-- `strstr(name, sub) != NULL`. -/
def strstr (name sub : Bytes) : Bool := name.tails.any sub.isPrefixOf

/-- The bytes of a string literal. -/
def literal (s : String) : Bytes := s.toList.map fun c => UInt8.ofNat c.toNat

/-- The prefixes that `is_iface_allowed` refuses. -/
def refusedPrefixes : List String := ["lo", "tun", "tap", "docker", "br-", "utun", "llw", "awdl"]

/-- The parts of a name that `is_iface_allowed` refuses. -/
def refusedParts : List String := ["Loopback", "vEthernet", "Wintun"]

/-- `is_iface_allowed`. -/
def isIfaceAllowed (name : Bytes) : Bool :=
  !name.isEmpty && !(refusedPrefixes.any fun p => (literal p).isPrefixOf name) &&
    !(refusedParts.any fun p => strstr name (literal p))

/-! ## The list -/

/-- An `ifmon_iface_t` with its name. -/
structure ScannedIface extends IfmonIface where
  name : Bytes
deriving DecidableEq

/-- A hexadecimal digit as `%X` prints it. -/
def hexDigit (n : UInt8) : UInt8 := if n < 10 then 48 + n else 55 + n

/-- `%02X`. -/
def hexByte (b : UInt8) : Bytes := [hexDigit (b / 16), hexDigit (b % 16)]

/-- `format_mac`: at most six bytes, the missing ones as zeros. -/
def formatMac (bytes : Bytes) : Bytes :=
  let padded := bytes.take 6 ++ List.replicate (6 - bytes.length) 0
  (padded.flatMap fun b => literal ":" ++ hexByte b).drop 1

/-- The interface of an `RTM_IFINFO`: the name is cut to 63 bytes, and it ends at its first zero. -/
def ifaceOf (ifm : IfMsghdr) : ScannedIface where
  index := ifm.index
  hwAddr := formatMac ((ifm.link.map (·.lladdr)).getD [])
  addrs := []
  name := ((ifm.link.map fun sdl => (sdl.name.take 63).takeWhile (· != 0))).getD []

/-- `count_bits_v4`: the ones a netmask starts with. -/
def countBitsV4 : (bits : ℕ) → (val : UInt32) → UInt8
  | 0, _ => 0
  | bits + 1, val => if val &&& 0x80000000 ≠ 0 then countBitsV4 bits (val <<< 1) + 1 else 0

/-- The inner loop of `count_bits_v6`: the ones a byte starts with, and what is left of it. -/
def countByte : (bits : ℕ) → (byte : UInt8) → UInt8 × UInt8
  | 0, byte => (0, byte)
  | bits + 1, byte =>
    if byte &&& 0x80 ≠ 0 then
      let r := countByte bits (byte <<< 1)
      (r.1 + 1, r.2)
    else (0, byte)

/-- `count_bits_v6`. -/
def countBitsV6 : Bytes → UInt8
  | [] => 0
  | byte :: bytes =>
    let r := countByte 8 byte
    if r.2 ≠ 0 then r.1 else r.1 + countBitsV6 bytes

/-- An address with the length of its prefix, 0 when there is no netmask. -/
def ifmonAddr : IfaAddr → IfmonAddr
  | .v4 addr netmask => ⟨.v4 addr, (netmask.map (countBitsV4 32)).getD 0⟩
  | .v6 addr netmask => ⟨.v6 addr, (netmask.map countBitsV6).getD 0⟩

/-- An address is added to an interface that has room for it. -/
def ScannedIface.addAddr (f : ScannedIface) (addr : Option IfaAddr) : ScannedIface :=
  match addr with
  | some a => { f with addrs := FixedArray.push IFMON_MAX_IPS_PER_IFACE f.addrs (ifmonAddr a) }
  | none => f

/-! ## The loop -/

/-- The cursor and `list->ifaces[0 .. list->count)`. -/
structure IfScan where
  next : ℕ
  list : List ScannedIface
deriving DecidableEq

/-- The loop body on one message: the list it leaves, and whether the cursor is moved on. -/
def scanMessage (list : List ScannedIface) : RtBody → List ScannedIface × Bool
  | .RTM_IFINFO ifm =>
    if !ifm.up then (list, true)
    else if list.length < IFMON_MAX_INTERFACES then
      -- the name is checked before the interface is counted, and `continue` skips the cursor
      if !isIfaceAllowed (ifaceOf ifm).name then (list, false)
      else (list ++ [ifaceOf ifm], true)
    else (list, true)
  | .RTM_NEWADDR index addr => (updateFirst (·.index == index) (·.addAddr addr) list, true)
  | .other => (list, true)

/-- One turn of the `while` loop; `none` when the loop is left. -/
def scanStep (msgs : List RtMsg) (s : IfScan) : Option IfScan :=
  if s.next < bufferLen msgs then
    match messageAt msgs s.next with
    | none => none
    | some rtm =>
      if rtm.msglen = 0 then none
      else
        let r := scanMessage s.list rtm.body
        some ⟨if r.2 then s.next + rtm.msglen else s.next, r.1⟩
  else none

/-- The scan starts at the front with an empty list. -/
def IfScan.start : IfScan := ⟨0, []⟩

/-! ## Missing prefix lengths -/

/-- The first prefix length above 0 among the addresses of a family, or the usual one. -/
def defaultPrefix (family : IpAddr → Bool) (usual : UInt8) (addrs : List IfmonAddr) : UInt8 :=
  match addrs.find? fun a => family a.ip && decide (0 < a.prefixLen) with
  | some a => a.prefixLen
  | none => usual

def IpAddr.isV4 : IpAddr → Bool
  | .v4 _ => true
  | .v6 _ => false

/-- The loop behind the scan: an address without a prefix length gets one. -/
def ScannedIface.fillPrefixes (f : ScannedIface) : ScannedIface :=
  { f with addrs := f.addrs.map fun a =>
      if a.prefixLen = 0 then
        { a with prefixLen :=
            if a.ip.isV4 then defaultPrefix (·.isV4) 24 f.addrs
            else defaultPrefix (!·.isV4) 64 f.addrs }
      else a }

/-! ## What a message does -/

/-- An interface the scan is to list. -/
def RtMsg.accepted (m : RtMsg) : Bool :=
  match m.body with
  | .RTM_IFINFO ifm => ifm.up && isIfaceAllowed (ifaceOf ifm).name
  | _ => false

/-- An interface that is up and has a name the scan is to skip. -/
def RtMsg.refused (m : RtMsg) : Bool :=
  match m.body with
  | .RTM_IFINFO ifm => ifm.up && !isIfaceAllowed (ifaceOf ifm).name
  | _ => false

/-- The scan does not move past a refused interface while the list has room. -/
theorem scanMessage_of_refused {m : RtMsg} {list : List ScannedIface} (hm : m.refused = true)
    (hroom : list.length < IFMON_MAX_INTERFACES) : scanMessage list m.body = (list, false) := by
  unfold RtMsg.refused at hm
  split at hm
  · next ifm hbody =>
    obtain ⟨hup, hname⟩ := (Bool.and_eq_true _ _).mp hm
    rw [hbody]
    unfold scanMessage
    dsimp only
    rw [hup, if_neg (by simp), if_pos hroom, if_pos hname]
  · exact absurd hm (by simp)

/-- All other messages are passed, and an accepted interface is listed if there is room. -/
theorem scanMessage_of_passed {m : RtMsg} {list : List ScannedIface}
    (h : m.refused = true → IFMON_MAX_INTERFACES ≤ list.length) :
    (scanMessage list m.body).2 = true ∧
      (scanMessage list m.body).1.length =
        if m.accepted = true ∧ list.length < IFMON_MAX_INTERFACES then list.length + 1
        else list.length := by
  unfold RtMsg.refused at h
  unfold RtMsg.accepted scanMessage
  cases hbody : m.body with
  | RTM_IFINFO ifm =>
    rw [hbody] at h
    dsimp only at h ⊢
    by_cases hup : ifm.up = true
    · by_cases hroom : list.length < IFMON_MAX_INTERFACES
      · by_cases hname : isIfaceAllowed (ifaceOf ifm).name = true
        · simp [hup, hroom, hname]
        · exact absurd hroom (Nat.not_lt.mpr (h (by simp [hup, hname])))
      · simp [hup, hroom]
    · simp [hup]
  | RTM_NEWADDR index addr =>
    dsimp only
    rw [length_updateFirst]
    simp
  | other => simp

/-- A message moves the cursor, or it changes nothing. -/
theorem scanMessage_snd (list : List ScannedIface) (m : RtMsg) :
    (scanMessage list m.body).2 = true ∨ scanMessage list m.body = (list, false) := by
  by_cases h : m.refused = true ∧ list.length < IFMON_MAX_INTERFACES
  · exact Or.inr (scanMessage_of_refused h.1 h.2)
  · refine Or.inl (scanMessage_of_passed fun hm => ?_).1
    exact Nat.not_lt.mp fun hroom => h ⟨hm, hroom⟩

theorem length_scanMessage_le {list : List ScannedIface} (m : RtMsg)
    (h : list.length ≤ IFMON_MAX_INTERFACES) :
    (scanMessage list m.body).1.length ≤ IFMON_MAX_INTERFACES := by
  by_cases hm : m.refused = true ∧ list.length < IFMON_MAX_INTERFACES
  · rw [scanMessage_of_refused hm.1 hm.2]
    exact h
  · rw [(scanMessage_of_passed fun hr => Nat.not_lt.mp fun hroom => hm ⟨hr, hroom⟩).2]
    split <;> omega

/-! ## One turn of the loop -/

/-- A turn of the loop runs on the message at the cursor. -/
theorem scanStep_eq_some {msgs : List RtMsg} {s s' : IfScan} (h : scanStep msgs s = some s') :
    ∃ m : RtMsg, 0 < m.msglen ∧ s' =
      ⟨if (scanMessage s.list m.body).2 then s.next + m.msglen else s.next,
        (scanMessage s.list m.body).1⟩ := by
  unfold scanStep at h
  split at h
  · split at h
    · exact absurd h (by simp)
    · next rtm _ =>
      split at h
      · exact absurd h (by simp)
      · next hlen => exact ⟨rtm, Nat.pos_of_ne_zero hlen, (Option.some.inj h).symm⟩
  · exact absurd h (by simp)

theorem scanStep_forward (msgs : List RtMsg) (s s' : IfScan) (h : scanStep msgs s = some s') :
    s' = s ∨ s.next < s'.next := by
  obtain ⟨m, hlen, rfl⟩ := scanStep_eq_some h
  rcases scanMessage_snd s.list m with hnext | hsame
  · right
    rw [if_pos hnext]
    exact Nat.lt_add_of_pos_right hlen
  · left
    rw [hsame]
    rfl

theorem scanStep_count (msgs : List RtMsg) (s s' : IfScan) (h : scanStep msgs s = some s')
    (hcount : s.list.length ≤ IFMON_MAX_INTERFACES) :
    s'.list.length ≤ IFMON_MAX_INTERFACES := by
  obtain ⟨m, -, rfl⟩ := scanStep_eq_some h
  exact length_scanMessage_le m hcount

/-- A scan that ends runs on each message at most once, and lists at most 16 interfaces. -/
theorem scan_once {msgs : List RtMsg} {visits : List IfScan} {t : IfScan}
    (h : Ends (scanStep msgs) IfScan.start visits t) :
    (visits.map (·.next)).Nodup ∧ t.list.length ≤ IFMON_MAX_INTERFACES := by
  refine ⟨?_, h.invariant (scanStep_count msgs) (Nat.zero_le _)⟩
  exact (h.pairwise_lt (scanStep_forward msgs)).1.imp fun hlt => hlt.ne

/-! ## The scan on a tiled buffer -/

section Tiled

variable {pre post : List RtMsg} {m : RtMsg}

theorem messageAt_append (hpre : ∀ m ∈ pre, 0 < m.msglen) :
    messageAt (pre ++ m :: post) (bufferLen pre) = some m := by
  induction pre with
  | nil => rfl
  | cons p pre ih =>
    have hp := hpre p List.mem_cons_self
    have hlen : bufferLen (p :: pre) = p.msglen + bufferLen pre := by
      unfold bufferLen
      rw [List.map_cons, List.sum_cons]
    rw [hlen, List.cons_append]
    unfold messageAt
    rw [if_neg (by omega), if_neg (by omega), Nat.add_sub_cancel_left]
    exact ih fun q hq => hpre q (List.mem_cons_of_mem p hq)

theorem bufferLen_append (pre post : List RtMsg) :
    bufferLen (pre ++ post) = bufferLen pre + bufferLen post := by
  unfold bufferLen
  rw [List.map_append, List.sum_append]

/-- At the start of a message, the loop body runs on it. -/
theorem scanStep_append (post : List RtMsg) (hpre : ∀ m ∈ pre, 0 < m.msglen) (hm : 0 < m.msglen)
    (list : List ScannedIface) :
    scanStep (pre ++ m :: post) ⟨bufferLen pre, list⟩ =
      some ⟨if (scanMessage list m.body).2 then bufferLen pre + m.msglen else bufferLen pre,
        (scanMessage list m.body).1⟩ := by
  have hend : bufferLen pre < bufferLen (pre ++ m :: post) := by
    rw [bufferLen_append]
    unfold bufferLen
    rw [List.map_cons, List.sum_cons]
    omega
  unfold scanStep
  dsimp only
  rw [if_pos hend, messageAt_append hpre]
  dsimp only
  rw [if_neg (by omega)]

theorem scanStep_end (list : List ScannedIface) : scanStep pre ⟨bufferLen pre, list⟩ = none := by
  unfold scanStep
  dsimp only
  rw [if_neg (Nat.lt_irrefl _)]

end Tiled

/-- No refused interface comes while the list has room. -/
def RefusedOnlyWhenFull (msgs : List RtMsg) : Prop :=
  ∀ pre m post, msgs = pre ++ m :: post → m.refused = true →
    IFMON_MAX_INTERFACES ≤ pre.countP RtMsg.accepted

/-- From a message on, the scan ends iff no refused interface is reached with room in the list. -/
theorem scan_ends_from_iff {post pre : List RtMsg} {list : List ScannedIface}
    (hlen : ∀ m ∈ pre ++ post, 0 < m.msglen)
    (hlist : list.length = min IFMON_MAX_INTERFACES (pre.countP RtMsg.accepted)) :
    (∃ visits t, Ends (scanStep (pre ++ post)) ⟨bufferLen pre, list⟩ visits t) ↔
      ∀ mid m rest, post = mid ++ m :: rest → m.refused = true →
        IFMON_MAX_INTERFACES ≤ (pre ++ mid).countP RtMsg.accepted := by
  induction post generalizing pre list with
  | nil =>
    rw [List.append_nil]
    refine iff_of_true ⟨_, _, .done (scanStep_end list)⟩ fun mid m rest h => ?_
    exact absurd h (by simp)
  | cons m post ih =>
    have hstep := scanStep_append post
      (fun q hq => hlen q (List.mem_append_left _ hq))
      (hlen m (List.mem_append_right _ List.mem_cons_self)) list
    -- a message that is refused while there is room is read again and again
    by_cases hstuck : m.refused = true ∧ list.length < IFMON_MAX_INTERFACES
    · rw [scanMessage_of_refused hstuck.1 hstuck.2] at hstep
      refine iff_of_false (fun ⟨v, t, h⟩ => not_ends_of_stuck hstep v t h) fun h => ?_
      have hfull := h [] m post rfl hstuck.1
      rw [List.append_nil] at hfull
      omega
    · have hpass : m.refused = true → IFMON_MAX_INTERFACES ≤ list.length :=
        fun hm => Nat.not_lt.mp fun hroom => hstuck ⟨hm, hroom⟩
      obtain ⟨hnext, hcount⟩ := scanMessage_of_passed hpass
      have hend : bufferLen pre + m.msglen = bufferLen (pre ++ [m]) := by
        rw [bufferLen_append]
        rfl
      rw [if_pos hnext, hend] at hstep
      -- the list counts what was accepted, up to its size
      have hlist' : (scanMessage list m.body).1.length =
          min IFMON_MAX_INTERFACES ((pre ++ [m]).countP RtMsg.accepted) := by
        rw [hcount, List.countP_append, List.countP_singleton]
        by_cases ha : m.accepted = true
        · rw [if_pos ha]
          by_cases hroom : list.length < IFMON_MAX_INTERFACES
          · rw [if_pos ⟨ha, hroom⟩]
            omega
          · rw [if_neg fun h => hroom h.2]
            omega
        · rw [if_neg ha, if_neg fun h => ha h.1]
          exact hlist
      have hbuf : pre ++ m :: post = pre ++ [m] ++ post := List.append_cons pre m post
      rw [hbuf] at hlen hstep ⊢
      rw [ends_of_step hstep, ih hlen hlist']
      constructor
      · intro h mid q rest hsplit hq
        cases mid with
        | nil =>
          obtain ⟨rfl, rfl⟩ := List.cons.inj hsplit
          have hfull := hpass hq
          rw [List.append_nil]
          omega
        | cons q' mid =>
          obtain ⟨rfl, hrest⟩ := List.cons.inj hsplit
          rw [List.append_cons]
          exact h mid q rest hrest hq
      · intro h mid q rest hrest hq
        rw [List.append_assoc]
        exact h (m :: mid) q rest (by rw [hrest, List.cons_append]) hq

/-! ## When the scan ends -/

/-- The scan ends: its loop body runs on each message at most once, and it lists at most 16
interfaces. -/
def ScanEnds (msgs : List RtMsg) : Prop :=
  ∃ visits t, Ends (scanStep msgs) IfScan.start visits t ∧ (visits.map (·.next)).Nodup ∧
    t.list.length ≤ IFMON_MAX_INTERFACES

/-- The scan of a buffer of messages ends iff no interface that is up and has a refused name comes
before the list is full. -/
theorem scan_ends_iff (msgs : List RtMsg) (htile : ∀ m ∈ msgs, 0 < m.msglen) :
    ScanEnds msgs ↔ RefusedOnlyWhenFull msgs := by
  have hiff := @scan_ends_from_iff msgs [] [] htile rfl
  constructor
  · rintro ⟨visits, t, hends, -⟩
    exact hiff.mp ⟨visits, t, hends⟩
  · intro h
    obtain ⟨visits, t, hends⟩ := hiff.mpr h
    exact ⟨visits, t, hends, scan_once hends⟩

theorem defaultPrefix_ne_zero (family : IpAddr → Bool) {usual : UInt8} (h : usual ≠ 0)
    (addrs : List IfmonAddr) : defaultPrefix family usual addrs ≠ 0 := by
  unfold defaultPrefix
  split
  · next a hfind =>
    have hpos := List.find?_some hfind
    rw [Bool.and_eq_true, decide_eq_true_eq] at hpos
    exact UInt8.pos_iff_ne_zero.mp hpos.2
  · exact h

/-- An Ethernet interface that is up, its address, and a tunnel that is down. -/
def ethernetOnly : List RtMsg :=
  [⟨160, .RTM_IFINFO ⟨true, 4, some ⟨literal "en0", [0, 17, 34, 51, 68, 85]⟩⟩⟩,
    ⟨104, .RTM_NEWADDR 4 (some (.v4 0x0A000001 (some 0xFFFFFF00)))⟩,
    ⟨160, .RTM_IFINFO ⟨false, 5, some ⟨literal "utun0", []⟩⟩⟩]

theorem scan_ends_ethernetOnly : ScanEnds ethernetOnly := by
  refine (scan_ends_iff ethernetOnly (by decide)).mpr fun pre m post h hm => ?_
  have hmem : m ∈ ethernetOnly := by
    rw [h]
    exact List.mem_append_right pre List.mem_cons_self
  have hnone : ∀ m ∈ ethernetOnly, m.refused = false := by decide
  exact absurd hm (by rw [hnone m hmem]; exact Bool.false_ne_true)

/-- The loopback interface is up. -/
def loopbackFirst : List RtMsg := [⟨160, .RTM_IFINFO ⟨true, 1, some ⟨literal "lo0", []⟩⟩⟩]

/-- The scan stays at the loopback interface. -/
theorem not_scanEnds_loopback :
    (∀ m ∈ loopbackFirst, 0 < m.msglen) ∧ ¬ScanEnds loopbackFirst := by
  refine ⟨by decide, ?_⟩
  rintro ⟨visits, t, hends, -⟩
  have hstuck : scanStep loopbackFirst IfScan.start = some IfScan.start := by decide
  exact not_ends_of_stuck hstuck visits t hends

end Bishlink
