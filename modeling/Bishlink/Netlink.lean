import Bishlink.DataUds
import Bishlink.InterfaceScan
import Bishlink.Lib.FixedArray
import Bishlink.Lib.Records

/-!
# The interface scan on Linux

`ifmon_list_get` as it is built for Linux: it asks the kernel for the links and then for the
addresses, and goes over the messages of the answers and over the attributes in each message. A
pointer is the memory from there on: the bytes that `recv` has put into the scratchpad, and whatever
is behind them.
-/

namespace Bishlink

open ByteCodec FirstMatch Records

/-! ## The macros -/

def NLMSG_ERROR : ℕ := 2

def NLMSG_DONE : ℕ := 3

def RTM_NEWLINK : ℕ := 16

def RTM_NEWADDR : ℕ := 20

def IFF_UP : ℕ := 1

def IFLA_ADDRESS : ℕ := 1

def IFLA_IFNAME : ℕ := 3

def IFA_ADDRESS : ℕ := 1

def AF_INET : ℕ := 2

def AF_INET6 : ℕ := 10

/-- A field of a structure at a pointer, in the byte order of the host. -/
def field (at' : Bytes) (off size : ℕ) : ℕ := ofHostBytes (slice off size at')

/-- `NLMSG_ALIGN` and `RTA_ALIGN`, on 32 bits. -/
def align (len : ℕ) : ℕ := (len + 3) % 2 ^ 32 / 4 * 4

/-- `(size_t)len` of a signed length. -/
def sizeT (len : ℤ) : ℕ := (len % 2 ^ 64).toNat

/-- `NLMSG_OK(nlh, (size_t)len)` and `NLMSG_NEXT`. -/
def nlmsgFormat : Format where
  header := 16
  lengthAt nlh := field nlh 0 4
  next := align
  avail := sizeT

/-- `RTA_OK(rta, rta_len)` and `RTA_NEXT`; the length is an `int`. -/
def rtattrFormat : Format where
  header := 4
  lengthAt rta := field rta 0 2
  next := align
  avail := Int.toNat

/-- `nlh->nlmsg_len - NLMSG_LENGTH(size)` as an `int`. -/
def attributesLen (nlh : Bytes) (size : ℕ) : ℤ :=
  Int.bmod ((field nlh 0 4 : ℤ) - (16 + size : ℕ)) (2 ^ 32)

/-! ## Attributes -/

/-- An attribute of a link. -/
def linkAttribute (iface : ScannedIface) (rta : Bytes) : ScannedIface × Bool :=
  if field rta 2 2 = IFLA_IFNAME then
    -- `strncpy` stops at the first zero, and at most 63 bytes are copied
    ({ iface with name := (slice 4 63 rta).takeWhile (· != 0) }, false)
  else if field rta 2 2 = IFLA_ADDRESS then
    ({ iface with hwAddr := formatMac (slice 4 (field rta 0 2 - 4) rta) }, false)
  else (iface, false)

/-- An attribute of an address of this family. -/
def addressAttribute (family : ℕ) (ip : IpAddr) (rta : Bytes) : IpAddr × Bool :=
  if field rta 2 2 = IFA_ADDRESS then
    if family = AF_INET then (.v4 (UInt32.ofNat (ofBE (slice 4 4 rta))), false)
    else (.v6 (slice 4 16 rta), false)
  else (ip, false)

/-- The rounds that the loops over attributes and messages may take. -/
structure Fuel where
  attributes : ℕ
  messages : ℕ

/-! ## Messages -/

/-- `list->ifaces[0 .. list->count)`; nothing when a loop has not ended. -/
abbrev IfaceList := Option (List ScannedIface)

/-- An interface after `memset`; its address is the string of zeros. -/
def ScannedIface.blank (index : UInt32) : ScannedIface := ⟨⟨index, formatMac [], []⟩, []⟩

/-- The family's address after `memset`. -/
def blankIp (family : ℕ) : IpAddr :=
  if family = AF_INET then .v4 0 else .v6 (List.replicate 16 0)

/-- `RTM_NEWLINK`. -/
def newLink (fuel : ℕ) (list : List ScannedIface) (nlh : Bytes) : IfaceList :=
  if field nlh 24 4 &&& IFF_UP = 0 then some list
  else if list.length < IFMON_MAX_INTERFACES then
    match rtattrFormat.walk linkAttribute fuel (.blank (UInt32.ofNat (field nlh 20 4)))
        (nlh.drop 32) (attributesLen nlh 16) with
    | none => none
    | some (iface, _) => if isIfaceAllowed iface.name then some (list ++ [iface]) else some list
  else some list

/-- `RTM_NEWADDR`. -/
def newAddr (fuel : ℕ) (list : List ScannedIface) (nlh : Bytes) : IfaceList :=
  let index := UInt32.ofNat (field nlh 20 4)
  let family := field nlh 16 1
  match list.find? (·.index == index) with
  | none => some list
  | some iface =>
    if family = AF_INET ∨ family = AF_INET6 then
      if iface.addrs.length < IFMON_MAX_IPS_PER_IFACE then
        match rtattrFormat.walk (addressAttribute family) fuel (blankIp family) (nlh.drop 24)
            (attributesLen nlh 8) with
        | none => none
        | some (ip, _) =>
          some (updateFirst (·.index == index) (fun f => { f with
            addrs := f.addrs ++ [⟨ip, UInt8.ofNat (field nlh 17 1)⟩] }) list)
      else some list
    else some list

/-- The body of a loop over messages, for the messages of a type. -/
def message (type : ℕ) (handle : List ScannedIface → Bytes → IfaceList) (list : IfaceList)
    (nlh : Bytes) : IfaceList × Bool :=
  if field nlh 4 2 = NLMSG_DONE then (list, true)
  else if field nlh 4 2 = NLMSG_ERROR then (list, true)
  else if field nlh 4 2 = type then (list.bind fun l => handle l nlh, false)
  else (list, false)

/-! ## Reading -/

/-- What `recv` gives: bytes in the scratchpad, with the memory behind them, `EINTR`, or another
error. -/
inductive Recv where
  | bytes (received behind : Bytes)
  | interrupted
  | failed

/-- The loop over `recv`, for so many answers at most: the list, and the answers that are left.
Nothing when the last `recv` has not returned. -/
def readDump (body : IfaceList → Bytes → IfaceList × Bool) (fuel : ℕ) :
    ℕ → IfaceList → List Recv → Option (IfaceList × List Recv)
  | 0, list, reads => some (list, reads)
  | _ + 1, _, [] => none
  | n + 1, list, .interrupted :: reads => readDump body fuel (n + 1) list reads
  | _ + 1, list, .failed :: reads => some (list, reads)
  | n + 1, list, .bytes received behind :: reads =>
    match nlmsgFormat.walk body fuel list (received ++ behind) received.length with
    | none => none
    | some (list, true) => some (list, reads)
    | some (list, false) => readDump body fuel n list reads

/-- The iterations of the loops over `recv`. -/
def MAX_READS : ℕ := 1000

/-- What the calls give. -/
structure NetlinkIO where
  socketOk : Bool
  linksSent : Bool
  addrsSent : Bool
  reads : List Recv

/-- `ifmon_list_get`: whether it returns 0, and the list. Nothing when it does not return within the
fuel. -/
def ifmonListGet (fuel : Fuel) (io : NetlinkIO) : Option (Bool × List ScannedIface) :=
  if !io.socketOk then some (false, [])
  else if !io.linksSent then some (false, [])
  else
    match readDump (message RTM_NEWLINK (newLink fuel.attributes)) fuel.messages MAX_READS (some [])
        io.reads with
    | none => none
    | some (none, _) => none
    | some (some list, reads) =>
      if !io.addrsSent then some (false, list)
      else
        match readDump (message RTM_NEWADDR (newAddr fuel.attributes)) fuel.messages MAX_READS
            (some list) reads with
        | none => none
        | some (none, _) => none
        | some (some list, _) => some (true, list.map (·.fillPrefixes))

/-! ## Whatever the memory holds -/

theorem length_hexByte (b : UInt8) : (hexByte b).length = 2 := rfl

/-- `format_mac` writes 17 characters. -/
theorem length_formatMac (bytes : Bytes) : (formatMac bytes).length = 17 := by
  have hpadded : (bytes.take 6 ++ List.replicate (6 - bytes.length) 0).length = 6 := by
    rw [List.length_append, List.length_take, List.length_replicate]
    omega
  have hsum : ∀ bs : Bytes,
      (bs.flatMap fun b => literal ":" ++ hexByte b).length = 3 * bs.length := by
    intro bs
    induction bs with
    | nil => rfl
    | cons b bs ih =>
      rw [List.flatMap_cons, List.length_append, ih, List.length_append, length_hexByte,
        List.length_cons, show (literal ":").length = 1 by decide]
      omega
  rw [formatMac, List.length_drop, hsum, hpadded]

/-- An interface that fits into an `ifmon_iface_t`: the strings end in their arrays. -/
structure ScannedIface.Fits (f : ScannedIface) : Prop where
  name_le : f.name.length ≤ 63
  name_ends : 0 ∉ f.name
  hwAddr_eq : f.hwAddr.length = 17
  addrs_le : f.addrs.length ≤ IFMON_MAX_IPS_PER_IFACE

/-- A list that fits into an `ifmon_list_t`, without the names that are skipped. -/
structure ListFits (list : List ScannedIface) : Prop where
  count_le : list.length ≤ IFMON_MAX_INTERFACES
  fits : ∀ f ∈ list, f.Fits
  allowed : ∀ f ∈ list, isIfaceAllowed f.name = true

theorem ScannedIface.fits_blank (index : UInt32) : (ScannedIface.blank index).Fits :=
  ⟨Nat.zero_le _, List.not_mem_nil, length_formatMac [], Nat.zero_le _⟩

theorem ScannedIface.Fits.linkAttribute {f : ScannedIface} (h : f.Fits) (rta : Bytes) :
    (linkAttribute f rta).1.Fits := by
  unfold Bishlink.linkAttribute
  split
  · refine ⟨?_, ?_, h.hwAddr_eq, h.addrs_le⟩
    · have hle := (List.takeWhile_sublist (p := (· != 0)) (l := slice 4 63 rta)).length_le
      rw [length_slice] at hle
      exact hle.trans (Nat.min_le_left _ _)
    · exact fun hzero => absurd (List.mem_takeWhile_imp hzero) (by decide)
  · split
    · exact ⟨h.name_le, h.name_ends, length_formatMac _, h.addrs_le⟩
    · exact h

theorem ListFits.newLink {fuel : ℕ} {list list' : List ScannedIface} (h : ListFits list)
    {nlh : Bytes} (hnew : newLink fuel list nlh = some list') : ListFits list' := by
  unfold Bishlink.newLink at hnew
  split at hnew
  · rw [← Option.some.inj hnew]
    exact h
  split at hnew
  · next hroom =>
    split at hnew
    · exact absurd hnew.symm (Option.some_ne_none _)
    · next iface leaves hwalk =>
      have hiface : iface.Fits := walk_invariant (P := ScannedIface.Fits)
        (fun f rta hf => hf.linkAttribute rta) hwalk (ScannedIface.fits_blank _)
      split at hnew
      · next hallowed =>
        rw [← Option.some.inj hnew]
        refine ⟨?_, ?_, ?_⟩
        · rw [List.length_append, List.length_singleton]
          exact hroom
        · intro f hf
          rcases List.mem_append.mp hf with hf | hf
          · exact h.fits f hf
          · exact List.mem_singleton.mp hf ▸ hiface
        · intro f hf
          rcases List.mem_append.mp hf with hf | hf
          · exact h.allowed f hf
          · exact List.mem_singleton.mp hf ▸ hallowed
      · rw [← Option.some.inj hnew]
        exact h
  · rw [← Option.some.inj hnew]
    exact h

/-- An interface with one more address, if there is room. -/
def pushAddr (a : IfmonAddr) (f : ScannedIface) : ScannedIface :=
  { f with addrs := FixedArray.push IFMON_MAX_IPS_PER_IFACE f.addrs a }

/-- The update reaches the first match only, which has room. -/
theorem updateFirst_pushAddr {list : List ScannedIface} {p : ScannedIface → Bool}
    {iface : ScannedIface} (hfind : list.find? p = some iface)
    (hroom : iface.addrs.length < IFMON_MAX_IPS_PER_IFACE) (a : IfmonAddr) :
    updateFirst p (fun f => { f with addrs := f.addrs ++ [a] }) list =
      updateFirst p (pushAddr a) list := by
  refine updateFirst_congr fun g hg => ?_
  rw [← Option.some.inj (hfind.symm.trans hg), pushAddr, FixedArray.push, if_pos hroom]

theorem ScannedIface.Fits.pushAddr {f : ScannedIface} (h : f.Fits) (a : IfmonAddr) :
    (pushAddr a f).Fits := by
  refine ⟨h.name_le, h.name_ends, h.hwAddr_eq, ?_⟩
  show (FixedArray.push IFMON_MAX_IPS_PER_IFACE f.addrs a).length ≤ IFMON_MAX_IPS_PER_IFACE
  rw [FixedArray.push]
  split
  · next hroom =>
    rw [List.length_append, List.length_singleton]
    exact hroom
  · exact h.addrs_le

theorem ListFits.newAddr {fuel : ℕ} {list list' : List ScannedIface} (h : ListFits list)
    {nlh : Bytes} (hnew : newAddr fuel list nlh = some list') : ListFits list' := by
  unfold Bishlink.newAddr at hnew
  dsimp only at hnew
  split at hnew
  · rw [← Option.some.inj hnew]
    exact h
  next iface hfind =>
  split at hnew
  · split at hnew
    · next hroom =>
      split at hnew
      · exact absurd hnew.symm (Option.some_ne_none _)
      · next ip leaves hwalk =>
        rw [← Option.some.inj hnew]
        rw [updateFirst_pushAddr hfind hroom]
        refine ⟨?_, ?_, ?_⟩
        · rw [length_updateFirst]
          exact h.count_le
        · intro f hf
          rcases mem_updateFirst hf with hf | ⟨g, hg, -, rfl⟩
          · exact h.fits f hf
          · exact (h.fits g hg).pushAddr _
        · intro f hf
          rcases mem_updateFirst hf with hf | ⟨g, hg, -, rfl⟩
          · exact h.allowed f hf
          · exact h.allowed g hg
    · rw [← Option.some.inj hnew]
      exact h
  · rw [← Option.some.inj hnew]
    exact h

/-- What a loop has made fits, if the loop has ended. -/
def IfaceList.Fits (list : IfaceList) : Prop := ∀ l, list = some l → ListFits l

section Runs

variable {type fuel : ℕ} {handle : List ScannedIface → Bytes → IfaceList}
  (hhandle : ∀ list nlh list', ListFits list → handle list nlh = some list' → ListFits list')
include hhandle

/-- What the messages of the type keep, the loop over the messages keeps. -/
theorem IfaceList.Fits.message {list : IfaceList} (h : list.Fits) (nlh : Bytes) :
    IfaceList.Fits (message type handle list nlh).1 := by
  unfold Bishlink.message
  split
  · exact h
  split
  · exact h
  split
  · intro l hl
    obtain ⟨l', rfl, hl'⟩ := Option.bind_eq_some_iff.mp hl
    exact hhandle l' nlh l (h l' rfl) hl'
  · exact h

theorem IfaceList.Fits.walk {list : IfaceList} (h : list.Fits) {at' : Bytes} {left : ℤ}
    {r : IfaceList × Bool}
    (hwalk : nlmsgFormat.walk (Bishlink.message type handle) fuel list at' left = some r) :
    r.1.Fits :=
  walk_invariant (P := IfaceList.Fits) (fun _ nlh hlist => hlist.message hhandle nlh) hwalk h

/-- The loop over `recv` keeps it, whatever is received. -/
theorem IfaceList.Fits.readDump {n : ℕ} {list : IfaceList} (h : list.Fits) {reads : List Recv}
    {r : IfaceList × List Recv}
    (hread : readDump (Bishlink.message type handle) fuel n list reads = some r) : r.1.Fits := by
  fun_induction Bishlink.readDump (Bishlink.message type handle) fuel n list reads with
  | case1 list reads =>
    rw [← Option.some.inj hread]
    exact h
  | case2 => exact absurd hread.symm (Option.some_ne_none r)
  | case3 n list reads ih => exact ih h hread
  | case4 n list reads =>
    rw [← Option.some.inj hread]
    exact h
  | case5 => exact absurd hread.symm (Option.some_ne_none r)
  | case6 n list received behind reads list' hwalk =>
    rw [← Option.some.inj hread]
    exact h.walk hhandle hwalk
  | case7 n list received behind reads list' hwalk ih => exact ih (h.walk hhandle hwalk) hread

end Runs

theorem ScannedIface.fillPrefixes_ne_zero (f : ScannedIface) :
    ∀ a ∈ f.fillPrefixes.addrs, a.prefixLen ≠ 0 := by
  intro a ha
  obtain ⟨b, -, rfl⟩ := List.mem_map.mp ha
  by_cases hzero : b.prefixLen = 0
  · rw [if_pos hzero]
    dsimp only
    split
    · exact defaultPrefix_ne_zero _ (by decide) _
    · exact defaultPrefix_ne_zero _ (by decide) _
  · rw [if_neg hzero]
    exact hzero

theorem ListFits.fillPrefixes {list : List ScannedIface} (h : ListFits list) :
    ListFits (list.map (·.fillPrefixes)) := by
  refine ⟨?_, fun f hf => ?_, fun f hf => ?_⟩
  · rw [List.length_map]
    exact h.count_le
  · obtain ⟨g, hg, rfl⟩ := List.mem_map.mp hf
    have hfits := h.fits g hg
    refine ⟨hfits.name_le, hfits.name_ends, hfits.hwAddr_eq, ?_⟩
    show (g.addrs.map _).length ≤ IFMON_MAX_IPS_PER_IFACE
    rw [List.length_map]
    exact hfits.addrs_le
  · obtain ⟨g, hg, rfl⟩ := List.mem_map.mp hf
    exact h.allowed g hg

/-- Whatever the calls give, what `ifmon_list_get` writes fits into its list, and no interface in it
has a name that is skipped; when it returns 0, each address has a prefix length. -/
theorem listed_fits {fuel : Fuel} {io : NetlinkIO} {ok : Bool} {list : List ScannedIface}
    (h : ifmonListGet fuel io = some (ok, list)) :
    ListFits list ∧ (ok = true → ∀ f ∈ list, ∀ a ∈ f.addrs, a.prefixLen ≠ 0) := by
  have hempty : ListFits [] := ⟨Nat.zero_le _, by simp, by simp⟩
  have hstart : IfaceList.Fits (some []) := fun l hl => Option.some.inj hl ▸ hempty
  unfold ifmonListGet at h
  split at h
  · obtain ⟨rfl, rfl⟩ := Prod.mk.inj (Option.some.inj h)
    exact ⟨hempty, fun hok => absurd hok Bool.false_ne_true⟩
  split at h
  · obtain ⟨rfl, rfl⟩ := Prod.mk.inj (Option.some.inj h)
    exact ⟨hempty, fun hok => absurd hok Bool.false_ne_true⟩
  split at h
  · exact absurd h.symm (Option.some_ne_none _)
  · exact absurd h.symm (Option.some_ne_none _)
  next links reads hlinks =>
  have hfirst : IfaceList.Fits (some links) :=
    hstart.readDump (fun _ _ _ hlist hnew => hlist.newLink hnew) hlinks
  split at h
  · obtain ⟨rfl, rfl⟩ := Prod.mk.inj (Option.some.inj h)
    exact ⟨hfirst links rfl, fun hok => absurd hok Bool.false_ne_true⟩
  split at h
  · exact absurd h.symm (Option.some_ne_none _)
  · exact absurd h.symm (Option.some_ne_none _)
  next addrs rest haddrs =>
  have hsecond : IfaceList.Fits (some addrs) :=
    hfirst.readDump (fun _ _ _ hlist hnew => hlist.newAddr hnew) haddrs
  obtain ⟨rfl, rfl⟩ := Prod.mk.inj (Option.some.inj h)
  refine ⟨(hsecond addrs rfl).fillPrefixes, fun _ f hf => ?_⟩
  obtain ⟨g, -, rfl⟩ := List.mem_map.mp hf
  exact g.fillPrefixes_ne_zero

/-- A link whose name does not end in its message, and `NLMSG_DONE` twice. -/
def unendedName : NetlinkIO where
  socketOk := true
  linksSent := true
  addrsSent := true
  reads :=
    [.bytes ([40, 0, 0, 0, 16, 0, 0, 0, 0, 0, 0, 0, 0, 0, 0, 0] ++
      [0, 0, 1, 0, 2, 0, 0, 0, 1, 0, 0, 0, 0, 0, 0, 0] ++ [8, 0, 3, 0] ++ literal "eth0")
        (literal "xy" ++ [0, 7]),
      .interrupted,
      .bytes [16, 0, 0, 0, 3, 0, 0, 0, 0, 0, 0, 0, 0, 0, 0, 0] [],
      .bytes [16, 0, 0, 0, 3, 0, 0, 0, 0, 0, 0, 0, 0, 0, 0, 0] []]

theorem listed_fits_unendedName :
    ListFits [⟨⟨2, formatMac [], []⟩, literal "eth0xy"⟩] :=
  (listed_fits (show ifmonListGet ⟨3, 3⟩ unendedName = some (true, _) by decide +kernel)).1

end Bishlink
