import Bishlink.Lib.FixedArray
import Bishlink.Netlink

/-!
# What the kernel dumps

The answers to `RTM_GETLINK` and `RTM_GETADDR` as the kernel writes them: messages of attributes,
padded to four bytes, a few of them in each datagram, the last datagram with `NLMSG_DONE`.
`interfaces_listed` says what `ifmon_list_get` makes of two such dumps: the first 16 links that are
up and have an accepted name, each with the first 16 addresses of its index. Nothing behind the
received bytes has a part in it.
-/

namespace Bishlink

open ByteCodec FirstMatch FixedArray Records

/-! ## Bytes -/

/-- A number of so many bytes in memory, on a little-endian host. -/
def leBytes (size n : ℕ) : Bytes := (toBE size n).reverse

/-- Bytes filled up to a multiple of four. -/
def padded (bs : Bytes) : Bytes := bs ++ List.replicate ((4 - bs.length % 4) % 4) 0

@[simp] theorem length_leBytes (size n : ℕ) : (leBytes size n).length = size := by
  rw [leBytes, List.length_reverse, length_toBE]

theorem length_padded {bs : Bytes} (h : bs.length + 3 < 2 ^ 32) :
    (padded bs).length = align bs.length := by
  rw [padded, List.length_append, List.length_replicate, align]
  omega

theorem padded_append (bs more : Bytes) : ∃ fill, padded bs ++ more = bs ++ fill :=
  ⟨_, List.append_assoc _ _ _⟩

/-- A field is read back. -/
theorem field_leBytes {size n : ℕ} (h : n < 256 ^ size) (rest : Bytes) :
    field (leBytes size n ++ rest) 0 size = n := by
  have hslice := slice_zero_append (leBytes size n) rest
  rw [length_leBytes] at hslice
  rw [field, hslice, ofHostBytes, leBytes, List.reverse_reverse, ofBE_toBE_of_lt h]

/-- A field behind others. -/
theorem field_append_right {pre : Bytes} {off : ℕ} (size : ℕ) (rest : Bytes)
    (h : pre.length ≤ off) : field (pre ++ rest) off size = field rest (off - pre.length) size := by
  rw [field, field, slice_append_right _ _ h]

theorem field_drop (at' : Bytes) (off n size : ℕ) :
    field (at'.drop n) off size = field at' (n + off) size := by
  rw [field, field, slice, slice, List.drop_drop]

/-! ## Attributes -/

/-- An attribute. -/
structure Rtattr where
  type : UInt16
  payload : Bytes
  fits : 4 + payload.length < 2 ^ 16

namespace Rtattr

variable (a : Rtattr)

def encode : Bytes :=
  padded (leBytes 2 (4 + a.payload.length) ++ (leBytes 2 a.type.toNat ++ a.payload))

theorem encode_append (more : Bytes) : ∃ fill, a.encode ++ more =
    leBytes 2 (4 + a.payload.length) ++ (leBytes 2 a.type.toNat ++ (a.payload ++ fill)) := by
  obtain ⟨fill, hfill⟩ := padded_append
    (leBytes 2 (4 + a.payload.length) ++ (leBytes 2 a.type.toNat ++ a.payload)) more
  refine ⟨fill, hfill.trans ?_⟩
  rw [List.append_assoc, List.append_assoc]

theorem field_len (more : Bytes) : field (a.encode ++ more) 0 2 = 4 + a.payload.length := by
  obtain ⟨fill, hfill⟩ := a.encode_append more
  rw [hfill]
  exact field_leBytes a.fits _

theorem field_type (more : Bytes) : field (a.encode ++ more) 2 2 = a.type.toNat := by
  obtain ⟨fill, hfill⟩ := a.encode_append more
  rw [hfill, field_append_right _ _ (by simp), length_leBytes]
  exact field_leBytes a.type.toNat_lt _

theorem drop_encode (more : Bytes) : ∃ fill, (a.encode ++ more).drop 4 = a.payload ++ fill := by
  obtain ⟨fill, hfill⟩ := a.encode_append more
  refine ⟨fill, ?_⟩
  rw [hfill, ← List.append_assoc, List.drop_left' (by simp)]

theorem length_encode : a.encode.length = align (4 + a.payload.length) := by
  have hfits := a.fits
  have hlength : (leBytes 2 (4 + a.payload.length) ++
      (leBytes 2 a.type.toNat ++ a.payload)).length = 4 + a.payload.length := by
    simp only [List.length_append, length_leBytes]
    omega
  rw [encode, length_padded (by omega), hlength]

theorem record : rtattrFormat.Record a.encode := by
  have hfits := a.fits
  have hlength := a.length_encode
  refine ⟨4 + a.payload.length, a.field_len, Nat.le_add_right 4 _, ?_, hlength.symm⟩
  rw [hlength, align]
  omega

/-- The bytes of a payload that are in the attribute. -/
theorem slice_payload {n : ℕ} (h : n ≤ a.payload.length) (more : Bytes) :
    slice 4 n (a.encode ++ more) = a.payload.take n := by
  obtain ⟨fill, hfill⟩ := a.drop_encode more
  rw [slice, hfill, List.take_append_of_le_length h]

end Rtattr

/-- The last attribute of a type, as `strncpy` and `memcpy` leave it. -/
def lastAttr (type : ℕ) (attrs : List Rtattr) : Option Bytes :=
  ((attrs.filter (·.type.toNat == type)).getLast?).map (·.payload)

theorem lastAttr_append_self {type : ℕ} (attrs : List Rtattr) {a : Rtattr}
    (h : a.type.toNat = type) : lastAttr type (attrs ++ [a]) = some a.payload := by
  simp [lastAttr, h]

theorem lastAttr_append_of_ne {type : ℕ} (attrs : List Rtattr) {a : Rtattr}
    (h : a.type.toNat ≠ type) : lastAttr type (attrs ++ [a]) = lastAttr type attrs := by
  simp [lastAttr, h]

/-- The loop over the attributes of a message. -/
theorem walk_attributes {σ : Type} {body : σ → Bytes → σ × Bool} (step : σ → Rtattr → σ)
    {attrs : List Rtattr}
    (hbody : ∀ s, ∀ a ∈ attrs, ∀ more, body s (a.encode ++ more) = (step s a, false)) {n : ℕ}
    (hn : attrs.length < n) (s : σ) (more : Bytes) :
    rtattrFormat.walk body n s (attrs.flatMap (·.encode) ++ more)
      (attrs.flatMap (·.encode)).length = some (attrs.foldl step s, false) := by
  rw [walk_records (fun s a => (step s a, false)) (by decide) (fun n _ => rfl)
    (fun a _ => a.record) hbody hn, foldUntil_of_stays step fun _ _ _ => rfl]

/-! ## Links -/

/-- A C string as `strncpy` takes it over into `name`. -/
def ifaceName (bytes : Bytes) : Bytes := (bytes.take 63).takeWhile (· != 0)

/-- A string that ends in its own bytes. -/
theorem takeWhile_take_append {bytes : Bytes} (h : 0 ∈ bytes) (n : ℕ) (more : Bytes) :
    ((bytes ++ more).take n).takeWhile (· != 0) = (bytes.take n).takeWhile (· != 0) := by
  by_cases hn : n ≤ bytes.length
  · rw [List.take_append_of_le_length hn]
  · -- the cut is behind the string, which ends before it at its own zero
    have hlength : (bytes.takeWhile (· != 0)).length ≠ bytes.length := by
      intro hall
      have hself := List.Sublist.eq_of_length (List.takeWhile_sublist (p := (· != 0))) hall
      have hzero := List.mem_takeWhile_imp (hself.symm ▸ h)
      exact absurd hzero (by decide)
    rw [List.take_append, List.take_of_length_le (by omega), List.takeWhile_append,
      if_neg hlength]

/-- `ifinfomsg` with its attributes; the kernel ends a name with a zero. -/
structure Ifinfomsg where
  family : UInt8
  type : UInt16
  index : UInt32
  flags : UInt32
  change : UInt32
  attrs : List Rtattr
  named : ∀ a ∈ attrs, a.type.toNat = IFLA_IFNAME → 0 ∈ a.payload

namespace Ifinfomsg

variable (l : Ifinfomsg)

def encode : Bytes :=
  [l.family, 0] ++ (leBytes 2 l.type.toNat ++ (leBytes 4 l.index.toNat ++
    (leBytes 4 l.flags.toNat ++ (leBytes 4 l.change.toNat ++ l.attrs.flatMap (·.encode)))))

/-- The interface of a link. -/
def iface : ScannedIface where
  index := l.index
  hwAddr := formatMac ((lastAttr IFLA_ADDRESS l.attrs).getD [])
  addrs := []
  name := ifaceName ((lastAttr IFLA_IFNAME l.attrs).getD [])

/-- The link is up, and its name is an accepted one. -/
def listed : Bool := decide (l.flags.toNat &&& IFF_UP ≠ 0) && isIfaceAllowed l.iface.name

theorem length_encode : l.encode.length = 16 + (l.attrs.flatMap (·.encode)).length := by
  rw [encode]
  simp only [List.length_append, List.length_cons, List.length_nil, length_leBytes]
  omega

theorem field_index (more : Bytes) : field (l.encode ++ more) 4 4 = l.index.toNat := by
  rw [encode, List.append_assoc, field_append_right _ _ (by simp), List.append_assoc,
    field_append_right _ _ (by simp), List.append_assoc, length_leBytes]
  exact field_leBytes l.index.toNat_lt _

theorem field_flags (more : Bytes) : field (l.encode ++ more) 8 4 = l.flags.toNat := by
  rw [encode, List.append_assoc, field_append_right _ _ (by simp), List.append_assoc,
    field_append_right _ _ (by simp), List.append_assoc, field_append_right _ _ (by simp),
    List.append_assoc, length_leBytes, length_leBytes]
  exact field_leBytes l.flags.toNat_lt _

theorem drop_encode (more : Bytes) :
    (l.encode ++ more).drop 16 = l.attrs.flatMap (·.encode) ++ more := by
  have hsplit : l.encode ++ more = ([l.family, 0] ++ (leBytes 2 l.type.toNat ++
      (leBytes 4 l.index.toNat ++ (leBytes 4 l.flags.toNat ++ leBytes 4 l.change.toNat)))) ++
        (l.attrs.flatMap (·.encode) ++ more) := by
    simp only [encode, List.append_assoc]
  rw [hsplit, List.drop_left' (by simp)]

end Ifinfomsg

/-- An attribute of a link. -/
def onLink (iface : ScannedIface) (a : Rtattr) : ScannedIface :=
  if a.type.toNat = IFLA_IFNAME then { iface with name := ifaceName a.payload }
  else if a.type.toNat = IFLA_ADDRESS then { iface with hwAddr := formatMac a.payload }
  else iface

theorem linkAttribute_encode (iface : ScannedIface) {a : Rtattr}
    (hnamed : a.type.toNat = IFLA_IFNAME → 0 ∈ a.payload) (more : Bytes) :
    linkAttribute iface (a.encode ++ more) = (onLink iface a, false) := by
  rw [linkAttribute, a.field_type, onLink]
  by_cases hname : a.type.toNat = IFLA_IFNAME
  · obtain ⟨fill, hfill⟩ := a.drop_encode more
    rw [if_pos hname, if_pos hname, slice, hfill, takeWhile_take_append (hnamed hname), ifaceName]
  · rw [if_neg hname, if_neg hname]
    by_cases haddress : a.type.toNat = IFLA_ADDRESS
    · rw [if_pos haddress, if_pos haddress, a.field_len, Nat.add_sub_cancel_left,
        a.slice_payload (Nat.le_refl _), List.take_length]
    · rw [if_neg haddress, if_neg haddress]

/-- The attributes of a link, one after the other. -/
theorem foldl_onLink (index : UInt32) (attrs : List Rtattr) :
    attrs.foldl onLink (ScannedIface.blank index) =
      ⟨⟨index, formatMac ((lastAttr IFLA_ADDRESS attrs).getD []), []⟩,
        ifaceName ((lastAttr IFLA_IFNAME attrs).getD [])⟩ := by
  induction attrs using List.reverseRecOn with
  | nil => rfl
  | append_singleton attrs a ih =>
    rw [List.foldl_append, ih, List.foldl_cons, List.foldl_nil, onLink]
    by_cases hname : a.type.toNat = IFLA_IFNAME
    · have haddress : a.type.toNat ≠ IFLA_ADDRESS := by rw [hname]; decide
      rw [if_pos hname, lastAttr_append_self attrs hname, lastAttr_append_of_ne attrs haddress]
      rfl
    · rw [if_neg hname, lastAttr_append_of_ne attrs hname]
      by_cases haddress : a.type.toNat = IFLA_ADDRESS
      · rw [if_pos haddress, lastAttr_append_self attrs haddress]
        rfl
      · rw [if_neg haddress, lastAttr_append_of_ne attrs haddress]

/-! ## Addresses -/

/-- `ifaddrmsg` with its attributes; an address has the size of its family. -/
structure Ifaddrmsg where
  family : UInt8
  prefixlen : UInt8
  flags : UInt8
  scope : UInt8
  index : UInt32
  attrs : List Rtattr
  full : ∀ a ∈ attrs, a.type.toNat = IFA_ADDRESS →
    (if family.toNat = AF_INET then 4 else 16) ≤ a.payload.length

namespace Ifaddrmsg

variable (m : Ifaddrmsg)

def encode : Bytes :=
  [m.family, m.prefixlen, m.flags, m.scope] ++
    (leBytes 4 m.index.toNat ++ m.attrs.flatMap (·.encode))

/-- An IPv4 or IPv6 address. -/
def inet : Bool := decide (m.family.toNat = AF_INET ∨ m.family.toNat = AF_INET6)

/-- The address that a payload holds. -/
def ipOf (payload : Bytes) : IpAddr :=
  if m.family.toNat = AF_INET then .v4 (UInt32.ofNat (ofBE (payload.take 4)))
  else .v6 (payload.take 16)

/-- The address with its prefix length. -/
def ifmonAddr : IfmonAddr where
  ip := ((lastAttr IFA_ADDRESS m.attrs).map m.ipOf).getD (blankIp m.family.toNat)
  prefixLen := m.prefixlen

theorem length_encode : m.encode.length = 8 + (m.attrs.flatMap (·.encode)).length := by
  rw [encode]
  simp only [List.length_append, List.length_cons, List.length_nil, length_leBytes]
  omega

theorem field_byte (b : UInt8) (rest : Bytes) : field (b :: rest) 0 1 = b.toNat := by
  show (ofBE [b]) = _
  rw [ofBE_cons, ofBE_nil]
  simp

theorem field_family (more : Bytes) : field (m.encode ++ more) 0 1 = m.family.toNat :=
  field_byte m.family _

theorem field_prefixlen (more : Bytes) : field (m.encode ++ more) 1 1 = m.prefixlen.toNat :=
  field_byte m.prefixlen _

theorem field_index (more : Bytes) : field (m.encode ++ more) 4 4 = m.index.toNat := by
  rw [encode, List.append_assoc, field_append_right _ _ (by simp), List.append_assoc]
  exact field_leBytes m.index.toNat_lt _

theorem drop_encode (more : Bytes) :
    (m.encode ++ more).drop 8 = m.attrs.flatMap (·.encode) ++ more := by
  have hsplit : m.encode ++ more = ([m.family, m.prefixlen, m.flags, m.scope] ++
      leBytes 4 m.index.toNat) ++ (m.attrs.flatMap (·.encode) ++ more) := by
    simp only [encode, List.append_assoc]
  rw [hsplit, List.drop_left' (by simp)]

/-- An attribute of an address. -/
def onAddr (ip : IpAddr) (a : Rtattr) : IpAddr :=
  if a.type.toNat = IFA_ADDRESS then m.ipOf a.payload else ip

theorem addressAttribute_encode (ip : IpAddr) {a : Rtattr} (ha : a ∈ m.attrs) (more : Bytes) :
    addressAttribute m.family.toNat ip (a.encode ++ more) = (m.onAddr ip a, false) := by
  rw [addressAttribute, a.field_type, onAddr]
  by_cases haddress : a.type.toNat = IFA_ADDRESS
  · have hfull := m.full a ha haddress
    rw [if_pos haddress, if_pos haddress, ipOf]
    by_cases hfamily : m.family.toNat = AF_INET
    · rw [if_pos hfamily] at hfull
      rw [if_pos hfamily, if_pos hfamily, a.slice_payload hfull]
    · rw [if_neg hfamily] at hfull
      rw [if_neg hfamily, if_neg hfamily, a.slice_payload hfull]
  · rw [if_neg haddress, if_neg haddress]

/-- The attributes of an address, one after the other. -/
theorem foldl_onAddr (attrs : List Rtattr) (ip : IpAddr) :
    attrs.foldl m.onAddr ip = ((lastAttr IFA_ADDRESS attrs).map m.ipOf).getD ip := by
  induction attrs using List.reverseRecOn with
  | nil => rfl
  | append_singleton attrs a ih =>
    rw [List.foldl_append, ih, List.foldl_cons, List.foldl_nil, onAddr]
    by_cases haddress : a.type.toNat = IFA_ADDRESS
    · rw [if_pos haddress, lastAttr_append_self attrs haddress]
      rfl
    · rw [if_neg haddress, lastAttr_append_of_ne attrs haddress]

end Ifaddrmsg

/-! ## Messages -/

/-- The size of the scratchpad on Linux. -/
def IFMON_SCRATCHPAD_SIZE : ℕ := 8192

/-- What is behind a header. -/
inductive NlBody where
  | link (l : Ifinfomsg)
  | addr (m : Ifaddrmsg)
  | other (type : UInt16) (payload : Bytes)
    (h : type.toNat ≠ RTM_NEWLINK ∧ type.toNat ≠ RTM_NEWADDR)

namespace NlBody

def type : NlBody → ℕ
  | .link _ => RTM_NEWLINK
  | .addr _ => RTM_NEWADDR
  | .other type _ _ => type.toNat

def payload : NlBody → Bytes
  | .link l => l.encode
  | .addr m => m.encode
  | .other _ payload _ => payload

theorem type_lt (b : NlBody) : b.type < 256 ^ 2 := by
  cases b with
  | link l =>
    show RTM_NEWLINK < 256 ^ 2
    decide
  | addr m =>
    show RTM_NEWADDR < 256 ^ 2
    decide
  | other type payload h => exact type.toNat_lt

end NlBody

/-- `nlmsghdr` and what is behind it. -/
structure Nlmsg where
  flags : UInt16
  seq : UInt32
  pid : UInt32
  body : NlBody
  fits : 16 + body.payload.length ≤ IFMON_SCRATCHPAD_SIZE

namespace Nlmsg

variable (m : Nlmsg)

/-- `nlmsghdr`. -/
def header : Bytes :=
  leBytes 4 (16 + m.body.payload.length) ++ (leBytes 2 m.body.type ++ (leBytes 2 m.flags.toNat ++
    (leBytes 4 m.seq.toNat ++ leBytes 4 m.pid.toNat)))

def encode : Bytes := padded (m.header ++ m.body.payload)

/-- The message ends a dump. -/
def ends : Bool := decide (m.body.type = NLMSG_DONE ∨ m.body.type = NLMSG_ERROR)

theorem length_header : m.header.length = 16 := by
  simp [header]

theorem encode_append (more : Bytes) :
    ∃ fill, m.encode ++ more = m.header ++ (m.body.payload ++ fill) := by
  obtain ⟨fill, hfill⟩ := padded_append (m.header ++ m.body.payload) more
  exact ⟨fill, hfill.trans (List.append_assoc _ _ _)⟩

theorem field_len (more : Bytes) : field (m.encode ++ more) 0 4 = 16 + m.body.payload.length := by
  have hfits := m.fits
  rw [IFMON_SCRATCHPAD_SIZE] at hfits
  obtain ⟨fill, hfill⟩ := m.encode_append more
  rw [hfill, header, List.append_assoc]
  exact field_leBytes (by omega) _

theorem field_type (more : Bytes) : field (m.encode ++ more) 4 2 = m.body.type := by
  obtain ⟨fill, hfill⟩ := m.encode_append more
  rw [hfill, header, List.append_assoc, field_append_right _ _ (by simp), length_leBytes,
    List.append_assoc]
  exact field_leBytes m.body.type_lt _

theorem drop_encode (more : Bytes) :
    ∃ fill, (m.encode ++ more).drop 16 = m.body.payload ++ fill := by
  obtain ⟨fill, hfill⟩ := m.encode_append more
  refine ⟨fill, ?_⟩
  rw [hfill, List.drop_left' m.length_header]

theorem length_encode : m.encode.length = align (16 + m.body.payload.length) := by
  have hfits := m.fits
  rw [IFMON_SCRATCHPAD_SIZE] at hfits
  have hlength : (m.header ++ m.body.payload).length = 16 + m.body.payload.length := by
    rw [List.length_append, length_header]
  rw [encode, length_padded (by omega), hlength]

theorem record : nlmsgFormat.Record m.encode := by
  have hfits := m.fits
  have hlength := m.length_encode
  rw [IFMON_SCRATCHPAD_SIZE] at hfits
  refine ⟨16 + m.body.payload.length, m.field_len, Nat.le_add_right 16 _, ?_, hlength.symm⟩
  rw [hlength, align]
  omega

/-- The length of the attributes behind a structure of so many bytes. -/
theorem attributesLen_encode {size n : ℕ} (h : m.body.payload.length = size + n) (more : Bytes) :
    attributesLen (m.encode ++ more) size = n := by
  have hfits := m.fits
  rw [IFMON_SCRATCHPAD_SIZE] at hfits
  rw [attributesLen, m.field_len, h]
  have hsub : ((16 + (size + n) : ℕ) : ℤ) - (16 + size : ℕ) = n := by omega
  rw [hsub]
  exact Int.bmod_eq_of_le (by omega) (by omega)

end Nlmsg

/-! ## What a message does -/

/-- A message of the first dump. -/
def stepLink (list : List ScannedIface) (m : Nlmsg) : List ScannedIface :=
  match m.body with
  | .link l => if l.listed then push IFMON_MAX_INTERFACES list l.iface else list
  | _ => list

/-- A message of the second dump. -/
def stepAddr (list : List ScannedIface) (m : Nlmsg) : List ScannedIface :=
  match m.body with
  | .addr a => if a.inet then updateFirst (·.index == a.index) (pushAddr a.ifmonAddr) list else list
  | _ => list

theorem newLink_encode {fuel : ℕ} (hfuel : IFMON_SCRATCHPAD_SIZE < fuel)
    (list : List ScannedIface) {m : Nlmsg} {l : Ifinfomsg} (hm : m.body = .link l) (more : Bytes) :
    newLink fuel list (m.encode ++ more) =
      some (if l.listed then push IFMON_MAX_INTERFACES list l.iface else list) := by
  have hfits := m.fits
  have hpayload : m.body.payload = l.encode := by rw [hm]; rfl
  obtain ⟨fill, hfill⟩ := m.drop_encode more
  rw [hpayload] at hfits hfill
  have hflags : field (m.encode ++ more) 24 4 = l.flags.toNat := by
    rw [← l.field_flags fill, ← hfill, field_drop]
  have hindex : UInt32.ofNat (field (m.encode ++ more) 20 4) = l.index := by
    rw [← UInt32.ofNat_toNat (x := l.index), ← l.field_index fill, ← hfill, field_drop]
  have hdrop : (m.encode ++ more).drop 32 = l.attrs.flatMap (·.encode) ++ fill := by
    rw [← l.drop_encode fill, ← hfill, List.drop_drop]
  have hlen := m.attributesLen_encode (hpayload ▸ l.length_encode) more
  have hcount : l.attrs.length ≤ (l.attrs.flatMap (·.encode)).length :=
    length_le_flatMap (by decide) fun r _ => r.record
  rw [l.length_encode] at hfits
  rw [newLink, hflags, hindex, hdrop, hlen, Ifinfomsg.listed, push]
  by_cases hup : l.flags.toNat &&& IFF_UP = 0
  · rw [if_pos hup, decide_eq_false (not_not.mpr hup)]
    rfl
  · rw [if_neg hup, decide_eq_true hup, Bool.true_and]
    have hwalk := walk_attributes onLink
      (fun iface a ha more => linkAttribute_encode iface (l.named a ha) more)
      (by omega : l.attrs.length < fuel) (.blank l.index) fill
    rw [foldl_onLink] at hwalk
    by_cases hroom : list.length < IFMON_MAX_INTERFACES
    · rw [if_pos hroom, if_pos hroom, hwalk]
      show (if isIfaceAllowed l.iface.name then some (list ++ [l.iface]) else some list) = _
      split <;> rfl
    · rw [if_neg hroom, if_neg hroom, ite_self]

theorem newAddr_encode {fuel : ℕ} (hfuel : IFMON_SCRATCHPAD_SIZE < fuel)
    (list : List ScannedIface) {m : Nlmsg} {a : Ifaddrmsg} (hm : m.body = .addr a) (more : Bytes) :
    newAddr fuel list (m.encode ++ more) =
      some (if a.inet then updateFirst (·.index == a.index) (pushAddr a.ifmonAddr) list
        else list) := by
  have hfits := m.fits
  have hpayload : m.body.payload = a.encode := by rw [hm]; rfl
  obtain ⟨fill, hfill⟩ := m.drop_encode more
  rw [hpayload] at hfits hfill
  -- the fixed part, and the attributes behind it
  have hfamily : field (m.encode ++ more) 16 1 = a.family.toNat := by
    rw [← a.field_family fill, ← hfill, field_drop]
  have hprefixlen : UInt8.ofNat (field (m.encode ++ more) 17 1) = a.prefixlen := by
    rw [← UInt8.ofNat_toNat (x := a.prefixlen), ← a.field_prefixlen fill, ← hfill, field_drop]
  have hindex : UInt32.ofNat (field (m.encode ++ more) 20 4) = a.index := by
    rw [← UInt32.ofNat_toNat (x := a.index), ← a.field_index fill, ← hfill, field_drop]
  have hdrop : (m.encode ++ more).drop 24 = a.attrs.flatMap (·.encode) ++ fill := by
    rw [← a.drop_encode fill, ← hfill, List.drop_drop]
  have hlen := m.attributesLen_encode (hpayload ▸ a.length_encode) more
  have hcount : a.attrs.length ≤ (a.attrs.flatMap (·.encode)).length :=
    length_le_flatMap (by decide) fun r _ => r.record
  rw [a.length_encode] at hfits
  have hwalk := walk_attributes a.onAddr
    (fun ip r hr more => a.addressAttribute_encode ip hr more)
    (by omega : a.attrs.length < fuel) (blankIp a.family.toNat) fill
  rw [a.foldl_onAddr] at hwalk
  unfold newAddr
  rw [hfamily, hprefixlen, hindex, hdrop, hlen]
  dsimp only
  cases hfind : list.find? (·.index == a.index) with
  | none =>
    -- an address of an interface that was filtered out is dropped
    have hnone := List.find?_eq_none.mp hfind
    have hsame := updateFirst_of_forall (f := pushAddr a.ifmonAddr)
      fun f hf => Bool.not_eq_true _ ▸ hnone f hf
    dsimp only
    rw [hsame, ite_self]
  | some iface =>
    dsimp only
    rw [hwalk]
    dsimp only
    -- the family is tested before the room, and an update without room changes nothing
    by_cases hinet : a.family.toNat = AF_INET ∨ a.family.toNat = AF_INET6
    · have hinet' : a.inet = true := decide_eq_true hinet
      rw [if_pos hinet, if_pos hinet']
      by_cases hroom : iface.addrs.length < IFMON_MAX_IPS_PER_IFACE
      · rw [if_pos hroom, updateFirst_pushAddr hfind hroom]
        rfl
      · rw [if_neg hroom]
        refine congrArg some (updateFirst_of_fixed fun g hg => ?_).symm
        rw [← Option.some.inj (hfind.symm.trans hg), pushAddr, push, if_neg hroom]
    · have hinet' : a.inet = false := decide_eq_false hinet
      rw [if_neg hinet, hinet', if_neg Bool.false_ne_true]

/-- The body of a loop over messages, whatever its type of message does. -/
theorem message_encode {type : ℕ} {handle : List ScannedIface → Bytes → IfaceList}
    {step : List ScannedIface → Nlmsg → List ScannedIface}
    (hhandle : ∀ list m more, m.body.type = type →
      handle list (m.encode ++ more) = some (step list m))
    (hother : ∀ list m, m.body.type ≠ type → step list m = list) (list : IfaceList) (m : Nlmsg)
    (more : Bytes) :
    message type handle list (m.encode ++ more) =
      (if m.ends then list else list.map (step · m), m.ends) := by
  rw [message, m.field_type, Nlmsg.ends]
  by_cases hdone : m.body.type = NLMSG_DONE
  · rw [if_pos hdone, decide_eq_true (Or.inl hdone)]
    rfl
  rw [if_neg hdone]
  by_cases herror : m.body.type = NLMSG_ERROR
  · rw [if_pos herror, decide_eq_true (Or.inr herror)]
    rfl
  rw [if_neg herror, decide_eq_false (not_or.mpr ⟨hdone, herror⟩), if_neg Bool.false_ne_true]
  by_cases htype : m.body.type = type
  · rw [if_pos htype]
    cases list with
    | none => rfl
    | some list => rw [Option.bind_some, hhandle list m more htype, Option.map_some]
  · rw [if_neg htype]
    cases list with
    | none => rfl
    | some list => rw [Option.map_some, hother list m htype]

theorem newLink_step {fuel : ℕ} (hfuel : IFMON_SCRATCHPAD_SIZE < fuel) (list : List ScannedIface)
    (m : Nlmsg) (more : Bytes) (h : m.body.type = RTM_NEWLINK) :
    newLink fuel list (m.encode ++ more) = some (stepLink list m) := by
  cases hbody : m.body with
  | link l => rw [newLink_encode hfuel list hbody, stepLink, hbody]
  | addr a =>
    rw [hbody] at h
    exact absurd h (show RTM_NEWADDR ≠ RTM_NEWLINK by decide)
  | other type payload hother =>
    rw [hbody] at h
    exact absurd h hother.1

theorem stepLink_of_ne (list : List ScannedIface) (m : Nlmsg) (h : m.body.type ≠ RTM_NEWLINK) :
    stepLink list m = list := by
  unfold stepLink
  split
  · next l hbody => exact absurd (congrArg NlBody.type hbody) h
  · rfl

theorem newAddr_step {fuel : ℕ} (hfuel : IFMON_SCRATCHPAD_SIZE < fuel) (list : List ScannedIface)
    (m : Nlmsg) (more : Bytes) (h : m.body.type = RTM_NEWADDR) :
    newAddr fuel list (m.encode ++ more) = some (stepAddr list m) := by
  cases hbody : m.body with
  | link l =>
    rw [hbody] at h
    exact absurd h (show RTM_NEWLINK ≠ RTM_NEWADDR by decide)
  | addr a => rw [newAddr_encode hfuel list hbody, stepAddr, hbody]
  | other type payload hother =>
    rw [hbody] at h
    exact absurd h hother.2

theorem stepAddr_of_ne (list : List ScannedIface) (m : Nlmsg) (h : m.body.type ≠ RTM_NEWADDR) :
    stepAddr list m = list := by
  unfold stepAddr
  split
  · next a hbody => exact absurd (congrArg NlBody.type hbody) h
  · rfl

/-! ## Dumps -/

/-- The answer to a request: datagrams of messages, the last one with the message that ends it. -/
structure Dump where
  batches : List (List Nlmsg)
  last : List Nlmsg
  closing : Nlmsg
  going : ∀ m ∈ batches.flatten ++ last, m.ends = false
  closes : closing.ends = true
  fits : ∀ b ∈ batches ++ [last ++ [closing]],
    (b.flatMap Nlmsg.encode).length ≤ IFMON_SCRATCHPAD_SIZE
  few : batches.length < MAX_READS

namespace Dump

variable (d : Dump)

def messages : List Nlmsg := d.batches.flatten ++ d.last

def datagrams : List Bytes := (d.batches ++ [d.last ++ [d.closing]]).map (·.flatMap Nlmsg.encode)

def links : List Ifinfomsg := d.messages.filterMap fun m =>
  match m.body with
  | .link l => some l
  | _ => none

def addrs : List Ifaddrmsg := d.messages.filterMap fun m =>
  match m.body with
  | .addr a => some a
  | _ => none

end Dump

/-- The calls of `recv` that take in datagrams: with any interruptions, and with any memory behind
what each one writes. -/
inductive TakesIn : List Bytes → List Recv → Prop
  | nil : TakesIn [] []
  | cons {bs : List Bytes} {reads : List Recv} (interruptions : ℕ) (b behind : Bytes)
      (h : TakesIn bs reads) :
      TakesIn (b :: bs)
        (List.replicate interruptions .interrupted ++ .bytes b behind :: reads)

/-- A loop over a list that is there. -/
theorem foldl_option_map {σ ρ : Type} (step : σ → ρ → σ) (rs : List ρ) (s : σ) :
    rs.foldl (fun o r => o.map (step · r)) (some s) = some (rs.foldl step s) := by
  induction rs generalizing s with
  | nil => rfl
  | cons r rs ih => exact ih (step s r)

section Reading

variable {body : IfaceList → Bytes → IfaceList × Bool}
  {step : List ScannedIface → Nlmsg → List ScannedIface} {fuel : ℕ}

theorem readDump_interrupted (n : ℕ) (list : IfaceList) (interruptions : ℕ) (reads : List Recv) :
    readDump body fuel (n + 1) list (List.replicate interruptions .interrupted ++ reads) =
      readDump body fuel (n + 1) list reads := by
  induction interruptions with
  | zero => rfl
  | succ k ih =>
    rw [List.replicate_succ, List.cons_append, readDump]
    exact ih

/-- Messages that do not end the dump are taken one after the other. -/
theorem foldUntil_going (step : List ScannedIface → Nlmsg → List ScannedIface) {b : List Nlmsg}
    (hgoing : ∀ m ∈ b, m.ends = false) (list : List ScannedIface) (rest : List Nlmsg) :
    foldUntil (fun list m => (if m.ends then list else list.map (step · m), m.ends)) (some list)
        (b ++ rest) =
      foldUntil (fun list m => (if m.ends then list else list.map (step · m), m.ends))
        (some (b.foldl step list)) rest := by
  have hfold : b.foldl (fun list m => list.map (step · m)) (some list) =
      some (b.foldl step list) := foldl_option_map step b list
  rw [foldUntil_append fun list m => list.map (step · m), hfold]
  intro list m hm
  rw [hgoing m hm]
  rfl

variable (hbody : ∀ list m more, body list (m.encode ++ more) =
  (if m.ends then list else list.map (step · m), m.ends))
include hbody

/-- The loop over the messages of a datagram. -/
theorem walk_messages {b : List Nlmsg}
    (hsize : (b.flatMap Nlmsg.encode).length ≤ IFMON_SCRATCHPAD_SIZE)
    (hfuel : IFMON_SCRATCHPAD_SIZE < fuel) (list : IfaceList) (behind : Bytes) :
    nlmsgFormat.walk body fuel list (b.flatMap Nlmsg.encode ++ behind)
      (b.flatMap Nlmsg.encode).length = some (foldUntil
        (fun list m => (if m.ends then list else list.map (step · m), m.ends)) list b) := by
  have hcount : b.length ≤ (b.flatMap Nlmsg.encode).length :=
    length_le_flatMap (by decide) fun m _ => m.record
  rw [IFMON_SCRATCHPAD_SIZE] at hsize
  refine walk_records _ (by decide) (fun n hn => ?_) (fun m _ => m.record)
    (fun list m _ more => hbody list m more) (by rw [IFMON_SCRATCHPAD_SIZE] at hfuel; omega) list
    behind
  show sizeT n = n
  rw [sizeT, Int.emod_eq_of_lt (by omega) (by omega), Int.toNat_natCast]

/-- The loop over `recv` takes in a whole dump, and nothing after it. -/
theorem readDump_takesIn (hfuel : IFMON_SCRATCHPAD_SIZE < fuel) {closing : Nlmsg}
    (hcloses : closing.ends = true) {last : List Nlmsg} {batches : List (List Nlmsg)}
    (hgoing : ∀ m ∈ batches.flatten ++ last, m.ends = false)
    (hfits : ∀ b ∈ batches ++ [last ++ [closing]],
      (b.flatMap Nlmsg.encode).length ≤ IFMON_SCRATCHPAD_SIZE) {n : ℕ} (hn : batches.length < n)
    {reads : List Recv}
    (hreads : TakesIn ((batches ++ [last ++ [closing]]).map (·.flatMap Nlmsg.encode)) reads)
    (list : List ScannedIface) (rest : List Recv) :
    readDump body fuel n (some list) (reads ++ rest) =
      some (some ((batches.flatten ++ last).foldl step list), rest) := by
  -- induction on the datagrams in front of the last one; interrupted calls are not counted
  obtain ⟨n, rfl⟩ := Nat.exists_eq_add_one_of_ne_zero (by omega : n ≠ 0)
  induction batches generalizing n reads list with
  | nil =>
    change TakesIn [(last ++ [closing]).flatMap Nlmsg.encode] reads at hreads
    cases hreads with
    | cons k b behind hnil =>
      cases hnil
      have hwalk :=
        walk_messages hbody (hfits (last ++ [closing]) (by simp)) hfuel (some list) behind
      -- the messages in front of the closing one stay in the loop, and it leaves both loops
      rw [foldUntil_going step (fun m hm => hgoing m (List.mem_append_right _ hm))] at hwalk
      rw [List.append_assoc, readDump_interrupted]
      rw [List.singleton_append, readDump, hwalk, foldUntil, hcloses]
      rfl
  | cons b batches ih =>
    change TakesIn (b.flatMap Nlmsg.encode :: _) reads at hreads
    cases hreads with
    | cons k _ behind hrest =>
      rename_i reads
      rw [List.length_cons] at hn
      obtain ⟨n, rfl⟩ := Nat.exists_eq_add_one_of_ne_zero (by omega : n ≠ 0)
      have hwalk := walk_messages hbody (hfits b (by simp)) hfuel (some list) behind
      have hb : ∀ m ∈ b, m.ends = false := fun m hm => hgoing m (by simp [hm])
      have hgoes := foldUntil_going step hb list []
      rw [List.append_nil] at hgoes
      rw [hgoes] at hwalk
      have hlater : ∀ m ∈ batches.flatten ++ last, m.ends = false := by
        rw [List.flatten_cons, List.append_assoc] at hgoing
        exact fun m hm => hgoing m (List.mem_append_right b hm)
      rw [List.append_assoc, readDump_interrupted, List.cons_append, readDump, hwalk, foldUntil]
      dsimp only
      rw [ih hlater (fun c hc => hfits c (List.mem_cons_of_mem b hc)) hrest _ n (by omega),
        List.flatten_cons, List.append_assoc, List.foldl_append, List.foldl_append,
        List.foldl_append]

/-- A dump is read to its end. -/
theorem Dump.read (d : Dump) (hfuel : IFMON_SCRATCHPAD_SIZE < fuel) {reads : List Recv}
    (hreads : TakesIn d.datagrams reads) (list : List ScannedIface) (rest : List Recv) :
    readDump body fuel MAX_READS (some list) (reads ++ rest) =
      some (some (d.messages.foldl step list), rest) :=
  readDump_takesIn hbody hfuel d.closes d.going d.fits d.few hreads list rest

end Reading

/-! ## The list -/

/-- The links are listed in order, as long as there is room. -/
theorem foldl_stepLink (d : Dump) : d.messages.foldl stepLink [] =
    ((d.links.filter (·.listed)).take IFMON_MAX_INTERFACES).map (·.iface) := by
  have hfold := foldl_push_filter_map IFMON_MAX_INTERFACES Ifinfomsg.listed Ifinfomsg.iface
    d.links []
  rw [pushAll_eq_take _ (Nat.zero_le _), List.nil_append, ← List.map_take, Dump.links,
    List.foldl_filterMap] at hfold
  rw [Dump.links, ← hfold]
  congr 1
  funext list m
  unfold stepLink
  cases m.body <;> rfl

/-- An interface with the addresses of its index, as long as there is room. -/
def withAddrs (as : List Ifaddrmsg) (f : ScannedIface) : ScannedIface :=
  { f with
    addrs := pushAll IFMON_MAX_IPS_PER_IFACE f.addrs
      ((as.filter fun a => a.inet && a.index == f.index).map (·.ifmonAddr)) }

theorem withAddrs_cons (a : Ifaddrmsg) (as : List Ifaddrmsg) (f : ScannedIface) :
    withAddrs (a :: as) f =
      withAddrs as (if a.inet && a.index == f.index then pushAddr a.ifmonAddr f else f) := by
  by_cases ha : (a.inet && a.index == f.index) = true
  · rw [if_pos ha, withAddrs, withAddrs, List.filter_cons, if_pos ha]
    rfl
  · rw [if_neg ha, withAddrs, withAddrs, List.filter_cons, if_neg ha]

/-- Each address goes to the interface with its index. -/
theorem foldl_updateFirst (as : List Ifaddrmsg) {list : List ScannedIface}
    (h : (list.map (·.index)).Nodup) :
    as.foldl (fun list a => if a.inet then
      updateFirst (·.index == a.index) (pushAddr a.ifmonAddr) list else list) list =
      list.map (withAddrs as) := by
  induction as generalizing list with
  | nil => exact (List.map_id list).symm
  | cons a as ih =>
    have hstep : (if a.inet then
        updateFirst (·.index == a.index) (pushAddr a.ifmonAddr) list else list) =
        list.map fun f => if a.inet && a.index == f.index then pushAddr a.ifmonAddr f else f := by
      by_cases hinet : a.inet = true
      · rw [if_pos hinet, updateFirst_eq_map (pushAddr a.ifmonAddr) h a.index]
        refine List.map_congr_left fun f _ => ?_
        rw [hinet, Bool.true_and, Bool.beq_comm]
      · rw [if_neg hinet, Bool.eq_false_iff.mpr hinet]
        exact (List.map_id list).symm
    have hindex : (list.map fun f =>
        if a.inet && a.index == f.index then pushAddr a.ifmonAddr f else f).map (·.index) =
        list.map (·.index) := by
      rw [List.map_map]
      refine List.map_congr_left fun f _ => ?_
      show (if _ then pushAddr a.ifmonAddr f else f).index = f.index
      split <;> rfl
    rw [List.foldl_cons, hstep, ih (hindex ▸ h), List.map_map]
    exact List.map_congr_left fun f _ => (withAddrs_cons a as f).symm

theorem foldl_stepAddr (d : Dump) {list : List ScannedIface} (h : (list.map (·.index)).Nodup) :
    d.messages.foldl stepAddr list = list.map (withAddrs d.addrs) := by
  rw [← foldl_updateFirst d.addrs h, Dump.addrs, List.foldl_filterMap]
  congr 1
  funext list m
  unfold stepAddr
  cases m.body <;> rfl

/-- The interfaces that two dumps tell of. -/
def dumpedIfaces (links addrs : Dump) : List ScannedIface :=
  ((links.links.filter (·.listed)).take IFMON_MAX_INTERFACES).map fun l =>
    ScannedIface.fillPrefixes
      { l.iface with
        addrs := ((addrs.addrs.filter fun a => a.inet && a.index == l.index).take
          IFMON_MAX_IPS_PER_IFACE).map (·.ifmonAddr) }

/-- `ifmon_list_get` lists the first 16 links that are up and have an accepted name, each with the
first 16 addresses of its index, and with the missing prefix lengths filled in. -/
theorem interfaces_listed {fuel : Fuel} (hattributes : IFMON_SCRATCHPAD_SIZE < fuel.attributes)
    (hmessages : IFMON_SCRATCHPAD_SIZE < fuel.messages) (links addrs : Dump)
    (hindex : (links.links.map (·.index)).Nodup) {linkReads addrReads : List Recv}
    (hlinks : TakesIn links.datagrams linkReads) (haddrs : TakesIn addrs.datagrams addrReads)
    (rest : List Recv) :
    ifmonListGet fuel ⟨true, true, true, linkReads ++ (addrReads ++ rest)⟩ =
      some (true, dumpedIfaces links addrs) := by
  have hfirst := links.read (message_encode (newLink_step hattributes) stepLink_of_ne) hmessages
    hlinks [] (addrReads ++ rest)
  have hsecond := addrs.read (message_encode (newAddr_step hattributes) stepAddr_of_ne) hmessages
    haddrs (links.messages.foldl stepLink []) rest
  have hnodup : ((links.messages.foldl stepLink []).map (·.index)).Nodup := by
    rw [foldl_stepLink, List.map_map]
    exact hindex.sublist (((List.take_sublist _ _).trans List.filter_sublist).map _)
  rw [foldl_stepAddr addrs hnodup, foldl_stepLink, List.map_map] at hsecond
  rw [foldl_stepLink] at hfirst
  unfold ifmonListGet
  dsimp only
  rw [hfirst]
  dsimp only
  rw [hsecond]
  show some (true, List.map _ _) = _
  rw [List.map_map, dumpedIfaces]
  refine congrArg (fun list => some (true, list)) (List.map_congr_left fun l _ => ?_)
  show (withAddrs addrs.addrs l.iface).fillPrefixes = _
  rw [withAddrs, show l.iface.addrs = [] from rfl, pushAll_eq_take _ (Nat.zero_le _),
    List.nil_append, ← List.map_take]
  rfl

/-- `NLMSG_DONE`. -/
def doneMsg : Nlmsg := ⟨2, 1, 0, .other 3 [0, 0, 0, 0] (by decide), by decide⟩

/-- A link with a name of four letters. -/
def linkMsg (index flags : UInt32) (a b c e : UInt8) : Nlmsg where
  flags := 2
  seq := 1
  pid := 0
  body := .link
    { family := 0
      type := 1
      index := index
      flags := flags
      change := 0
      attrs := [⟨3, [a, b, c, e, 0], by simp⟩, ⟨1, [2, 0, 0, 0, 0, 1], by simp⟩]
      named := by simp [IFLA_IFNAME] }
  fits := by
    show 16 + (Ifinfomsg.encode _).length ≤ IFMON_SCRATCHPAD_SIZE
    rw [Ifinfomsg.length_encode]
    simp [Rtattr.length_encode, align, IFMON_SCRATCHPAD_SIZE]

/-- An address of a link, without a prefix length. -/
def addressMsg (index : UInt32) (last : UInt8) : Nlmsg where
  flags := 2
  seq := 2
  pid := 0
  body := .addr
    { family := 2
      prefixlen := 0
      flags := 128
      scope := 0
      index := index
      attrs := [⟨1, [192, 168, 0, last], by simp⟩, ⟨3, [101, 116, 104, 48, 0], by simp⟩]
      full := by simp [IFA_ADDRESS, AF_INET] }
  fits := by
    show 16 + (Ifaddrmsg.encode _).length ≤ IFMON_SCRATCHPAD_SIZE
    rw [Ifaddrmsg.length_encode]
    simp [Rtattr.length_encode, align, IFMON_SCRATCHPAD_SIZE]

/-- Messages, each in a datagram of its own, and then `NLMSG_DONE`. -/
def Dump.each (ms : List Nlmsg) (going : ∀ m ∈ ms, m.ends = false) (few : ms.length < MAX_READS) :
    Dump where
  batches := ms.map ([·])
  last := []
  closing := doneMsg
  going := by
    intro m hm
    rw [List.append_nil, List.mem_flatten] at hm
    obtain ⟨b, hb, hm⟩ := hm
    obtain ⟨q, hq, rfl⟩ := List.mem_map.mp hb
    rw [List.mem_singleton.mp hm]
    exact going q hq
  closes := by decide
  fits := by
    intro b hb
    have hone : ∃ q : Nlmsg, b = [q] := by
      rcases List.mem_append.mp hb with hb | hb
      · obtain ⟨q, -, rfl⟩ := List.mem_map.mp hb
        exact ⟨q, rfl⟩
      · exact ⟨doneMsg, List.mem_singleton.mp hb⟩
    obtain ⟨q, rfl⟩ := hone
    have hfits := q.fits
    rw [IFMON_SCRATCHPAD_SIZE] at hfits ⊢
    rw [List.flatMap_cons, List.flatMap_nil, List.append_nil, q.length_encode, align]
    omega
  few := by
    rw [List.length_map]
    exact few

/-- `tun0` and `eth0` are up and `eth1` is down; an address of `eth0` and one of `eth1`. -/
theorem interfaces_listed_eth0 :
    ifmonListGet ⟨8193, 8193⟩ ⟨true, true, true,
      [.bytes (linkMsg 1 0x1043 116 117 110 48).encode [], .interrupted,
        .bytes (linkMsg 2 0x1043 101 116 104 48).encode [255, 255],
        .bytes (linkMsg 3 0x1002 101 116 104 49).encode [255], .bytes doneMsg.encode []] ++
        ([.interrupted, .interrupted, .bytes (addressMsg 2 5).encode [1, 2, 3],
          .bytes (addressMsg 3 6).encode [1], .bytes doneMsg.encode []] ++ [])⟩ =
      some (true,
        [⟨⟨2, literal "02:00:00:00:00:01", [⟨.v4 0xC0A80005, 24⟩]⟩, literal "eth0"⟩]) := by
  have hlinks : TakesIn (Dump.each [linkMsg 1 0x1043 116 117 110 48,
      linkMsg 2 0x1043 101 116 104 48, linkMsg 3 0x1002 101 116 104 49] (by decide)
      (by decide)).datagrams
      [.bytes (linkMsg 1 0x1043 116 117 110 48).encode [], .interrupted,
        .bytes (linkMsg 2 0x1043 101 116 104 48).encode [255, 255],
        .bytes (linkMsg 3 0x1002 101 116 104 49).encode [255], .bytes doneMsg.encode []] :=
    .cons 0 _ _ (.cons 1 _ _ (.cons 0 _ _ (.cons 0 _ _ .nil)))
  have haddrs : TakesIn
      (Dump.each [addressMsg 2 5, addressMsg 3 6] (by decide) (by decide)).datagrams
      [.interrupted, .interrupted, .bytes (addressMsg 2 5).encode [1, 2, 3],
        .bytes (addressMsg 3 6).encode [1], .bytes doneMsg.encode []] :=
    .cons 2 _ _ (.cons 0 _ _ (.cons 0 _ _ .nil))
  refine (interfaces_listed (by decide) (by decide) _ _ (by decide) hlinks haddrs []).trans ?_
  decide +kernel

end Bishlink
