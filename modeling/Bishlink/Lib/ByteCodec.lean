import Mathlib.Data.List.Basic
import Mathlib.Tactic.Ring
import Mathlib.Tactic.Linarith

/-!
# Bytes: big-endian fields, slices and in-place writes

Three small vocabularies shared by every wire format:

* `toBE` / `ofBE`, the big-endian field of a given width and its value, with
  `ofBE_toBE` reading the encoded field back modulo its width;
* `slice`, the bytes `[off, off + len)` of a buffer, with the lemmas that read a
  field out of a concatenation;
* `writeAt`, an in-place copy into a buffer of fixed length.
-/

namespace ByteCodec

/-! ## Big-endian fields -/

/-- The value of a byte string read as one big-endian number. -/
def ofBE (bs : List UInt8) : ℕ := bs.foldl (fun n b => n * 256 + b.toNat) 0

/-- The `w`-byte big-endian field of `n`; the bytes above the width are cut off. -/
def toBE : ℕ → ℕ → List UInt8
  | 0, _ => []
  | w + 1, n => UInt8.ofNat (n / 256 ^ w) :: toBE w n

@[simp] theorem length_toBE (w n : ℕ) : (toBE w n).length = w := by
  induction w with
  | zero => rfl
  | succ w ih => simp [toBE, ih]

@[simp] theorem ofBE_nil : ofBE [] = 0 := rfl

theorem foldl_ofBE (bs : List UInt8) (n : ℕ) :
    bs.foldl (fun n b => n * 256 + b.toNat) n = n * 256 ^ bs.length + ofBE bs := by
  induction bs generalizing n with
  | nil => simp
  | cons b bs ih =>
    rw [ofBE, List.foldl_cons, List.foldl_cons, ih, ih (0 * 256 + b.toNat), List.length_cons,
      pow_succ]
    ring

theorem ofBE_cons (b : UInt8) (bs : List UInt8) :
    ofBE (b :: bs) = b.toNat * 256 ^ bs.length + ofBE bs := by
  rw [ofBE, List.foldl_cons, foldl_ofBE, zero_mul, zero_add]

/-- A field of `w` bytes holds a value below `256 ^ w`. -/
theorem ofBE_lt (bs : List UInt8) : ofBE bs < 256 ^ bs.length := by
  induction bs with
  | nil => simp
  | cons b bs ih =>
    have hb : b.toNat + 1 ≤ 256 := b.toNat_lt
    have hmul : (b.toNat + 1) * 256 ^ bs.length ≤ 256 * 256 ^ bs.length :=
      Nat.mul_le_mul_right _ hb
    rw [ofBE_cons, List.length_cons, pow_succ]
    linarith

/-- Reading a field back gives the value modulo the width of the field. -/
theorem ofBE_toBE (w n : ℕ) : ofBE (toBE w n) = n % 256 ^ w := by
  induction w with
  | zero => simp [toBE, Nat.mod_one]
  | succ w ih =>
    have hbyte : (UInt8.ofNat (n / 256 ^ w)).toNat = n / 256 ^ w % 256 := UInt8.toNat_ofNat
    rw [toBE, ofBE_cons, ih, hbyte, length_toBE, pow_succ, Nat.mod_mul]
    ring

theorem ofBE_toBE_of_lt {w n : ℕ} (h : n < 256 ^ w) : ofBE (toBE w n) = n := by
  rw [ofBE_toBE, Nat.mod_eq_of_lt h]

/-- A field of `w` bytes does not see multiples of `256 ^ w`. -/
theorem toBE_add_mul (w k n : ℕ) : toBE w (k * 256 ^ w + n) = toBE w n := by
  induction w generalizing k with
  | zero => rfl
  | succ w ih =>
    have hshift : k * 256 ^ (w + 1) + n = (k * 256) * 256 ^ w + n := by
      rw [pow_succ]
      ring
    have hdiv : ((k * 256) * 256 ^ w + n) / 256 ^ w = k * 256 + n / 256 ^ w := by
      rw [Nat.add_comm, Nat.add_mul_div_right _ _ (Nat.pos_of_ne_zero (by simp)), Nat.add_comm]
    have hbyte : UInt8.ofNat (k * 256 + n / 256 ^ w) = UInt8.ofNat (n / 256 ^ w) := by
      rw [← UInt8.toNat_inj, UInt8.toNat_ofNat', UInt8.toNat_ofNat']
      omega
    rw [toBE, toBE, hshift, hdiv, hbyte, ih]

/-- Writing the value of a byte string gives the bytes back. -/
theorem toBE_ofBE (bs : List UInt8) : toBE bs.length (ofBE bs) = bs := by
  induction bs with
  | nil => rfl
  | cons b bs ih =>
    have hlt := ofBE_lt bs
    have hdiv : (b.toNat * 256 ^ bs.length + ofBE bs) / 256 ^ bs.length = b.toNat := by
      rw [Nat.add_comm, Nat.add_mul_div_right _ _ (Nat.pos_of_ne_zero (by simp)),
        Nat.div_eq_of_lt hlt, Nat.zero_add]
    rw [ofBE_cons, List.length_cons, toBE, hdiv, toBE_add_mul, ih, UInt8.ofNat_toNat]

/-! ## Slices -/

/-- The bytes `[off, off + len)` of a buffer, as many of them as it holds. -/
def slice (off len : ℕ) (bs : List UInt8) : List UInt8 := (bs.drop off).take len

@[simp] theorem length_slice (off len : ℕ) (bs : List UInt8) :
    (slice off len bs).length = min len (bs.length - off) := by
  simp [slice]

/-- A slice taken past a prefix of known length is a slice of the rest. -/
theorem slice_append_right {pre : List UInt8} {off : ℕ} (len : ℕ) (bs : List UInt8)
    (h : pre.length ≤ off) : slice off len (pre ++ bs) = slice (off - pre.length) len bs := by
  rw [slice, slice, List.drop_append, List.drop_eq_nil_of_le h, List.nil_append]

/-- The slice that starts the buffer and has the length of its first part is that part. -/
theorem slice_zero_append (pre bs : List UInt8) : slice 0 pre.length (pre ++ bs) = pre := by
  simp [slice]

/-- A slice that ends inside the first part does not see what follows it. -/
theorem slice_append_left {off len : ℕ} {pre : List UInt8} (bs : List UInt8)
    (h : off + len ≤ pre.length) : slice off len (pre ++ bs) = slice off len pre := by
  rw [slice, slice, List.drop_append_of_le_length (by omega),
    List.take_append_of_le_length (by rw [List.length_drop]; omega)]

/-! ## In-place writes -/

/-- `memcpy` of `src` to position `off` of a buffer. -/
def writeAt (buf : List UInt8) (off : ℕ) (src : List UInt8) : List UInt8 :=
  buf.take off ++ src ++ buf.drop (off + src.length)

/-- A write that fits leaves the length of the buffer as it is. -/
theorem length_writeAt {buf : List UInt8} {off : ℕ} {src : List UInt8}
    (h : off + src.length ≤ buf.length) : (writeAt buf off src).length = buf.length := by
  simp only [writeAt, List.length_append, List.length_take, List.length_drop]
  omega

/-- A buffer after a write that fits, byte by byte. -/
theorem getElem?_writeAt {buf : List UInt8} {off : ℕ} {src : List UInt8}
    (h : off + src.length ≤ buf.length) (p : ℕ) :
    (writeAt buf off src)[p]? =
      if off ≤ p ∧ p < off + src.length then src[p - off]? else buf[p]? := by
  have htake : (buf.take off).length = off := List.length_take_of_le (by omega)
  rw [writeAt, List.append_assoc, List.getElem?_append, htake]
  by_cases hlow : p < off
  · rw [if_pos hlow, if_neg (by omega), List.getElem?_take_of_lt hlow]
  rw [if_neg hlow, List.getElem?_append]
  by_cases hin : p - off < src.length
  · rw [if_pos hin, if_pos (by omega)]
  · rw [if_neg hin, if_neg (by omega), List.getElem?_drop,
      show off + src.length + (p - off - src.length) = p by omega]

/-- Reading back what was written at the start of a buffer. -/
theorem take_writeAt_zero (buf src : List UInt8) :
    (writeAt buf 0 src).take src.length = src := by
  simp [writeAt]

/-- Two buffers of one length that agree on a prefix: after the same write at the start they
agree on the longer of the prefix and what was written. -/
theorem take_writeAt_congr {buf buf' : List UInt8} (src : List UInt8) {n : ℕ}
    (hfits : src.length ≤ buf.length) (hlength : buf.length = buf'.length)
    (hfront : buf.take n = buf'.take n) :
    (writeAt buf 0 src).take (max n src.length) = (writeAt buf' 0 src).take (max n src.length) := by
  apply List.ext_getElem?
  intro p
  rw [List.getElem?_take, List.getElem?_take]
  by_cases hp : p < max n src.length
  · rw [if_pos hp, if_pos hp, getElem?_writeAt (by omega), getElem?_writeAt (by omega)]
    by_cases hsrc : p < src.length
    · rw [if_pos (by omega), if_pos (by omega)]
    · rw [if_neg (by omega), if_neg (by omega)]
      have hbyte := congrArg (·[p]?) hfront
      simp only [List.getElem?_take] at hbyte
      rwa [if_pos (by omega), if_pos (by omega)] at hbyte
  · rw [if_neg hp, if_neg hp]

/-- What is read back of a write, cut to the buffer, does not depend on the buffer. -/
theorem take_writeAt_take {buf : List UInt8} (src : List UInt8) {n : ℕ} (hn : n ≤ src.length) :
    (writeAt buf 0 (src.take buf.length)).take n = (src.take buf.length).take n := by
  have hlen : (writeAt buf 0 (src.take buf.length)).length = buf.length :=
    length_writeAt (by rw [List.length_take]; omega)
  have hread := take_writeAt_zero buf (src.take buf.length)
  have hcut : (writeAt buf 0 (src.take buf.length)).take n =
      ((writeAt buf 0 (src.take buf.length)).take (src.take buf.length).length).take n := by
    rw [List.take_take, List.take_eq_take_iff, hlen, List.length_take]
    omega
  rw [hcut, hread]

end ByteCodec
