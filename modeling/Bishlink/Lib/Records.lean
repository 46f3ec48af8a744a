import Mathlib.Data.Int.Notation
import Mathlib.Data.List.Basic

/-!
# Records that say their length

A buffer of records, one after the other: the header of each gives its length, and the next record
begins where `next` says. `walk` is the loop over them as C code writes it, with a pointer into the
memory and a signed length of what is left; the body can leave the loop.

* `walk_records`: over a buffer of whole records the body runs on each of them, once and in order,
  up to the one that leaves the loop, and nothing behind the buffer matters;
* `walk_invariant`: what the body keeps, whatever the memory holds.
-/

namespace Records

variable {σ ρ : Type*}

/-- The header's size, the length it gives, the distance to the next record for a length, and the
number that the comparisons see for what is left. -/
structure Format where
  header : ℕ
  lengthAt : List UInt8 → ℕ
  next : ℕ → ℕ
  avail : ℤ → ℕ

namespace Format

/-- There is a record at the pointer. -/
def ok (f : Format) (at' : List UInt8) (left : ℤ) : Bool :=
  decide (f.header ≤ f.avail left) && decide (f.header ≤ f.lengthAt at') &&
    decide (f.lengthAt at' ≤ f.avail left)

/-- The loop, for so many rounds at most: what the body has made, and whether it left the loop. -/
def walk (f : Format) (body : σ → List UInt8 → σ × Bool) :
    ℕ → σ → List UInt8 → ℤ → Option (σ × Bool)
  | 0, _, _, _ => none
  | n + 1, s, at', left =>
    if f.ok at' left then
      match body s at' with
      | (s', true) => some (s', true)
      | (s', false) =>
        walk f body n s' (at'.drop (f.next (f.lengthAt at'))) (left - f.next (f.lengthAt at'))
    else some (s, false)

/-- The bytes are a whole record with what fills it up to the next one. -/
structure Record (f : Format) (bytes : List UInt8) : Prop where
  length : ∃ n, (∀ more, f.lengthAt (bytes ++ more) = n) ∧ f.header ≤ n ∧ n ≤ bytes.length ∧
    f.next n = bytes.length

end Format

/-- The body on one record after the other, until it leaves the loop. -/
def foldUntil (act : σ → ρ → σ × Bool) : σ → List ρ → σ × Bool
  | s, [] => (s, false)
  | s, r :: rs =>
    match act s r with
    | (s', true) => (s', true)
    | (s', false) => foldUntil act s' rs

section Fold

variable {act : σ → ρ → σ × Bool}

/-- Records that do not leave the loop. -/
theorem foldUntil_append (step : σ → ρ → σ) {s : σ} {rs : List ρ}
    (h : ∀ s, ∀ r ∈ rs, act s r = (step s r, false)) (rs' : List ρ) :
    foldUntil act s (rs ++ rs') = foldUntil act (rs.foldl step s) rs' := by
  induction rs generalizing s with
  | nil => rfl
  | cons r rs ih =>
    rw [List.cons_append, foldUntil, h s r List.mem_cons_self, List.foldl_cons]
    exact ih fun s r' hr' => h s r' (List.mem_cons_of_mem r hr')

theorem foldUntil_of_stays (step : σ → ρ → σ) {s : σ} {rs : List ρ}
    (h : ∀ s, ∀ r ∈ rs, act s r = (step s r, false)) :
    foldUntil act s rs = (rs.foldl step s, false) := by
  have happend : foldUntil act s (rs ++ []) = foldUntil act (rs.foldl step s) [] :=
    foldUntil_append step h []
  rw [List.append_nil] at happend
  exact happend

end Fold

variable {f : Format} {body : σ → List UInt8 → σ × Bool}

/-- A record takes a byte at least. -/
theorem length_le_flatMap {encode : ρ → List UInt8} {records : List ρ} (hheader : 0 < f.header)
    (hrecords : ∀ r ∈ records, f.Record (encode r)) :
    records.length ≤ (records.flatMap encode).length := by
  induction records with
  | nil => exact Nat.zero_le _
  | cons r records ih =>
    obtain ⟨n, -, hheader', hle, -⟩ := (hrecords r List.mem_cons_self).length
    have hrest := ih fun q hq => hrecords q (List.mem_cons_of_mem r hq)
    rw [List.flatMap_cons, List.length_append, List.length_cons]
    omega

/-- A buffer of whole records. -/
theorem walk_records (act : σ → ρ → σ × Bool) {encode : ρ → List UInt8} {records : List ρ}
    (hheader : 0 < f.header)
    (havail : ∀ n : ℕ, n ≤ (records.flatMap encode).length → f.avail n = n)
    (hrecords : ∀ r ∈ records, f.Record (encode r))
    (hbody : ∀ s, ∀ r ∈ records, ∀ more, body s (encode r ++ more) = act s r) {n : ℕ}
    (hn : records.length < n) (s : σ) (more : List UInt8) :
    f.walk body n s (records.flatMap encode ++ more) (records.flatMap encode).length =
      some (foldUntil act s records) := by
  induction records generalizing n s with
  | nil =>
    obtain ⟨n, rfl⟩ := Nat.exists_eq_add_one_of_ne_zero (by omega : n ≠ 0)
    have havail0 : f.avail 0 = 0 := havail 0 (Nat.zero_le _)
    -- the header does not fit into nothing
    have hstop : f.ok more 0 = false := by
      unfold Format.ok
      rw [havail0, decide_eq_false (by omega)]
      rfl
    show f.walk body (n + 1) s more 0 = _
    rw [Format.walk, hstop, if_neg Bool.false_ne_true]
    rfl
  | cons r records ih =>
    obtain ⟨n, rfl⟩ := Nat.exists_eq_add_one_of_ne_zero (by omega : n ≠ 0)
    obtain ⟨k, hlength, hheader', hle, hnext⟩ := (hrecords r List.mem_cons_self).length
    have hflat : ((r :: records).flatMap encode).length =
        (encode r).length + (records.flatMap encode).length := by
      rw [List.flatMap_cons, List.length_append]
    have hleft := havail _ (Nat.le_refl ((r :: records).flatMap encode).length)
    have hmem : (r :: records).flatMap encode ++ more =
        encode r ++ (records.flatMap encode ++ more) := by
      rw [List.flatMap_cons, List.append_assoc]
    have hok : f.ok (encode r ++ (records.flatMap encode ++ more))
        ((r :: records).flatMap encode).length = true := by
      unfold Format.ok
      rw [hleft, hlength, hflat, decide_eq_true (by omega), decide_eq_true (by omega),
        decide_eq_true (by omega)]
      rfl
    have hbody' := hbody s r List.mem_cons_self (records.flatMap encode ++ more)
    rw [hmem, Format.walk, if_pos hok, hbody', hlength, hnext, List.drop_left, foldUntil]
    rcases act s r with ⟨s', leaves⟩
    cases leaves with
    | true => rfl
    | false =>
      have hrest : (((r :: records).flatMap encode).length : ℤ) - ((encode r).length : ℕ) =
          (records.flatMap encode).length := by
        rw [hflat]
        omega
      dsimp only
      rw [hrest]
      apply ih
      · exact fun n hn => havail n (by omega)
      · exact fun q hq => hrecords q (List.mem_cons_of_mem r hq)
      · exact fun s q hq => hbody s q (List.mem_cons_of_mem r hq)
      · rw [List.length_cons] at hn
        omega

/-- What the body keeps. -/
theorem walk_invariant {P : σ → Prop} (hbody : ∀ s at', P s → P (body s at').1) {n : ℕ} {s : σ}
    {at' : List UInt8} {left : ℤ} {r : σ × Bool} (h : f.walk body n s at' left = some r)
    (hs : P s) : P r.1 := by
  induction n generalizing s at' left with
  | zero => exact absurd h.symm (Option.some_ne_none _)
  | succ n ih =>
    have hkept := hbody s at' hs
    rw [Format.walk] at h
    split at h
    · split at h
      · next hb =>
        rw [hb] at hkept
        rw [← Option.some.inj h]
        exact hkept
      · next hb =>
        rw [hb] at hkept
        exact ih h hkept
    · rw [← Option.some.inj h]
      exact hs

end Records
