import Mathlib.Data.List.Basic

/-!
# Reading a number of bytes from a stream

A source is what the reads of a stream give, one after the other: some bytes, or an outcome without
bytes after which the reader tries again or gives up. `readExact` reads until it has as many bytes
as it wants. What it gets depends on the bytes up to the first outcome that makes it give up, the
`flow` of the source, and not on how they are cut (`got_readExact`, `complete_readExact`,
`flow_rest_readExact`).
-/

namespace ByteSource

variable {ρ : Type*}

/-- What one read gives. -/
inductive Outcome (ρ : Type*) where
  | bytes (bs : List UInt8)
  | other (r : ρ)
deriving DecidableEq

/-- What a reader got, whether it is all it wanted, and what is left. -/
structure Read (ρ : Type*) where
  got : List UInt8
  complete : Bool
  rest : List (Outcome ρ)

/-- Read a number of bytes: a read takes no more than what is still missing. The reader gives up
after an outcome it does not retry, and when the source is used up. -/
def readExact (retries : ρ → Bool) : List (Outcome ρ) → ℕ → Read ρ
  | source, 0 => ⟨[], true, source⟩
  | [], _ + 1 => ⟨[], false, []⟩
  | .bytes bs :: source, n + 1 =>
    if n + 1 < bs.length then ⟨bs.take (n + 1), true, .bytes (bs.drop (n + 1)) :: source⟩
    else
      let r := readExact retries source (n + 1 - bs.length)
      { r with got := bs ++ r.got }
  | .other r :: source, n + 1 =>
    if retries r then readExact retries source (n + 1) else ⟨[], false, source⟩

/-- The bytes up to the first outcome that is not retried. -/
def flow (retries : ρ → Bool) : List (Outcome ρ) → List UInt8
  | [] => []
  | .bytes bs :: source => bs ++ flow retries source
  | .other r :: source => if retries r then flow retries source else []

variable {retries : ρ → Bool} {source : List (Outcome ρ)} {n : ℕ}

/-- The reader gets the first bytes of the flow, as many as there are. -/
theorem got_readExact : (readExact retries source n).got = (flow retries source).take n := by
  fun_induction readExact retries source n with
  | case1 source => rw [List.take_zero]
  | case2 n => rfl
  | case3 bs source n hlt =>
    rw [flow, List.take_append_of_le_length (by omega)]
  | case4 bs source n hle r ih =>
    show bs ++ r.got = _
    rw [flow, ih, List.take_append, List.take_of_length_le (by omega : bs.length ≤ n + 1)]
  | case5 r source n hretries ih =>
    rw [flow, if_pos hretries]
    exact ih
  | case6 r source n hretries =>
    rw [flow, if_neg hretries]
    rfl

/-- The reader gets all it wants exactly when the flow has as much. -/
theorem complete_readExact :
    (readExact retries source n).complete = true ↔ n ≤ (flow retries source).length := by
  fun_induction readExact retries source n with
  | case1 source => exact iff_of_true rfl (Nat.zero_le _)
  | case2 n => exact iff_of_false Bool.false_ne_true (Nat.not_succ_le_zero n)
  | case3 bs source n hlt =>
    rw [flow, List.length_append]
    exact iff_of_true rfl (by omega)
  | case4 bs source n hle r ih =>
    rw [flow, List.length_append]
    show r.complete = true ↔ _
    rw [ih]
    omega
  | case5 r source n hretries ih =>
    rw [flow, if_pos hretries]
    exact ih
  | case6 r source n hretries =>
    rw [flow, if_neg hretries]
    exact iff_of_false Bool.false_ne_true (Nat.not_succ_le_zero n)

/-- What is left after a read that got all it wanted. -/
theorem flow_rest_readExact (h : n ≤ (flow retries source).length) :
    flow retries (readExact retries source n).rest = (flow retries source).drop n := by
  fun_induction readExact retries source n with
  | case1 source => rfl
  | case2 n => exact absurd h (Nat.not_succ_le_zero n)
  | case3 bs source n hlt =>
    rw [flow, flow, List.drop_append_of_le_length (by omega)]
  | case4 bs source n hle r ih =>
    rw [flow, List.length_append] at h
    show flow retries r.rest = _
    rw [flow, ih (by omega), List.drop_append,
      List.drop_eq_nil_of_le (by omega : bs.length ≤ n + 1)]
    rfl
  | case5 r source n hretries ih =>
    rw [flow, if_pos hretries] at h ⊢
    exact ih h
  | case6 r source n hretries =>
    rw [flow, if_neg hretries] at h
    exact absurd h (Nat.not_succ_le_zero n)

end ByteSource
