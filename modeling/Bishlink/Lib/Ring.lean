import Mathlib.Data.List.DropRight

/-!
# Rings of slots

A ring of slots with the index of the slot to overwrite next. From that index around, the slots
hold the last items written, the oldest first (`window_write`).
-/

namespace Ring

variable {α : Type*}

/-- The slots from the index around. -/
def window (slots : List α) (i : ℕ) : List α := slots.drop i ++ slots.take i

theorem mem_window {slots : List α} {i : ℕ} {x : α} : x ∈ window slots i ↔ x ∈ slots := by
  unfold window
  rw [List.mem_append, or_comm, ← List.mem_append, List.take_append_drop]

/-- Overwriting a slot drops the oldest item and adds the new one at the end. -/
theorem window_set {slots : List α} {i : ℕ} (hi : i < slots.length) (x : α) :
    window (slots.set i x) ((i + 1) % slots.length) = (window slots i).tail ++ [x] := by
  have hdrop : slots.drop i = slots[i] :: slots.drop (i + 1) := List.drop_eq_getElem_cons hi
  have htail : (window slots i).tail = slots.drop (i + 1) ++ slots.take i := by
    unfold window
    rw [hdrop, List.cons_append, List.tail_cons]
  rw [htail]
  unfold window
  by_cases hlast : i + 1 = slots.length
  · rw [hlast, Nat.mod_self, List.drop_zero, List.take_zero, List.append_nil, List.drop_length,
      List.nil_append, List.set_eq_take_append_cons_drop, if_pos hi, hlast, List.drop_length]
  · have hlt : i + 1 < slots.length := by omega
    rw [Nat.mod_eq_of_lt hlt, List.drop_set_of_lt (by omega), List.take_set, List.append_assoc]
    congr 1
    rw [List.take_add_one, List.set_append]
    have hlen : (slots.take i).length = i := by
      rw [List.length_take]
      omega
    rw [hlen, if_neg (by omega), Nat.sub_self, List.getElem?_eq_getElem hi]
    rfl

theorem tail_rtake {n : ℕ} {items : List α} (h : n < items.length) :
    (items.rtake (n + 1)).tail = items.rtake n := by
  rw [List.rtake, List.rtake, List.tail_drop]
  congr 1
  omega

/-- A ring that holds the last items holds the last items after one more. -/
theorem window_write {slots items : List α} {i : ℕ} (hi : i < slots.length)
    (hlen : slots.length ≤ items.length) (h : window slots i = items.rtake slots.length) (x : α) :
    window (slots.set i x) ((i + 1) % slots.length) = (items ++ [x]).rtake slots.length := by
  obtain ⟨n, hn⟩ : ∃ n, slots.length = n + 1 := ⟨slots.length - 1, by omega⟩
  rw [window_set hi, h, hn, tail_rtake (by omega), List.rtake_concat_succ]

/-- The last items of a list behind as many blanks: the blanks not yet overwritten, and the last
items. -/
theorem rtake_blank_append (blank items : List α) :
    (blank ++ items).rtake blank.length = blank.drop items.length ++ items.rtake blank.length := by
  rw [List.rtake, List.rtake, List.length_append, Nat.add_sub_cancel_left, List.drop_append]

end Ring
