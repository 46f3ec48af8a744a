import Bishlink.Lib.SlotTable
import Mathlib.Data.Finmap

/-!
# Maps with room for so many keys

A finite map that takes a new key only as long as it has fewer than `n` of them. A table of
`n` slots with distinct keys represents such a map, and adding to the table and removing from
it are the operations of the map (`Represents.add`, `Represents.remove`).
-/

/-- A finite map with at most `n` keys. -/
structure BoundedMap (κ ν : Type*) (n : ℕ) where
  toFinmap : Finmap fun _ : κ => ν
  card_le : toFinmap.keys.card ≤ n

namespace BoundedMap

variable {κ ν : Type*} {n : ℕ}

/-- The map without keys. -/
def empty : BoundedMap κ ν n := ⟨∅, Nat.zero_le n⟩

variable [DecidableEq κ]

def lookup (k : κ) (m : BoundedMap κ ν n) : Option ν := m.toFinmap.lookup k

/-- There is room for the key: it is in the map, or the map is not full. -/
def HasRoom (k : κ) (m : BoundedMap κ ν n) : Prop :=
  (m.lookup k).isSome ∨ m.toFinmap.keys.card < n

instance (k : κ) (m : BoundedMap κ ν n) : Decidable (m.HasRoom k) :=
  inferInstanceAs (Decidable (_ ∨ _))

theorem card_insert_le {k : κ} {m : BoundedMap κ ν n} (h : m.HasRoom k) (v : ν) :
    (m.toFinmap.insert k v).keys.card ≤ n := by
  have hkeys : (m.toFinmap.insert k v).keys = Insert.insert k m.toFinmap.keys := by
    ext k'
    rw [Finmap.mem_keys, Finmap.mem_insert, Finset.mem_insert, Finmap.mem_keys]
  rw [hkeys]
  rcases h with hmem | hlt
  · rw [Finset.insert_eq_of_mem (Finmap.mem_keys.mpr (Finmap.lookup_isSome.mp hmem))]
    exact m.card_le
  · have hle := Finset.card_insert_le k m.toFinmap.keys
    omega

/-- Give a key a value; a full map ignores a new key. -/
def put (k : κ) (v : ν) (m : BoundedMap κ ν n) : BoundedMap κ ν n :=
  if h : m.HasRoom k then ⟨m.toFinmap.insert k v, card_insert_le h v⟩ else m

/-- Take a key out. -/
def erase (k : κ) (m : BoundedMap κ ν n) : BoundedMap κ ν n where
  toFinmap := m.toFinmap.erase k
  card_le := by
    rw [Finmap.keys_erase]
    exact le_trans (Finset.card_erase_le) m.card_le

variable {k k' : κ} {v : ν} {m : BoundedMap κ ν n}

@[simp] theorem lookup_empty (k : κ) : (empty : BoundedMap κ ν n).lookup k = none :=
  Finmap.lookup_empty k

theorem lookup_put_self (h : m.HasRoom k) (v : ν) : (m.put k v).lookup k = some v := by
  rw [put, dif_pos h]
  exact Finmap.lookup_insert _

theorem put_of_not_hasRoom (h : ¬m.HasRoom k) (v : ν) : m.put k v = m := by
  rw [put, dif_neg h]

theorem lookup_put_of_ne (h : k' ≠ k) (v : ν) : (m.put k v).lookup k' = m.lookup k' := by
  unfold put
  split
  · exact Finmap.lookup_insert_of_ne _ h
  · rfl

@[simp] theorem lookup_erase_self (k : κ) (m : BoundedMap κ ν n) : (m.erase k).lookup k = none :=
  Finmap.lookup_erase k _

theorem lookup_erase_of_ne (h : k' ≠ k) : (m.erase k).lookup k' = m.lookup k' :=
  Finmap.lookup_erase_ne h

end BoundedMap

namespace SlotTable

open FirstMatch

variable {κ ν : Type*} [DecidableEq κ] {n : ℕ}

/-- A table of `n` slots with distinct keys, and the map it stands for. -/
structure Represents (l : List (Option (κ × ν))) (m : BoundedMap κ ν n) : Prop where
  length_eq : l.length = n
  nodup : (keys l).Nodup
  mem_iff : ∀ k v, some (k, v) ∈ l ↔ m.lookup k = some v

/-- A key that is not in a table without a free slot is not added. -/
theorem add_of_full {k : κ} {l : List (Option (κ × ν))} (hk : k ∉ keys l) (hfull : none ∉ l)
    (v : ν) : add k v l = l := by
  refine updateFirst_of_forall fun x hx => ?_
  rw [addsAt, if_neg fun hany => hk (any_hasKey.mp hany)]
  cases x with
  | none => exact absurd hx hfull
  | some x => rfl

namespace Represents

variable {k : κ} {l : List (Option (κ × ν))} {m : BoundedMap κ ν n}

/-- Free slots stand for the empty map. -/
theorem empty (h : ∀ x ∈ l, x = none) (hn : l.length = n) :
    Represents l (BoundedMap.empty : BoundedMap κ ν n) where
  length_eq := hn
  nodup := by
    have hkeys : keys l = [] := by
      rw [keys, List.filterMap_eq_nil_iff]
      intro x hx
      rw [h x hx]
      rfl
    rw [hkeys]
    exact List.nodup_nil
  mem_iff k v := by
    rw [BoundedMap.lookup_empty]
    exact iff_of_false (fun hmem => absurd (h _ hmem) (by simp)) (by simp)

theorem mem_keys_iff (h : Represents l m) : k ∈ keys l ↔ (m.lookup k).isSome := by
  rw [mem_keys, Option.isSome_iff_exists]
  simp only [h.mem_iff]

/-- The map has a key for each slot that is taken. -/
theorem card_eq (h : Represents l m) : m.toFinmap.keys.card = (keys l).length := by
  have hkeys : m.toFinmap.keys = (keys l).toFinset := by
    ext k
    rw [List.mem_toFinset, h.mem_keys_iff, Finmap.mem_keys]
    exact Finmap.lookup_isSome.symm
  rw [hkeys, List.toFinset_card_of_nodup h.nodup]

/-- The map has room for a key when the table has a slot for it. -/
theorem hasRoom_iff (h : Represents l m) : m.HasRoom k ↔ k ∈ keys l ∨ none ∈ l := by
  have hle : (keys l).length ≤ l.length := List.length_filterMap_le _ _
  have hfull := none_not_mem_iff (l := l)
  rw [BoundedMap.HasRoom, ← h.mem_keys_iff, h.card_eq, ← h.length_eq]
  refine or_congr Iff.rfl ?_
  rw [← not_iff_not, hfull]
  omega

/-- Looking a key up in the table. -/
theorem find?_hasKey (h : Represents l m) (k : κ) :
    l.find? (hasKey k) = (m.lookup k).map fun v => some (k, v) := by
  cases hfind : l.find? (hasKey k) with
  | none =>
    cases hlookup : m.lookup k with
    | none => rfl
    | some v =>
      have hnot := List.find?_eq_none.mp hfind _ ((h.mem_iff k v).mpr hlookup)
      exact absurd (hasKey_eq_true.mpr ⟨v, rfl⟩) hnot
  | some x =>
    obtain ⟨v, rfl⟩ := hasKey_eq_true.mp (List.find?_some hfind)
    rw [(h.mem_iff k v).mp (List.mem_of_find?_eq_some hfind)]
    rfl

/-- Adding to the table puts the key into the map. -/
theorem add (h : Represents l m) (k : κ) (v : ν) : Represents (add k v l) (m.put k v) := by
  by_cases hroom : k ∈ keys l ∨ none ∈ l
  · refine ⟨?_, nodup_add v h.nodup hroom, ?_⟩
    · rw [length_add, h.length_eq]
    · intro k' v'
      rw [mem_add h.nodup hroom, h.mem_iff]
      by_cases hk : k' = k
      · subst hk
        rw [BoundedMap.lookup_put_self (h.hasRoom_iff.mpr hroom), Option.some.injEq]
        simp [eq_comm]
      · rw [BoundedMap.lookup_put_of_ne hk]
        simp [hk]
  · rw [BoundedMap.put_of_not_hasRoom (fun hr => hroom (h.hasRoom_iff.mp hr))]
    rw [not_or] at hroom
    rw [add_of_full hroom.1 hroom.2]
    exact h

/-- Removing from the table takes the key out of the map. -/
theorem remove (h : Represents l m) (k : κ) : Represents (remove k l) (m.erase k) where
  length_eq := by rw [length_remove, h.length_eq]
  nodup := nodup_remove h.nodup
  mem_iff k' v' := by
    rw [mem_remove h.nodup, h.mem_iff]
    by_cases hk : k' = k
    · subst hk
      simp
    · rw [BoundedMap.lookup_erase_of_ne hk]
      simp [hk]

end Represents

end SlotTable
