import Bishlink.Arrivals
import Mathlib.Data.List.Pairwise
import Bishlink.Lib.KeyRing

/-!
# Objects that are delivered once

What a connection knows of the objects it delivered is in its 16 slots: a slot that delivered
its object stays quiet as long as it belongs to it. The keys of the slots are a `KeyRing`
(`keyRing_arrive`), so an object is delivered at most once until 16 slots have gone to other
objects after its own.
-/

namespace Bishlink

open Runs

variable {lib : FecLib}

/-! ## The keys of the slots -/

/-- The object whose symbols a slot collects: the alias byte and the ids of the header. -/
structure SlotKey where
  trackAlias : UInt8
  object : ObjectKey
deriving DecidableEq

def FecPacketHeader.slotKey (h : FecPacketHeader) : SlotKey :=
  ⟨h.trackId, ⟨h.groupId, h.objectId⟩⟩

/-- The object of a slot, if the slot is in use. -/
def FrameAssembler.slotKey? (a : FrameAssembler) : Option SlotKey :=
  if 0 < a.totalSymbols then some ⟨a.trackId, ⟨a.groupId, a.objectId⟩⟩ else none

theorem FrameAssembler.holds_iff {a : FrameAssembler} {h : FecPacketHeader} :
    a.holds h.trackId h.groupId h.objectId = true ↔ a.slotKey? = some h.slotKey := by
  unfold holds slotKey? FecPacketHeader.slotKey
  split
  · next hused => simp [hused, and_assoc]
  · next hunused => simp [hunused]

def AssemblerCache.keyRing (s : AssemblerCache) : KeyRing SlotKey where
  keys := s.slots.map (·.slotKey?)
  index := s.index
  index_lt := by
    rw [List.length_map, s.length_slots]
    exact s.index_lt

/-- The key an arrival comes with, and whether its slot is in use afterwards. -/
def Arrival.touches (a : Arrival lib) : Option (SlotKey × Bool) :=
  a.symbol?.map fun r => (r.2.slotKey, decide (0 < r.2.totalSymbols.toNat))

/-! ## One arrival -/

/-- A symbol leaves its slot with its object; it completes the object of a slot that was not
decoded, or leaves the mark as it is. -/
theorem slotStep_spec {junk : ℕ → UInt8} {type : MoqTrackType} {a : FrameAssembler}
    {h : FecPacketHeader} {symbol : Bytes} {r : Received}
    (hstep : slotStep lib junk type a h symbol = .ok r) :
    r.slot.slotKey? = a.slotKey? ∧
      ((r.fullData = none ∧ r.slot.decoded = a.decoded) ∨
        (h.symbolIndex < h.totalSymbols ∧ a.decoded = false ∧ r.slot.decoded = true)) := by
  unfold slotStep at hstep
  split at hstep
  · rw [Except.ok.injEq] at hstep
    rw [← hstep]
    exact ⟨rfl, Or.inl ⟨rfl, rfl⟩⟩
  · next hgoes =>
    rw [not_or, Bool.not_eq_true, UInt16.not_le] at hgoes
    obtain ⟨stored, hstored, hrest⟩ := Checked.bind_eq_ok.mp hstep
    obtain ⟨d, -, hr⟩ := Checked.bind_eq_ok.mp hrest
    rw [Except.ok.injEq] at hr
    obtain ⟨-, -, hwith⟩ := FrameAssembler.storeSymbol_eq_ok.mp hstored
    have hkey : stored.slotKey? = a.slotKey? ∧ stored.decoded = a.decoded := by
      rw [hwith, FrameAssembler.withSymbol]
      split <;> exact ⟨rfl, rfl⟩
    rw [← hr]
    cases d with
    | none => exact ⟨hkey.1, Or.inl ⟨rfl, hkey.2⟩⟩
    | some d => exact ⟨hkey.1, Or.inr ⟨hgoes.2, hgoes.1, rfl⟩⟩

theorem AssemblerCache.getElem?_slots {s : AssemblerCache} {i : ℕ}
    (hi : i < ASSEMBLER_CACHE_SIZE) : s.slots[i]? = some (s.slot i) := by
  rw [← s.length_slots] at hi
  rw [slot, List.getD_eq_getElem?_getD, List.getElem?_eq_getElem hi, Option.getD_some]

theorem AssemblerCache.getElem?_keys {s : AssemblerCache} {i : ℕ}
    (hi : i < ASSEMBLER_CACHE_SIZE) : s.keyRing.keys[i]? = some (s.slot i).slotKey? := by
  rw [keyRing, List.getElem?_map, getElem?_slots hi, Option.map_some]

/-- The slot that is found belongs to the object. -/
theorem AssemblerCache.find_eq_some {s : AssemblerCache} {h : FecPacketHeader} {i : ℕ}
    (hfind : s.find h = some i) :
    i < ASSEMBLER_CACHE_SIZE ∧ (s.slot i).slotKey? = some h.slotKey := by
  obtain ⟨hi, hholds, -⟩ := List.findIdx?_eq_some_iff_getElem.mp hfind
  have hi' : i < ASSEMBLER_CACHE_SIZE := by
    rw [← s.length_slots]
    exact hi
  refine ⟨hi', ?_⟩
  rw [FrameAssembler.holds_iff] at hholds
  have hslot : s.slots[i] = s.slot i := by
    rw [slot, List.getD_eq_getElem _ _ hi]
  rw [← hslot]
  exact hholds

/-- No slot is found exactly when none belongs to the object. -/
theorem AssemblerCache.find_eq_none {s : AssemblerCache} {h : FecPacketHeader} :
    s.find h = none ↔ some h.slotKey ∉ s.keyRing.keys := by
  rw [find, List.findIdx?_eq_none_iff]
  show _ ↔ some h.slotKey ∉ s.slots.map (·.slotKey?)
  rw [List.mem_map, not_exists]
  refine forall_congr' fun a => ?_
  rw [not_and]
  refine forall_congr' fun _ => ?_
  rw [← FrameAssembler.holds_iff, Bool.not_eq_true]

/-- Writing a slot back with its object leaves the keys. -/
theorem AssemblerCache.keyRing_set {s : AssemblerCache} {i : ℕ} {a : FrameAssembler}
    (hi : i < ASSEMBLER_CACHE_SIZE) (hkey : a.slotKey? = (s.slot i).slotKey?) :
    (s.set i a).keyRing = s.keyRing := by
  refine KeyRing.ext ?_ rfl
  show (s.slots.set i a).map (·.slotKey?) = s.slots.map (·.slotKey?)
  have hlt : i < (s.slots.map (·.slotKey?)).length := by
    rw [List.length_map, s.length_slots]
    exact hi
  have hold : (s.slots.map (·.slotKey?))[i] = (s.slot i).slotKey? := by
    rw [List.getElem_map, slot, List.getD_eq_getElem]
  rw [List.map_set, hkey, ← hold, List.set_getElem_self]

/-- A slot that goes to an object takes its key. -/
theorem AssemblerCache.keyRing_evict (s : AssemblerCache) (h : FecPacketHeader) :
    (s.evict h).keyRing = s.keyRing.take h.slotKey (decide (0 < h.totalSymbols.toNat)) := by
  refine KeyRing.ext ?_ ?_
  · show (s.slots.set s.index ((s.slot s.index).assign h)).map (·.slotKey?) = _
    rw [List.map_set]
    have hkey : ((s.slot s.index).assign h).slotKey? =
        if decide (0 < h.totalSymbols.toNat) = true then some h.slotKey else none := by
      simp only [decide_eq_true_eq]
      rfl
    rw [hkey]
    rfl
  · show (s.index + 1) % ASSEMBLER_CACHE_SIZE = (s.index + 1) % (s.slots.map _).length
    rw [List.length_map, s.length_slots]

theorem AssemblerCache.slot_set_self {s : AssemblerCache} {i : ℕ} (hi : i < ASSEMBLER_CACHE_SIZE)
    (a : FrameAssembler) : (s.set i a).slot i = a := by
  rw [← s.length_slots] at hi
  show (s.slots.set i a).getD i _ = a
  rw [List.getD_eq_getElem?_getD, List.getElem?_set_self hi, Option.getD_some]

theorem AssemblerCache.slot_set_of_ne {s : AssemblerCache} {i j : ℕ} (hne : j ≠ i)
    (a : FrameAssembler) : (s.set i a).slot j = s.slot j := by
  show (s.slots.set i a).getD j _ = s.slots.getD j _
  rw [List.getD_eq_getElem?_getD, List.getD_eq_getElem?_getD, List.getElem?_set_ne hne.symm]

theorem AssemblerCache.slot_evict_self (s : AssemblerCache) (h : FecPacketHeader) :
    (s.evict h).slot s.index = (s.slot s.index).assign h := by
  have hi := s.index_lt
  rw [← s.length_slots] at hi
  show (s.slots.set s.index _).getD s.index _ = _
  rw [List.getD_eq_getElem?_getD, List.getElem?_set_self hi, Option.getD_some]

theorem AssemblerCache.slot_evict_of_ne {s : AssemblerCache} {j : ℕ} (hne : j ≠ s.index)
    (h : FecPacketHeader) : (s.evict h).slot j = s.slot j := by
  show (s.slots.set s.index _).getD j _ = s.slots.getD j _
  rw [List.getD_eq_getElem?_getD, List.getD_eq_getElem?_getD, List.getElem?_set_ne hne.symm]

/-- A symbol of an object that has a slot. -/
theorem ringStep_found {junk : ℕ → UInt8} {type : MoqTrackType} {s s' : AssemblerCache}
    {h : FecPacketHeader} {symbol : Bytes} {r : Received} {i : ℕ}
    (hstep : ringStep lib junk type s h symbol = .ok (s', r)) (hfind : s.find h = some i) :
    s'.keyRing = s.keyRing ∧ (∀ j, j ≠ i → s'.slot j = s.slot j) ∧
      ((r.fullData = none ∧ (s'.slot i).decoded = (s.slot i).decoded) ∨
        ((s.slot i).decoded = false ∧ (s'.slot i).decoded = true)) := by
  obtain ⟨hi, -⟩ := AssemblerCache.find_eq_some hfind
  have hlocate : s.locate h = (s, i) := by rw [AssemblerCache.locate, hfind]
  obtain ⟨r', hslot, heq⟩ := Checked.bind_eq_ok.mp hstep
  rw [hlocate] at hslot heq
  rw [Except.ok.injEq, Prod.mk.injEq] at heq
  obtain ⟨rfl, rfl⟩ := heq
  obtain ⟨hkey, hdecoded⟩ := slotStep_spec hslot
  refine ⟨AssemblerCache.keyRing_set hi hkey, fun j hne => AssemblerCache.slot_set_of_ne hne _, ?_⟩
  rw [AssemblerCache.slot_set_self hi]
  rcases hdecoded with hquiet | ⟨-, hbefore, hafter⟩
  · exact Or.inl hquiet
  · exact Or.inr ⟨hbefore, hafter⟩

/-- A symbol of an object that has none. -/
theorem ringStep_new {junk : ℕ → UInt8} {type : MoqTrackType} {s s' : AssemblerCache}
    {h : FecPacketHeader} {symbol : Bytes} {r : Received}
    (hstep : ringStep lib junk type s h symbol = .ok (s', r)) (hfind : s.find h = none) :
    s'.keyRing = s.keyRing.take h.slotKey (decide (0 < h.totalSymbols.toNat)) ∧
      (∀ j, j ≠ s.index → s'.slot j = s.slot j) ∧
      ((r.fullData = none ∧ (s'.slot s.index).decoded = false) ∨
        (0 < h.totalSymbols.toNat ∧ (s'.slot s.index).decoded = true)) := by
  have hlocate : s.locate h = (s.evict h, s.index) := by rw [AssemblerCache.locate, hfind]
  obtain ⟨r', hslot, heq⟩ := Checked.bind_eq_ok.mp hstep
  rw [hlocate] at hslot heq
  rw [Except.ok.injEq, Prod.mk.injEq] at heq
  obtain ⟨rfl, rfl⟩ := heq
  obtain ⟨hkey, hdecoded⟩ := slotStep_spec hslot
  refine ⟨?_, ?_, ?_⟩
  · rw [AssemblerCache.keyRing_set s.index_lt hkey, AssemblerCache.keyRing_evict]
  · intro j hne
    rw [AssemblerCache.slot_set_of_ne hne, AssemblerCache.slot_evict_of_ne hne]
  · rw [AssemblerCache.slot_set_self s.index_lt]
    rw [AssemblerCache.slot_evict_self] at hdecoded
    rcases hdecoded with hquiet | ⟨hindex, -, hafter⟩
    · exact Or.inl hquiet
    · refine Or.inr ⟨?_, hafter⟩
      rw [UInt16.lt_iff_toNat_lt] at hindex
      exact Nat.zero_lt_of_lt hindex

/-- The keys of the slots go with the arrivals. -/
theorem keyRing_arrive {s s' : AssemblerCache} {a : Arrival lib} {o : List Effect}
    (h : arrive lib s a = some (s', o)) :
    s'.keyRing = match a.touches with
      | none => s.keyRing
      | some (k, stays) => s.keyRing.touch k stays := by
  cases hsym : a.symbol? with
  | none =>
    obtain ⟨o', -, hall⟩ := arrive_of_none hsym
    rw [hall s, Option.some.injEq, Prod.mk.injEq] at h
    rw [← h.1, Arrival.touches, hsym]
    rfl
  | some x =>
    obtain ⟨track, hdr⟩ := x
    rw [arrive_of_some hsym] at h
    cases hring : ringStep lib a.io.junk track.type s hdr a.bytes with
    | error e =>
      rw [hring] at h
      exact absurd h (by simp)
    | ok y =>
      obtain ⟨s₁, r⟩ := y
      simp only [hring, Option.some.injEq, Prod.mk.injEq] at h
      obtain ⟨rfl, -⟩ := h
      simp only [Arrival.touches, hsym, Option.map_some]
      cases hfind : s.find hdr with
      | none =>
        rw [KeyRing.touch_of_not_mem (AssemblerCache.find_eq_none.mp hfind)]
        exact (ringStep_new hring hfind).1
      | some i =>
        have hmem : some hdr.slotKey ∈ s.keyRing.keys := by
          by_contra hnot
          rw [AssemblerCache.find_eq_none.mpr hnot] at hfind
          exact absurd hfind (by simp)
        rw [KeyRing.touch_of_mem hmem]
        exact (ringStep_found hring hfind).1

/-! ## What an object can still deliver -/

/-- Slot `i`, and no other, collects the object. -/
structure Collects (k : SlotKey) (s : AssemblerCache) (i : ℕ) (decoded : Bool) : Prop where
  lt : i < ASSEMBLER_CACHE_SIZE
  key : s.keyRing.keys[i]? = some (some k)
  only : ∀ j, s.keyRing.keys[j]? = some (some k) → j = i
  decoded_eq : (s.slot i).decoded = decoded

/-- How many events there can be for an object while the keys `ks` come: one as long as it has
no slot, or a slot that is not decoded. The other objects take too few slots to reach its
own again. -/
inductive Budget (k : SlotKey) (s : AssemblerCache) (ks : List (SlotKey × Bool)) : ℕ → Prop where
  | absent (hnew : some k ∉ s.keyRing.keys)
      (hfew : s.keyRing.taken k ks < ASSEMBLER_CACHE_SIZE) : Budget k s ks 1
  | collects (i : ℕ) (decoded : Bool) (hcollects : Collects k s i decoded)
      (hage : s.keyRing.taken k ks ≤ s.keyRing.age i) : Budget k s ks (!decoded).toNat

theorem AssemblerCache.length_keys (s : AssemblerCache) :
    s.keyRing.keys.length = ASSEMBLER_CACHE_SIZE := by
  show (s.slots.map _).length = _
  rw [List.length_map, s.length_slots]

/-- What the event for a symbol takes from the budget of the object. -/
def spent (k : SlotKey) (h : FecPacketHeader) (r : Received) : ℕ :=
  if h.slotKey = k ∧ r.fullData ≠ none then 1 else 0

section Budget

variable {k : SlotKey} {junk : ℕ → UInt8} {type : MoqTrackType} {s s' : AssemblerCache}
  {h : FecPacketHeader} {symbol : Bytes} {r : Received} {ks : List (SlotKey × Bool)} {n : ℕ}

/-- The object of the symbol has a slot: no slot changes its object. -/
theorem Budget.step_found {i₀ : ℕ}
    (hbudget : Budget k s ((h.slotKey, decide (0 < h.totalSymbols.toNat)) :: ks) n)
    (hring : ringStep lib junk type s h symbol = .ok (s', r)) (hfind : s.find h = some i₀) :
    ∃ n', Budget k s' ks n' ∧ spent k h r + n' ≤ n := by
  unfold spent
  obtain ⟨hi₀, hkey₀⟩ := AssemblerCache.find_eq_some hfind
  have hget₀ : s.keyRing.keys[i₀]? = some (some h.slotKey) := by
    rw [AssemblerCache.getElem?_keys hi₀, hkey₀]
  have hmem : some h.slotKey ∈ s.keyRing.keys := List.mem_of_getElem? hget₀
  obtain ⟨hkeys, hothers, hdecoded⟩ := ringStep_found hring hfind
  cases hbudget with
  | absent hnew hfew =>
    have hne : h.slotKey ≠ k := fun heq => hnew (heq ▸ hmem)
    rw [KeyRing.taken_cons_of_mem hmem] at hfew
    refine ⟨1, .absent (hkeys ▸ hnew) (hkeys ▸ hfew), ?_⟩
    rw [if_neg fun hand => hne hand.1]
  | collects i decoded hcollects hage =>
    rw [KeyRing.taken_cons_of_mem hmem] at hage
    have hstays : ∀ d, (s'.slot i).decoded = d → Budget k s' ks (!d).toNat := fun d hd =>
      .collects i d ⟨hcollects.lt, hkeys ▸ hcollects.key, hkeys ▸ hcollects.only, hd⟩
        (hkeys ▸ hage)
    by_cases heq : h.slotKey = k
    · have hi : i₀ = i := hcollects.only i₀ (heq ▸ hget₀)
      rw [hi, hcollects.decoded_eq] at hdecoded
      rcases hdecoded with ⟨hnone, hsame⟩ | ⟨hbefore, hafter⟩
      · refine ⟨_, hstays decoded hsame, ?_⟩
        rw [if_neg fun hand => hand.2 hnone, Nat.zero_add]
      · refine ⟨_, hstays true hafter, ?_⟩
        rw [hbefore]
        split <;> decide
    · have hi : i ≠ i₀ := by
        intro hi
        have hget := hcollects.key
        rw [hi, hget₀, Option.some.injEq, Option.some.injEq] at hget
        exact heq hget
      refine ⟨_, hstays decoded ?_, ?_⟩
      · rw [hothers i hi]
        exact hcollects.decoded_eq
      · rw [if_neg fun hand => heq hand.1, Nat.zero_add]

/-- An object that had no slot gets the slot at the index, and no other. -/
theorem collects_new {stays : Bool} (hnew : some k ∉ s.keyRing.keys)
    (hkeys : s'.keyRing = s.keyRing.take k stays) (hstays : stays = true) (decoded : Bool)
    (hdecoded : (s'.slot s.index).decoded = decoded) : Collects k s' s.index decoded := by
  have hindex : s.keyRing.index < s.keyRing.keys.length := s.keyRing.index_lt
  refine ⟨s.index_lt, ?_, ?_, hdecoded⟩
  · rw [hkeys, KeyRing.take, hstays]
    show (s.keyRing.keys.set s.keyRing.index _)[s.keyRing.index]? = _
    rw [List.getElem?_set_self hindex]
    rfl
  · intro j hj
    rw [hkeys] at hj
    rcases KeyRing.getElem?_take_eq_some hj with ⟨hj, -, -⟩ | ⟨-, hj⟩
    · exact hj
    · exact absurd (List.mem_of_getElem? hj) hnew

/-- The object of the symbol takes the slot at the index, and the object had none. -/
theorem Budget.step_first (hnew : some k ∉ s.keyRing.keys)
    (hfew : s.keyRing.taken k ((h.slotKey, decide (0 < h.totalSymbols.toNat)) :: ks) <
      ASSEMBLER_CACHE_SIZE)
    (hring : ringStep lib junk type s h symbol = .ok (s', r)) (hfind : s.find h = none) :
    ∃ n', Budget k s' ks n' ∧ spent k h r + n' ≤ 1 := by
  unfold spent
  have hnot := AssemblerCache.find_eq_none.mp hfind
  obtain ⟨hkeys, -, hdecoded⟩ := ringStep_new hring hfind
  rw [KeyRing.taken_cons_of_not_mem hnot, ← hkeys] at hfew
  by_cases hown : h.slotKey = k ∧ 0 < h.totalSymbols.toNat
  · obtain ⟨heq, hpos⟩ := hown
    rw [heq] at hkeys
    have hage := KeyRing.age_take_index s.keyRing k (decide (0 < h.totalSymbols.toNat))
    rw [← hkeys, AssemblerCache.length_keys] at hage
    rw [if_neg fun hne => hne heq] at hfew
    have hcollects := collects_new hnew hkeys (decide_eq_true hpos)
    have hle : s'.keyRing.taken k ks ≤ s'.keyRing.age s.index := by
      show _ ≤ s'.keyRing.age s.keyRing.index
      omega
    rcases hdecoded with ⟨hnone, hfalse⟩ | ⟨-, htrue⟩
    · refine ⟨_, .collects s.index false (hcollects _ hfalse) hle, ?_⟩
      rw [if_neg fun hand => hand.2 hnone]
      decide
    · refine ⟨_, .collects s.index true (hcollects _ htrue) hle, ?_⟩
      split <;> decide
  · -- another object, or one that does not stay
    refine ⟨1, .absent ?_ (by omega), ?_⟩
    · rw [hkeys]
      intro hmem
      obtain ⟨j, hj⟩ := List.mem_iff_getElem?.mp hmem
      rcases KeyRing.getElem?_take_eq_some hj with ⟨-, hstays, heq⟩ | ⟨-, hj⟩
      · exact hown ⟨heq, of_decide_eq_true hstays⟩
      · exact hnew (List.mem_of_getElem? hj)
    · rw [if_neg]
      rintro ⟨heq, hsome⟩
      rcases hdecoded with ⟨hnone, -⟩ | ⟨hpos, -⟩
      · exact hsome hnone
      · exact hown ⟨heq, hpos⟩

/-- The object of the symbol takes the slot at the index; the slot of the object is another,
since the others take too few to come round to it. -/
theorem Budget.step_other {i : ℕ} {decoded : Bool} (hcollects : Collects k s i decoded)
    (hage : s.keyRing.taken k ((h.slotKey, decide (0 < h.totalSymbols.toNat)) :: ks) ≤
      s.keyRing.age i)
    (hring : ringStep lib junk type s h symbol = .ok (s', r)) (hfind : s.find h = none) :
    Budget k s' ks (!decoded).toNat ∧ spent k h r = 0 := by
  have hnot := AssemblerCache.find_eq_none.mp hfind
  obtain ⟨hkeys, hothers, -⟩ := ringStep_new hring hfind
  have hne : h.slotKey ≠ k := fun heq => hnot (heq ▸ List.mem_of_getElem? hcollects.key)
  rw [KeyRing.taken_cons_of_not_mem hnot, if_pos hne, ← hkeys] at hage
  have hi : i ≠ s.keyRing.index := by
    intro hi
    rw [hi, KeyRing.age_index] at hage
    omega
  have hlt : i < s.keyRing.keys.length := by
    rw [AssemblerCache.length_keys]
    exact hcollects.lt
  have hage' := KeyRing.age_take hlt hi h.slotKey (decide (0 < h.totalSymbols.toNat))
  rw [← hkeys] at hage'
  refine ⟨.collects i decoded ⟨hcollects.lt, ?_, ?_, ?_⟩ (by omega), if_neg fun hand => hne hand.1⟩
  · rw [hkeys, KeyRing.getElem?_take_of_ne hi]
    exact hcollects.key
  · intro j hj
    rw [hkeys] at hj
    rcases KeyRing.getElem?_take_eq_some hj with ⟨-, -, heq⟩ | ⟨-, hj⟩
    · exact absurd heq hne
    · exact hcollects.only j hj
  · rw [hothers i hi]
    exact hcollects.decoded_eq

/-- What a symbol takes from the budget. -/
theorem Budget.step
    (hbudget : Budget k s ((h.slotKey, decide (0 < h.totalSymbols.toNat)) :: ks) n)
    (hring : ringStep lib junk type s h symbol = .ok (s', r)) :
    ∃ n', Budget k s' ks n' ∧ spent k h r + n' ≤ n := by
  cases hfind : s.find h with
  | some i₀ => exact hbudget.step_found hring hfind
  | none =>
    cases hbudget with
    | absent hnew hfew => exact Budget.step_first hnew hfew hring hfind
    | collects i decoded hcollects hage =>
      obtain ⟨hnext, hspent⟩ := Budget.step_other hcollects hage hring hfind
      exact ⟨_, hnext, by rw [hspent, Nat.zero_add]⟩

end Budget

/-! ## Published objects -/

/-- An object that is published, with the alias that its datagrams carry to the connection. -/
structure PublishedObject where
  object : MoqObject
  trackAlias : UInt8

def PublishedObject.slotKey (p : PublishedObject) : SlotKey := ⟨p.trackAlias, p.object.key⟩

/-- Objects on one track have different keys. -/
def DistinctKeys (published : List PublishedObject) : Prop :=
  published.Pairwise fun p q =>
    p.object.trackId.sameTrack q.object.trackId = true → p.object.key ≠ q.object.key

/-- The symbol that an arrival brings, if it brings one, belongs to the object. -/
def Arrival.IsOf (a : Arrival lib) (p : PublishedObject) : Prop :=
  ∀ track h, a.symbol? = some (track, h) →
    track.sameTrack p.object.trackId = true ∧ h.slotKey = p.slotKey

/-- The OBJECT events with the track and the key of an object. -/
def deliveriesOf (p : PublishedObject) (o : List Effect) : List MoqObject :=
  (objectsOf o).filter fun obj =>
    obj.trackId.sameTrack p.object.trackId && decide (obj.key = p.object.key)

instance (published : List PublishedObject) : Decidable (DistinctKeys published) := by
  unfold DistinctKeys
  infer_instance

theorem deliveriesOf_append (p : PublishedObject) (o o' : List Effect) :
    deliveriesOf p (o ++ o') = deliveriesOf p o ++ deliveriesOf p o' := by
  unfold deliveriesOf objectsOf
  rw [List.filterMap_append, List.filter_append]

/-- The same track and the same key: the same object. -/
theorem DistinctKeys.eq_of_key {published : List PublishedObject} (h : DistinctKeys published)
    {p q : PublishedObject} (hp : p ∈ published) (hq : q ∈ published)
    (htrack : p.object.trackId.sameTrack q.object.trackId = true)
    (hkey : p.object.key = q.object.key) : p = q := by
  by_contra hne
  have hsymm : Std.Symm fun p q : PublishedObject =>
      p.object.trackId.sameTrack q.object.trackId = true → p.object.key ≠ q.object.key :=
    ⟨fun _ _ h hsame hkey => h (MoqTrackId.sameTrack_comm.mpr hsame) hkey.symm⟩
  exact List.Pairwise.forall h hp hq hne htrack hkey

/-- An arrival that completes an object delivers it. -/
theorem length_deliveriesOf_effects (p : PublishedObject) (a : Arrival lib) (s : AssemblerCache)
    (track : MoqTrackId) (h : FecPacketHeader) (r : Received) :
    (deliveriesOf p (a.effects s track h r)).length =
      if r.fullData ≠ none ∧ track.sameTrack p.object.trackId = true ∧
        h.slotKey.object = p.object.key then 1 else 0 := by
  rw [deliveriesOf, Arrival.objectsOf_effects]
  cases r.fullData with
  | none => rfl
  | some fullData =>
    simp only [Option.toList_some, List.map_cons, List.map_nil, ne_eq, reduceCtorEq,
      not_false_eq_true, true_and]
    have hkey : ObjectKey.mk h.groupId.toUInt64.toUInt32 h.objectId.toUInt64.toUInt32 =
        h.slotKey.object := by simp [FecPacketHeader.slotKey]
    have htest : ((track.sameTrack p.object.trackId && decide (h.slotKey.object = p.object.key)) =
        true) ↔ track.sameTrack p.object.trackId = true ∧ h.slotKey.object = p.object.key := by
      rw [Bool.and_eq_true, decide_eq_true_eq]
    split
    · next hof =>
      rw [List.filter_cons_of_pos]
      · rfl
      · show (track.sameTrack p.object.trackId && decide (ObjectKey.mk _ _ = _)) = true
        rw [hkey]
        exact htest.mpr hof
    · next hnot =>
      rw [List.filter_cons_of_neg]
      · rfl
      · show ¬(track.sameTrack p.object.trackId && decide (ObjectKey.mk _ _ = _)) = true
        rw [hkey]
        exact fun h => hnot (htest.mp h)

/-- Among objects with distinct keys it delivers only the one its symbol belongs to. -/
theorem length_deliveriesOf_effects_le {published : List PublishedObject}
    (hdistinct : DistinctKeys published) {p q : PublishedObject} (hp : p ∈ published)
    (hq : q ∈ published) {a : Arrival lib} (hof : a.IsOf q) {track : MoqTrackId}
    {h : FecPacketHeader} (hsym : a.symbol? = some (track, h)) (s : AssemblerCache)
    (r : Received) :
    (deliveriesOf p (a.effects s track h r)).length ≤
      if h.slotKey = p.slotKey ∧ r.fullData ≠ none then 1 else 0 := by
  rw [length_deliveriesOf_effects]
  obtain ⟨htrack, hkey⟩ := hof track h hsym
  split
  · next hdelivered =>
    obtain ⟨hfull, htrack', hkey'⟩ := hdelivered
    have hsame : q.object.trackId.sameTrack p.object.trackId = true := by
      rw [MoqTrackId.sameTrack_iff] at htrack htrack' ⊢
      exact ⟨htrack.1.symm.trans htrack'.1, htrack.2.symm.trans htrack'.2⟩
    have hobject : q.object.key = p.object.key := by
      rw [← hkey', hkey]
      rfl
    rw [hdistinct.eq_of_key hq hp hsame hobject] at hkey
    rw [if_pos ⟨hkey, hfull⟩]
  · exact Nat.zero_le _

/-! ## Whole runs -/

/-- A run delivers an object at most as often as its budget allows. -/
theorem deliveriesOf_run {published : List PublishedObject} (hdistinct : DistinctKeys published)
    {p : PublishedObject} (hp : p ∈ published) {as : List (Arrival lib)}
    (hof : ∀ a ∈ as, ∃ q ∈ published, a.IsOf q) {s s' : AssemblerCache} {o : List Effect} {n : ℕ}
    (hbudget : Budget p.slotKey s (as.filterMap (·.touches)) n)
    (hrun : run (arrive lib) s as = some (s', o)) : (deliveriesOf p o).length ≤ n := by
  induction as generalizing s o n with
  | nil =>
    simp only [run_nil, Option.some.injEq, Prod.mk.injEq] at hrun
    rw [← hrun.2]
    exact Nat.zero_le n
  | cons a as ih =>
    obtain ⟨s₁, o₁, o₂, hstep, hrun₁, rfl⟩ := run_cons.mp hrun
    rw [deliveriesOf_append, List.length_append]
    have hrest := fun b hb => hof b (List.mem_cons_of_mem a hb)
    cases hsym : a.symbol? with
    | none =>
      obtain ⟨o', hnone, hall⟩ := arrive_of_none hsym
      rw [hall s, Option.some.injEq, Prod.mk.injEq] at hstep
      obtain ⟨rfl, rfl⟩ := hstep
      rw [List.filterMap_cons_none (by rw [Arrival.touches, hsym]; rfl)] at hbudget
      rw [deliveriesOf, objectsOf_eq, hnone]
      have hle := ih hrest hbudget hrun₁
      simpa using hle
    | some x =>
      obtain ⟨track, h⟩ := x
      rw [arrive_of_some hsym] at hstep
      cases hring : ringStep lib a.io.junk track.type s h a.bytes with
      | error e =>
        rw [hring] at hstep
        exact absurd hstep (by simp)
      | ok y =>
        obtain ⟨s₂, r⟩ := y
        simp only [hring, Option.some.injEq, Prod.mk.injEq] at hstep
        obtain ⟨rfl, rfl⟩ := hstep
        rw [List.filterMap_cons_some (by rw [Arrival.touches, hsym]; rfl)] at hbudget
        obtain ⟨n', hbudget', hspent⟩ := hbudget.step hring
        obtain ⟨q, hq, hofq⟩ := hof a List.mem_cons_self
        have hfirst := length_deliveriesOf_effects_le hdistinct hp hq hofq hsym s r
        exact (Nat.add_le_add hfirst (ih hrest hbudget' hrun₁)).trans hspent

/-- At most one OBJECT event for each key: from the start, or from whenever the object has no
slot, over any datagrams of published objects with distinct keys, as long as fewer than 16
slots go to other objects. -/
theorem object_delivered_once (lib : FecLib) (published : List PublishedObject)
    (hdistinct : DistinctKeys published) (s : AssemblerCache) (as : List (Arrival lib))
    (hof : ∀ a ∈ as, ∃ q ∈ published, a.IsOf q) {s' : AssemblerCache} {o : List Effect}
    (hrun : run (arrive lib) s as = some (s', o)) (p : PublishedObject) (hp : p ∈ published)
    (hnew : some p.slotKey ∉ s.keyRing.keys)
    (hfew : s.keyRing.taken p.slotKey (as.filterMap (·.touches)) < ASSEMBLER_CACHE_SIZE) :
    (deliveriesOf p o).length ≤ 1 :=
  deliveriesOf_run hdistinct hp hof (.absent hnew hfew) hrun

/-! ## Objects of one symbol -/

/-- The first symbol of an object that has just got its slot is stored and counted. -/
theorem storeSymbol_assign (a : FrameAssembler) {h : FecPacketHeader} (symbol : Bytes)
    (hpos : 0 < h.totalSymbols.toNat) :
    ∃ b, (a.assign h).storeSymbol 0 h.symbolSize.toNat symbol = .ok b ∧ b.receivedCount = 1 ∧
      b.store = ((a.assign h).store.overwrite fun i =>
        if i = 0 then some (symbol.take h.symbolSize.toNat) else none).mark 0 := by
  have hcap : 0 < (a.assign h).store.capacitySymbols := by
    have hle := (a.assign h).totalSymbols_le
    have htotal : (a.assign h).totalSymbols = h.totalSymbols.toNat := rfl
    omega
  have hsize : h.symbolSize.toNat ≤ (a.assign h).store.capacitySymbolSize :=
    SymbolStore.le_capacitySymbolSize_ensure _ _ _
  have hfree : (a.assign h).store.received 0 = false := SymbolStore.received_clearMask _ _
  refine ⟨_, FrameAssembler.storeSymbol_eq_ok.mpr ⟨hcap, fun _ => hsize, rfl⟩, ?_⟩
  rw [FrameAssembler.withSymbol, if_neg (by rw [hfree]; decide)]
  exact ⟨rfl, rfl⟩

/-- The only symbol of an object completes it in a new slot. -/
theorem slotStep_single (lib : FecLib) (junk : ℕ → UInt8) (type : MoqTrackType) (a : FrameAssembler)
    {h : FecPacketHeader} (symbol : Bytes) (htotal : h.totalSymbols = 1)
    (hdata : h.dataSymbols = 1) (hindex : h.symbolIndex = 0) :
    ∃ r, slotStep lib junk type (a.assign h) h symbol = .ok r ∧ r.fullData ≠ none := by
  have htotal' : h.totalSymbols.toNat = 1 := by rw [htotal]; rfl
  have hdata' : h.dataSymbols.toNat = 1 := by rw [hdata]; rfl
  have hindex' : h.symbolIndex.toNat = 0 := by rw [hindex]; rfl
  have hcap : 0 < (a.assign h).store.capacitySymbols := by
    have hle := (a.assign h).totalSymbols_le
    have htotal : (a.assign h).totalSymbols = 1 := htotal'
    omega
  have hsize : h.symbolSize.toNat ≤ (a.assign h).store.capacitySymbolSize :=
    SymbolStore.le_capacitySymbolSize_ensure _ _ _
  obtain ⟨b, hstored, hcount, hstore⟩ := storeSymbol_assign a symbol (h := h) (by omega)
  obtain ⟨d, hd⟩ := completion_of_received lib junk type (a := b.afterRequest type) (h := h)
    (by rw [FrameAssembler.receivedCount_afterRequest, hcount, hdata'])
    (by
      intro j hj
      have hj0 : j = 0 := by omega
      rw [FrameAssembler.store_afterRequest, hstore, hj0, SymbolStore.received_mark, if_pos rfl]
      exact hcap)
    (by rw [FrameAssembler.store_afterRequest, hstore, hdata']; exact hcap)
    (by rw [FrameAssembler.store_afterRequest, hstore]; exact hsize)
  refine ⟨(b.afterRequest type).received (b.requests type) (some d), ?_, Option.some_ne_none _⟩
  rw [slotStep, if_neg, hindex', hstored]
  · show (completion lib junk type (b.afterRequest type) h >>= _) = _
    rw [hd]
    rfl
  · rw [htotal, hindex]
    rintro (hdecoded | hle)
    · exact Bool.false_ne_true hdecoded
    · exact absurd hle (by decide)

/-- An object of one symbol that has no slot is delivered. -/
theorem ringStep_single (lib : FecLib) (junk : ℕ → UInt8) (type : MoqTrackType) {s : AssemblerCache}
    {h : FecPacketHeader} (symbol : Bytes) (hnew : some h.slotKey ∉ s.keyRing.keys)
    (htotal : h.totalSymbols = 1) (hdata : h.dataSymbols = 1) (hindex : h.symbolIndex = 0) :
    ∃ s' r, ringStep lib junk type s h symbol = .ok (s', r) ∧ r.fullData ≠ none := by
  have hlocate : s.locate h = (s.evict h, s.index) := by
    rw [AssemblerCache.locate, AssemblerCache.find_eq_none.mpr hnew]
  obtain ⟨r, hr, hfull⟩ := slotStep_single lib junk type (s.slot s.index) symbol htotal
    hdata hindex
  refine ⟨_, r, ringStep_ok ?_, hfull⟩
  rw [hlocate, AssemblerCache.slot_evict_self]
  exact hr

/-- Every slot that has an object is done with it. -/
def AssemblerCache.AllDecoded (s : AssemblerCache) : Prop :=
  ∀ i < ASSEMBLER_CACHE_SIZE, (s.slot i).slotKey?.isSome = true → (s.slot i).decoded = true

theorem AssemblerCache.allDecoded_empty : AssemblerCache.empty.AllDecoded := by
  show ∀ i < 16, (empty.slot i).slotKey?.isSome = true → (empty.slot i).decoded = true
  decide

/-- Where all slots are done, the only symbol of an object delivers it exactly when the object has
no slot. -/
theorem AssemblerCache.AllDecoded.ringStep_single (lib : FecLib) (junk : ℕ → UInt8)
    (type : MoqTrackType) {s : AssemblerCache} (hdone : s.AllDecoded) {h : FecPacketHeader}
    (symbol : Bytes) (htotal : h.totalSymbols = 1) (hdata : h.dataSymbols = 1)
    (hindex : h.symbolIndex = 0) :
    ∃ s' r, ringStep lib junk type s h symbol = .ok (s', r) ∧ s'.AllDecoded ∧
      (r.fullData ≠ none ↔ some h.slotKey ∉ s.keyRing.keys) := by
  cases hfind : s.find h with
  | none =>
    have hnew := AssemblerCache.find_eq_none.mp hfind
    obtain ⟨s', r, hring, hfull⟩ :=
      Bishlink.ringStep_single lib junk type symbol hnew htotal hdata hindex
    obtain ⟨-, hothers, hself⟩ := ringStep_new hring hfind
    refine ⟨s', r, hring, fun i hi hused => ?_, iff_of_true hfull hnew⟩
    by_cases hi' : i = s.index
    · rw [hi']
      exact (hself.resolve_left fun hquiet => hfull hquiet.1).2
    · rw [hothers i hi'] at hused ⊢
      exact hdone i hi hused
  | some i =>
    obtain ⟨hi, hkey⟩ := AssemblerCache.find_eq_some hfind
    have hdecoded := hdone i hi (by rw [hkey]; rfl)
    have hlocate : s.locate h = (s, i) := by rw [AssemblerCache.locate, hfind]
    have hslot : slotStep lib junk type ((s.locate h).1.slot (s.locate h).2) h symbol =
        .ok ⟨s.slot i, none, none⟩ := by
      rw [hlocate, slotStep, if_pos (Or.inl hdecoded)]
    have hring := ringStep_ok hslot
    obtain ⟨-, hothers, hself⟩ := ringStep_found hring hfind
    refine ⟨_, _, hring, fun j hj hused => ?_, iff_of_false (fun h => h rfl) fun hnew => ?_⟩
    · by_cases hj' : j = i
      · rw [hj']
        exact hself.elim (fun hkept => hkept.2.trans hdecoded) (·.2)
      · rw [hothers j hj'] at hused ⊢
        exact hdone j hj hused
    · rw [AssemblerCache.find_eq_none.mpr hnew] at hfind
      exact Option.some_ne_none i hfind.symm

/-! ## More objects than slots -/

/-- A TEXT object of one byte. -/
def textObject (id : UInt64) : PublishedObject :=
  ⟨⟨⟨MOQ_TRACK_TEXT, 0, TrackName.empty⟩, 0, id, [1], false, 1⟩, MOQ_TRACK_TEXT⟩

/-- The client that publishes it. -/
def textPublisher : Transport :=
  { Transport.init false [] 1280 with conns := [Conn.zero 1] }

/-- The symbols of the object: one. -/
def textShards (id : UInt64) : ShardedObject :=
  (shardObject FecLib.unavailable (publishAt 0) textPublisher (textObject id).object).1

/-- Its only datagram arrives. -/
def textArrival (id : UInt64) : Arrival FecLib.unavailable where
  transport := Transport.init false [] 1280
  conn := Conn.zero 1
  io := ⟨0, 0, MoqTrackId.zero, MoqTrackId.zero, fun _ => 0⟩
  payload := symbolDatagram textPublisher (publishAt 0) (textObject id).object (textShards id)
    (Conn.zero 1) MOQ_TRACK_TEXT 0
  sound := FecCache.sound_empty _

set_option maxRecDepth 10000 in
example : (transportPublish FecLib.unavailable (publishAt 0) textPublisher
    (textObject 0).object).2.2 = [.datagram 1 0 (textArrival 0).payload] := by decide

/-- The header of that datagram. -/
def textHeader (id : UInt64) : FecPacketHeader :=
  datagramHeader (textObject id).object (textShards id) MOQ_TRACK_TEXT 0 0 0

/-- The symbols do not depend on the id. -/
theorem textShards_eq (id : UInt64) : textShards id = textShards 0 := rfl

set_option maxRecDepth 10000 in
theorem textShards_zero : (textShards 0).totalSymbols = 1 ∧ (textShards 0).dataSymbols = 1 ∧
    (textShards 0).symbolSize = 1200 ∧ ((textShards 0).symbol 0).length = 1200 := by decide

theorem symbol?_textArrival (id : UInt64) :
    (textArrival id).symbol? = some (⟨MOQ_TRACK_TEXT, 0, TrackName.empty⟩, textHeader id) := by
  obtain ⟨htotal, -, hsize, hsymbol⟩ := textShards_zero
  rw [← textShards_eq id] at htotal hsize hsymbol
  have hpayload : (textArrival id).payload = (textHeader id).encode ++ (textShards id).symbol 0 :=
    rfl
  have hlimits : (textHeader id).totalSymbols = 1 ∧ (textHeader id).symbolSize = 1200 := by
    unfold textHeader datagramHeader
    rw [htotal, hsize]
    exact ⟨rfl, rfl⟩
  have hlen : (textArrival id).payload.length = FecPacketHeader.size + 1200 := by
    rw [hpayload, List.length_append, FecPacketHeader.length_encode, hsymbol]
  have hdecode : FecPacketHeader.decode (textArrival id).payload = textHeader id := by
    rw [hpayload, FecPacketHeader.decode_encode]
  have hfirst : (textArrival id).payload.getD 0 0 = MOQ_TRACK_TEXT := rfl
  have hfound : findSubscriptionByAlias (textArrival id).conn.subscriptions MOQ_TRACK_TEXT
      (textArrival id).io.uninitTrack = some ⟨MOQ_TRACK_TEXT, 0, TrackName.empty⟩ := rfl
  rw [Arrival.symbol?, symbolOf, if_neg, hfirst, hlen, hfound, if_neg]
  · dsimp only
    rw [hdecode, hlimits.1, hlimits.2, if_neg (by decide)]
  · decide
  · exact fun h => Bool.false_ne_true h.1

theorem textHeader_spec (id : UInt64) :
    (textHeader id).totalSymbols = 1 ∧ (textHeader id).dataSymbols = 1 ∧
      (textHeader id).symbolIndex = 0 ∧ (textHeader id).slotKey = (textObject id).slotKey := by
  obtain ⟨htotal, hdata, -, -⟩ := textShards_zero
  rw [← textShards_eq id] at htotal hdata
  unfold textHeader datagramHeader
  rw [htotal, hdata]
  exact ⟨rfl, rfl, rfl, rfl⟩

theorem textArrival_isOf (id : UInt64) : (textArrival id).IsOf (textObject id) := by
  intro track h hsym
  rw [symbol?_textArrival, Option.some.injEq, Prod.mk.injEq] at hsym
  rw [← hsym.1, ← hsym.2, (textHeader_spec id).2.2.2]
  exact ⟨rfl, rfl⟩

theorem touches_textArrival (id : UInt64) :
    (textArrival id).touches = some ((textObject id).slotKey, true) := by
  obtain ⟨htotal, -, -, hkey⟩ := textHeader_spec id
  rw [Arrival.touches, symbol?_textArrival, Option.map_some, hkey, htotal]
  rfl

/-- The objects that come while they have no slot. -/
def newIds (r : KeyRing SlotKey) : List UInt64 → List UInt64
  | [] => []
  | id :: ids =>
    (if some (textObject id).slotKey ∉ r.keys then [id] else []) ++
      newIds (r.touch (textObject id).slotKey true) ids

/-- These are the ones that are delivered. -/
theorem run_textArrivals (p : PublishedObject)
    (htrack : (textObject 0).object.trackId.sameTrack p.object.trackId = true)
    (ids : List UInt64) (s : AssemblerCache) (hdone : s.AllDecoded) :
    ∃ s' o, run (arrive FecLib.unavailable) s (ids.map textArrival) = some (s', o) ∧
      (deliveriesOf p o).length =
        (newIds s.keyRing ids).countP fun id => (textObject id).object.key = p.object.key := by
  induction ids generalizing s with
  | nil => exact ⟨s, [], rfl, rfl⟩
  | cons id ids ih =>
    obtain ⟨htotal, hdata, hindex, hkey⟩ := textHeader_spec id
    obtain ⟨s₁, r, hring, hdone₁, hfull⟩ := hdone.ringStep_single FecLib.unavailable
      (textArrival id).io.junk (MoqTrackId.mk MOQ_TRACK_TEXT 0 TrackName.empty).type
      (textArrival id).bytes htotal hdata hindex
    have harrive := arrive_of_some (symbol?_textArrival id) s
    simp only [hring] at harrive
    have hkeys := keyRing_arrive harrive
    simp only [touches_textArrival] at hkeys
    obtain ⟨s', o, hrun, hcount⟩ := ih s₁ hdone₁
    refine ⟨s', _, run_cons.mpr ⟨s₁, _, o, harrive, hrun, rfl⟩, ?_⟩
    rw [hkey] at hfull
    rw [deliveriesOf_append, List.length_append, hcount, hkeys, newIds, List.countP_append,
      length_deliveriesOf_effects, hkey]
    congr 1
    by_cases hnew : some (textObject id).slotKey ∉ s.keyRing.keys
    · rw [if_pos hnew, List.countP_singleton]
      refine if_congr ?_ rfl rfl
      rw [decide_eq_true_eq]
      exact ⟨fun hall => hall.2.2, fun hkey => ⟨hfull.mpr hnew, htrack, hkey⟩⟩
    · rw [if_neg hnew, List.countP_nil, if_neg fun hall => hnew (hfull.mp hall.1)]

/-- Two objects arrive, one datagram each, and then the first datagram again. -/
theorem object_delivered_once_text :
    ∃ s' o, run (arrive FecLib.unavailable) AssemblerCache.empty ([0, 1, 0].map textArrival) =
        some (s', o) ∧ deliveriesOf (textObject 0) o ≠ [] ∧
      (deliveriesOf (textObject 0) o).length ≤ 1 := by
  obtain ⟨s', o, hrun, hcount⟩ := run_textArrivals (textObject 0) rfl [0, 1, 0]
    AssemblerCache.empty AssemblerCache.allDecoded_empty
  refine ⟨s', o, hrun, fun hnil => ?_, object_delivered_once FecLib.unavailable
    ([0, 1].map textObject) ?_ AssemblerCache.empty ([0, 1, 0].map textArrival) ?_ hrun
    (textObject 0) ?_ ?_ ?_⟩
  · have hone : (newIds AssemblerCache.empty.keyRing [0, 1, 0]).countP
        (fun id => (textObject id).object.key = (textObject 0).object.key) = 1 := by decide
    rw [hnil, hone] at hcount
    exact Nat.zero_ne_one hcount
  · decide
  · intro a ha
    obtain ⟨id, hid, rfl⟩ := List.mem_map.mp ha
    have hall : ∀ id ∈ ([0, 1, 0] : List UInt64), id ∈ ([0, 1] : List UInt64) := by simp
    exact ⟨textObject id, List.mem_map_of_mem (hall id hid), textArrival_isOf id⟩
  · exact List.mem_cons_self
  · decide
  · simp only [List.map_cons, List.map_nil, List.filterMap_cons, touches_textArrival,
      List.filterMap_nil]
    decide

/-- Seventeen objects are published; each arrives, and then the first one again. -/
def seventeenAndFirst : List UInt64 :=
  [0, 1, 2, 3, 4, 5, 6, 7, 8, 9, 10, 11, 12, 13, 14, 15, 16, 0]

/-- The first object is delivered twice. -/
theorem firstObject_delivered_twice :
    ∃ (published : List PublishedObject) (as : List (Arrival FecLib.unavailable))
      (s' : AssemblerCache) (o : List Effect) (p : PublishedObject),
      DistinctKeys published ∧ (∀ a ∈ as, ∃ q ∈ published, a.IsOf q) ∧
        run (arrive FecLib.unavailable) AssemblerCache.empty as = some (s', o) ∧
        p ∈ published ∧ ¬(deliveriesOf p o).length ≤ 1 := by
  obtain ⟨s', o, hrun, hcount⟩ := run_textArrivals (textObject 0) rfl seventeenAndFirst
    AssemblerCache.empty AssemblerCache.allDecoded_empty
  refine ⟨seventeenAndFirst.dropLast.map textObject, seventeenAndFirst.map textArrival, s', o,
    textObject 0, by decide, ?_, hrun, List.mem_cons_self, ?_⟩
  · intro a ha
    obtain ⟨id, hid, rfl⟩ := List.mem_map.mp ha
    have hall : ∀ id ∈ seventeenAndFirst, id ∈ seventeenAndFirst.dropLast := by
      simp [seventeenAndFirst]
    exact ⟨textObject id, List.mem_map_of_mem (hall id hid), textArrival_isOf id⟩
  · rw [hcount]
    decide

end Bishlink
