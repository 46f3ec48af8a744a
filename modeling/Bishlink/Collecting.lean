import Mathlib.Data.Finset.Card
import Mathlib.Data.Finset.Range
import Bishlink.DatagramBounds
import Bishlink.Sharding

/-!
# A slot that collects an object

`Holds p arrived a` says that slot `a` holds the symbols `arrived` of object `p` and no others.
Assigning the slot begins with no symbols, each datagram of the object adds its own, and what the
handler then computes depends on `arrived` alone: nothing, the object, or what the decoder says.
-/

namespace Bishlink

open ByteCodec Checked

/-- A slot with the symbols of the object that arrived: they are marked, counted and at the start
of their buffers. -/
structure Holds {pub : FecLib} (p : Sharding pub) (arrived : Finset ℕ) (a : FrameAssembler) :
    Prop where
  totalSymbols : a.totalSymbols = p.shards.totalSymbols
  symbolSize_le : p.shards.symbolSize ≤ a.store.capacitySymbolSize
  arrived_lt : ∀ j ∈ arrived, j < p.shards.totalSymbols
  received : ∀ j, a.store.received j = true ↔ j ∈ arrived
  receivedCount : a.receivedCount = arrived.card
  bytes : ∀ j ∈ arrived, (a.store.buffer j).take p.shards.symbolSize = p.shards.symbol j
  priority : a.priority = p.object.priority

namespace Holds

variable {pub lib : FecLib} {p : Sharding pub} {arrived : Finset ℕ} {a : FrameAssembler} {s : ℕ}
  {h : FecPacketHeader}

theorem capacity (hholds : Holds p arrived a) :
    p.shards.totalSymbols ≤ a.store.capacitySymbols := by
  rw [← hholds.totalSymbols]
  exact a.totalSymbols_le

/-- A slot that goes to the object has none of its symbols. -/
theorem assign (hheader : p.HeaderOf s h) (a : FrameAssembler) : Holds p ∅ (a.assign h) := by
  refine ⟨hheader.totalSymbols, ?_, by simp, ?_, rfl, by simp, hheader.priority⟩
  · rw [← hheader.symbolSize]
    exact SymbolStore.le_capacitySymbolSize_ensure _ _ _
  · intro j
    have hfree : (a.assign h).store.received j = false := SymbolStore.received_clearMask _ _
    simp [hfree]

theorem afterRequest (hholds : Holds p arrived a) (type : MoqTrackType) :
    Holds p arrived (a.afterRequest type) :=
  ⟨hholds.totalSymbols, hholds.symbolSize_le, hholds.arrived_lt, hholds.received,
    hholds.receivedCount, hholds.bytes, hholds.priority⟩

/-- A datagram of the object brings its symbol into the slot. -/
theorem withSymbol (hholds : Holds p arrived a) (hs : s < p.shards.totalSymbols)
    (hlength : p.shards.symbolSize ≤ (p.shards.symbol s).length) :
    Holds p (insert s arrived)
      (a.withSymbol s p.shards.symbolSize (p.shards.symbol s)) := by
  have hcap := hholds.capacity
  unfold FrameAssembler.withSymbol
  -- a symbol that is there already changes nothing
  by_cases hreceived : a.store.received s = true
  · rw [if_pos hreceived, Finset.insert_eq_of_mem ((hholds.received s).mp hreceived)]
    exact hholds
  rw [if_neg hreceived]
  have hnew : s ∉ arrived := fun hmem => hreceived ((hholds.received s).mpr hmem)
  have hmark : ∀ j, ((a.store.overwrite fun i => if i = s then
      some ((p.shards.symbol s).take p.shards.symbolSize) else none).mark s).received j =
        if j = s then true else a.store.received j := fun j => by
    rw [SymbolStore.received_mark (by rw [SymbolStore.capacitySymbols_overwrite]; omega),
      SymbolStore.received_overwrite]
  refine ⟨hholds.totalSymbols, hholds.symbolSize_le, ?_, ?_, ?_, ?_, hholds.priority⟩
  · intro j hj
    rcases Finset.mem_insert.mp hj with rfl | hj
    · exact hs
    · exact hholds.arrived_lt j hj
  · intro j
    show SymbolStore.received _ j = true ↔ _
    rw [hmark, Finset.mem_insert]
    by_cases heq : j = s
    · simp [heq]
    · rw [if_neg heq, hholds.received]
      simp [heq]
  · show a.receivedCount + 1 = _
    rw [Finset.card_insert_of_notMem hnew, hholds.receivedCount]
  · intro j hj
    show (SymbolStore.buffer _ j).take _ = _
    rw [SymbolStore.buffer_mark]
    have hlt : j < p.shards.totalSymbols := by
      rcases Finset.mem_insert.mp hj with rfl | hj
      · exact hs
      · exact hholds.arrived_lt j hj
    rw [SymbolStore.buffer_overwrite (by omega)]
    by_cases heq : j = s
    · -- the symbol fills the start of its buffer
      subst heq
      have hexact : (p.shards.symbol j).length = p.shards.symbolSize :=
        Nat.le_antisymm (p.length_symbol_le j) hlength
      rw [if_pos rfl]
      dsimp only
      have hcut : ((p.shards.symbol j).take p.shards.symbolSize).take
          a.store.capacitySymbolSize = p.shards.symbol j := by
        rw [List.take_of_length_le (p.length_symbol_le j),
          List.take_of_length_le (by rw [hexact]; exact hholds.symbolSize_le)]
      rw [hcut, ← hexact]
      exact take_writeAt_zero _ _
    · rw [if_neg heq]
      exact hholds.bytes j ((Finset.mem_insert.mp hj).resolve_left heq)

/-! ## What the handler does with it -/

/-- A datagram of the object is stored. -/
theorem slotStep_eq (hholds : Holds p arrived a) (hopen : a.decoded = false)
    (hheader : p.HeaderOf s h) (hs : s < p.shards.totalSymbols) (junk : ℕ → UInt8)
    (type : MoqTrackType) (symbol : Bytes) :
    slotStep lib junk type a h symbol =
      (completion lib junk type
        ((a.withSymbol s p.shards.symbolSize symbol).afterRequest type) h >>= fun d =>
          .ok (((a.withSymbol s p.shards.symbolSize symbol).afterRequest type).received
            ((a.withSymbol s p.shards.symbolSize symbol).requests type) d)) := by
  have hcap := hholds.capacity
  have hindex : ¬h.totalSymbols ≤ h.symbolIndex := by
    rw [UInt16.le_iff_toNat_le, hheader.totalSymbols, hheader.symbolIndex]
    omega
  have hstored : a.storeSymbol s p.shards.symbolSize symbol =
      .ok (a.withSymbol s p.shards.symbolSize symbol) :=
    FrameAssembler.storeSymbol_eq_ok.mpr ⟨by omega, fun _ => hholds.symbolSize_le, rfl⟩
  unfold slotStep
  rw [if_neg (by rw [hopen]; exact fun hor => hor.elim Bool.false_ne_true hindex),
    hheader.symbolIndex, hheader.symbolSize, hstored]
  rfl

/-- With too few symbols nothing happens. -/
theorem completion_few (hholds : Holds p arrived a) (hheader : p.HeaderOf s h)
    (hfew : arrived.card < p.shards.dataSymbols) (junk : ℕ → UInt8) (type : MoqTrackType) :
    completion lib junk type a h = .ok none := by
  unfold completion
  rw [if_pos (by rw [hholds.receivedCount, hheader.dataSymbols]; exact hfew)]

/-- With all data symbols there the object is complete. -/
theorem completion_all (hholds : Holds p arrived a) (hheader : p.HeaderOf s h)
    (hall : ∀ j < p.shards.dataSymbols, j ∈ arrived) (junk : ℕ → UInt8) (type : MoqTrackType) :
    ∃ d, completion lib junk type a h = .ok (some d) := by
  have hcap := hholds.capacity
  have hle := p.dataSymbols_le
  have hcount : p.shards.dataSymbols ≤ arrived.card := by
    have hsub : Finset.range p.shards.dataSymbols ⊆ arrived := fun j hj =>
      hall j (Finset.mem_range.mp hj)
    have hcard := Finset.card_le_card hsub
    rwa [Finset.card_range] at hcard
  refine completion_of_received lib junk type ?_ ?_ ?_ ?_
  · rw [hheader.dataSymbols, hholds.receivedCount]
    exact hcount
  · intro j hj
    rw [hheader.dataSymbols] at hj
    exact (hholds.received j).mpr (hall j hj)
  · rw [hheader.dataSymbols]
    omega
  · rw [hheader.symbolSize]
    exact hholds.symbolSize_le

/-- With a data symbol missing the decoder is asked. -/
theorem obtained_eq (hholds : Holds p arrived a) (hheader : p.HeaderOf s h)
    (hlacks : ∃ j < p.shards.dataSymbols, j ∉ arrived) (type : MoqTrackType) :
    obtained lib type a.store h = recovered lib type a.store p.shards.totalSymbols
      p.shards.dataSymbols p.shards.symbolSize := by
  obtain ⟨j, hj, hmissing⟩ := hlacks
  have hcap := hholds.capacity
  have hle := p.dataSymbols_le
  have hscan : gotAllData a.store.receivedMask 0 p.shards.dataSymbols = .ok false := by
    refine gotAllData_false.mpr ⟨j, Nat.zero_le j, by omega, ?_, ?_⟩
    · rw [a.store.length_receivedMask]
      omega
    · show a.store.received j = false
      rw [← Bool.not_eq_true, hholds.received]
      exact hmissing
  unfold obtained
  rw [hheader.dataSymbols, hheader.totalSymbols, hheader.symbolSize, hscan]
  rfl

/-- The object is complete when the decoder restores it. -/
theorem completion_decoded (hholds : Holds p arrived a) (hheader : p.HeaderOf s h)
    (hcount : p.shards.dataSymbols ≤ arrived.card)
    (hlacks : ∃ j < p.shards.dataSymbols, j ∉ arrived) (junk : ℕ → UInt8) (type : MoqTrackType) :
    (∃ d, completion lib junk type a h = .ok (some d)) ↔
      ∃ symbols, recovered lib type a.store p.shards.totalSymbols p.shards.dataSymbols
        p.shards.symbolSize = .ok (some symbols) := by
  have hcap := hholds.capacity
  have hle := p.dataSymbols_le
  unfold completion
  rw [if_neg (by rw [hholds.receivedCount, hheader.dataSymbols]; omega),
    hholds.obtained_eq hheader hlacks]
  constructor
  · rintro ⟨d, hd⟩
    obtain ⟨found, hfound, hd⟩ := bind_eq_ok.mp hd
    cases found with
    | none => simp at hd
    | some symbols => exact ⟨symbols, hfound⟩
  · rintro ⟨symbols, hsymbols⟩
    obtain ⟨out, hout⟩ := (copyObject_fits (a.store.overwrite symbols) h.symbolSize.toNat
      h.originalSize.toNat junk (n := h.dataSymbols.toNat) (by
        rw [SymbolStore.capacitySymbols_overwrite, hheader.dataSymbols]; omega)).mpr (by
        have hsize := hholds.symbolSize_le
        rw [SymbolStore.capacitySymbolSize_overwrite, hheader.symbolSize]
        omega)
    rw [hsymbols]
    refine ⟨(symbols, out), ?_⟩
    show (copyObject _ _ _ _ _ _ >>= _) = _
    rw [hout]
    rfl

end Holds

end Bishlink
