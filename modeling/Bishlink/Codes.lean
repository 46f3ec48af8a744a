import Mathlib.FieldTheory.Finite.GaloisField
import Bishlink.Fec
import Bishlink.Lib.Interpolation

/-!
# The erasure codes

What the results about objects take for granted of the two codes: that a decoding which succeeds
is right (`Restores`), and that a decoding from enough symbols succeeds (`Recovers`).
`FecLib.interpolating` promises both: its symbols are the values of polynomials over a field of
256 elements.
-/

namespace Bishlink

open ByteCodec Interpolation

/-! ## Promises -/

/-- There is no Reed-Solomon context for more than 255 symbols; and a decoding that succeeds on
symbols of one encoding restores the data symbols, whatever stands in for the missing ones. -/
structure Restores (lib : FecLib) : Prop where
  reedSolomonNew : ∀ d p, lib.reedSolomonNew d p = true → d + p ≤ 255
  reedSolomon : ∀ d p size blocks shards marks out, blocks.length = d →
    (∀ b ∈ blocks, b.length = size) → shards.length = d + p → marks.length = d + p →
    (∀ i < d + p, marks.getD i false = false →
      shards[i]? = (blocks ++ lib.reedSolomonEncode d p size blocks)[i]?) →
    lib.reedSolomonDecode d p size shards marks = some out → ∀ i < d, out[i]? = blocks[i]?
  nanorq : ∀ d size blocks mix subs mix', blocks.length = d → (∀ b ∈ blocks, b.length = size) →
    lib.nanorq d size [] blocks = some mix → (∀ s ∈ subs, d ≤ s.2) →
    lib.nanorq d size subs ((List.range d).map fun i =>
      ((subs.find? (·.1 == i)).map fun s => mix s.2).getD (blocks.getD i [])) = some mix' →
    ∀ i < d, mix' i = blocks.getD i []

/-- The pairs with which `fec_decode` replaces rows: missing data symbols by repair symbols, each
of them once. -/
structure Substitutes (d p : ℕ) (subs : List (ℕ × ℕ)) : Prop where
  nonempty : subs ≠ []
  dropped : (subs.map Prod.fst).Nodup
  repair : (subs.map Prod.snd).Nodup
  dropped_lt : ∀ s ∈ subs, s.1 < d
  repair_ge : ∀ s ∈ subs, d ≤ s.2
  repair_lt : ∀ s ∈ subs, s.2 < d + p

/-- There are Reed-Solomon contexts for up to 255 symbols, and no others, and they decode from as
many symbols as there are data symbols. For up to 256 symbols, of a size that a receiver takes,
there are RaptorQ contexts, and they decode when a repair symbol of its own replaces each missing
one. -/
structure Recovers (lib : FecLib) : Prop where
  reedSolomon : ∀ d p size, 0 < d → 0 < p → size ≤ 4096 →
    (lib.creates ⟨.FEC_REED_SOLOMON, d, p, size⟩ = true ↔ d + p ≤ 255)
  reedSolomonDecode : ∀ d p size shards marks, d + p ≤ 255 → shards.length = d + p →
    (∀ b ∈ shards, b.length = size) → marks.length = d + p → d ≤ marks.count false →
      ∃ out, lib.reedSolomonDecode d p size shards marks = some out
  raptorq : ∀ d p size, 0 < d → 0 < p → d + p ≤ 256 → size ≤ 4096 →
    lib.creates ⟨.FEC_RAPTORQ, d, p, size⟩ = true
  nanorq : ∀ d p size subs rows, d + p ≤ 256 → Substitutes d p subs → rows.length = d →
    (∀ b ∈ rows, b.length = size) → ∃ mix, lib.nanorq d size subs rows = some mix

/-! ## A code that promises both -/

/-- Bytes as the elements of a field. -/
noncomputable def fieldOfByte : UInt8 ≃ GaloisField 2 8 :=
  (⟨UInt8.toFin, UInt8.ofFin, fun _ => rfl, fun _ => rfl⟩ : UInt8 ≃ Fin 256).trans
    (Finite.equivFinOfCardEq (GaloisField.card 2 8 (by decide))).symm

/-- The point of a row. -/
noncomputable def rowPoint (row : ℕ) : GaloisField 2 8 := fieldOfByte (UInt8.ofNat row)

theorem rowPoint_inj {i j : ℕ} (hi : i < 256) (hj : j < 256) (h : rowPoint i = rowPoint j) :
    i = j := by
  have hbyte := congrArg UInt8.toNat (fieldOfByte.injective h)
  rwa [UInt8.toNat_ofNat', UInt8.toNat_ofNat', Nat.mod_eq_of_lt hi, Nat.mod_eq_of_lt hj] at hbyte

/-- The row that stands at row `i` of the matrix. -/
def replacedBy (subs : List (ℕ × ℕ)) (i : ℕ) : ℕ :=
  ((subs.find? (·.1 == i)).map Prod.snd).getD i

/-- The rows of the symbols that are there. -/
def presentRows (n : ℕ) (marks : List Bool) : List ℕ :=
  (List.range n).filter fun i => !marks.getD i false

/-- Symbol `row` of the block that has `rows` as its symbols at the rows `node`. -/
noncomputable def codeSymbol (d size : ℕ) (node : ℕ → ℕ) (rows : ℕ → Bytes) (row : ℕ) : Bytes :=
  symbolAt fieldOfByte d size (fun i => rowPoint (node i)) rows (rowPoint row)

/-- The symbols of a block are the values of polynomials, with its data symbols at the points of
the first rows. -/
noncomputable def FecLib.interpolating : FecLib where
  reedSolomonNew d p := decide (d + p ≤ 255)
  reedSolomonAlloc _ _ _ := true
  reedSolomonEncode d p size blocks :=
    (List.range p).map fun i => codeSymbol d size id (blocks.getD · []) (d + i)
  reedSolomonDecode d p size shards marks :=
    if d + p ≤ 255 ∧ d ≤ (presentRows (d + p) marks).length then
      some ((List.range shards.length).map fun i =>
        codeSymbol d size ((presentRows (d + p) marks).getD · 0)
          (fun j => shards.getD ((presentRows (d + p) marks).getD j 0) []) i)
    else none
  raptorqAlloc _ _ _ := true
  nanorq d size subs rows :=
    if ((List.range d).map (replacedBy subs)).Nodup ∧ ∀ i < d, replacedBy subs i < 256 then
      some fun row => codeSymbol d size (replacedBy subs) (rows.getD · []) row
    else none
  length_reedSolomonEncode := by simp
  length_of_mem_reedSolomonEncode := by
    intro d p size blocks b hb
    obtain ⟨i, -, rfl⟩ := List.mem_map.mp hb
    exact length_symbolAt _ _
  length_reedSolomonDecode := by
    intro d p size shards marks out hout
    split at hout
    · rw [← Option.some.inj hout, List.length_map, List.length_range]
    · exact absurd hout.symm (Option.some_ne_none out)
  length_of_mem_reedSolomonDecode := by
    intro d p size shards marks out hout b hb
    split at hout
    · rw [← Option.some.inj hout] at hb
      obtain ⟨i, -, rfl⟩ := List.mem_map.mp hb
      exact length_symbolAt _ _
    · exact absurd hout.symm (Option.some_ne_none out)
  length_nanorq := by
    intro d size subs rows mix hmix row
    split at hmix
    · rw [← Option.some.inj hmix]
      exact length_symbolAt _ _
    · exact absurd hmix.symm (Option.some_ne_none mix)

section Codec

variable {d p size i : ℕ} {blocks rows : List Bytes} {subs : List (ℕ × ℕ)} {marks : List Bool}

theorem injOn_rowPoint {node : ℕ → ℕ} (hlt : ∀ i < d, node i < 256)
    (hinj : ∀ i < d, ∀ j < d, node i = node j → i = j) :
    Set.InjOn (fun i => rowPoint (node i)) (Finset.range d) := by
  intro i hi j hj h
  have hi := Finset.mem_range.mp hi
  have hj := Finset.mem_range.mp hj
  exact hinj i hi j hj (rowPoint_inj (hlt i hi) (hlt j hj) h)

/-- The first rows are the data symbols. -/
theorem codeSymbol_data (hd : ∀ i < d, i < 256) (hblocks : blocks.length = d)
    (hlengths : ∀ b ∈ blocks, b.length = size) (hi : i < d) :
    codeSymbol d size id (blocks.getD · []) i = blocks.getD i [] := by
  refine symbolAt_node fieldOfByte (injOn_rowPoint hd fun _ _ _ _ h => h) hi ?_
  rw [List.getD_eq_getElem _ _ (by omega)]
  exact hlengths _ (List.getElem_mem _)

/-- Any `d` symbols of a block give all of them. -/
theorem codeSymbol_eq {node : ℕ → ℕ} {rows' : ℕ → Bytes} (hd : ∀ i < d, i < 256)
    (hnode : Set.InjOn (fun i => rowPoint (node i)) (Finset.range d))
    (h : ∀ j < d, rows' j = codeSymbol d size id (blocks.getD · []) (node j)) (row : ℕ) :
    codeSymbol d size node rows' row = codeSymbol d size id (blocks.getD · []) row :=
  symbolAt_eq fieldOfByte (injOn_rowPoint hd fun _ _ _ _ h => h) hnode h _

/-- When all rows are equal, so is every symbol. -/
theorem codeSymbol_const {node : ℕ → ℕ} {rows' : ℕ → Bytes} {b : Bytes}
    (hnode : Set.InjOn (fun i => rowPoint (node i)) (Finset.range d)) (hd : 0 < d)
    (hlength : b.length = size) (h : ∀ i < d, rows' i = b) (row : ℕ) :
    codeSymbol d size node rows' row = b := by
  have hconst : codeSymbol d size node rows' row = codeSymbol d size node (fun _ => b) row :=
    symbolAt_eq fieldOfByte hnode hnode
      (fun j hj => (h j hj).trans (symbolAt_const fieldOfByte hnode hd hlength _).symm) _
  exact hconst.trans (symbolAt_const fieldOfByte hnode hd hlength _)

/-! ### Reed-Solomon -/

theorem mem_presentRows {n : ℕ} :
    i ∈ presentRows n marks ↔ i < n ∧ marks.getD i false = false := by
  rw [presentRows, List.mem_filter, List.mem_range, Bool.not_eq_true']

/-- The rows that are there are as many as the marks say. -/
theorem length_presentRows {n : ℕ} (hmarks : marks.length = n) :
    (presentRows n marks).length = marks.count false := by
  have hmap : marks = (List.range n).map fun i => marks.getD i false := by
    refine List.ext_getElem (by rw [List.length_map, List.length_range, hmarks]) fun i hi hi' => ?_
    rw [List.getElem_map, List.getElem_range, List.getD_eq_getElem _ _ hi]
  conv_rhs => rw [hmap]
  rw [presentRows, List.count, List.countP_map, List.countP_eq_length_filter]
  congr 1
  refine List.filter_congr fun i _ => ?_
  show (!marks.getD i false) = (marks.getD i false == false)
  cases marks.getD i false <;> rfl

/-- The rows that a decoding reads, each of them once. -/
theorem presentRows_getD {n : ℕ} (hd : d ≤ (presentRows n marks).length) (hi : i < d) :
    (presentRows n marks).getD i 0 ∈ presentRows n marks := by
  rw [List.getD_eq_getElem _ _ (by omega)]
  exact List.getElem_mem _

theorem presentRows_inj {n : ℕ} (hd : d ≤ (presentRows n marks).length) :
    ∀ i < d, ∀ j < d,
      (presentRows n marks).getD i 0 = (presentRows n marks).getD j 0 → i = j := by
  intro i hi j hj h
  have hnodup : (presentRows n marks).Nodup := List.nodup_range.filter _
  rw [List.getD_eq_getElem _ _ (by omega), List.getD_eq_getElem _ _ (by omega)] at h
  exact hnodup.getElem_inj_iff.mp h

/-! ### RaptorQ -/

/-- A row of the matrix is its own, or the one of a pair that replaces it. -/
theorem replacedBy_cases (subs : List (ℕ × ℕ)) (i : ℕ) :
    (subs.find? (·.1 == i) = none ∧ replacedBy subs i = i) ∨
      ∃ s ∈ subs, s.1 = i ∧ subs.find? (·.1 == i) = some s ∧ replacedBy subs i = s.2 := by
  unfold replacedBy
  cases hfind : subs.find? (·.1 == i) with
  | none => exact Or.inl ⟨rfl, rfl⟩
  | some s =>
    have hfst : s.1 = i := by simpa using List.find?_some hfind
    exact Or.inr ⟨s, List.mem_of_find?_eq_some hfind, hfst, rfl, rfl⟩

/-- Pairs as `fec_decode` has them replace different rows by different ones. -/
theorem Substitutes.replacedBy_inj (h : Substitutes d p subs) :
    ∀ i < d, ∀ j < d, replacedBy subs i = replacedBy subs j → i = j := by
  intro i hi j hj heq
  rcases replacedBy_cases subs i with ⟨-, hown⟩ | ⟨s, hs, hfst, -, hrow⟩
  · rcases replacedBy_cases subs j with ⟨-, hown'⟩ | ⟨s', hs', -, -, hrow'⟩
    · rw [hown, hown'] at heq
      exact heq
    · have hge := h.repair_ge s' hs'
      omega
  · rcases replacedBy_cases subs j with ⟨-, hown'⟩ | ⟨s', hs', hfst', -, hrow'⟩
    · have hge := h.repair_ge s hs
      omega
    · rw [hrow, hrow'] at heq
      rw [← hfst, ← hfst', List.inj_on_of_nodup_map h.repair hs hs' heq]

theorem Substitutes.replacedBy_lt (h : Substitutes d p subs) (hi : i < d) :
    replacedBy subs i < d + p := by
  rcases replacedBy_cases subs i with ⟨-, hown⟩ | ⟨s, hs, -, -, hrow⟩
  · omega
  · rw [hrow]
    exact h.repair_lt s hs

/-- What RaptorQ computes when the rows are different. -/
theorem nanorq_interpolating
    (hinj : ∀ i < d, ∀ j < d, replacedBy subs i = replacedBy subs j → i = j)
    (hlt : ∀ i < d, replacedBy subs i < 256) :
    FecLib.interpolating.nanorq d size subs rows =
      some (codeSymbol d size (replacedBy subs) (rows.getD · [])) := by
  unfold FecLib.interpolating
  dsimp only
  refine if_pos ⟨List.Nodup.map_on (fun i hi j hj h => ?_) List.nodup_range, hlt⟩
  exact hinj i (List.mem_range.mp hi) j (List.mem_range.mp hj) h

end Codec

theorem restores_interpolating : Restores FecLib.interpolating where
  reedSolomonNew _ _ h := of_decide_eq_true h
  reedSolomon := by
    intro d p size blocks shards marks out hblocks hlengths hshards _ hpresent hout i hi
    unfold FecLib.interpolating at hpresent hout
    dsimp only at hpresent hout
    split at hout
    · next hfits =>
      obtain ⟨hsum, hmany⟩ := hfits
      have hd : ∀ i < d, i < 256 := by omega
      have hrow : ∀ j < d, (presentRows (d + p) marks).getD j 0 < d + p ∧
          marks.getD ((presentRows (d + p) marks).getD j 0) false = false := fun j hj =>
        mem_presentRows.mp (presentRows_getD hmany hj)
      have hnode := injOn_rowPoint (fun j hj => by have := (hrow j hj).1; omega)
        (presentRows_inj hmany)
      rw [← Option.some.inj hout, List.getElem?_map, List.getElem?_range (by omega),
        Option.map_some, codeSymbol_eq hd hnode ?_ i,
        codeSymbol_data hd hblocks hlengths hi, List.getD_eq_getElem _ _ (by omega),
        List.getElem?_eq_getElem]
      -- a symbol that is there is the one of its row
      intro j hj
      obtain ⟨hlt, hmark⟩ := hrow j hj
      generalize (presentRows (d + p) marks).getD j 0 = r at hlt hmark
      rw [List.getD_eq_getElem?_getD, hpresent r hlt hmark]
      by_cases hr : r < d
      · rw [List.getElem?_append_left (by omega), ← List.getD_eq_getElem?_getD]
        exact (codeSymbol_data hd hblocks hlengths hr).symm
      · rw [List.getElem?_append_right (by omega), List.getElem?_map,
          List.getElem?_range (by omega), Option.map_some, Option.getD_some, hblocks,
          Nat.add_sub_cancel' (by omega)]
    · exact absurd hout.symm (Option.some_ne_none out)
  nanorq := by
    intro d size blocks mix subs mix' hblocks hlengths hmix _ hmix' i hi
    unfold FecLib.interpolating at hmix hmix'
    dsimp only at hmix hmix'
    split at hmix
    · next hown =>
      have hd : ∀ i < d, i < 256 := hown.2
      split at hmix'
      · next hfits =>
        obtain ⟨hnodup, hlt⟩ := hfits
        have hinj : ∀ i < d, ∀ j < d, replacedBy subs i = replacedBy subs j → i = j :=
          fun i hi j hj h =>
            List.inj_on_of_nodup_map hnodup (List.mem_range.mpr hi) (List.mem_range.mpr hj) h
        rw [← Option.some.inj hmix']
        dsimp only
        rw [codeSymbol_eq hd (injOn_rowPoint hlt hinj) ?_ i,
          codeSymbol_data hd hblocks hlengths hi]
        -- a row holds the symbol that replaces it
        intro j hj
        rw [List.getD_eq_getElem?_getD, List.getElem?_map, List.getElem?_range hj,
          Option.map_some, Option.getD_some]
        rcases replacedBy_cases subs j with ⟨hnone, hself⟩ | ⟨s, -, -, hsome, hreplaced⟩
        · rw [hnone, hself, codeSymbol_data hd hblocks hlengths hj]
          rfl
        · rw [hsome, hreplaced, ← Option.some.inj hmix]
          rfl
      · exact absurd hmix'.symm (Option.some_ne_none mix')
    · exact absurd hmix.symm (Option.some_ne_none mix)

theorem recovers_interpolating : Recovers FecLib.interpolating where
  reedSolomon d p size _ _ _ := by
    show (decide (d + p ≤ 255) && true) = true ↔ _
    rw [Bool.and_true, decide_eq_true_iff]
  reedSolomonDecode d p size shards marks hsum _ _ hmarks hmany := by
    unfold FecLib.interpolating
    dsimp only
    rw [if_pos ⟨hsum, by rw [length_presentRows hmarks]; exact hmany⟩]
    exact ⟨_, rfl⟩
  raptorq _ _ _ _ _ _ _ := rfl
  nanorq d p size subs rows hsum hsubs _ _ :=
    ⟨_, nanorq_interpolating hsubs.replacedBy_inj fun _ hi =>
      lt_of_lt_of_le (hsubs.replacedBy_lt hi) hsum⟩

/-- A library that has all its contexts promises the same. -/
theorem Recovers.within {lib : FecLib} (h : Recovers lib) {supply : FecParams → Bool}
    (hsupply : ∀ p, supply p = true) : Recovers (lib.within supply) where
  reedSolomon d p size hd hp hsize := by
    rw [FecLib.creates_within, hsupply, Bool.and_true]
    exact h.reedSolomon d p size hd hp hsize
  reedSolomonDecode := h.reedSolomonDecode
  raptorq d p size hd hp hsum hsize := by
    rw [FecLib.creates_within, hsupply, Bool.and_true]
    exact h.raptorq d p size hd hp hsum hsize
  nanorq := h.nanorq

end Bishlink
