import Bishlink.DatagramBounds
import Bishlink.Lib.FixedArray

/-!
# The RaptorQ branch of the decoder

The `FEC_RAPTORQ` branch of `fec_decode` loop by loop, with the two index arrays of the context and
every access to a block. `raptorqDecode_bookkeeping` says what it does for every mask, and
`fecDecode_raptorqDecode` that `fecDecode` is the same computation.
-/

namespace Bishlink

open ByteCodec Checked

/-! ## The loops -/

/-- `symbol_size` bytes of a block are read or written. -/
inductive BlockAccess where
  | read (block : ℕ)
  | write (block : ℕ)
deriving DecidableEq

/-- `esi[n++] = row` in an array of `cap` 32-bit entries, of which `esi` are in use. -/
def storeEsi (cap : ℕ) (esi : List ℕ) (row : ℕ) : Except Fault (List ℕ) := do
  checkIndex esi.length cap
  .ok (esi ++ [row % 2 ^ 32])

/-- The loops that fill `rq_dropped_esi` and `rq_repair_esi`: the rows whose mark in the mask is
`marked`. -/
def collectEsi (cap : ℕ) (marked : Bool) (missing : List Bool) :
    (rows : List ℕ) → (esi : List ℕ) → Except Fault (List ℕ)
  | [], esi => .ok esi
  | row :: rows, esi => do
    checkIndex row missing.length
    if missing.getD row false = marked then do
      let esi ← storeEsi cap esi row
      collectEsi cap marked missing rows esi
    else collectEsi cap marked missing rows esi

/-- The loop of `nanorq_core_replace_symbol`: entry `i` of the one array with entry `i` of the
other. -/
def pairEsi (dropped repair : List ℕ) : List ℕ → Except Fault (List (ℕ × ℕ))
  | [] => .ok []
  | i :: is => do
    checkIndex i dropped.length
    checkIndex i repair.length
    let rest ← pairEsi dropped repair is
    .ok ((dropped.getD i 0, repair.getD i 0) :: rest)

/-- The rows of the matrix `D` from `SH` on, and the accesses to blocks so far. -/
structure RqMatrix where
  rows : List Bytes
  accesses : List BlockAccess
deriving DecidableEq

/-- The loops that copy blocks into the matrix: a row and the block that goes into it. -/
def loadRows (size : ℕ) (blocks : List Bytes) :
    (loads : List (ℕ × ℕ)) → RqMatrix → Except Fault RqMatrix
  | [], m => .ok m
  | (row, block) :: loads, m => do
    checkIndex row m.rows.length
    checkIndex block blocks.length
    checkCopy size (blocks.getD block []).length
    loadRows size blocks loads
      ⟨m.rows.set row ((blocks.getD block []).take size), m.accesses ++ [.read block]⟩

/-- The blocks, and the accesses to them so far. -/
structure RqBlocks where
  blocks : List Bytes
  accesses : List BlockAccess
deriving DecidableEq

/-- The loop of `ops_mix`: the symbol of a row is written into the block of the row. -/
def mixBlocks (size : ℕ) (mix : ℕ → Bytes) : (rows : List ℕ) → RqBlocks → Except Fault RqBlocks
  | [], b => .ok b
  | row :: rows, b => do
    checkIndex row b.blocks.length
    checkCopy size (b.blocks.getD row []).length
    mixBlocks size mix rows
      ⟨b.blocks.modify row (writeAt · 0 (mix row)), b.accesses ++ [.write row]⟩

/-- The data symbols the mask does not mark missing. -/
def presentData (d : ℕ) (missing : List Bool) : List ℕ :=
  (List.range d).filter fun i => !missing.getD i false

/-- What a decode leaves: what it returns, the blocks, the rows it replaced with the repair rows
they were paired with, and the accesses to blocks. -/
structure RaptorqResult where
  returned : Bool
  blocks : List Bytes
  subs : List (ℕ × ℕ)
  accesses : List BlockAccess
deriving DecidableEq

/-- The `FEC_RAPTORQ` branch of `fec_decode`. The calls of `nanorq_core` that can fail come before
the first access to a block. -/
def raptorqDecode (lib : FecLib) (d p size : ℕ) (blocks : List Bytes) (missing : List Bool) :
    Except Fault RaptorqResult := do
  let dropped ← collectEsi d true missing (List.range d) []
  let repair ← collectEsi p false missing ((List.range p).map (d + ·)) []
  if repair.length < dropped.length then .ok ⟨false, blocks, [], []⟩
  else if dropped.length = 0 then .ok ⟨true, blocks, [], []⟩
  else do
    let subs ← pairEsi dropped repair (List.range dropped.length)
    let m ← loadRows size blocks ((presentData d missing).map fun i => (i, i))
      ⟨List.replicate d (List.replicate size 0), []⟩
    let m ← loadRows size blocks subs m
    match lib.nanorq d size subs m.rows with
    | none => .ok ⟨false, blocks, subs, []⟩
    | some mix => do
      let b ← mixBlocks size mix (subs.map Prod.fst) ⟨blocks, m.accesses⟩
      .ok ⟨true, b.blocks, subs, b.accesses⟩

/-! ## What each loop does -/

/-- The rows with the mark, in order. -/
theorem collectEsi_eq {cap : ℕ} {marked : Bool} {missing : List Bool} {rows esi : List ℕ}
    (hmask : ∀ row ∈ rows, row < missing.length) (hfit : ∀ row ∈ rows, row < 2 ^ 32)
    (hcap : esi.length + rows.length ≤ cap) :
    collectEsi cap marked missing rows esi =
      .ok (esi ++ rows.filter fun row => missing.getD row false == marked) := by
  induction rows generalizing esi with
  | nil => rw [List.filter_nil, List.append_nil, collectEsi]
  | cons row rows ih =>
    rw [List.length_cons] at hcap
    have hrest := fun row' hrow' => hmask row' (List.mem_cons_of_mem row hrow')
    have hrest' := fun row' hrow' => hfit row' (List.mem_cons_of_mem row hrow')
    have hrow : checkIndex row missing.length = .ok () :=
      checkIndex_eq_ok.mpr (hmask row List.mem_cons_self)
    have hroom : checkIndex esi.length cap = .ok () := checkIndex_eq_ok.mpr (by omega)
    have hmod : row % 2 ^ 32 = row := Nat.mod_eq_of_lt (hfit row List.mem_cons_self)
    unfold collectEsi storeEsi
    rw [hrow, ok_bind, hroom, ok_bind, ok_bind, hmod]
    by_cases hmark : missing.getD row false = marked
    · have hcap' : (esi ++ [row]).length + rows.length ≤ cap := by
        rw [List.length_append, List.length_singleton]
        omega
      rw [if_pos hmark, ih hrest hrest' hcap', List.filter_cons, if_pos (beq_iff_eq.mpr hmark),
        List.append_assoc, List.singleton_append]
    · rw [if_neg hmark, ih hrest hrest' (by omega), List.filter_cons,
        if_neg fun h => hmark (beq_iff_eq.mp h)]

theorem pairEsi_eq {dropped repair is : List ℕ} (h : ∀ i ∈ is, i < dropped.length)
    (hle : dropped.length ≤ repair.length) :
    pairEsi dropped repair is = .ok (is.map fun i => (dropped.getD i 0, repair.getD i 0)) := by
  induction is with
  | nil => rfl
  | cons i is ih =>
    have hi := h i List.mem_cons_self
    have hdropped : checkIndex i dropped.length = .ok () := checkIndex_eq_ok.mpr hi
    have hrepair : checkIndex i repair.length = .ok () := checkIndex_eq_ok.mpr (by omega)
    unfold pairEsi
    rw [hdropped, ok_bind, hrepair, ok_bind, ih fun j hj => h j (List.mem_cons_of_mem i hj)]
    rfl

/-- All of them are the two arrays side by side. -/
theorem pairEsi_range {dropped repair : List ℕ} (hle : dropped.length ≤ repair.length) :
    pairEsi dropped repair (List.range dropped.length) = .ok (dropped.zip repair) := by
  rw [pairEsi_eq (fun i hi => List.mem_range.mp hi) hle]
  congr 1
  refine List.ext_getElem (by simp [hle]) fun i hi hi' => ?_
  rw [List.length_map, List.length_range] at hi
  simp [hi, hi.trans_le hle]

theorem loadRows_eq {size : ℕ} {blocks : List Bytes} {loads : List (ℕ × ℕ)} {m : RqMatrix}
    (h : ∀ q ∈ loads, q.1 < m.rows.length ∧ q.2 < blocks.length ∧
      size ≤ (blocks.getD q.2 []).length) :
    loadRows size blocks loads m =
      .ok ⟨loads.foldl (fun rows q => rows.set q.1 ((blocks.getD q.2 []).take size)) m.rows,
        m.accesses ++ loads.map fun q => .read q.2⟩ := by
  induction loads generalizing m with
  | nil =>
    rw [List.map_nil, List.append_nil]
    rfl
  | cons q loads ih =>
    obtain ⟨hrow, hblock, hsize⟩ := h q List.mem_cons_self
    have hrow' : checkIndex q.1 m.rows.length = .ok () := checkIndex_eq_ok.mpr hrow
    have hblock' : checkIndex q.2 blocks.length = .ok () := checkIndex_eq_ok.mpr hblock
    have hsize' : checkCopy size (blocks.getD q.2 []).length = .ok () :=
      checkCopy_eq_ok.mpr hsize
    unfold loadRows
    rw [hrow', ok_bind, hblock', ok_bind, hsize', ok_bind, ih, List.foldl_cons, List.map_cons,
      List.append_assoc, List.singleton_append]
    intro q' hq'
    rw [List.length_set]
    exact h q' (List.mem_cons_of_mem q hq')

/-- Two loops in a row are one over both lists. -/
theorem loadRows_append (size : ℕ) (blocks : List Bytes) (loads loads' : List (ℕ × ℕ))
    (m : RqMatrix) :
    loadRows size blocks (loads ++ loads') m =
      loadRows size blocks loads m >>= loadRows size blocks loads' := by
  induction loads generalizing m with
  | nil => rfl
  | cons q loads ih =>
    rw [List.cons_append]
    unfold loadRows
    simp only [bind_assoc, ih]

theorem mixBlocks_eq {size : ℕ} {mix : ℕ → Bytes} {rows : List ℕ} {b : RqBlocks}
    (hmix : ∀ row, (mix row).length = size)
    (h : ∀ row ∈ rows, row < b.blocks.length ∧ size ≤ (b.blocks.getD row []).length) :
    mixBlocks size mix rows b =
      .ok ⟨rows.foldl (fun blocks row => blocks.modify row (writeAt · 0 (mix row))) b.blocks,
        b.accesses ++ rows.map .write⟩ := by
  induction rows generalizing b with
  | nil =>
    rw [List.map_nil, List.append_nil]
    rfl
  | cons row rows ih =>
    obtain ⟨hrow, hsize⟩ := h row List.mem_cons_self
    have hrow' : checkIndex row b.blocks.length = .ok () := checkIndex_eq_ok.mpr hrow
    have hsize' : checkCopy size (b.blocks.getD row []).length = .ok () :=
      checkCopy_eq_ok.mpr hsize
    unfold mixBlocks
    rw [hrow', ok_bind, hsize', ok_bind, ih, List.foldl_cons, List.map_cons, List.append_assoc,
      List.singleton_append]
    intro row' hrow'
    obtain ⟨hlt, hle⟩ := h row' (List.mem_cons_of_mem row hrow')
    rw [List.length_modify]
    refine ⟨hlt, ?_⟩
    rw [List.getD_eq_getElem _ _ (by rwa [List.length_modify]), List.getElem_modify]
    rw [List.getD_eq_getElem _ _ hlt] at hle
    split
    · rename_i heq
      rw [length_writeAt]
      · exact hle
      · rw [hmix]
        omega
    · exact hle

/-! ## The branch as a whole -/

/-- The pairs of a missing data symbol and the repair symbol that replaces it. -/
def rqSubs (d p : ℕ) (missing : List Bool) : List (ℕ × ℕ) :=
  (droppedEsi d missing).zip (repairEsi d p missing)

/-- The mask and the blocks are those of a context for `d` and `p` symbols, whose indices fit
the 32-bit arrays. -/
structure DecodeArgs (d p size : ℕ) (blocks : List Bytes) (missing : List Bool) : Prop where
  mask : missing.length = d + p
  pointers : blocks.length = d + p
  sizes : ∀ b ∈ blocks, size ≤ b.length
  indices : d + p ≤ 2 ^ 32

/-- Any block that is there has room for a symbol. -/
theorem DecodeArgs.room {d p size : ℕ} {blocks : List Bytes} {missing : List Bool}
    (h : DecodeArgs d p size blocks missing) {i : ℕ} (hi : i < d + p) :
    i < blocks.length ∧ size ≤ (blocks.getD i []).length := by
  have hlt : i < blocks.length := by
    rw [h.pointers]
    exact hi
  refine ⟨hlt, ?_⟩
  rw [List.getD_eq_getElem _ _ hlt]
  exact h.sizes _ (List.getElem_mem hlt)

theorem mem_presentData {d i : ℕ} {missing : List Bool} :
    i ∈ presentData d missing ↔ i < d ∧ missing.getD i false = false := by
  rw [presentData, List.mem_filter, List.mem_range, Bool.not_eq_true']

/-- With enough repair symbols every missing data symbol has its pair. -/
theorem map_fst_rqSubs {d p : ℕ} {missing : List Bool}
    (hle : (droppedEsi d missing).length ≤ (repairEsi d p missing).length) :
    (rqSubs d p missing).map Prod.fst = droppedEsi d missing :=
  List.map_fst_zip hle

/-- The repair symbols in use are the first of those there are. -/
theorem map_snd_rqSubs (d p : ℕ) (missing : List Bool) :
    (rqSubs d p missing).map Prod.snd = (repairEsi d p missing).take
      (min (droppedEsi d missing).length (repairEsi d p missing).length) := by
  rw [rqSubs, List.zip_eq_zip_take_min, List.map_snd_zip]
  rw [List.length_take, List.length_take]
  omega

/-- A missing data symbol is not among the present ones, which are their own rows. -/
theorem find?_present_of_marked {d i : ℕ} {missing : List Bool}
    (hmark : missing.getD i false = true) :
    (((presentData d missing).map fun i => (i, i)).find? fun q => q.1 == i) = none := by
  rw [List.find?_eq_none]
  intro q hq hqi
  obtain ⟨j, hj, rfl⟩ := List.mem_map.mp hq
  have hji : j = i := beq_iff_eq.mp hqi
  have hfree := (mem_presentData.mp hj).2
  rw [hji, hmark] at hfree
  simp at hfree

theorem find?_present_of_free {d i : ℕ} {missing : List Bool} (hi : i < d)
    (hfree : missing.getD i false = false) :
    (((presentData d missing).map fun i => (i, i)).find? fun q => q.1 == i) = some (i, i) := by
  have hmem : (i, i) ∈ (presentData d missing).map fun i => (i, i) :=
    List.mem_map_of_mem (mem_presentData.mpr ⟨hi, hfree⟩)
  cases hfind : ((presentData d missing).map fun i => (i, i)).find? fun q => q.1 == i with
  | none => exact absurd (beq_iff_eq.mpr rfl) (List.find?_eq_none.mp hfind _ hmem)
  | some q =>
    obtain ⟨j, -, rfl⟩ := List.mem_map.mp (List.mem_of_find?_eq_some hfind)
    have hji := List.find?_some hfind
    rw [show j = i from beq_iff_eq.mp hji]

/-- The rows after both loops that fill the matrix. -/
theorem rows_loaded {d p size : ℕ} {blocks : List Bytes} {missing : List Bool}
    (hle : (droppedEsi d missing).length ≤ (repairEsi d p missing).length) :
    ((presentData d missing).map (fun i => (i, i)) ++ rqSubs d p missing).foldl
        (fun rows q => rows.set q.1 ((blocks.getD q.2 []).take size))
        (List.replicate d (List.replicate size 0)) =
      raptorqRows d size blocks (rqSubs d p missing) := by
  have hpresent : ((presentData d missing).map fun i => (i, i)).map Prod.fst =
      presentData d missing := by
    rw [List.map_map]
    exact List.map_id _
  have hfirsts : ((presentData d missing).map (fun i => (i, i)) ++ rqSubs d p missing).map
      Prod.fst = presentData d missing ++ droppedEsi d missing := by
    rw [List.map_append, hpresent, map_fst_rqSubs hle]
  -- every row is loaded once, so the last write to it is the only one
  have hnodup : (presentData d missing ++ droppedEsi d missing).Nodup := by
    refine List.nodup_append.mpr
      ⟨List.nodup_range.filter _, nodup_droppedEsi d missing, fun i hi j hj hij => ?_⟩
    have hfree := (mem_presentData.mp hi).2
    rw [hij, (mem_droppedEsi.mp hj).2] at hfree
    simp at hfree
  have hbounds : ∀ q ∈ (presentData d missing).map (fun i => (i, i)) ++ rqSubs d p missing,
      q.1 < (List.replicate d (List.replicate size (0 : UInt8))).length := by
    intro q hq
    have hmem := List.mem_map_of_mem (f := Prod.fst) hq
    rw [hfirsts, List.mem_append, mem_presentData, mem_droppedEsi] at hmem
    rw [List.length_replicate]
    omega
  rw [← hfirsts] at hnodup
  apply List.ext_getElem?
  intro i
  rw [FixedArray.getElem?_foldl_set (f := fun k => (blocks.getD k []).take size) hnodup hbounds,
    List.find?_append, raptorqRows, List.getElem?_map]
  by_cases hi : i < d
  · rw [List.getElem?_range hi, Option.map_some]
    by_cases hmark : missing.getD i false = true
    · have hmem : i ∈ (rqSubs d p missing).map Prod.fst := by
        rw [map_fst_rqSubs hle, mem_droppedEsi]
        exact ⟨hi, hmark⟩
      rw [find?_present_of_marked hmark, Option.none_or]
      cases hfind : (rqSubs d p missing).find? fun q => q.1 == i with
      | none =>
        obtain ⟨q, hq, hqi⟩ := List.mem_map.mp hmem
        exact absurd (beq_iff_eq.mpr hqi) (List.find?_eq_none.mp hfind q hq)
      | some q => rfl
    · have hsub : ((rqSubs d p missing).find? fun q => q.1 == i) = none := by
        rw [List.find?_eq_none]
        intro q hq hqi
        have hmem := List.mem_map_of_mem (f := Prod.fst) hq
        rw [map_fst_rqSubs hle, mem_droppedEsi, beq_iff_eq.mp hqi] at hmem
        exact hmark hmem.2
      rw [find?_present_of_free hi (Bool.eq_false_of_not_eq_true hmark), hsub]
      rfl
  · -- past the last data symbol neither list has a row
    have hnone : ((List.range d)[i]? : Option ℕ) = none := by
      rw [List.getElem?_eq_none_iff, List.length_range]
      omega
    have hfind : ((((presentData d missing).map fun i => (i, i)).find? fun q => q.1 == i).or
        ((rqSubs d p missing).find? fun q => q.1 == i)) = none := by
      rw [← List.find?_append, List.find?_eq_none]
      intro q hq hqi
      have hlt := hbounds q hq
      rw [List.length_replicate, beq_iff_eq.mp hqi] at hlt
      exact hi hlt
    rw [hnone, hfind, List.getElem?_replicate, if_neg hi]
    rfl

/-- The branch, for any mask and any blocks of its context. -/
def raptorqOutcome (lib : FecLib) (d p size : ℕ) (blocks : List Bytes) (missing : List Bool) :
    RaptorqResult :=
  if (repairEsi d p missing).length < (droppedEsi d missing).length then ⟨false, blocks, [], []⟩
  else if (droppedEsi d missing).length = 0 then ⟨true, blocks, [], []⟩
  else
    match lib.nanorq d size (rqSubs d p missing)
        (raptorqRows d size blocks (rqSubs d p missing)) with
    | none => ⟨false, blocks, rqSubs d p missing, []⟩
    | some mix =>
      ⟨true, blocks.mapIdx fun i b => if i ∈ droppedEsi d missing then writeAt b 0 (mix i) else b,
        rqSubs d p missing,
        (presentData d missing ++ (rqSubs d p missing).map Prod.snd).map .read ++
          (droppedEsi d missing).map .write⟩

theorem raptorqDecode_eq (lib : FecLib) {d p size : ℕ} {blocks : List Bytes}
    {missing : List Bool} (h : DecodeArgs d p size blocks missing) :
    raptorqDecode lib d p size blocks missing =
      .ok (raptorqOutcome lib d p size blocks missing) := by
  have hdropped : collectEsi d true missing (List.range d) [] = .ok (droppedEsi d missing) := by
    rw [collectEsi_eq]
    · rw [List.nil_append, droppedEsi]
      simp
    · intro i hi
      have hlt := List.mem_range.mp hi
      rw [h.mask]
      omega
    · intro i hi
      have hlt := List.mem_range.mp hi
      have hfit := h.indices
      omega
    · simp
  have hrows : ∀ row ∈ (List.range p).map (d + ·), row < d + p := by
    intro row hrow
    obtain ⟨i, hi, rfl⟩ := List.mem_map.mp hrow
    have hlt := List.mem_range.mp hi
    omega
  have hrepair : collectEsi p false missing ((List.range p).map (d + ·)) [] =
      .ok (repairEsi d p missing) := by
    rw [collectEsi_eq]
    · rw [List.nil_append, repairEsi]
      simp
    · intro row hrow
      rw [h.mask]
      exact hrows row hrow
    · intro row hrow
      exact (hrows row hrow).trans_le h.indices
    · simp
  rw [raptorqDecode, hdropped, ok_bind, hrepair, ok_bind, raptorqOutcome]
  by_cases hfew : (repairEsi d p missing).length < (droppedEsi d missing).length
  · rw [if_pos hfew, if_pos hfew]
  rw [if_neg hfew, if_neg hfew]
  by_cases hnone : (droppedEsi d missing).length = 0
  · rw [if_pos hnone, if_pos hnone]
  rw [if_neg hnone, if_neg hnone]
  have hle := Nat.le_of_not_lt hfew
  -- no load is out of range
  have hloads : ∀ q ∈ (presentData d missing).map (fun i => (i, i)) ++ rqSubs d p missing,
      q.1 < (List.replicate d (List.replicate size (0 : UInt8))).length ∧ q.2 < blocks.length ∧
        size ≤ (blocks.getD q.2 []).length := by
    intro q hq
    rw [List.length_replicate]
    rcases List.mem_append.mp hq with hq | hq
    · obtain ⟨i, hi, rfl⟩ := List.mem_map.mp hq
      have hlt := (mem_presentData.mp hi).1
      exact ⟨hlt, h.room (by omega)⟩
    · have hmem := List.of_mem_zip hq
      exact ⟨(mem_droppedEsi.mp hmem.1).1, h.room (mem_repairEsi.mp hmem.2).2.1⟩
  have hload := @loadRows_eq size blocks _ ⟨List.replicate d (List.replicate size 0), []⟩ hloads
  rw [rows_loaded hle, loadRows_append] at hload
  obtain ⟨m, hm, hm'⟩ := bind_eq_ok.mp hload
  rw [pairEsi_range hle, ok_bind, hm, ok_bind, ← rqSubs, hm', ok_bind]
  cases hlib : lib.nanorq d size (rqSubs d p missing)
      (raptorqRows d size blocks (rqSubs d p missing)) with
  | none => rfl
  | some mix =>
    have hrows : ∀ row ∈ (rqSubs d p missing).map Prod.fst,
        row < blocks.length ∧ size ≤ (blocks.getD row []).length := by
      intro row hrow
      rw [map_fst_rqSubs hle] at hrow
      have hlt := (mem_droppedEsi.mp hrow).1
      exact h.room (by omega)
    dsimp only
    rw [mixBlocks_eq (lib.length_nanorq d size _ _ mix hlib) hrows, ok_bind, map_fst_rqSubs hle,
      FixedArray.foldl_modify (f := fun i b => writeAt b 0 (mix i)) (nodup_droppedEsi d missing)]
    simp [Function.comp_def]

/-- `fecDecode` is this branch: it fails when the branch returns false, and gives the symbols the
branch writes. -/
theorem fecDecode_raptorqDecode (lib : FecLib) {f : FecT} {blocks : List Bytes}
    {missing : List Bool} (htype : f.params.type = .FEC_RAPTORQ)
    (h : DecodeArgs f.params.dataSymbols f.params.paritySymbols f.params.symbolSize blocks
      missing) :
    ∃ s r, fecDecode lib f blocks missing = .ok s ∧
      raptorqDecode lib f.params.dataSymbols f.params.paritySymbols f.params.symbolSize blocks
        missing = .ok r ∧
      r.returned = s.isSome ∧
      r.blocks = s.elim blocks fun symbols =>
        blocks.mapIdx fun i b => (symbols i).elim b (writeAt b 0) := by
  have hmask : checkIndices (f.params.dataSymbols + f.params.paritySymbols) missing.length =
      .ok () := checkIndices_eq_ok.mpr (Nat.le_of_eq h.mask.symm)
  -- the checks that stand in front of the decoder pass
  have hblocks : checkBlocks f.params.symbolSize blocks (List.range f.params.dataSymbols ++
      (rqSubs f.params.dataSymbols f.params.paritySymbols missing).map Prod.snd) = .ok () := by
    rw [checkBlocks_eq_ok]
    intro i hi
    rcases List.mem_append.mp hi with hi | hi
    · have hlt := List.mem_range.mp hi
      exact h.room (by omega)
    · rw [map_snd_rqSubs] at hi
      exact h.room (mem_repairEsi.mp (List.mem_of_mem_take hi)).2.1
  rw [rqSubs] at hblocks
  rw [raptorqDecode_eq lib h]
  simp only [fecDecode, htype, hmask, ok_bind, raptorqOutcome, rqSubs, hblocks,
    List.length_eq_zero_iff]
  by_cases hfew : (repairEsi f.params.dataSymbols f.params.paritySymbols missing).length <
      (droppedEsi f.params.dataSymbols missing).length
  · rw [if_pos hfew, if_pos hfew]
    exact ⟨_, _, rfl, rfl, rfl, rfl⟩
  rw [if_neg hfew, if_neg hfew]
  by_cases hnone : droppedEsi f.params.dataSymbols missing = []
  · rw [if_pos hnone, if_pos hnone]
    refine ⟨_, _, rfl, rfl, rfl, ?_⟩
    apply List.ext_getElem?
    intro i
    simp
  rw [if_neg hnone, if_neg hnone]
  generalize lib.nanorq _ _ _ _ = out
  cases out with
  | none => exact ⟨_, _, rfl, rfl, rfl, rfl⟩
  | some mix =>
    refine ⟨_, _, rfl, rfl, rfl, ?_⟩
    apply List.ext_getElem?
    intro i
    rw [Option.elim_some, List.getElem?_mapIdx, List.getElem?_mapIdx]
    congr 1
    funext b
    dsimp only
    split
    · rfl
    · rfl

/-! ## The bookkeeping -/

/-- How many data symbols the mask marks missing. -/
def dataMissing (d : ℕ) (missing : List Bool) : ℕ :=
  (List.range d).countP fun i => missing.getD i false

/-- How many parity symbols it does not mark missing. -/
def parityPresent (d p : ℕ) (missing : List Bool) : ℕ :=
  (List.range p).countP fun i => !missing.getD (d + i) false

theorem length_droppedEsi (d : ℕ) (missing : List Bool) :
    (droppedEsi d missing).length = dataMissing d missing := by
  rw [droppedEsi, dataMissing, List.countP_eq_length_filter]

theorem length_repairEsi (d p : ℕ) (missing : List Bool) :
    (repairEsi d p missing).length = parityPresent d p missing := by
  rw [repairEsi, parityPresent, List.filter_map, List.length_map, List.countP_eq_length_filter]
  rfl

/-- Block `i` is marked missing, or not. -/
def Present (d p : ℕ) (missing : List Bool) (i : ℕ) : Prop :=
  i < d + p ∧ missing.getD i false = false

def MissingData (d : ℕ) (missing : List Bool) (i : ℕ) : Prop :=
  i < d ∧ missing.getD i false = true

/-- The matrix depends on present blocks alone. -/
theorem raptorqRows_of_present {d p size : ℕ} {blocks blocks' : List Bytes} {missing : List Bool}
    (hle : (droppedEsi d missing).length ≤ (repairEsi d p missing).length)
    (hagree : ∀ i, Present d p missing i → blocks'[i]? = blocks[i]?) :
    raptorqRows d size blocks' (rqSubs d p missing) =
      raptorqRows d size blocks (rqSubs d p missing) := by
  have hread : ∀ i, Present d p missing i → blocks'.getD i [] = blocks.getD i [] := by
    intro i hi
    rw [List.getD_eq_getElem?_getD, hagree i hi, ← List.getD_eq_getElem?_getD]
  apply List.map_congr_left
  intro i hi
  have hlt := List.mem_range.mp hi
  cases hfind : (rqSubs d p missing).find? fun q => q.1 == i with
  | none =>
    -- no pair: the symbol is not missing
    have hfree : missing.getD i false = false := by
      by_contra hmark
      have hmem : i ∈ (rqSubs d p missing).map Prod.fst := by
        rw [map_fst_rqSubs hle, mem_droppedEsi]
        exact ⟨hlt, Bool.eq_true_of_not_eq_false hmark⟩
      obtain ⟨q, hq, hqi⟩ := List.mem_map.mp hmem
      exact List.find?_eq_none.mp hfind q hq (beq_iff_eq.mpr hqi)
    dsimp only
    rw [hread i ⟨by omega, hfree⟩]
  | some q =>
    have hrepair := (List.of_mem_zip (List.mem_of_find?_eq_some hfind)).2
    obtain ⟨-, hrow, hfree⟩ := mem_repairEsi.mp hrepair
    dsimp only
    rw [hread q.2 ⟨hrow, hfree⟩]

/-- What a decode may do for a mask, and how the result depends on the blocks. -/
structure Bookkeeping (lib : FecLib) (d p size : ℕ) (blocks : List Bytes) (missing : List Bool)
    (r : RaptorqResult) : Prop where
  few : parityPresent d p missing < dataMissing d missing → r.returned = false
  whole : dataMissing d missing = 0 →
    r.returned = true ∧ r.blocks = blocks ∧ ∀ i, BlockAccess.write i ∉ r.accesses
  paired : dataMissing d missing ≤ parityPresent d p missing →
    (r.subs.map Prod.fst).Nodup ∧ (∀ i, i ∈ r.subs.map Prod.fst ↔ MissingData d missing i) ∧
      (r.subs.map Prod.snd).Nodup ∧
      ∀ row ∈ r.subs.map Prod.snd, d ≤ row ∧ Present d p missing row
  reads : ∀ i, BlockAccess.read i ∈ r.accesses → Present d p missing i
  writes : ∀ i, BlockAccess.write i ∈ r.accesses → MissingData d missing i
  frame : ∀ i, ¬MissingData d missing i → r.blocks[i]? = blocks[i]?
  /-- other contents of the missing blocks give the same result -/
  stale : ∀ blocks', DecodeArgs d p size blocks' missing →
    (∀ i, Present d p missing i → blocks'[i]? = blocks[i]?) →
    ∃ r', raptorqDecode lib d p size blocks' missing = .ok r' ∧ r'.returned = r.returned ∧
      r'.subs = r.subs ∧ r'.accesses = r.accesses ∧
      (r.returned = true → ∀ i < d,
        (r'.blocks.getD i []).take size = (r.blocks.getD i []).take size)

section

variable {lib : FecLib} {d p size : ℕ} {blocks : List Bytes} {missing : List Bool}

/-- Too few repair symbols. -/
theorem raptorqDecode_few (h : DecodeArgs d p size blocks missing)
    (hfew : parityPresent d p missing < dataMissing d missing) :
    raptorqDecode lib d p size blocks missing = .ok ⟨false, blocks, [], []⟩ := by
  rw [← length_repairEsi, ← length_droppedEsi] at hfew
  rw [raptorqDecode_eq lib h, raptorqOutcome, if_pos hfew]

/-- Nothing to restore. -/
theorem raptorqDecode_whole (h : DecodeArgs d p size blocks missing)
    (hwhole : dataMissing d missing = 0) :
    raptorqDecode lib d p size blocks missing = .ok ⟨true, blocks, [], []⟩ := by
  rw [← length_droppedEsi] at hwhole
  rw [raptorqDecode_eq lib h, raptorqOutcome, if_neg (by omega), if_pos hwhole]

/-- The code is asked to replace the missing symbols. -/
theorem raptorqDecode_asked (h : DecodeArgs d p size blocks missing)
    (henough : dataMissing d missing ≤ parityPresent d p missing)
    (hsome : dataMissing d missing ≠ 0) :
    raptorqDecode lib d p size blocks missing =
      .ok ((lib.nanorq d size (rqSubs d p missing)
        (raptorqRows d size blocks (rqSubs d p missing))).elim
          ⟨false, blocks, rqSubs d p missing, []⟩ fun mix =>
          ⟨true, blocks.mapIdx fun i b =>
            if i ∈ droppedEsi d missing then writeAt b 0 (mix i) else b,
            rqSubs d p missing,
            (presentData d missing ++ (rqSubs d p missing).map Prod.snd).map .read ++
              (droppedEsi d missing).map .write⟩) := by
  rw [← length_repairEsi, ← length_droppedEsi] at henough
  rw [← length_droppedEsi] at hsome
  rw [raptorqDecode_eq lib h, raptorqOutcome, if_neg (by omega), if_neg hsome]
  cases lib.nanorq d size (rqSubs d p missing)
      (raptorqRows d size blocks (rqSubs d p missing)) with
  | none => rfl
  | some mix => rfl

theorem bookkeeping_few (hfew : parityPresent d p missing < dataMissing d missing) :
    Bookkeeping lib d p size blocks missing ⟨false, blocks, [], []⟩ where
  few _ := rfl
  whole hzero := by omega
  paired henough := by omega
  reads i hi := by simp at hi
  writes i hi := by simp at hi
  frame _ _ := rfl
  stale blocks' h' _ := by
    refine ⟨_, raptorqDecode_few h' hfew, rfl, rfl, rfl, ?_⟩
    intro hfalse
    simp at hfalse

theorem present_of_whole (hwhole : dataMissing d missing = 0) {i : ℕ} (hi : i < d) :
    missing.getD i false = false := by
  rw [dataMissing, List.countP_eq_zero] at hwhole
  exact Bool.eq_false_of_not_eq_true (hwhole i (List.mem_range.mpr hi))

theorem bookkeeping_whole (hwhole : dataMissing d missing = 0) :
    Bookkeeping lib d p size blocks missing ⟨true, blocks, [], []⟩ where
  few hfew := by omega
  whole _ := ⟨rfl, rfl, fun i => by simp⟩
  paired _ := by
    refine ⟨List.nodup_nil, fun i => ?_, List.nodup_nil, fun row hrow => by simp at hrow⟩
    refine iff_of_false (by simp) fun hmissing => ?_
    rw [MissingData, present_of_whole hwhole hmissing.1] at hmissing
    simp at hmissing
  reads i hi := by simp at hi
  writes i hi := by simp at hi
  frame _ _ := rfl
  stale blocks' h' hagree := by
    refine ⟨_, raptorqDecode_whole h' hwhole, rfl, rfl, rfl, fun _ i hi => ?_⟩
    have hpresent : Present d p missing i := ⟨by omega, present_of_whole hwhole hi⟩
    rw [List.getD_eq_getElem?_getD, hagree i hpresent, ← List.getD_eq_getElem?_getD]

/-- With enough repair symbols the pairs are as they should be. -/
theorem rqSubs_paired (henough : dataMissing d missing ≤ parityPresent d p missing) :
    ((rqSubs d p missing).map Prod.fst).Nodup ∧
      (∀ i, i ∈ (rqSubs d p missing).map Prod.fst ↔ MissingData d missing i) ∧
      ((rqSubs d p missing).map Prod.snd).Nodup ∧
      ∀ row ∈ (rqSubs d p missing).map Prod.snd, d ≤ row ∧ Present d p missing row := by
  rw [← length_repairEsi, ← length_droppedEsi] at henough
  rw [map_fst_rqSubs henough, map_snd_rqSubs]
  refine ⟨nodup_droppedEsi d missing, fun i => mem_droppedEsi,
    (nodup_repairEsi d p missing).sublist (List.take_sublist _ _), ?_⟩
  intro row hrow
  exact mem_repairEsi.mp (List.mem_of_mem_take hrow)

/-- What the code computes does not depend on missing blocks. -/
theorem raptorqDecode_asked_of_present {blocks' : List Bytes}
    (h' : DecodeArgs d p size blocks' missing)
    (henough : dataMissing d missing ≤ parityPresent d p missing)
    (hsome : dataMissing d missing ≠ 0)
    (hagree : ∀ i, Present d p missing i → blocks'[i]? = blocks[i]?) :
    raptorqDecode lib d p size blocks' missing =
      .ok ((lib.nanorq d size (rqSubs d p missing)
        (raptorqRows d size blocks (rqSubs d p missing))).elim
          ⟨false, blocks', rqSubs d p missing, []⟩ fun mix =>
          ⟨true, blocks'.mapIdx fun i b =>
            if i ∈ droppedEsi d missing then writeAt b 0 (mix i) else b,
            rqSubs d p missing,
            (presentData d missing ++ (rqSubs d p missing).map Prod.snd).map .read ++
              (droppedEsi d missing).map .write⟩) := by
  have hle := henough
  rw [← length_repairEsi, ← length_droppedEsi] at hle
  rw [raptorqDecode_asked h' henough hsome, raptorqRows_of_present hle hagree]

/-- The code reports an error: nothing was read or written. -/
theorem bookkeeping_error (henough : dataMissing d missing ≤ parityPresent d p missing)
    (hsome : dataMissing d missing ≠ 0)
    (hlib : lib.nanorq d size (rqSubs d p missing)
      (raptorqRows d size blocks (rqSubs d p missing)) = none) :
    Bookkeeping lib d p size blocks missing ⟨false, blocks, rqSubs d p missing, []⟩ where
  few hfew := by omega
  whole hwhole := absurd hwhole hsome
  paired _ := rqSubs_paired henough
  reads i hi := by simp at hi
  writes i hi := by simp at hi
  frame _ _ := rfl
  stale blocks' h' hagree := by
    refine ⟨_, raptorqDecode_asked_of_present h' henough hsome hagree, ?_⟩
    rw [hlib]
    refine ⟨rfl, rfl, rfl, fun hfalse => ?_⟩
    simp at hfalse

/-- The code gives the symbols of the missing rows. -/
theorem bookkeeping_mixed {mix : ℕ → Bytes} (h : DecodeArgs d p size blocks missing)
    (henough : dataMissing d missing ≤ parityPresent d p missing)
    (hsome : dataMissing d missing ≠ 0)
    (hlib : lib.nanorq d size (rqSubs d p missing)
      (raptorqRows d size blocks (rqSubs d p missing)) = some mix) :
    Bookkeeping lib d p size blocks missing
      ⟨true, blocks.mapIdx fun i b => if i ∈ droppedEsi d missing then writeAt b 0 (mix i) else b,
        rqSubs d p missing,
        (presentData d missing ++ (rqSubs d p missing).map Prod.snd).map .read ++
          (droppedEsi d missing).map .write⟩ where
  few hfew := by omega
  whole hwhole := absurd hwhole hsome
  paired _ := rqSubs_paired henough
  reads i hi := by
    simp only [List.mem_append, List.mem_map, BlockAccess.read.injEq, reduceCtorEq, and_false,
      exists_false, or_false, exists_eq_right] at hi
    rcases hi with hi | hi
    · have hdata := mem_presentData.mp hi
      exact ⟨by omega, hdata.2⟩
    · exact ((rqSubs_paired henough).2.2.2 i (List.mem_map.mpr hi)).2
  writes i hi := by
    simp only [List.mem_append, List.mem_map, BlockAccess.write.injEq, reduceCtorEq, and_false,
      exists_false, false_or, exists_eq_right] at hi
    exact mem_droppedEsi.mp hi
  frame i hi := by
    have hnot : i ∉ droppedEsi d missing := fun hmem => hi (mem_droppedEsi.mp hmem)
    simp [hnot]
  -- both runs hand the same rows to the library, and differ in missing symbols only
  stale blocks' h' hagree := by
    refine ⟨_, raptorqDecode_asked_of_present h' henough hsome hagree, ?_⟩
    rw [hlib]
    refine ⟨rfl, rfl, rfl, fun _ i hi => ?_⟩
    have hlt : i < blocks.length := (h.room (by omega)).1
    have hlt' : i < blocks'.length := (h'.room (by omega)).1
    dsimp only [Option.elim_some]
    rw [List.getD_eq_getElem _ _ (by rwa [List.length_mapIdx]),
      List.getD_eq_getElem _ _ (by rwa [List.length_mapIdx]), List.getElem_mapIdx,
      List.getElem_mapIdx]
    by_cases hmark : missing.getD i false = true
    · have hmem : i ∈ droppedEsi d missing := mem_droppedEsi.mpr ⟨hi, hmark⟩
      rw [if_pos hmem, if_pos hmem, ← lib.length_nanorq d size _ _ mix hlib i, take_writeAt_zero,
        take_writeAt_zero]
    · have hnot : i ∉ droppedEsi d missing := fun hmem => hmark (mem_droppedEsi.mp hmem).2
      have hsame := hagree i ⟨by omega, Bool.eq_false_of_not_eq_true hmark⟩
      rw [List.getElem?_eq_getElem hlt, List.getElem?_eq_getElem hlt', Option.some.injEq] at hsame
      rw [if_neg hnot, if_neg hnot, hsame]

end

/-- For every mask the branch runs to its end, within its index arrays, and keeps to its
bookkeeping. This takes for granted, with the sizes, that there are no more than `2 ^ 32` symbols:
their indices have 32 bits, and no caller has more. -/
theorem raptorqDecode_bookkeeping (lib : FecLib) {d p size : ℕ} {blocks : List Bytes}
    {missing : List Bool} (h : DecodeArgs d p size blocks missing) :
    ∃ r, raptorqDecode lib d p size blocks missing = .ok r ∧
      Bookkeeping lib d p size blocks missing r := by
  by_cases hfew : parityPresent d p missing < dataMissing d missing
  · exact ⟨_, raptorqDecode_few h hfew, bookkeeping_few hfew⟩
  by_cases hwhole : dataMissing d missing = 0
  · exact ⟨_, raptorqDecode_whole h hwhole, bookkeeping_whole hwhole⟩
  have henough := Nat.le_of_not_lt hfew
  refine ⟨_, raptorqDecode_asked h henough hwhole, ?_⟩
  cases hlib : lib.nanorq d size (rqSubs d p missing)
      (raptorqRows d size blocks (rqSubs d p missing)) with
  | none => exact bookkeeping_error henough hwhole hlib
  | some mix => exact bookkeeping_mixed h henough hwhole hlib

/-- A code whose symbols repeat the first byte of the first row. -/
def FecLib.repetition : FecLib :=
  { FecLib.unavailable with
    raptorqAlloc := fun _ _ _ => true
    nanorq := fun _ size _ rows => some fun _ => List.replicate size ((rows.getD 0 []).headD 0)
    length_nanorq := by
      intro d size subs rows mix hmix row
      cases hmix
      exact List.length_replicate }

/-- Two data symbols and two parity symbols: the second data symbol and the first parity symbol
are missing. -/
theorem raptorqDecode_bookkeeping_repetition :
    ∃ r, raptorqDecode FecLib.repetition 2 2 1 [[7], [0], [0], [7]] [false, true, true, false] =
        .ok r ∧
      Bookkeeping FecLib.repetition 2 2 1 [[7], [0], [0], [7]] [false, true, true, false] r :=
  raptorqDecode_bookkeeping FecLib.repetition ⟨rfl, rfl, by decide, by decide⟩

example : raptorqDecode FecLib.repetition 2 2 1 [[7], [0], [0], [7]] [false, true, true, false] =
    .ok ⟨true, [[7], [7], [0], [7]], [(1, 3)], [.read 0, .read 3, .write 1]⟩ := by decide

end Bishlink
