import Bishlink.Lib.ByteCodec
import Bishlink.Lib.Checked
import Bishlink.Track

/-!
# Forward error correction

`fec.c` and the context cache of the transport. The codes themselves (`nanors`,
`nanorq`) are libraries outside the repository: `FecLib` is what the code calls of
them, and everything here is stated for any such library.

* `fecCreateEx`, `fecEncode` and `fecDecode` are the functions of `fec.c`;
* `getCachedFec` is the cache, with `getCachedFec_params`: what it returns depends on
  the requested parameters alone.
-/

namespace Bishlink

open ByteCodec Checked

/-- `fec_type_t`. -/
inductive FecType where
  | FEC_REED_SOLOMON
  | FEC_RAPTORQ
deriving DecidableEq

/-- The parameters a context is created for. -/
structure FecParams where
  type : FecType
  dataSymbols : ℕ
  paritySymbols : ℕ
  symbolSize : ℕ
deriving DecidableEq

/-- The calls into the erasure code libraries. They work in place on blocks of
`symbol_size` bytes, so the blocks they leave behind have that size again. -/
structure FecLib where
  /-- `reed_solomon_new` has a codec for these counts of data and parity shards -/
  reedSolomonNew : ℕ → ℕ → Bool
  /-- the allocations of a Reed-Solomon context succeed -/
  reedSolomonAlloc : ℕ → ℕ → ℕ → Bool
  /-- the parity shards `reed_solomon_encode` writes (data, parity, block size, data shards) -/
  reedSolomonEncode : ℕ → ℕ → ℕ → List Bytes → List Bytes
  /-- all shards after a `reed_solomon_decode` that returned 0; a failing one writes nothing -/
  reedSolomonDecode : ℕ → ℕ → ℕ → List Bytes → List Bool → Option (List Bytes)
  /-- the allocations of a RaptorQ context succeed -/
  raptorqAlloc : ℕ → ℕ → ℕ → Bool
  /-- The `nanorq_core` calls for a block of source symbols: row `s` of the matrix is
  replaced by repair row `r` for every pair `(s, r)`, the rows hold the given symbols, and
  `ops_mix` then gives the symbol of any row. `none` when a call reports an error. -/
  nanorq : ℕ → ℕ → List (ℕ × ℕ) → List Bytes → Option (ℕ → Bytes)
  length_reedSolomonEncode : ∀ d p size blocks, (reedSolomonEncode d p size blocks).length = p
  length_of_mem_reedSolomonEncode :
    ∀ d p size blocks, ∀ b ∈ reedSolomonEncode d p size blocks, b.length = size
  length_reedSolomonDecode : ∀ d p size shards marks out,
    reedSolomonDecode d p size shards marks = some out → out.length = shards.length
  length_of_mem_reedSolomonDecode : ∀ d p size shards marks out,
    reedSolomonDecode d p size shards marks = some out → ∀ b ∈ out, b.length = size
  length_nanorq : ∀ d size subs rows mix, nanorq d size subs rows = some mix →
    ∀ row, (mix row).length = size

/-- The library when memory is short: no context can be created. -/
def FecLib.unavailable : FecLib where
  reedSolomonNew _ _ := false
  reedSolomonAlloc _ _ _ := false
  reedSolomonEncode _ p size _ := List.replicate p (List.replicate size 0)
  reedSolomonDecode _ _ _ _ _ := none
  raptorqAlloc _ _ _ := false
  nanorq _ _ _ _ := none
  length_reedSolomonEncode := by simp
  length_of_mem_reedSolomonEncode := by
    intro _ p size _ b hb
    rw [List.eq_of_mem_replicate hb, List.length_replicate]
  length_reedSolomonDecode := by simp
  length_of_mem_reedSolomonDecode := by simp
  length_nanorq := by simp

/-- `fec_t`: the parameters of the context, and which creation it came from. -/
structure FecT where
  handle : ℕ
  params : FecParams
deriving DecidableEq

/-- `fec_create_ex` can create a context with these parameters. -/
def FecLib.creates (lib : FecLib) (p : FecParams) : Bool :=
  match p.type with
  | .FEC_REED_SOLOMON => lib.reedSolomonNew p.dataSymbols p.paritySymbols &&
      lib.reedSolomonAlloc p.dataSymbols p.paritySymbols p.symbolSize
  | .FEC_RAPTORQ => lib.raptorqAlloc p.dataSymbols p.paritySymbols p.symbolSize

/-- The library at a moment when only some contexts are there or can be allocated. -/
def FecLib.within (lib : FecLib) (supply : FecParams → Bool) : FecLib :=
  { lib with
    reedSolomonAlloc := fun d p size =>
      lib.reedSolomonAlloc d p size && supply ⟨.FEC_REED_SOLOMON, d, p, size⟩
    raptorqAlloc := fun d p size =>
      lib.raptorqAlloc d p size && supply ⟨.FEC_RAPTORQ, d, p, size⟩ }

theorem FecLib.creates_within (lib : FecLib) (supply : FecParams → Bool) (p : FecParams) :
    (lib.within supply).creates p = (lib.creates p && supply p) := by
  obtain ⟨type, d, parity, size⟩ := p
  cases type with
  | FEC_REED_SOLOMON => exact (Bool.and_assoc _ _ _).symm
  | FEC_RAPTORQ => rfl

/-- `fec_create_ex`; `handle` is the context it would allocate. -/
def fecCreateEx (lib : FecLib) (handle : ℕ) (p : FecParams) : Option FecT :=
  if lib.creates p then some ⟨handle, p⟩ else none

/-- `fec_encode`: what the parity blocks hold afterwards. A RaptorQ encoding that fails
returns without writing them. -/
def fecEncode (lib : FecLib) (f : FecT) (dataBlocks parityBlocks : List Bytes) : List Bytes :=
  match f.params.type with
  | .FEC_REED_SOLOMON =>
    lib.reedSolomonEncode f.params.dataSymbols f.params.paritySymbols f.params.symbolSize
      dataBlocks
  | .FEC_RAPTORQ =>
    match lib.nanorq f.params.dataSymbols f.params.symbolSize [] dataBlocks with
    | none => parityBlocks
    | some mix => (List.range f.params.paritySymbols).map fun i => mix (f.params.dataSymbols + i)

/-! ## Decoding -/

/-- `dropped_esi`: the data symbols the mask marks missing. -/
def droppedEsi (d : ℕ) (missing : List Bool) : List ℕ :=
  (List.range d).filter fun i => missing.getD i false

/-- `repair_esi`: the parity symbols the mask does not mark missing, by their row. -/
def repairEsi (d p : ℕ) (missing : List Bool) : List ℕ :=
  ((List.range p).map (d + ·)).filter fun row => !missing.getD row false

/-- The rows of the decoder's matrix: a present data symbol is its own row, a missing one
is replaced by the block of the repair symbol paired with it. -/
def raptorqRows (d size : ℕ) (blocks : List Bytes) (subs : List (ℕ × ℕ)) : List Bytes :=
  (List.range d).map fun i =>
    match subs.find? (fun s => s.1 == i) with
    | none => (blocks.getD i []).take size
    | some s => (blocks.getD s.2 []).take size

/-- `fec_decode`: for each block, the symbol that is written into it; `none` as a whole
when it returns false. `blocks` are the buffers the pointers lead to, `missing` the mask.

For Reed-Solomon every block and mask entry below the total is handed to the library. For
RaptorQ the mask is read for every symbol; blocks are touched only once there are data
symbols to restore and enough repair symbols, a present or missing data block at its own
index and a repair block at the row it is paired with. -/
def fecDecode (lib : FecLib) (f : FecT) (blocks : List Bytes) (missing : List Bool) :
    Except Fault (Option (ℕ → Option Bytes)) :=
  let d := f.params.dataSymbols
  let p := f.params.paritySymbols
  let size := f.params.symbolSize
  match f.params.type with
  | .FEC_REED_SOLOMON => do
    let total := (d + p) % 2 ^ 64
    checkIndices total missing.length
    checkBlocks size blocks (List.range total)
    match lib.reedSolomonDecode d p size ((blocks.take total).map (·.take size))
        (missing.take total) with
    | none => .ok none
    | some out => .ok (some fun i => out[i]?)
  | .FEC_RAPTORQ => do
    checkIndices (d + p) missing.length
    let dropped := droppedEsi d missing
    let repair := repairEsi d p missing
    if repair.length < dropped.length then .ok none
    else if dropped = [] then .ok (some fun _ => none)
    else do
      let subs := dropped.zip repair
      checkBlocks size blocks (List.range d ++ subs.map Prod.snd)
      match lib.nanorq d size subs (raptorqRows d size blocks subs) with
      | none => .ok none
      | some mix => .ok (some fun i => if i ∈ dropped then some (mix i) else none)

/-- Decoding does not depend on which contexts there are besides. -/
theorem fecDecode_within (lib : FecLib) (supply : FecParams → Bool) :
    fecDecode (lib.within supply) = fecDecode lib := rfl

/-! ## The context cache -/

/-- `fec_cache_entry_t`. -/
structure FecCacheEntry where
  params : FecParams
  fec : Option FecT
  lastUsedNs : ℕ
deriving DecidableEq

/-- A zeroed entry. -/
def FecCacheEntry.zero : FecCacheEntry := ⟨⟨.FEC_REED_SOLOMON, 0, 0, 0⟩, none, 0⟩

/-- `t->fec_cache`, and how many contexts have been created so far. -/
structure FecCache where
  entries : List FecCacheEntry
  created : ℕ
deriving DecidableEq

/-- `FEC_CACHE_SIZE`. -/
def FEC_CACHE_SIZE : ℕ := 8

def FecCache.empty : FecCache := ⟨List.replicate FEC_CACHE_SIZE FecCacheEntry.zero, 0⟩

/-- The scan of `get_cached_fec`: the entry that matches, or else the one to evict. -/
def scanFecCache (p : FecParams) : List FecCacheEntry → (i lruIdx minTime : ℕ) → ℕ ⊕ ℕ
  | [], _, lruIdx, _ => .inr lruIdx
  | e :: es, i, lruIdx, minTime =>
    if e.fec.isSome ∧ e.params = p then .inl i
    else if e.lastUsedNs < minTime then scanFecCache p es (i + 1) i e.lastUsedNs
    else scanFecCache p es (i + 1) lruIdx minTime

/-- `get_cached_fec` at clock reading `now`. -/
def getCachedFec (lib : FecLib) (cache : FecCache) (now : ℕ) (p : FecParams) :
    Option FecT × FecCache :=
  match scanFecCache p cache.entries 0 0 (2 ^ 64 - 1) with
  | .inl i =>
    ((cache.entries[i]?).bind (·.fec),
      { cache with entries := cache.entries.modify i fun e => { e with lastUsedNs := now } })
  | .inr lruIdx =>
    -- the old context goes first: when none can be made the entry is left empty
    match fecCreateEx lib cache.created p with
    | none => (none, { cache with entries := cache.entries.modify lruIdx fun e =>
        { e with fec := none } })
    | some f => (some f, ⟨cache.entries.modify lruIdx fun _ => ⟨p, some f, now⟩,
        cache.created + 1⟩)

/-- Every context in the cache was created for the parameters of its entry. -/
def FecCache.Sound (lib : FecLib) (cache : FecCache) : Prop :=
  ∀ e ∈ cache.entries, ∀ f, e.fec = some f → f.params = e.params ∧ lib.creates e.params = true

theorem FecCache.sound_empty (lib : FecLib) : FecCache.empty.Sound lib := by
  intro e he f hf
  rw [FecCache.empty] at he
  rw [List.eq_of_mem_replicate he] at hf
  exact absurd hf (by simp [FecCacheEntry.zero])

/-- Whatever contexts a cache holds, the creation of another one may fail or not. -/
theorem FecCache.Sound.exists_supply {lib : FecLib} {cache : FecCache} (h : cache.Sound lib)
    (p : FecParams) (granted : Bool) : ∃ supply, cache.Sound (lib.within supply) ∧
      ((∃ e ∈ cache.entries, e.fec.isSome ∧ e.params = p) ∨ supply p = granted) := by
  by_cases hcached : ∃ e ∈ cache.entries, e.fec.isSome ∧ e.params = p
  · refine ⟨fun _ => true, fun e he f hf => ⟨(h e he f hf).1, ?_⟩, Or.inl hcached⟩
    rw [FecLib.creates_within, (h e he f hf).2]
    rfl
  · refine ⟨fun q => if q = p then granted else true, fun e he f hf => ⟨(h e he f hf).1, ?_⟩,
      Or.inr (if_pos rfl)⟩
    rw [FecLib.creates_within, (h e he f hf).2, if_neg, Bool.and_self]
    rintro rfl
    exact hcached ⟨e, he, by rw [hf]; rfl, rfl⟩

/-- A hit is an entry with a live context for exactly the requested parameters. -/
theorem scanFecCache_inl {p : FecParams} {es : List FecCacheEntry} {i lruIdx minTime j : ℕ}
    (h : scanFecCache p es i lruIdx minTime = .inl j) :
    ∃ k e, j = i + k ∧ es[k]? = some e ∧ e.fec.isSome ∧ e.params = p := by
  induction es generalizing i lruIdx minTime with
  | nil => simp [scanFecCache] at h
  | cons e es ih =>
    rw [scanFecCache] at h
    split at h
    · rename_i hhit
      cases h
      exact ⟨0, e, rfl, rfl, hhit⟩
    · obtain ⟨k, e', hj, hk⟩ : ∃ k e', j = i + 1 + k ∧ es[k]? = some e' ∧ e'.fec.isSome ∧
          e'.params = p := by
        split at h <;> exact ih h
      exact ⟨k + 1, e', by omega, by simpa using hk⟩

/-- Entries changed at one place: all others are the old ones. -/
theorem mem_modify_entries {es : List FecCacheEntry} {i : ℕ} {f : FecCacheEntry → FecCacheEntry}
    {e : FecCacheEntry} (h : e ∈ es.modify i f) : e ∈ es ∨ ∃ a ∈ es, e = f a := by
  rw [List.mem_iff_getElem?] at h
  obtain ⟨j, hj⟩ := h
  rw [List.getElem?_modify] at hj
  cases ha : es[j]? with
  | none => simp [ha] at hj
  | some a =>
    have hmem : a ∈ es := List.mem_of_getElem? ha
    rw [ha, Option.map_eq_map, Option.map_some, Option.some.injEq] at hj
    split at hj
    · exact Or.inr ⟨a, hmem, hj.symm⟩
    · exact Or.inl (hj ▸ hmem)

/-- `get_cached_fec` keeps the cache sound. -/
theorem sound_getCachedFec {lib : FecLib} {cache : FecCache} (h : cache.Sound lib) (now : ℕ)
    (p : FecParams) : (getCachedFec lib cache now p).2.Sound lib := by
  rw [getCachedFec]
  split
  · intro e he f hf
    rcases mem_modify_entries he with he | ⟨a, ha, rfl⟩
    · exact h e he f hf
    · exact h a ha f hf
  · split
    · intro e he f hf
      rcases mem_modify_entries he with he | ⟨a, ha, rfl⟩
      · exact h e he f hf
      · exact absurd hf (by simp)
    · rename_i f' hf'
      intro e he f hf
      rcases mem_modify_entries he with he | ⟨a, ha, rfl⟩
      · exact h e he f hf
      · rw [fecCreateEx] at hf'
        split at hf'
        · rename_i hc
          cases hf
          cases hf'
          exact ⟨rfl, hc⟩
        · simp at hf'

/-- What `get_cached_fec` returns: a context for the requested parameters when they can be
created, and nothing otherwise, whatever the cache has been used for. -/
theorem getCachedFec_params {lib : FecLib} {cache : FecCache} (h : cache.Sound lib) (now : ℕ)
    (p : FecParams) :
    (getCachedFec lib cache now p).1.map (·.params) = if lib.creates p then some p else none := by
  rw [getCachedFec]
  split
  · rename_i i hscan
    obtain ⟨k, e, hi, hk, hsome, hp⟩ := scanFecCache_inl hscan
    obtain ⟨f, hf⟩ := Option.isSome_iff_exists.mp hsome
    obtain ⟨hparams, hcreates⟩ := h e (List.mem_of_getElem? hk) f hf
    rw [Nat.zero_add] at hi
    subst hi
    rw [hp] at hparams hcreates
    simp [hk, hf, hparams, hcreates]
  · rw [fecCreateEx]
    by_cases hc : lib.creates p = true <;> simp [hc]

end Bishlink
