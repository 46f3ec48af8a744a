import Bishlink.Contexts

/-!
# The symbols of an object

`transport_publish` cuts an object into data symbols, the last one padded, and has the parity
encoded from them. Taken apart, the data symbols are the object again (`copiedObject_symbols`).
-/

namespace Bishlink

open ByteCodec

/-! ## Data blocks -/

theorem cachedBlock_of_le {data : Bytes} {size i : ℕ} (h : size ≤ data.length - i * size) :
    cachedBlock data size i = slice (i * size) size data := by
  have hlen : (slice (i * size) size data).length = size := by
    rw [length_slice]
    omega
  unfold cachedBlock writeAt
  rw [hlen, List.take_zero, List.nil_append, Nat.zero_add, List.drop_eq_nil_of_le, List.append_nil]
  rw [List.length_replicate]

/-- The blocks of an object whose last block is cut from zeroed memory. -/
theorem shardData_eq (io : PublishIO) (data : Bytes) (size : ℕ) {i n : ℕ} {a : Arena}
    (hfull : (i + n - 1) * size ≤ data.length)
    (hroom : a.offset + (size + 7) / 8 * 8 ≤ a.capacity) :
    (shardData io data size i n a).1 = (List.range' i n).map (cachedBlock data size) := by
  induction n generalizing i a with
  | zero => rfl
  | succ n ih =>
    have hrest : (i + 1 + n - 1) * size ≤ data.length := by
      have hidx : i + 1 + n - 1 = i + (n + 1) - 1 := by omega
      rw [hidx]
      exact hfull
    rw [List.range'_succ, List.map_cons]
    simp only [shardData]
    by_cases hblock : size ≤ data.length - i * size
    · rw [if_pos hblock]
      dsimp only
      rw [ih hrest hroom]
      rw [cachedBlock_of_le hblock]
    · rw [if_neg hblock]
      dsimp only
      have hlast : n = 0 := by
        by_contra hn
        have hle : (i + 1) * size ≤ (i + (n + 1) - 1) * size := Nat.mul_le_mul_right size (by omega)
        rw [Nat.add_mul, Nat.one_mul] at hle
        omega
      subst hlast
      unfold arenaAlloc
      dsimp only
      rw [if_neg (by omega)]
      have hslice : slice (i * size) (data.length - i * size) data =
          slice (i * size) size data := by
        unfold slice
        rw [List.take_of_length_le (List.length_drop.le),
          List.take_of_length_le (List.length_drop.le.trans (by omega))]
      rw [hslice]
      rfl

theorem arenaAlloc_offset (io : PublishIO) (a : Arena) (size : ℕ) :
    (arenaAlloc io a size).2.capacity = a.capacity ∧
      (arenaAlloc io a size).2.offset ≤ a.offset + (size + 7) / 8 * 8 := by
  unfold arenaAlloc
  dsimp only
  split
  · exact ⟨rfl, Nat.le_add_right _ _⟩
  · exact ⟨rfl, le_rfl⟩

theorem dataSymbolCount_le (len size : ℕ) (hsize : 0 < size) :
    (dataSymbolCount len size - 1) * size ≤ len := by
  have hmul := Nat.div_mul_le_self (len + size - 1) size
  unfold dataSymbolCount
  dsimp only
  split
  · rw [Nat.sub_self, Nat.zero_mul]
    exact Nat.zero_le len
  · rw [Nat.sub_mul, Nat.one_mul]
    omega

/-- The data blocks of an object: the arena has room for the last one as long as the total fits
16 bits. -/
theorem shardObject_data (lib : FecLib) (io : PublishIO) (t : Transport) (obj : MoqObject)
    (htotal : (shardObject lib io t obj).1.totalSymbols ≤ 65535) (hsize : t.symbolSize ≤ 65535) :
    (shardObject lib io t obj).1.symbolSize = t.symbolSize ∧
      (shardObject lib io t obj).1.dataBlocks =
        (List.range (shardObject lib io t obj).1.dataSymbols).map
          (cachedBlock obj.data t.symbolSize) := by
  have hpos := t.symbolSize_ge
  have hblocks : ∀ d p, d + p ≤ 65535 → d = dataSymbolCount obj.data.length t.symbolSize →
      (shardData io obj.data t.symbolSize 0 d
        (arenaAlloc io (arenaAlloc io Arena.reset (d * 8)).2 (p * 8)).2).1 =
          (List.range d).map (cachedBlock obj.data t.symbolSize) := by
    intro d p hle hd
    obtain ⟨hcap₁, hoff₁⟩ := arenaAlloc_offset io Arena.reset (d * 8)
    obtain ⟨hcap₂, hoff₂⟩ := arenaAlloc_offset io (arenaAlloc io Arena.reset (d * 8)).2 (p * 8)
    rw [List.range_eq_range']
    refine shardData_eq io obj.data t.symbolSize ?_ ?_
    · rw [Nat.zero_add, hd]
      exact dataSymbolCount_le _ _ (by omega)
    · rw [hcap₂, hcap₁]
      have hreset : Arena.reset.offset = 0 ∧ Arena.reset.capacity = 16 * 1024 * 1024 := ⟨rfl, rfl⟩
      omega
  unfold shardObject ShardedObject.totalSymbols at htotal
  unfold shardObject
  dsimp only at htotal ⊢
  split at htotal
  · next hparity =>
    rw [if_pos hparity]
    exact ⟨rfl, hblocks _ _ htotal rfl⟩
  · next hparity =>
    rw [if_neg hparity]
    exact ⟨rfl, hblocks _ _ htotal rfl⟩

/-- An encoding that succeeds writes all of the parity blocks: it depends on the parameters and
the data only. -/
theorem fecEncode_eq {lib : FecLib} {f f' : FecT} {blocks : List Bytes}
    (hparams : f.params = f'.params)
    (hencoded : f.params.type = .FEC_RAPTORQ →
      (lib.nanorq f.params.dataSymbols f.params.symbolSize [] blocks).isSome = true)
    (blank blank' : List Bytes) :
    fecEncode lib f blocks blank = fecEncode lib f' blocks blank' := by
  unfold fecEncode
  rw [← hparams]
  cases htype : f.params.type with
  | FEC_REED_SOLOMON => rfl
  | FEC_RAPTORQ =>
    obtain ⟨mix, hmix⟩ := Option.isSome_iff_exists.mp (hencoded htype)
    simp only [hmix]

/-- The context for a code that can be created. -/
theorem getCachedFec_created {lib : FecLib} {cache : FecCache} (hsound : cache.Sound lib)
    (now : ℕ) {code : FecParams} (hcreates : lib.creates code = true) :
    ∃ f, (getCachedFec lib cache now code).1 = some f ∧ f.params = code := by
  have hparams := getCachedFec_params hsound now code
  rw [if_pos hcreates] at hparams
  exact Option.map_eq_some_iff.mp hparams

/-! ## Parity -/

/-- The code the sender has the parity encoded with. -/
def ShardedObject.code (o : ShardedObject) (type : MoqTrackType) : FecParams :=
  ⟨senderFecType type o.dataSymbols o.paritySymbols, o.dataSymbols, o.paritySymbols,
    o.symbolSize⟩

/-- The parity of an object: there is none, or a context for its code encodes it if one can be
created. -/
theorem shardObject_parityBlocks {lib : FecLib} {t : Transport} (hsound : t.fecCache.Sound lib)
    (io : PublishIO) (obj : MoqObject) :
    ((shardObject lib io t obj).1.paritySymbols = 0 →
        (shardObject lib io t obj).1.parityBlocks = []) ∧
      (0 < (shardObject lib io t obj).1.paritySymbols →
        lib.creates ((shardObject lib io t obj).1.code obj.trackId.type) = true →
          ∃ f blank, f.params = (shardObject lib io t obj).1.code obj.trackId.type ∧
            (shardObject lib io t obj).1.parityBlocks =
              fecEncode lib f (shardObject lib io t obj).1.dataBlocks blank) := by
  unfold ShardedObject.code shardObject
  dsimp only
  split
  · next hparity =>
    refine ⟨fun hzero => absurd hzero hparity.ne', fun _ hcreates => ?_⟩
    obtain ⟨f, hf, hparams⟩ := getCachedFec_created hsound io.fecTimeNs hcreates
    rw [hf]
    exact ⟨f, _, hparams, rfl⟩
  · next hparity =>
    refine ⟨fun hzero => ?_, fun hpos => absurd hpos hparity⟩
    dsimp only at hzero ⊢
    rw [hzero]
    rfl

/-- Without a context the parity stays as the arena gave it. -/
theorem shardObject_parityBlocks_blank {lib : FecLib} {t : Transport}
    (hsound : t.fecCache.Sound lib) (io : PublishIO) (obj : MoqObject)
    (hcreates : lib.creates ((shardObject lib io t obj).1.code obj.trackId.type) = false) :
    ∃ a, (shardObject lib io t obj).1.parityBlocks =
      parityBlocks io t.symbolSize (shardObject lib io t obj).1.paritySymbols a := by
  unfold ShardedObject.code shardObject at hcreates
  unfold shardObject
  dsimp only at hcreates ⊢
  split at hcreates
  · next hparity =>
    have hnone := getCachedFec_params hsound io.fecTimeNs
      ⟨senderFecType obj.trackId.type (dataSymbolCount obj.data.length t.symbolSize)
        (allocateSymbols t io (getTrackProfile obj.trackId).fecEnabled
          (dataSymbolCount obj.data.length t.symbolSize)).2,
        dataSymbolCount obj.data.length t.symbolSize,
        (allocateSymbols t io (getTrackProfile obj.trackId).fecEnabled
          (dataSymbolCount obj.data.length t.symbolSize)).2, t.symbolSize⟩
    rw [if_neg (by rw [hcreates]; exact Bool.false_ne_true), Option.map_eq_none_iff] at hnone
    rw [if_pos hparity, hnone]
    exact ⟨_, rfl⟩
  · next hparity =>
    rw [if_neg hparity]
    exact ⟨_, rfl⟩

/-! ## Blocks -/

/-- A context of the cache encodes the blocks in place, or leaves them as they are. -/
theorem fecEncode_lengths {lib : FecLib} {cache : FecCache} (hsound : cache.Sound lib) {now : ℕ}
    {code : FecParams} {f : FecT} (hf : (getCachedFec lib cache now code).1 = some f)
    (blocks : List Bytes) {blank : List Bytes} (hlen : blank.length = code.paritySymbols)
    (hall : ∀ b ∈ blank, b.length = code.symbolSize) :
    (fecEncode lib f blocks blank).length = code.paritySymbols ∧
      ∀ b ∈ fecEncode lib f blocks blank, b.length = code.symbolSize := by
  have hparams : f.params = code := by
    have hcached := getCachedFec_params hsound now code
    rw [hf, Option.map_some] at hcached
    split at hcached
    · exact Option.some.inj hcached
    · exact absurd hcached (Option.some_ne_none _)
  subst hparams
  unfold fecEncode
  cases f.params.type with
  | FEC_REED_SOLOMON =>
    exact ⟨lib.length_reedSolomonEncode _ _ _ _, lib.length_of_mem_reedSolomonEncode _ _ _ _⟩
  | FEC_RAPTORQ =>
    dsimp only
    cases hmix : lib.nanorq f.params.dataSymbols f.params.symbolSize [] blocks with
    | none => exact ⟨hlen, hall⟩
    | some mix =>
      refine ⟨by rw [List.length_map, List.length_range], fun b hb => ?_⟩
      obtain ⟨i, -, rfl⟩ := List.mem_map.mp hb
      exact lib.length_nanorq _ _ _ _ _ hmix _

/-- There is a block for each symbol, as long as a symbol. -/
theorem shardObject_blocks {lib : FecLib} {t : Transport} (hsound : t.fecCache.Sound lib)
    (io : PublishIO) (obj : MoqObject) {o : ShardedObject} (ho : o = (shardObject lib io t obj).1) :
    (o.dataBlocks.length = o.dataSymbols ∧ ∀ b ∈ o.dataBlocks, b.length = o.symbolSize) ∧
      (o.parityBlocks.length = o.paritySymbols ∧
        ∀ b ∈ o.parityBlocks, b.length = o.symbolSize) := by
  unfold shardObject at ho
  dsimp only at ho
  split at ho
  · rw [ho]
    refine ⟨length_shardData _ _ _ _ _ _, ?_⟩
    dsimp only
    split
    · exact length_parityBlocks _ _ _ _
    · next f hf =>
      have hblank := length_parityBlocks io t.symbolSize
      exact fecEncode_lengths hsound hf _ (hblank _ _).1 (hblank _ _).2
  · rw [ho]
    exact ⟨length_shardData _ _ _ _ _ _, length_parityBlocks _ _ _ _⟩

end Bishlink
