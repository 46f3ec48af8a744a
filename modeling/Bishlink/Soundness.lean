import Bishlink.Recovery

/-!
# Objects that are put together again

A slot holds symbols of one object only, so what the handler copies out of it is that object: its
data symbols as they arrived, or as the decoder restores them from symbols of one encoding
(`reassembly_sound`). The one way in which the decoder is given anything else is that the publisher
did not encode the parity with its code (`Garbled`): it chose another one, it had no context for it,
or its encoder failed. At each publish and at each arrival the contexts that can be created are
others.
-/

namespace Bishlink

open ByteCodec Checked Runs

/-! ## Parity -/

/-- The publisher encoded the parity with the code of this type: it chose it, it had a context for
it, and the encoder did not fail. -/
structure Sharding.Encoded {pub : FecLib} (p : Sharding pub) (code : FecType) : Prop where
  type : senderFecType p.object.trackId.type p.shards.dataSymbols p.shards.paritySymbols = code
  creates : pub.creates (p.shards.code p.object.trackId.type) = true
  encodes : code = .FEC_RAPTORQ →
    pub.nanorq p.shards.dataSymbols p.shards.symbolSize [] p.shards.dataBlocks ≠ none

/-- A receiver with these contexts and this type of track decodes the object from parity that the
publisher did not encode with its code. -/
structure Sharding.Garbled {pub : FecLib} (p : Sharding pub) (lib : FecLib) (type : MoqTrackType) :
    Prop where
  parity : 0 < p.shards.paritySymbols
  total_le : p.shards.totalSymbols ≤ 256
  decoder : lib.creates (receiverFecParams type p.shards.totalSymbols p.shards.dataSymbols
    p.shards.symbolSize) = true
  unencoded : ¬p.Encoded (receiverFecType type p.shards.totalSymbols)

namespace Sharding

variable {lib : FecLib} {sent : FecParams → Bool}

/-- Parity that a context encodes. -/
theorem Encoded.parityBlocks {p : Sharding lib} {code : FecType} (h : p.Encoded code)
    (hparity : 0 < p.shards.paritySymbols) :
    ∃ f blank, f.params = ⟨code, p.shards.dataSymbols, p.shards.paritySymbols,
        p.shards.symbolSize⟩ ∧
      p.shards.parityBlocks = fecEncode lib f p.shards.dataBlocks blank := by
  obtain ⟨f, blank, hf, hblocks⟩ :=
    (shardObject_parityBlocks p.sound p.io p.object).2 hparity h.creates
  have hcode : p.shards.code p.object.trackId.type = ⟨code, p.shards.dataSymbols,
      p.shards.paritySymbols, p.shards.symbolSize⟩ := by
    unfold ShardedObject.code
    rw [h.type]
  have hf : f.params = p.shards.code p.object.trackId.type := hf
  exact ⟨f, blank, hf.trans hcode, hblocks⟩

/-- Parity that Reed-Solomon encodes. -/
theorem Encoded.reedSolomon {p : Sharding (lib.within sent)}
    (h : p.Encoded .FEC_REED_SOLOMON) (hparity : 0 < p.shards.paritySymbols) :
    p.shards.parityBlocks = lib.reedSolomonEncode p.shards.dataSymbols p.shards.paritySymbols
      p.shards.symbolSize p.shards.dataBlocks := by
  obtain ⟨f, blank, hf, hblocks⟩ := h.parityBlocks hparity
  rw [hblocks, fecEncode, hf]
  rfl

/-- Parity that RaptorQ encodes. -/
theorem Encoded.raptorq {p : Sharding (lib.within sent)} (h : p.Encoded .FEC_RAPTORQ)
    (hparity : 0 < p.shards.paritySymbols) :
    ∃ mix, lib.nanorq p.shards.dataSymbols p.shards.symbolSize [] p.shards.dataBlocks = some mix ∧
      p.shards.parityBlocks =
        (List.range p.shards.paritySymbols).map fun i => mix (p.shards.dataSymbols + i) := by
  obtain ⟨mix, hmix⟩ := Option.ne_none_iff_exists'.mp (h.encodes rfl)
  obtain ⟨f, blank, hf, hblocks⟩ := h.parityBlocks hparity
  refine ⟨mix, hmix, ?_⟩
  rw [hblocks, fecEncode, hf]
  dsimp only
  rw [hmix]

/-- Without a context the parity is what the arena gave. -/
theorem parityBlocks_blank (p : Sharding lib)
    (hcreates : lib.creates (p.shards.code p.object.trackId.type) = false) :
    ∃ a, p.shards.parityBlocks =
      Bishlink.parityBlocks p.io p.shards.symbolSize p.shards.paritySymbols a := by
  obtain ⟨a, hblank⟩ := shardObject_parityBlocks_blank p.sound p.io p.object hcreates
  rw [p.symbolSize_eq]
  exact ⟨a, hblank⟩

end Sharding

/-! ## What is restored -/

/-- Each data symbol is written back, or has arrived and is left alone. -/
def Restored {pub : FecLib} (p : Sharding pub) (arrived : Finset ℕ) (symbols : ℕ → Option Bytes) :
    Prop :=
  ∀ k < p.shards.dataSymbols,
    symbols k = some (p.shards.symbol k) ∨ (symbols k = none ∧ k ∈ arrived)

namespace Holds

section Slot

variable {pub : FecLib} {p : Sharding pub} {arrived : Finset ℕ} {a : FrameAssembler}

/-- What the decoder reads of a buffer. -/
theorem take_getD (hholds : Holds p arrived a) {j : ℕ} (hj : j ∈ arrived) :
    (a.store.buffers.getD j []).take p.shards.symbolSize = p.shards.symbol j :=
  hholds.bytes j hj

/-- A symbol that is not marked missing has arrived. -/
theorem arrived_of_mark (hholds : Holds p arrived a) (htotal : p.shards.totalSymbols ≤ 256)
    {j : ℕ} (hj : j < p.shards.totalSymbols)
    (hmark : (missingMask a.store p.shards.totalSymbols).getD j false = false) : j ∈ arrived := by
  rw [getD_missingMask (by omega), decide_eq_true hj, Bool.true_and, Bool.not_eq_false'] at hmark
  exact (hholds.received j).mp hmark

/-- The rows that RaptorQ decodes from: data symbols, and parity where one is missing. -/
theorem raptorqRows_eq (hholds : Holds p arrived a) {mix : ℕ → Bytes}
    (hmix : p.shards.parityBlocks =
      (List.range p.shards.paritySymbols).map fun i => mix (p.shards.dataSymbols + i))
    {subs : List (ℕ × ℕ)}
    (hkept : ∀ i < p.shards.dataSymbols, i ∉ subs.map Prod.fst → i ∈ arrived)
    (hused : ∀ s ∈ subs, s.2 ∈ arrived ∧ p.shards.dataSymbols ≤ s.2) :
    raptorqRows p.shards.dataSymbols p.shards.symbolSize a.store.buffers subs =
      (List.range p.shards.dataSymbols).map fun i =>
        ((subs.find? (·.1 == i)).map fun s => mix s.2).getD (p.shards.dataBlocks.getD i []) := by
  have hblocks := (shardObject_blocks p.sound p.io p.object (o := p.shards) rfl).1.1
  have hsum : p.shards.dataSymbols + p.shards.paritySymbols = p.shards.totalSymbols := rfl
  unfold raptorqRows
  apply List.map_congr_left
  intro i hi
  have hi := List.mem_range.mp hi
  cases hfind : subs.find? (fun s => s.1 == i) with
  | none =>
    have hmem : i ∈ arrived := by
      refine hkept i hi fun hmem => ?_
      obtain ⟨s, hs, hfst⟩ := List.mem_map.mp hmem
      exact absurd (List.find?_eq_none.mp hfind s hs) (by simpa using hfst)
    have hsymbol := p.symbol_eq (s := i) (by omega)
    rw [List.getElem?_append_left (by omega)] at hsymbol
    have hblock : p.shards.dataBlocks.getD i [] = p.shards.symbol i := by
      rw [List.getD_eq_getElem?_getD, hsymbol, Option.getD_some]
    rw [Option.map_none, Option.getD_none, hblock]
    exact hholds.take_getD hmem
  | some s =>
    obtain ⟨hmem, hge⟩ := hused s (List.mem_of_find?_eq_some hfind)
    have hlt := hholds.arrived_lt _ hmem
    have hsymbol := p.symbol_eq hlt
    rw [List.getElem?_append_right (by omega), hblocks, hmix, List.getElem?_map,
      List.getElem?_range (by omega), Option.map_some, Nat.add_sub_cancel' hge,
      Option.some.injEq] at hsymbol
    rw [Option.map_some, Option.getD_some, hsymbol]
    exact hholds.take_getD hmem

/-- What is restored is the object. -/
theorem copied_restored (hholds : Holds p arrived a) (hfits : p.Fits)
    {symbols : ℕ → Option Bytes} (hrestored : Restored p arrived symbols) (junk : ℕ → UInt8) :
    copiedObject (a.store.overwrite symbols).buffers p.shards.symbolSize p.shards.dataSymbols
      p.object.data.length junk = p.object.data := by
  refine hfits.copiedObject_symbols ?_ junk
  intro k hk
  have hcap := hholds.capacity
  have hle := p.dataSymbols_le
  have hchunk : chunkLength p.object.data.length p.shards.symbolSize k ≤ p.shards.symbolSize :=
    Nat.min_le_right _ _
  rw [SymbolStore.buffer_overwrite (by omega)]
  rcases hrestored k hk with hsome | ⟨hnone, hmem⟩
  · have hlen := p.length_symbol (s := k) (by omega)
    have hsize := hholds.symbolSize_le
    rw [hsome]
    dsimp only
    rw [← SymbolStore.length_buffer (by omega : k < a.store.capacitySymbols),
      take_writeAt_take _ (by omega), SymbolStore.length_buffer (by omega),
      List.take_of_length_le (l := p.shards.symbol k) (by omega)]
  · rw [hnone]
    dsimp only
    rw [← hholds.bytes k hmem, List.take_take, Nat.min_eq_left hchunk]

end Slot

variable {lib : FecLib} {sent got : FecParams → Bool} {p : Sharding (lib.within sent)}
  {arrived : Finset ℕ} {a : FrameAssembler}

/-- Reed-Solomon writes every data symbol back. -/
theorem restored_reedSolomon (hlib : Restores lib) (hholds : Holds p arrived a)
    (hparity : 0 < p.shards.paritySymbols)
    (hnew : lib.reedSolomonNew p.shards.dataSymbols p.shards.paritySymbols = true)
    (hencoded : p.Encoded .FEC_REED_SOLOMON) {symbols : ℕ → Option Bytes}
    (hdecode : fecDecode lib ⟨0, ⟨.FEC_REED_SOLOMON, p.shards.dataSymbols,
      p.shards.paritySymbols, p.shards.symbolSize⟩⟩ a.store.buffers
      (missingMask a.store p.shards.totalSymbols) = .ok (some symbols)) :
    Restored p arrived symbols := by
  have hsum : p.shards.dataSymbols + p.shards.paritySymbols = p.shards.totalSymbols := rfl
  have htotal : p.shards.totalSymbols ≤ 255 := hsum ▸ hlib.reedSolomonNew _ _ hnew
  have hmod : p.shards.totalSymbols % 2 ^ 64 = p.shards.totalSymbols :=
    Nat.mod_eq_of_lt (by omega)
  have hcap := hholds.capacity
  obtain ⟨hblocks, hlengths⟩ := (shardObject_blocks p.sound p.io p.object (o := p.shards) rfl).1
  unfold fecDecode at hdecode
  dsimp only at hdecode
  rw [hsum, hmod] at hdecode
  -- the two checks in front of the decoder have passed
  obtain ⟨-, -, hdecode⟩ := bind_eq_ok.mp hdecode
  obtain ⟨-, -, hdecode⟩ := bind_eq_ok.mp hdecode
  cases hout : lib.reedSolomonDecode p.shards.dataSymbols p.shards.paritySymbols
      p.shards.symbolSize
      ((a.store.buffers.take p.shards.totalSymbols).map (·.take p.shards.symbolSize))
      ((missingMask a.store p.shards.totalSymbols).take p.shards.totalSymbols) with
  | none =>
    rw [hout] at hdecode
    simp at hdecode
  | some out =>
    rw [hout, Except.ok.injEq, Option.some.injEq] at hdecode
    intro k hk
    refine Or.inl ?_
    rw [← hdecode]
    show out[k]? = _
    rw [hlib.reedSolomon _ _ _ p.shards.dataBlocks _ _ out hblocks hlengths ?_ ?_ ?_ hout k hk,
      ← p.symbol_eq (by omega), List.getElem?_append_left (by omega)]
    · rw [List.length_map, List.length_take, a.store.length_buffers]
      omega
    · rw [List.length_take, length_missingMask]
      omega
    · -- what is not missing is the symbol that was sent
      intro i hi hmark
      rw [hsum] at hi
      rw [List.getD_eq_getElem?_getD, List.getElem?_take_of_lt hi,
        ← List.getD_eq_getElem?_getD] at hmark
      have hmem := hholds.arrived_of_mark (by omega) hi hmark
      have hlt : i < a.store.buffers.length := by
        rw [a.store.length_buffers]
        omega
      rw [← hencoded.reedSolomon hparity, p.symbol_eq hi,
        ← hholds.take_getD hmem, List.getD_eq_getElem _ _ hlt, List.getElem?_map,
        List.getElem?_take_of_lt hi, List.getElem?_eq_getElem hlt, Option.map_some]

/-- RaptorQ writes the missing data symbols back. -/
theorem restored_raptorq (hlib : Restores lib) (hholds : Holds p arrived a)
    (hparity : 0 < p.shards.paritySymbols) (htotal : p.shards.totalSymbols ≤ 256)
    (hencoded : p.Encoded .FEC_RAPTORQ) {symbols : ℕ → Option Bytes}
    (hdecode : fecDecode lib ⟨0, ⟨.FEC_RAPTORQ, p.shards.dataSymbols, p.shards.paritySymbols,
      p.shards.symbolSize⟩⟩ a.store.buffers (missingMask a.store p.shards.totalSymbols) =
        .ok (some symbols)) :
    Restored p arrived symbols := by
  have hsum : p.shards.dataSymbols + p.shards.paritySymbols = p.shards.totalSymbols := rfl
  obtain ⟨hblocks, hlengths⟩ := (shardObject_blocks p.sound p.io p.object (o := p.shards) rfl).1
  obtain ⟨mix, hmix, hparityBlocks⟩ := hencoded.raptorq hparity
  have hdata : ∀ k < p.shards.dataSymbols, p.shards.dataBlocks.getD k [] = p.shards.symbol k := by
    intro k hk
    have hsymbol := p.symbol_eq (s := k) (by omega)
    rw [List.getElem?_append_left (by omega)] at hsymbol
    rw [List.getD_eq_getElem?_getD, hsymbol, Option.getD_some]
  have hthere : ∀ k < p.shards.totalSymbols,
      (missingMask a.store p.shards.totalSymbols).getD k false = false → k ∈ arrived :=
    fun k hk hmark => hholds.arrived_of_mark (by omega) hk hmark
  -- only these marks matter from here on
  generalize missingMask a.store p.shards.totalSymbols = missing at hdecode hthere
  have hkept : ∀ k < p.shards.dataSymbols, k ∉ droppedEsi p.shards.dataSymbols missing →
      k ∈ arrived := by
    intro k hk hnot
    refine hthere k (by omega) ?_
    rw [← Bool.not_eq_true]
    exact fun hmark => hnot (mem_droppedEsi.mpr ⟨hk, hmark⟩)
  unfold fecDecode at hdecode
  dsimp only at hdecode
  obtain ⟨-, -, hdecode⟩ := bind_eq_ok.mp hdecode
  split at hdecode
  · simp at hdecode
  next hfew =>
  split at hdecode
  -- no data symbol is missing, and nothing is written
  · next hnone =>
    rw [Except.ok.injEq, Option.some.injEq] at hdecode
    intro k hk
    refine Or.inr ⟨by rw [← hdecode], hkept k hk ?_⟩
    rw [hnone]
    exact List.not_mem_nil
  · obtain ⟨-, -, hdecode⟩ := bind_eq_ok.mp hdecode
    have hpairs : ((droppedEsi p.shards.dataSymbols missing).zip
        (repairEsi p.shards.dataSymbols p.shards.paritySymbols missing)).map Prod.fst =
          droppedEsi p.shards.dataSymbols missing := List.map_fst_zip (by omega)
    have hused : ∀ s ∈ (droppedEsi p.shards.dataSymbols missing).zip
        (repairEsi p.shards.dataSymbols p.shards.paritySymbols missing),
          s.2 ∈ arrived ∧ p.shards.dataSymbols ≤ s.2 := by
      intro s hs
      obtain ⟨hge, hlt, hmark⟩ := mem_repairEsi.mp (List.of_mem_zip hs).2
      exact ⟨hthere _ (by omega) hmark, hge⟩
    rw [hholds.raptorqRows_eq hparityBlocks (by rw [hpairs]; exact hkept) hused] at hdecode
    split at hdecode
    · simp at hdecode
    next mix' hmix' =>
    rw [Except.ok.injEq, Option.some.injEq] at hdecode
    intro k hk
    -- the decoder writes the missing symbols and leaves the others as they came
    by_cases hdropped : k ∈ droppedEsi p.shards.dataSymbols missing
    · refine Or.inl ?_
      rw [← hdecode, ← hdata k hk, ← hlib.nanorq _ _ _ _ _ _ hblocks hlengths hmix
        (fun s hs => (hused s hs).2) hmix' k hk]
      exact if_pos hdropped
    · refine Or.inr ⟨?_, hkept k hk hdropped⟩
      rw [← hdecode]
      exact if_neg hdropped

/-- The decoder restores the object, unless its parity is garbled. -/
theorem restored (hlib : Restores lib) (hholds : Holds p arrived a) {type : MoqTrackType}
    (hclear : ¬p.Garbled (lib.within got) type) {symbols : ℕ → Option Bytes}
    (hrecovered : recovered (lib.within got) type a.store p.shards.totalSymbols
      p.shards.dataSymbols p.shards.symbolSize = .ok (some symbols)) :
    Restored p arrived symbols := by
  have hparams : receiverFecParams type p.shards.totalSymbols p.shards.dataSymbols
      p.shards.symbolSize = ⟨receiverFecType type p.shards.totalSymbols, p.shards.dataSymbols,
        p.shards.paritySymbols, p.shards.symbolSize⟩ := by
    rw [receiverFecParams, paritySymbols_of_le p.dataSymbols_le]
    exact congrArg (FecParams.mk _ _ · _) (Nat.add_sub_cancel_left _ _)
  have hparityEq : paritySymbols p.shards.totalSymbols p.shards.dataSymbols =
      p.shards.paritySymbols := congrArg FecParams.paritySymbols hparams
  unfold recovered at hrecovered
  rw [hparityEq] at hrecovered
  split at hrecovered
  · next hboth =>
    obtain ⟨hparity, hcreates⟩ := hboth
    obtain ⟨_, hmask, hrecovered⟩ := bind_eq_ok.mp hrecovered
    obtain ⟨-, -, hdecode⟩ := bind_eq_ok.mp hrecovered
    rw [checkIndices_eq_ok] at hmask
    have hencoded : p.Encoded (receiverFecType type p.shards.totalSymbols) := by
      by_contra hnot
      exact hclear ⟨hparity, hmask, hcreates, hnot⟩
    rw [hparams, fecDecode_within] at hdecode
    rw [hparams, FecLib.creates_within, Bool.and_eq_true] at hcreates
    cases hcode : receiverFecType type p.shards.totalSymbols with
    | FEC_REED_SOLOMON =>
      rw [hcode] at hdecode hcreates hencoded
      exact hholds.restored_reedSolomon hlib hparity (Bool.and_eq_true_iff.mp hcreates.1).1
        hencoded hdecode
    | FEC_RAPTORQ =>
      rw [hcode] at hdecode hencoded
      exact hholds.restored_raptorq hlib hparity hmask hencoded hdecode
  · simp at hrecovered

/-- What is handed on is the object. -/
theorem completion_data (hlib : Restores lib) (hholds : Holds p arrived a) (hfits : p.Fits) {s : ℕ}
    {h : FecPacketHeader} (hheader : p.HeaderOf s h) {type : MoqTrackType}
    (hclear : ¬p.Garbled (lib.within got) type) {junk : ℕ → UInt8} {symbols : ℕ → Option Bytes}
    {fullData : Bytes}
    (hcompletion : completion (lib.within got) junk type a h = .ok (some (symbols, fullData))) :
    fullData = p.object.data := by
  obtain ⟨hfound, hcopied⟩ := completion_some hcompletion
  rw [hcopied, hheader.symbolSize, hheader.dataSymbols, hheader.originalSize]
  refine hholds.copied_restored hfits ?_ junk
  unfold obtained at hfound
  obtain ⟨gotAll, hscan, hfound⟩ := bind_eq_ok.mp hfound
  rw [hheader.totalSymbols, hheader.dataSymbols, hheader.symbolSize] at hfound
  cases gotAll with
  | true =>
    -- every data symbol is there
    rw [if_pos rfl, Except.ok.injEq, Option.some.injEq] at hfound
    intro k hk
    refine Or.inr ⟨by rw [← hfound], ?_⟩
    rw [hheader.dataSymbols] at hscan
    exact (hholds.received k).mp (gotAllData_true.mp hscan k (Nat.zero_le k) (by omega))
  | false =>
    rw [if_neg Bool.false_ne_true] at hfound
    exact hholds.restored hlib hclear hfound

/-- A datagram of the object at the slot: the slot still holds the object, or is done with it. -/
theorem slotStep_sound (hlib : Restores lib) (hholds : Holds p arrived a)
    (hopen : a.decoded = false) (hfits : p.Fits) {s : ℕ} {h : FecPacketHeader}
    (hheader : p.HeaderOf s h) (hs : s < p.shards.totalSymbols) {type : MoqTrackType}
    (hclear : ¬p.Garbled (lib.within got) type) {junk : ℕ → UInt8} {r : Received}
    (hstep : slotStep (lib.within got) junk type a h (p.shards.symbol s) = .ok r) :
    (r.slot.decoded = true ∨ Holds p (insert s arrived) r.slot) ∧
      ∀ fullData, r.fullData = some fullData →
        fullData = p.object.data ∧ r.slot.priority = p.object.priority := by
  have hnext := (hholds.withSymbol hs (p.length_symbol hs).ge).afterRequest type
  rw [hholds.slotStep_eq hopen hheader hs] at hstep
  obtain ⟨d, hd, hr⟩ := bind_eq_ok.mp hstep
  rw [Except.ok.injEq] at hr
  rw [← hr]
  cases d with
  | none => exact ⟨Or.inr hnext, fun _ hnone => absurd hnone.symm (Option.some_ne_none _)⟩
  | some d =>
    obtain ⟨symbols, fullData⟩ := d
    refine ⟨Or.inl rfl, fun fullData' heq => ⟨?_, hnext.priority⟩⟩
    rw [← Option.some.inj heq]
    exact hnext.completion_data hlib hfits hheader hclear hd

end Holds

/-! ## The ring -/

/-- An object that is published, and the contexts that there are for it then. -/
structure SuppliedSharding (lib : FecLib) where
  supply : FecParams → Bool
  sharding : Sharding (lib.within supply)

/-- A datagram that arrives, and the contexts that there are for it then. -/
structure SuppliedArrival (lib : FecLib) where
  supply : FecParams → Bool
  arrival : Arrival (lib.within supply)

/-- The key of its datagrams. -/
def SuppliedSharding.slotKey {lib : FecLib} (p : SuppliedSharding lib) : SlotKey :=
  p.sharding.slotKey

/-- The handler of datagrams, with the contexts that there are for this one. -/
def receive (lib : FecLib) (s : AssemblerCache) (a : SuppliedArrival lib) :
    Option (AssemblerCache × List Effect) :=
  arrive (lib.within a.supply) s a.arrival

section Ring

variable {lib : FecLib} {published : Set (SuppliedSharding lib)} {s s' : AssemblerCache}
  {p : SuppliedSharding lib} {i : ℕ} {h : FecPacketHeader}

/-- Slot `a` holds the published object that it belongs to, or is done with it. -/
def SlotHolds (published : Set (SuppliedSharding lib)) (a : FrameAssembler) : Prop :=
  ∀ p ∈ published, a.slotKey? = some p.slotKey →
    a.decoded = true ∨ ∃ arrived, Holds p.sharding arrived a

/-- Every slot does. -/
def RingHolds (published : Set (SuppliedSharding lib)) (s : AssemblerCache) : Prop :=
  ∀ i < ASSEMBLER_CACHE_SIZE, SlotHolds published (s.slot i)

theorem ringHolds_empty : RingHolds published AssemblerCache.empty := by
  intro i hi p _ hkey
  have hslot : AssemblerCache.empty.slot i = FrameAssembler.zero := by
    unfold AssemblerCache.slot AssemblerCache.empty
    rw [List.getD_eq_getElem _ _ (by rw [List.length_replicate]; exact hi), List.getElem_replicate]
  have hfree : FrameAssembler.zero.slotKey? = none := rfl
  rw [hslot, hfree] at hkey
  exact absurd hkey.symm (Option.some_ne_none _)

theorem RingHolds.set (hring : RingHolds published s) {a : FrameAssembler}
    (ha : SlotHolds published a) : RingHolds published (s.set i a) := by
  intro j hj
  by_cases hji : j = i
  · subst hji
    rw [AssemblerCache.slot_set_self hj]
    exact ha
  · rw [AssemblerCache.slot_set_of_ne hji]
    exact hring j hj

/-- A slot that belongs to no object but this one. -/
theorem slotHolds_of_key (hkeys : Set.InjOn SuppliedSharding.slotKey published)
    (hp : p ∈ published) {a : FrameAssembler} (hkey : ∀ k, a.slotKey? = some k → k = p.slotKey)
    (ha : a.decoded = true ∨ ∃ arrived, Holds p.sharding arrived a) : SlotHolds published a := by
  intro q hq hkeyq
  have heq : q = p := hkeys hq hp (hkey _ hkeyq)
  rw [heq]
  exact ha

/-- The slot that a datagram of the object goes to. -/
theorem RingHolds.locate (hring : RingHolds published s)
    (hkeys : Set.InjOn SuppliedSharding.slotKey published) (hp : p ∈ published) {t : ℕ}
    (hheader : p.sharding.HeaderOf t h) :
    RingHolds published (s.locate h).1 ∧
      (∀ k, ((s.locate h).1.slot (s.locate h).2).slotKey? = some k → k = p.slotKey) ∧
      (((s.locate h).1.slot (s.locate h).2).decoded = true ∨
        ∃ arrived, Holds p.sharding arrived ((s.locate h).1.slot (s.locate h).2)) := by
  have hslotKey : h.slotKey = p.slotKey := hheader.slotKey
  unfold AssemblerCache.locate
  cases hfind : s.find h with
  | some i =>
    obtain ⟨hi, hkey⟩ := AssemblerCache.find_eq_some hfind
    rw [hslotKey] at hkey
    refine ⟨hring, fun k hk => ?_, hring i hi p hp hkey⟩
    rw [hkey] at hk
    exact (Option.some.inj hk).symm
  | none =>
    have hassigned : ∀ k, ((s.slot s.index).assign h).slotKey? = some k → k = p.slotKey := by
      intro k hk
      unfold FrameAssembler.slotKey? at hk
      split at hk
      · rw [← hslotKey]
        exact (Option.some.inj hk).symm
      · exact absurd hk.symm (Option.some_ne_none k)
    have hholds := Holds.assign hheader (s.slot s.index)
    refine ⟨fun j hj => ?_, ?_, ?_⟩
    · by_cases hji : j = s.index
      · subst hji
        rw [AssemblerCache.slot_evict_self]
        exact slotHolds_of_key hkeys hp hassigned (Or.inr ⟨∅, hholds⟩)
      · rw [AssemblerCache.slot_evict_of_ne hji]
        exact hring j hj
    · dsimp only
      rw [AssemblerCache.slot_evict_self]
      exact hassigned
    · dsimp only
      rw [AssemblerCache.slot_evict_self]
      exact Or.inr ⟨∅, hholds⟩

/-- A datagram of a published object at the ring. -/
theorem RingHolds.step (hlib : Restores lib) (hring : RingHolds published s)
    (hkeys : Set.InjOn SuppliedSharding.slotKey published) (hp : p ∈ published)
    (hfits : p.sharding.Fits) {t : ℕ} (hheader : p.sharding.HeaderOf t h)
    (ht : t < p.sharding.shards.totalSymbols) {got : FecParams → Bool} {type : MoqTrackType}
    (hclear : ¬p.sharding.Garbled (lib.within got) type) {junk : ℕ → UInt8} {r : Received}
    (hstep : ringStep (lib.within got) junk type s h (p.sharding.shards.symbol t) = .ok (s', r)) :
    RingHolds published s' ∧ ∀ fullData, r.fullData = some fullData →
      fullData = p.sharding.object.data ∧ r.slot.priority = p.sharding.object.priority := by
  obtain ⟨hlocated, hkey, hslot⟩ := hring.locate hkeys hp hheader
  obtain ⟨r', hr, heq⟩ := bind_eq_ok.mp hstep
  rw [Except.ok.injEq, Prod.mk.injEq] at heq
  obtain ⟨rfl, rfl⟩ := heq
  have hkey' : ∀ k, r'.slot.slotKey? = some k → k = p.slotKey := by
    rw [(slotStep_spec hr).1]
    exact hkey
  cases hdecoded : ((s.locate h).1.slot (s.locate h).2).decoded with
  | true =>
    -- the slot is done with the object
    unfold slotStep at hr
    rw [if_pos (Or.inl hdecoded), Except.ok.injEq] at hr
    rw [← hr]
    refine ⟨hlocated.set (slotHolds_of_key hkeys hp hkey (Or.inl hdecoded)), fun _ hnone => ?_⟩
    exact absurd hnone.symm (Option.some_ne_none _)
  | false =>
    obtain ⟨arrived, hholds⟩ := hslot.resolve_left (by rw [hdecoded]; exact Bool.false_ne_true)
    obtain ⟨hnext, hdata⟩ := hholds.slotStep_sound hlib hdecoded hfits hheader ht hclear hr
    exact ⟨hlocated.set (slotHolds_of_key hkeys hp hkey' (hnext.imp_right fun h => ⟨_, h⟩)), hdata⟩

end Ring

/-! ## Whole runs -/

/-- The object that is handed on is the published one, with the ids that the header has room for. -/
structure Sharding.Delivers {pub : FecLib} (p : Sharding pub) (obj : MoqObject) : Prop where
  data : obj.data = p.object.data
  isKeyframe : obj.isKeyframe = p.object.isKeyframe
  priority : obj.priority = p.object.priority
  key : obj.key = p.object.key

/-- A datagram of the object is what the arrival brings. -/
def Sharding.Sends {pub lib : FecLib} (p : Sharding pub) (a : Arrival lib) : Prop :=
  ∃ ptr path, .datagram ptr path a.payload ∈ p.datagrams

/-- A datagram of the object that the publisher sends. -/
theorem Sharding.sends_of_brings {pub lib : FecLib} {p : Sharding pub} {a : Arrival lib} {s : ℕ}
    (hopen : ¬(p.conn.closing = true ∨ (p.transport.isServer = true ∧
      ¬isSubscribed p.conn.subscriptions p.object.trackId = true))) (hbrings : p.Brings a s) :
    p.Sends a := by
  refine ⟨p.conn.ptr, symbolPath p.transport p.io p.shards p.conn s, ?_⟩
  unfold Sharding.datagrams sendDatagrams
  rw [if_neg hopen, p.alias_eq, hbrings.2]
  exact List.mem_map_of_mem (List.mem_range.mpr hbrings.1)

/-- Whatever contexts the publisher holds, and whether it gets a new one or not, what it sends are
datagrams of an object with the contexts that there are for it then. -/
theorem SuppliedSharding.of_mem_publishDatagrams {lib : FecLib} {t : Transport}
    (hsound : t.fecCache.Sound lib) (code : FecParams) (granted : Bool) :
    ∃ supply, ((∃ e ∈ t.fecCache.entries, e.fec.isSome ∧ e.params = code) ∨
        supply code = granted) ∧
      ∀ io obj ptr path bytes,
        .datagram ptr path bytes ∈ (publishDatagrams (lib.within supply) io t obj).2 →
          ∃ p : SuppliedSharding lib, p.supply = supply ∧ p.sharding.object = obj ∧
            .datagram ptr path bytes ∈ p.sharding.datagrams := by
  obtain ⟨supply, hwithin, hgranted⟩ := hsound.exists_supply code granted
  refine ⟨supply, hgranted, fun io obj ptr path bytes h => ?_⟩
  obtain ⟨p, -, -, hobj, -, hmem⟩ := Sharding.of_mem_publishDatagrams hwithin h
  exact ⟨⟨supply, p⟩, rfl, hobj, hmem⟩

section Runs

variable {lib : FecLib} {published : Set (SuppliedSharding lib)}

/-- One arrival. -/
theorem RingHolds.receive (hlib : Restores lib)
    (hkeys : Set.InjOn SuppliedSharding.slotKey published) {s s' : AssemblerCache}
    (hring : RingHolds published s) {p : SuppliedSharding lib} (hp : p ∈ published)
    (hfits : p.sharding.Fits) {a : SuppliedArrival lib} (hsends : p.sharding.Sends a.arrival)
    (hclear : ∀ track h, a.arrival.symbol? = some (track, h) →
      ¬p.sharding.Garbled (lib.within a.supply) track.type) {o : List Effect}
    (hstep : Bishlink.receive lib s a = some (s', o)) :
    RingHolds published s' ∧ ∀ obj ∈ objectsOf o, p.sharding.Delivers obj := by
  obtain ⟨got, a⟩ := a
  obtain ⟨ptr, path, hmem⟩ := hsends
  obtain ⟨t, hbrings⟩ := Sharding.exists_brings hmem
  change arrive (lib.within got) s a = some (s', o) at hstep
  cases hsym : a.symbol? with
  | none =>
    -- the datagram is dropped before it reaches a slot
    obtain ⟨o', hquiet, hall⟩ := arrive_of_none hsym
    rw [hall s, Option.some.injEq, Prod.mk.injEq] at hstep
    obtain ⟨rfl, rfl⟩ := hstep
    refine ⟨hring, ?_⟩
    rw [objectsOf_eq, hquiet]
    simp
  | some x =>
    obtain ⟨track, h⟩ := x
    obtain ⟨hheader, hbytes⟩ := hfits.brings hbrings hsym
    rw [arrive_of_some hsym, hbytes] at hstep
    cases hringStep : ringStep (lib.within got) a.io.junk track.type s h
        (p.sharding.shards.symbol t) with
    | error e =>
      rw [hringStep] at hstep
      exact absurd hstep (by simp)
    | ok y =>
      obtain ⟨s₁, r⟩ := y
      simp only [hringStep, Option.some.injEq, Prod.mk.injEq] at hstep
      obtain ⟨rfl, rfl⟩ := hstep
      obtain ⟨hnext, hdata⟩ := hring.step hlib hkeys hp hfits hheader hbrings.1
        (hclear track h hsym) hringStep
      refine ⟨hnext, ?_⟩
      rw [Arrival.objectsOf_effects]
      intro obj hobj
      obtain ⟨fullData, hfull, rfl⟩ := List.mem_map.mp hobj
      obtain ⟨hbytes, hpriority⟩ := hdata fullData (Option.mem_toList.mp hfull)
      have hkey : (⟨h.groupId, h.objectId⟩ : ObjectKey) = p.sharding.object.key :=
        congrArg SlotKey.object hheader.slotKey
      refine ⟨hbytes, hheader.isKeyframe, hpriority, ?_⟩
      rw [← hkey]
      simp [MoqObject.key]

/-- Every OBJECT event carries the published object with the key of the datagram that raised it:
over any datagrams of published objects with distinct keys, whatever contexts there are at each
publish and at each arrival, as long as no parity is garbled. -/
theorem reassembly_sound (hlib : Restores lib) (hfits : ∀ p ∈ published, p.sharding.Fits)
    (hkeys : Set.InjOn SuppliedSharding.slotKey published) (as : List (SuppliedArrival lib))
    (hdrawn : ∀ a ∈ as, ∃ p ∈ published, p.sharding.Sends a.arrival)
    (hclear : ∀ a ∈ as, ∀ p ∈ published, p.sharding.Sends a.arrival →
      ∀ track h, a.arrival.symbol? = some (track, h) →
        ¬p.sharding.Garbled (lib.within a.supply) track.type) :
    Along (receive lib) (fun s a => ∀ p ∈ published, p.sharding.Sends a.arrival → ∀ s' o,
      receive lib s a = some (s', o) → ∀ obj ∈ objectsOf o, p.sharding.Delivers obj)
      AssemblerCache.empty as := by
  have hstep : ∀ a ∈ as, ∀ s : AssemblerCache, RingHolds published s → ∀ p ∈ published,
      p.sharding.Sends a.arrival → ∀ s' o, receive lib s a = some (s', o) →
        RingHolds published s' ∧ ∀ obj ∈ objectsOf o, p.sharding.Delivers obj :=
    fun a ha s hring p hp hsends s' o h =>
      hring.receive hlib hkeys hp (hfits p hp) hsends (hclear a ha p hp hsends) h
  have hempty : RingHolds published AssemblerCache.empty := ringHolds_empty
  clear hclear
  generalize AssemblerCache.empty = s at hempty
  induction as generalizing s with
  | nil => trivial
  | cons a as ih =>
    refine ⟨fun p hp hsends s' o h =>
      (hstep a List.mem_cons_self s hempty p hp hsends s' o h).2, ?_⟩
    intro s₁ o₁ h₁
    obtain ⟨p, hp, hsends⟩ := hdrawn a List.mem_cons_self
    exact ih (fun b hb => hdrawn b (List.mem_cons_of_mem a hb))
      (fun b hb => hstep b (List.mem_cons_of_mem a hb)) s₁
      (hstep a List.mem_cons_self s hempty p hp hsends s₁ o₁ h₁).1

end Runs

/-! ## A code that restores -/

/-- The interpolating code, with all its contexts. -/
noncomputable def clipLib : FecLib := FecLib.interpolating.within fun _ => true

theorem recovers_clipLib : Recovers clipLib := recovers_interpolating.within fun _ => rfl

theorem brings_clip (lib : FecLib) (type : MoqTrackType) {total s : ℕ} (htotal : 2 < total)
    (hs : s < total) : (clip lib total).Brings (clipArrival lib type total s) s := by
  refine ⟨?_, rfl⟩
  rw [(shards_clip lib htotal).2.2.1]
  exact hs

theorem sends_clip (lib : FecLib) (type : MoqTrackType) {total s : ℕ} (htotal : 2 < total)
    (hs : s < total) : (clip lib total).Sends (clipArrival lib type total s) := by
  refine Sharding.sends_of_brings ?_ (brings_clip lib type htotal hs)
  show ¬(false = true ∨ (false = true ∧ _))
  simp

/-- The object of two data symbols and `total` in all. -/
noncomputable def suppliedClip (total : ℕ) : SuppliedSharding FecLib.interpolating :=
  ⟨fun _ => true, clip clipLib total⟩

/-- Its datagram `s` arrives. -/
noncomputable def suppliedArrival (type : MoqTrackType) (total s : ℕ) :
    SuppliedArrival FecLib.interpolating :=
  ⟨fun _ => true, clipArrival clipLib type total s⟩

theorem run_suppliedArrival (type : MoqTrackType) (total : ℕ) (ring : AssemblerCache)
    (is : List ℕ) :
    run (receive FecLib.interpolating) ring (is.map (suppliedArrival type total)) =
      run (arrive clipLib) ring (is.map (clipArrival clipLib type total)) := by
  rw [run_map, run_map]
  rfl

/-- With two parity symbols it is encoded. -/
theorem encoded_clip : (clip clipLib 4).Encoded .FEC_REED_SOLOMON := by
  obtain ⟨hdata, hparity, -, hsize⟩ := shards_clip clipLib (by decide : 2 < 4)
  refine ⟨?_, ?_, fun h => by simp at h⟩
  · rw [hdata, hparity]
    rfl
  · unfold ShardedObject.code
    rw [hdata, hparity, hsize]
    rfl

/-- The second of two datagrams raises the event for the object. -/
theorem raised_clip {lib : FecLib} (hlib : Recovers lib) {total : ℕ} (htotal : 3 < total)
    (hle : total ≤ 255) :
    (clip lib total).RaisedAt AssemblerCache.empty [clipArrival lib MOQ_TRACK_VIDEO total 0]
      (clipArrival lib MOQ_TRACK_VIDEO total 3) := by
  obtain ⟨hdata, -, hsymbols, -⟩ := shards_clip lib (by omega : 2 < total)
  have harrived := arrivedIn_clipArrivals lib htotal (by omega)
  have hdelivered : (clip lib total).DeliveredIn AssemblerCache.empty (clipArrivals lib total) := by
    rw [← readIn_clipArrivals] at harrived
    rw [(progress_clip hlib htotal (by omega)).enough (by rw [harrived, hdata]; decide)]
    exact ⟨accepted_clip lib (by omega), Or.inl (Or.inl (by omega))⟩
  have hfront : [clipArrival lib MOQ_TRACK_VIDEO total 0] <+: clipArrivals lib total :=
    ⟨[clipArrival lib MOQ_TRACK_VIDEO total 3], rfl⟩
  have hfirst := Sharding.progress hlib (fits_clip lib (by omega) (by omega))
    (accepted_clip lib (by omega)) (new_clip lib)
    (fun a ha => drawn_clipArrivals lib htotal a (hfront.subset ha))
    (fun a ha => typed_clipArrivals lib total a (hfront.subset ha))
    (along_front hfront (undisturbed_clipArrivals lib htotal (by omega)))
  have hone : ((clip lib total).arrivedIn [clipArrival lib MOQ_TRACK_VIDEO total 0]).card = 1 := by
    unfold Sharding.arrivedIn
    rw [List.filterMap_cons_some (indexOf_clipArrival lib _ htotal (by omega) (by omega)),
      List.filterMap_nil]
    rfl
  have hread := Finset.card_le_card (Sharding.readIn_subset (clip lib total)
    [clipArrival lib MOQ_TRACK_VIDEO total 0])
  exact (Sharding.deliveredIn_concat.mp hdelivered).resolve_left (hfirst.few (by omega)).1

/-- The first data symbol and the second parity symbol arrive: the decoder restores the other data
symbol, and what is handed on is the object. -/
theorem reassembly_sound_clip :
    ∃ s o, run (receive FecLib.interpolating) AssemblerCache.empty
        [suppliedArrival MOQ_TRACK_VIDEO 4 0, suppliedArrival MOQ_TRACK_VIDEO 4 3] = some (s, o) ∧
      ∃ obj ∈ objectsOf o, (clip clipLib 4).Delivers obj := by
  have htotal := (shards_clip clipLib (by decide : 2 < 4)).2.2.1
  have hsends : ∀ s < 4, (clip clipLib 4).Sends (suppliedArrival MOQ_TRACK_VIDEO 4 s).arrival :=
    fun s hs => sends_clip clipLib MOQ_TRACK_VIDEO (by decide) hs
  have hsound := @reassembly_sound _ {suppliedClip 4} restores_interpolating ?_
    (Set.injOn_singleton _ _)
    ([suppliedArrival MOQ_TRACK_VIDEO 4 0] ++ [suppliedArrival MOQ_TRACK_VIDEO 4 3]) ?_ ?_
  · obtain ⟨t, s₁, o₁, s₂, o₂, -, hrun, hstep, obj, hobj, -⟩ :=
      raised_clip recovers_clipLib (by decide : 3 < 4) (by decide)
    have hsame := run_suppliedArrival MOQ_TRACK_VIDEO 4 AssemblerCache.empty [0]
    rw [List.map_singleton, List.map_singleton] at hsame
    rw [← hsame] at hrun
    have hboth : run (receive FecLib.interpolating) AssemblerCache.empty
        ([suppliedArrival MOQ_TRACK_VIDEO 4 0] ++ [suppliedArrival MOQ_TRACK_VIDEO 4 3]) =
          some (s₂, o₁ ++ o₂) := run_concat.mpr ⟨s₁, o₁, o₂, hrun, hstep, rfl⟩
    refine ⟨s₂, o₁ ++ o₂, hboth, obj, ?_, ?_⟩
    · rw [objectsOf_append]
      exact List.mem_append_right _ hobj
    · exact (along_concat.mp hsound).2 s₁ o₁ hrun _ rfl (hsends 3 (by decide)) s₂ o₂ hstep obj hobj
  · rintro p rfl
    exact fits_clip clipLib (by decide : 2 < 4) (by decide)
  · intro a ha
    rcases List.mem_pair.mp ha with rfl | rfl
    · exact ⟨_, rfl, hsends 0 (by decide)⟩
    · exact ⟨_, rfl, hsends 3 (by decide)⟩
  · rintro a - p rfl - track h - hgarbled
    have hcode : receiverFecType track.type (clip clipLib 4).shards.totalSymbols =
        .FEC_REED_SOLOMON := by
      rw [htotal]
      exact if_neg fun hand => absurd hand.2 (by decide)
    refine hgarbled.unencoded ?_
    show (clip clipLib 4).Encoded (receiverFecType track.type (clip clipLib 4).shards.totalSymbols)
    rw [hcode]
    exact encoded_clip

/-! ## Parity that was never encoded -/

/-- Blocks from memory that is zero. -/
theorem eq_zero_of_mem_parityBlocks {io : PublishIO} (hjunk : ∀ k i, io.arenaJunk k i = 0)
    {size n : ℕ} {a : Arena} {b : Bytes} (hb : b ∈ parityBlocks io size n a) :
    b = List.replicate size 0 := by
  induction n generalizing a with
  | zero => exact absurd hb List.not_mem_nil
  | succ n ih =>
    rcases List.mem_cons.mp hb with rfl | hb
    · unfold arenaAlloc
      dsimp only
      split
      · have hzero : io.arenaJunk a.fallbackCount = fun _ => 0 := funext (hjunk _)
        simp [hzero]
      · rfl
    · exact ih hb

/-- No Reed-Solomon context exists for 256 symbols, so the parity stays zero. -/
theorem symbol_clip : (clip clipLib 256).shards.symbol 3 = List.replicate 1200 0 := by
  obtain ⟨hdata, hparity, htotal, hsize⟩ := shards_clip clipLib (by decide : 2 < 256)
  have hblocks := (shardObject_blocks (clip clipLib 256).sound (clip clipLib 256).io
    (clip clipLib 256).object (o := (clip clipLib 256).shards) rfl).1.1
  have hsymbol := (clip clipLib 256).symbol_eq (by omega : 3 < _)
  rw [List.getElem?_append_right (by omega)] at hsymbol
  obtain ⟨a, hblank⟩ := (clip clipLib 256).parityBlocks_blank (by
    show clipLib.creates ((clip clipLib 256).shards.code MOQ_TRACK_VIDEO) = false
    unfold ShardedObject.code
    rw [hdata, hparity, hsize]
    rfl)
  rw [hblank, hsize] at hsymbol
  exact eq_zero_of_mem_parityBlocks (fun _ _ => rfl) (List.mem_of_getElem? hsymbol)

/-- The first data symbol is the first part of the object. -/
theorem Sharding.Fits.symbol_zero {lib : FecLib} {p : Sharding lib} (hfits : p.Fits)
    {front rest : Bytes} (hdata : p.object.data = front ++ rest)
    (hlength : front.length = p.shards.symbolSize) : p.shards.symbol 0 = front := by
  have hpos := p.dataSymbols_pos
  have hle := p.dataSymbols_le
  have hsymbol := p.length_symbol (s := 0) (by omega)
  have hchunk : chunkLength p.object.data.length p.shards.symbolSize 0 = p.shards.symbolSize := by
    rw [chunkLength, hdata, List.length_append]
    omega
  have hfront := hfits.take_symbol hpos
  rw [hchunk, hdata, Nat.zero_mul, slice, List.drop_zero, List.take_left' hlength,
    List.take_of_length_le (by omega)] at hfront
  exact hfront

/-- A list without repetition with a single member. -/
theorem eq_singleton {l : List ℕ} {x : ℕ} (hnodup : l.Nodup) (h : ∀ i, i ∈ l ↔ i = x) :
    l = [x] := by
  rw [← List.perm_singleton, List.perm_ext_iff_of_nodup hnodup (List.nodup_singleton x)]
  intro i
  rw [h, List.mem_singleton]

/-- The second data symbol is missing, and the second parity symbol replaces it. -/
theorem esis_clip {a : FrameAssembler} (hholds : Holds (clip clipLib 256) {3, 0} a) :
    droppedEsi 2 (missingMask a.store 256) = [1] ∧
      repairEsi 2 254 (missingMask a.store 256) = [3] := by
  have hmark := fun {i : ℕ} (hi : i < 256) =>
    getD_missingMask_arrived hholds.received (le_refl 256) hi
  constructor
  · refine eq_singleton (nodup_droppedEsi _ _) fun i => ?_
    rw [mem_droppedEsi]
    constructor
    · rintro ⟨hi, hmissing⟩
      rw [hmark (by omega)] at hmissing
      simp only [Finset.mem_insert, Finset.mem_singleton, not_or] at hmissing
      omega
    · rintro rfl
      exact ⟨by decide, (hmark (by decide)).mpr (by decide)⟩
  · refine eq_singleton (nodup_repairEsi _ _ _) fun i => ?_
    rw [mem_repairEsi, ← Bool.not_eq_true]
    constructor
    · rintro ⟨hge, hlt, hmissing⟩
      rw [hmark hlt, not_not] at hmissing
      simp only [Finset.mem_insert, Finset.mem_singleton] at hmissing
      omega
    · rintro rfl
      refine ⟨by decide, by decide, ?_⟩
      rw [hmark (by decide), not_not]
      decide

/-- RaptorQ computes zeros for the second data symbol from the zeros of the first one and of the
second parity symbol. -/
theorem recovered_clip {a : FrameAssembler} (hholds : Holds (clip clipLib 256) {3, 0} a) :
    ∃ symbols, recovered clipLib MOQ_TRACK_DATA a.store 256 2 1200 = .ok (some symbols) ∧
      symbols 1 = some (List.replicate 1200 0) := by
  obtain ⟨hdata, hparity, htotal, hsize⟩ := shards_clip clipLib (by decide : 2 < 256)
  have hcap := hholds.capacity
  have hroom := hholds.symbolSize_le
  have hthree := hholds.bytes 3 (by decide)
  have hzero := hholds.bytes 0 (by decide)
  rw [htotal] at hcap
  rw [hsize] at hroom hthree hzero
  rw [symbol_clip] at hthree
  have hdata' : clipObject.data = List.replicate 1200 0 ++ [1] := rfl
  rw [(fits_clip clipLib (by decide) (by decide)).symbol_zero hdata'
    (List.length_replicate.trans hsize.symm)] at hzero
  obtain ⟨hdropped, hrepair⟩ := esis_clip hholds
  have hblocks : checkBlocks 1200 a.store.buffers (List.range 2 ++ [3]) = .ok () := by
    refine (checkBlocks_buffers 1200 (fun i hi => ?_) (by simp)).mpr hroom
    simp only [List.mem_append, List.mem_range, List.mem_singleton] at hi
    omega
  have hlt : ∀ i < 2, replacedBy [(1, 3)] i < 256 := by decide
  have hinj : ∀ i < 2, ∀ j < 2, replacedBy [(1, 3)] i = replacedBy [(1, 3)] j → i = j := by decide
  have hmix : FecLib.interpolating.nanorq 2 1200 [(1, 3)]
      (raptorqRows 2 1200 a.store.buffers [(1, 3)]) = _ := nanorq_interpolating hinj hlt
  unfold recovered
  rw [if_pos ⟨by decide, rfl⟩, (checkIndices_eq_ok (u := ())).mpr (le_refl 256),
    (checkIndices_eq_ok (u := ())).mpr hcap]
  show ∃ symbols, fecDecode FecLib.interpolating ⟨0, ⟨.FEC_RAPTORQ, 2, 254, 1200⟩⟩ a.store.buffers
    (missingMask a.store 256) = .ok (some symbols) ∧ _
  unfold fecDecode
  dsimp only
  rw [(checkIndices_eq_ok (u := ())).mpr (by rw [length_missingMask]), ok_bind, hdropped, hrepair,
    if_neg (by decide), if_neg (by decide)]
  rw [List.zip_cons_cons, List.zip_nil_right, List.map_cons, List.map_nil, hblocks, ok_bind, hmix]
  refine ⟨_, rfl, ?_⟩
  rw [if_pos (by decide), Option.some.injEq]
  refine codeSymbol_const (injOn_rowPoint hlt hinj) (by decide) List.length_replicate ?_ 1
  -- both rows are zero
  intro i hi
  have hi : i = 0 ∨ i = 1 := by omega
  rcases hi with rfl | rfl
  · exact hzero
  · exact hthree

/-- Zeros for the second data symbol are not the object that ends in another byte. -/
theorem copied_zeros {symbols : ℕ → Option Bytes} {a : FrameAssembler} {size : ℕ}
    (hpos : 0 < size) (hcap : 1 < a.store.capacitySymbols)
    (hroom : size ≤ a.store.capacitySymbolSize)
    (hzero : symbols 1 = some (List.replicate size 0)) (junk : ℕ → UInt8) :
    copiedObject (a.store.overwrite symbols).buffers size 2 (size + 1) junk ≠
      List.replicate size 0 ++ [1] := by
  intro heq
  have hlast := congrArg (·[size]?) heq
  have hbuffer := SymbolStore.buffer_overwrite hcap symbols
  rw [hzero] at hbuffer
  dsimp only at hbuffer hlast
  have hwritten := take_writeAt_zero (a.store.buffer 1)
    ((List.replicate size (0 : UInt8)).take a.store.capacitySymbolSize)
  rw [← hbuffer, List.take_replicate, Nat.min_eq_right hroom, List.length_replicate] at hwritten
  have hfirst := congrArg (·[0]?) hwritten
  rw [List.getElem?_take_of_lt hpos, List.getElem?_replicate_of_lt hpos] at hfirst
  unfold copiedObject at hlast
  rw [List.getElem?_map, List.getElem?_range (Nat.lt_succ_self size), Option.map_some,
    if_pos (by omega), Nat.div_self hpos, Nat.mod_self, ← SymbolStore.buffer,
    List.getD_eq_getElem?_getD, hfirst, List.getElem?_append_right (by simp)] at hlast
  simp at hlast

/-- Where alias 8 stands for a DATA track, the datagram reaches the slots. -/
theorem symbol?_clip (lib : FecLib) {total s : ℕ} (htotal : 2 < total) (hle : total ≤ 16384)
    (hs : s < total) :
    (clipArrival lib MOQ_TRACK_DATA total s).symbol? =
      some (⟨MOQ_TRACK_DATA, clipObject.trackId.flags, clipObject.trackId.name⟩,
        FecPacketHeader.decode (clipArrival lib MOQ_TRACK_DATA total s).payload) := by
  refine (fits_clip lib htotal hle).symbol?_of_find ?_ (fun h => Bool.false_ne_true h.1) ?_
    (brings_clip lib MOQ_TRACK_DATA htotal hs)
  · refine ⟨by show (8 : UInt8) ≠ MOQ_TRACK_TELEMETRY; decide, ?_⟩
    rw [(shards_clip lib htotal).2.2.2]
    decide
  · show findSubscriptionByAlias (addSubscription Subscriptions.empty MOQ_TRACK_DATA
      clipObject.trackId.flags clipObject.trackId.name 8) 8 MoqTrackId.zero = some _
    decide

section Misread

/-- The object of 256 symbols, and its datagrams where alias 8 stands for a DATA track. -/
noncomputable def blankClip : Sharding clipLib := clip clipLib 256

noncomputable def blankArrival (s : ℕ) : Arrival clipLib :=
  clipArrival clipLib MOQ_TRACK_DATA 256 s

theorem brings_blank {s : ℕ} (hs : s < 256) : blankClip.Brings (blankArrival s) s :=
  brings_clip clipLib MOQ_TRACK_DATA (by decide) hs

/-- A datagram of the object is a step of the ring. -/
theorem arrive_blank {s : ℕ} (hs : s < 256) (ring : AssemblerCache) :
    ∃ h, blankClip.HeaderOf s h ∧ ∀ ring' r,
      ringStep clipLib (fun _ => 0) MOQ_TRACK_DATA ring h (blankClip.shards.symbol s) =
          .ok (ring', r) →
        ∃ o, arrive clipLib ring (blankArrival s) = some (ring', o) ∧
          ∀ fullData, r.fullData = some fullData →
            ∃ obj ∈ objectsOf o, obj.key = blankClip.object.key ∧ obj.data = fullData := by
  have hfits : blankClip.Fits := fits_clip clipLib (by decide) (by decide)
  have hsym := symbol?_clip clipLib (by decide : 2 < 256) (by decide) hs
  obtain ⟨hheader, hbytes⟩ := hfits.brings (brings_blank hs) hsym
  refine ⟨_, hheader, fun ring' r hring => ?_⟩
  rw [← hbytes] at hring
  refine ⟨_, arrive_of_ringStep hsym hring, fun fullData hfull => ?_⟩
  rw [Arrival.objectsOf_effects, hfull]
  refine ⟨_, List.mem_map_of_mem (Option.mem_toList.mpr rfl), ?_, rfl⟩
  have hkey : (⟨_, _⟩ : ObjectKey) = blankClip.object.key :=
    congrArg SlotKey.object hheader.slotKey
  rw [← hkey]
  simp [MoqObject.key]

/-- The first datagram is kept. -/
theorem blank_first : ∃ s₁ o₁, arrive clipLib AssemblerCache.empty (blankArrival 0) =
    some (s₁, o₁) ∧ Collected blankClip {0} s₁ := by
  obtain ⟨hdata, -, htotal, -⟩ := shards_clip clipLib (by decide : 2 < 256)
  have hempty : Collected blankClip ∅ AssemblerCache.empty := .absent (new_clip _)
  have hs : 0 < blankClip.shards.totalSymbols := htotal.symm ▸ (by decide)
  obtain ⟨h, hheader, harrive⟩ := arrive_blank (by decide : 0 < 256) AssemblerCache.empty
  obtain ⟨s₁, r, hring, hnone⟩ := hempty.step_few hheader hs
    (by show _ < (clip clipLib 256).shards.dataSymbols; rw [hdata]; decide)
    (fun _ => 0) MOQ_TRACK_DATA
  obtain ⟨o₁, harrive, -⟩ := harrive s₁ r hring
  exact ⟨s₁, o₁, harrive, hempty.step_none hheader hs hring hnone⟩

/-- The second one completes another object. -/
theorem blank_second {s₁ : AssemblerCache} (hcollected : Collected blankClip {0} s₁) :
    ∃ s₂ o₂, arrive clipLib s₁ (blankArrival 3) = some (s₂, o₂) ∧
      ∃ obj ∈ objectsOf o₂, obj.key = blankClip.object.key ∧
        obj.data ≠ blankClip.object.data := by
  obtain ⟨hdata, -, htotal, hsize⟩ := shards_clip clipLib (by decide : 2 < 256)
  have hs : 3 < blankClip.shards.totalSymbols := htotal.symm ▸ (by decide)
  obtain ⟨h, hheader, harrive⟩ := arrive_blank (by decide : 3 < 256) s₁
  obtain ⟨hcollects, hholds⟩ := hcollected.locate hheader
  have hnext := (hholds.withSymbol hs (blankClip.length_symbol hs).ge).afterRequest MOQ_TRACK_DATA
  obtain ⟨symbols, hrecovered, hzero⟩ := recovered_clip hnext
  have hlacks : ∃ j < blankClip.shards.dataSymbols, j ∉ ({3, 0} : Finset ℕ) :=
    ⟨1, hdata.symm ▸ (by decide), by decide⟩
  rw [← htotal, ← hdata, ← hsize] at hrecovered
  obtain ⟨⟨symbols', out⟩, hcompletion⟩ := (hnext.completion_decoded hheader
    (hdata.symm ▸ (by decide)) hlacks (fun _ => 0) MOQ_TRACK_DATA).mpr ⟨symbols, hrecovered⟩
  obtain ⟨hobtained, hout⟩ := completion_some hcompletion
  have hslot : slotStep clipLib _ _ _ h _ = _ := hholds.slotStep_eq hcollects.decoded_eq hheader hs
    (fun _ => 0) MOQ_TRACK_DATA (blankClip.shards.symbol 3)
  rw [hcompletion] at hslot
  obtain ⟨o₂, harrive, hobject⟩ := harrive _ _ (ringStep_ok hslot)
  obtain ⟨obj, hobj, hkey, hobjData⟩ := hobject out rfl
  refine ⟨_, o₂, harrive, obj, hobj, hkey, ?_⟩
  rw [hobjData, hout]
  rw [hnext.obtained_eq hheader hlacks] at hobtained
  have heq : symbols = symbols' := Option.some.inj (Except.ok.inj (hrecovered.symm.trans hobtained))
  have htotal : blankClip.shards.totalSymbols = 256 := htotal
  have hsize : blankClip.shards.symbolSize = 1200 := hsize
  have hdata : blankClip.shards.dataSymbols = 2 := hdata
  have hobject : blankClip.object.data = List.replicate blankClip.shards.symbolSize 0 ++ [1] := by
    rw [hsize]
    rfl
  have hlength : blankClip.object.data.length = blankClip.shards.symbolSize + 1 := by
    rw [hobject, List.length_append, List.length_replicate, List.length_singleton]
  have hcap := hnext.capacity
  rw [← hsize] at hzero
  rw [← heq, hheader.symbolSize, hheader.dataSymbols, hheader.originalSize, hdata, hlength, hobject]
  exact copied_zeros (by omega) (by omega) hnext.symbolSize_le hzero _

end Misread

/-- A VIDEO object of 256 symbols at a receiver whose table has a DATA track under its alias: the
object that is handed on is not the one that was published. -/
theorem clip_misread :
    ∃ (lib : FecLib) (p : SuppliedSharding lib) (as : List (SuppliedArrival lib)), Restores lib ∧
      Recovers lib ∧ p.sharding.Fits ∧ (∀ a ∈ as, p.sharding.Sends a.arrival) ∧
      ∃ s o, run (receive lib) AssemblerCache.empty as = some (s, o) ∧
        ∃ obj ∈ objectsOf o, obj.key = p.sharding.object.key ∧
          obj.data ≠ p.sharding.object.data := by
  obtain ⟨s₁, o₁, hfirst, hcollected⟩ := blank_first
  obtain ⟨s₂, o₂, hsecond, obj, hobj, hkey, hdata⟩ := blank_second hcollected
  refine ⟨FecLib.interpolating, suppliedClip 256, [suppliedArrival MOQ_TRACK_DATA 256 0,
    suppliedArrival MOQ_TRACK_DATA 256 3], restores_interpolating, recovers_interpolating,
    fits_clip clipLib (by decide) (by decide), ?_, _, _,
    run_cons.mpr ⟨s₁, o₁, _, hfirst, run_cons.mpr ⟨s₂, o₂, [], hsecond, rfl, rfl⟩, rfl⟩,
    obj, ?_, hkey, hdata⟩
  · intro a ha
    rcases List.mem_pair.mp ha with rfl | rfl
    · exact sends_clip clipLib _ (by decide) (by decide)
    · exact sends_clip clipLib _ (by decide) (by decide)
  · rw [List.append_nil, objectsOf_append]
    exact List.mem_append_right _ hobj

end Bishlink
