import Bishlink.AtMostOnce
import Bishlink.Lengths
import Bishlink.Symbols

/-!
# Objects in datagrams

A `Sharding` is an object as `transport_publish` cuts it into datagrams for one connection. The
headers of its datagrams say the same of it (`HeaderOf`) and its data symbols, put together, are
its bytes (`copiedObject_symbols`).
-/

namespace Bishlink

open ByteCodec

/-- An object that is published: what the call reads, the connection its datagrams go to, and the
alias they carry there. -/
structure Sharding (lib : FecLib) where
  io : PublishIO
  transport : Transport
  conn : Conn
  object : MoqObject
  trackAlias : UInt8
  sound : transport.fecCache.Sound lib
  alias_eq : findAliasByTrack conn.subscriptions object.trackId = some trackAlias

namespace Sharding

variable {lib : FecLib}

def shards (p : Sharding lib) : ShardedObject := (shardObject lib p.io p.transport p.object).1

/-- The datagrams of the object for the connection. -/
def datagrams (p : Sharding lib) : List Effect :=
  sendDatagrams p.transport p.io p.object p.shards p.conn

def slotKey (p : Sharding lib) : SlotKey := ⟨p.trackAlias, p.object.key⟩

/-- The object has no more symbols than the receiver takes, and its symbol size fits the 16 bits
of `initial_egress_max_udp_payload_size`. -/
structure Fits (p : Sharding lib) : Prop where
  total_le : p.shards.totalSymbols ≤ 16384
  size_le : p.transport.symbolSize ≤ 65535

/-! ## The datagrams -/

/-- A header of datagram `s` of the object. -/
structure HeaderOf (p : Sharding lib) (s : ℕ) (h : FecPacketHeader) : Prop where
  slotKey : h.slotKey = p.slotKey
  symbolIndex : h.symbolIndex.toNat = s
  totalSymbols : h.totalSymbols.toNat = p.shards.totalSymbols
  dataSymbols : h.dataSymbols.toNat = p.shards.dataSymbols
  symbolSize : h.symbolSize.toNat = p.shards.symbolSize
  originalSize : h.originalSize.toNat = p.object.data.length
  isKeyframe : decide (h.isKeyframe ≠ 0) = p.object.isKeyframe
  priority : h.priority = p.object.priority

theorem mem_datagrams {p : Sharding lib} {ptr path : ℕ} {bytes : Bytes}
    (h : .datagram ptr path bytes ∈ p.datagrams) :
    ∃ s < p.shards.totalSymbols,
      bytes = symbolDatagram p.transport p.io p.object p.shards p.conn p.trackAlias s := by
  unfold datagrams sendDatagrams at h
  rw [p.alias_eq] at h
  split at h
  · exact absurd h List.not_mem_nil
  · obtain ⟨s, hs, heq⟩ := List.mem_map.mp h
    rw [Effect.datagram.injEq] at heq
    exact ⟨s, List.mem_range.mp hs, heq.2.2.symm⟩

/-- Each datagram that is published is one of a `Sharding`. -/
theorem of_mem_publishDatagrams {io : PublishIO} {t : Transport} (hsound : t.fecCache.Sound lib)
    {obj : MoqObject} {ptr path : ℕ} {bytes : Bytes}
    (h : .datagram ptr path bytes ∈ (publishDatagrams lib io t obj).2) :
    ∃ p : Sharding lib, p.io = io ∧ p.transport = t ∧ p.object = obj ∧ p.conn ∈ t.conns ∧
      .datagram ptr path bytes ∈ p.datagrams := by
  obtain ⟨c, hc, hmem⟩ := List.mem_flatMap.mp h
  cases halias : findAliasByTrack c.subscriptions obj.trackId with
  | some trackAlias => exact ⟨⟨io, t, c, obj, trackAlias, hsound, halias⟩, rfl, rfl, rfl, hc, hmem⟩
  | none =>
    unfold sendDatagrams at hmem
    rw [halias] at hmem
    split at hmem <;> exact absurd hmem List.not_mem_nil

theorem dataSymbols_eq (p : Sharding lib) : p.shards.dataSymbols =
    dataSymbolCount p.object.data.length p.transport.symbolSize := by
  unfold shards shardObject
  dsimp only
  split <;> rfl

theorem paritySymbols_eq (p : Sharding lib) : p.shards.paritySymbols =
    (allocateSymbols p.transport p.io (getTrackProfile p.object.trackId).fecEnabled
      p.shards.dataSymbols).2 := by
  rw [p.dataSymbols_eq]
  unfold shards shardObject
  dsimp only
  split <;> rfl

theorem symbolSize_eq (p : Sharding lib) : p.shards.symbolSize = p.transport.symbolSize := by
  unfold shards shardObject
  dsimp only
  split <;> rfl

theorem dataSymbols_pos (p : Sharding lib) : 0 < p.shards.dataSymbols := by
  rw [p.dataSymbols_eq]
  exact dataSymbolCount_pos _ _

/-- The data symbols hold the object. -/
theorem length_le (p : Sharding lib) :
    p.object.data.length ≤ p.shards.dataSymbols * p.transport.symbolSize := by
  have hsize := p.transport.symbolSize_ge
  have hceil := Nat.lt_div_mul_add (a := p.object.data.length + p.transport.symbolSize - 1)
    (b := p.transport.symbolSize) (by omega)
  rw [p.dataSymbols_eq]
  unfold dataSymbolCount
  dsimp only
  split
  · next hzero =>
    rw [hzero] at hceil
    omega
  · omega

theorem dataSymbols_le (p : Sharding lib) : p.shards.dataSymbols ≤ p.shards.totalSymbols :=
  Nat.le_add_right _ _

variable {p : Sharding lib}

theorem Fits.dataBlocks_eq (h : p.Fits) :
    p.shards.dataBlocks = (List.range p.shards.dataSymbols).map
      (cachedBlock p.object.data p.shards.symbolSize) := by
  rw [p.symbolSize_eq]
  exact (shardObject_data lib p.io p.transport p.object (h.total_le.trans (by decide)) h.size_le).2

/-- The fields of a header are not cut. -/
theorem Fits.headerOf (h : p.Fits) {s : ℕ} (hs : s < p.shards.totalSymbols) (pathId : ℕ)
    (sendTimeNs : UInt64) :
    p.HeaderOf s (datagramHeader p.object p.shards p.trackAlias s pathId sendTimeNs) := by
  have htotal := h.total_le
  have hsize := h.size_le
  have hdata := p.dataSymbols_le
  have hlength : p.object.data.length ≤ 16384 * 65535 :=
    p.length_le.trans (Nat.mul_le_mul (hdata.trans htotal) hsize)
  refine ⟨rfl, toNat_ofNat_uint16.mpr (by omega), toNat_ofNat_uint16.mpr (by omega),
    toNat_ofNat_uint16.mpr (by omega), toNat_ofNat_uint16.mpr ?_, ?_, ?_, rfl⟩
  · rw [p.symbolSize_eq]
    exact hsize
  · show (UInt32.ofNat p.object.data.length).toNat = p.object.data.length
    rw [UInt32.toNat_ofNat']
    omega
  · show decide ((if p.object.isKeyframe = true then (1 : UInt8) else 0) ≠ 0) = p.object.isKeyframe
    cases p.object.isKeyframe <;> rfl

/-- The arrival is datagram `s` of the object. -/
def Brings {rcv : FecLib} (p : Sharding lib) (a : Arrival rcv) (s : ℕ) : Prop :=
  s < p.shards.totalSymbols ∧
    a.payload = symbolDatagram p.transport p.io p.object p.shards p.conn p.trackAlias s

/-- Each datagram brings a symbol. -/
theorem exists_brings {rcv : FecLib} {a : Arrival rcv} {ptr path : ℕ}
    (h : .datagram ptr path a.payload ∈ p.datagrams) : ∃ s, p.Brings a s := mem_datagrams h

/-- The receiver reads the header and the symbol that were sent. -/
theorem Fits.brings {rcv : FecLib} (h : p.Fits) {a : Arrival rcv} {s : ℕ}
    (hbrings : p.Brings a s) {track : MoqTrackId} {hdr : FecPacketHeader}
    (hsym : a.symbol? = some (track, hdr)) :
    p.HeaderOf s hdr ∧ a.bytes = p.shards.symbol s := by
  obtain ⟨hs, hpayload⟩ := hbrings
  have hheader := (symbolOf_header hsym).1
  rw [hpayload, decode_symbolDatagram] at hheader
  rw [hheader, Arrival.bytes, hpayload]
  exact ⟨h.headerOf hs _ _, FecPacketHeader.drop_encode _ _⟩

/-! ## The symbols -/

theorem length_symbol_le (p : Sharding lib) (s : ℕ) :
    (p.shards.symbol s).length ≤ p.shards.symbolSize := by
  unfold ShardedObject.symbol
  split
  · exact List.length_take_le _ _
  · exact List.length_take_le _ _

theorem length_symbol (p : Sharding lib) {s : ℕ} (hs : s < p.shards.totalSymbols) :
    (p.shards.symbol s).length = p.shards.symbolSize := by
  obtain ⟨⟨hdata, hdataSize⟩, hparity, hparitySize⟩ :=
    shardObject_blocks p.sound p.io p.object (o := p.shards) rfl
  have htotal : p.shards.totalSymbols = p.shards.dataSymbols + p.shards.paritySymbols := rfl
  unfold ShardedObject.symbol
  split
  · next hlt =>
    rw [List.getD_eq_getElem _ _ (by omega), List.length_take, hdataSize _ (List.getElem_mem _),
      Nat.min_self]
  · next hge =>
    rw [List.getD_eq_getElem _ _ (by omega), List.length_take, hparitySize _ (List.getElem_mem _),
      Nat.min_self]

/-- The data symbols come first, then the parity. -/
theorem symbol_eq (p : Sharding lib) {s : ℕ} (hs : s < p.shards.totalSymbols) :
    (p.shards.dataBlocks ++ p.shards.parityBlocks)[s]? = some (p.shards.symbol s) := by
  obtain ⟨⟨hdata, hdataSize⟩, hparity, hparitySize⟩ :=
    shardObject_blocks p.sound p.io p.object (o := p.shards) rfl
  have htotal : p.shards.totalSymbols = p.shards.dataSymbols + p.shards.paritySymbols := rfl
  unfold ShardedObject.symbol
  split
  · next hlt =>
    rw [List.getElem?_append_left (by omega), List.getD_eq_getElem _ _ (by omega),
      List.getElem?_eq_getElem (by omega), List.take_of_length_le]
    exact (hdataSize _ (List.getElem_mem _)).le
  · next hge =>
    rw [List.getElem?_append_right (by omega), hdata, List.getD_eq_getElem _ _ (by omega),
      List.getElem?_eq_getElem (by omega), List.take_of_length_le]
    exact (hparitySize _ (List.getElem_mem _)).le

/-- A data symbol starts with its part of the object. -/
theorem Fits.take_symbol (h : p.Fits) {k : ℕ} (hk : k < p.shards.dataSymbols) :
    (p.shards.symbol k).take (chunkLength p.object.data.length p.shards.symbolSize k) =
      slice (k * p.shards.symbolSize) p.shards.symbolSize p.object.data := by
  have hlen : (slice (k * p.shards.symbolSize) p.shards.symbolSize p.object.data).length =
      chunkLength p.object.data.length p.shards.symbolSize k := by
    rw [length_slice, chunkLength, Nat.min_comm]
  have hget : p.shards.dataBlocks.getD k [] =
      cachedBlock p.object.data p.shards.symbolSize k := by
    rw [h.dataBlocks_eq, List.getD_eq_getElem?_getD, List.getElem?_map,
      List.getElem?_range hk, Option.map_some, Option.getD_some]
  unfold ShardedObject.symbol
  rw [if_pos hk, hget, List.take_take, ← hlen, Nat.min_eq_left (by rw [length_slice]; omega)]
  exact take_writeAt_zero _ _

/-- The object as it is copied out of buffers that start with its data symbols. -/
theorem Fits.copiedObject_symbols (h : p.Fits) {st : SymbolStore}
    (hsymbols : ∀ k < p.shards.dataSymbols,
      (st.buffer k).take (chunkLength p.object.data.length p.shards.symbolSize k) =
        (p.shards.symbol k).take (chunkLength p.object.data.length p.shards.symbolSize k))
    (junk : ℕ → UInt8) :
    copiedObject st.buffers p.shards.symbolSize p.shards.dataSymbols p.object.data.length junk =
      p.object.data := by
  have hlength := p.length_le
  rw [← p.symbolSize_eq] at hlength
  apply List.ext_getElem?
  intro i
  unfold copiedObject
  rw [List.getElem?_map]
  by_cases hi : i < p.object.data.length
  · have hpos : 0 < p.shards.symbolSize :=
      Nat.pos_of_mul_pos_left (by omega : 0 < p.shards.dataSymbols * p.shards.symbolSize)
    have hk : i / p.shards.symbolSize < p.shards.dataSymbols :=
      Nat.div_lt_of_lt_mul (by rw [Nat.mul_comm]; omega)
    have hmod := Nat.mod_lt i hpos
    have hsplit := Nat.div_add_mod' i p.shards.symbolSize
    have hchunk : i % p.shards.symbolSize <
        chunkLength p.object.data.length p.shards.symbolSize (i / p.shards.symbolSize) := by
      rw [chunkLength]
      omega
    have hbyte := congrArg (·[i % p.shards.symbolSize]?) ((hsymbols _ hk).trans (h.take_symbol hk))
    simp only [List.getElem?_take, if_pos hchunk] at hbyte
    unfold SymbolStore.buffer slice at hbyte
    rw [List.getElem?_take, if_pos hmod, List.getElem?_drop, hsplit,
      List.getElem?_eq_getElem hi] at hbyte
    rw [List.getElem?_range hi, Option.map_some, if_pos (by omega), List.getD_eq_getElem?_getD,
      hbyte, List.getElem?_eq_getElem hi]
    rfl
  · rw [List.getElem?_eq_none (by simpa using hi), List.getElem?_eq_none (by omega)]
    rfl

end Sharding

end Bishlink
