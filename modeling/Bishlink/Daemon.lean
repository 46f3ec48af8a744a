import Bishlink.Publish
import Bishlink.Lib.Framing

/-!
# The daemon

What `on_transport_event` does with an object of a DATA track that has the FEC flag: the
packets of a group are taken out of it one after the other; and the object that
`on_data_packet` publishes for a packet of a helper.
-/

namespace Bishlink

open ByteCodec Framing

/-- The unpack loop of `on_transport_event`, for a number of rounds: `remaining` is the length
of the bytes. -/
def unpackLoop : (rounds : ℕ) → Bytes → List Bytes
  | 0, _ => []
  | rounds + 1, bs =>
    if bs.length < 2 then []
    else
      let pktLen := ofBE (bs.take 2)
      if bs.length < 2 + pktLen then []
      else slice 2 pktLen bs :: unpackLoop rounds (bs.drop (2 + pktLen))

/-- The whole loop: every round takes two bytes at least. -/
def unpackPackets (object : Bytes) : List Bytes := unpackLoop (object.length + 1) object

/-! ## The loop as a parser -/

/-- One round of the loop. -/
def parsePacketFrame (bs : Bytes) : Parsed Bytes Empty :=
  if bs.length < 2 then .more
  else
    let pktLen := ofBE (bs.take 2)
    if bs.length < 2 + pktLen then .more else .item (slice 2 pktLen bs) (2 + pktLen)

theorem unpackLoop_eq_drainFuel (rounds : ℕ) (bs : Bytes) :
    unpackLoop rounds bs = (drainFuel parsePacketFrame rounds bs).items := by
  induction rounds generalizing bs with
  | zero => rfl
  | succ rounds ih =>
    rw [unpackLoop, drainFuel, parsePacketFrame]
    by_cases hshort : bs.length < 2
    · rw [if_pos hshort, if_pos hshort]
    · rw [if_neg hshort, if_neg hshort]
      dsimp only
      by_cases hcut : bs.length < 2 + ofBE (bs.take 2)
      · rw [if_pos hcut, if_pos hcut]
      · rw [if_neg hcut, if_neg hcut, ih]
        rfl

theorem unpackPackets_eq_drain (object : Bytes) :
    unpackPackets object = (drain parsePacketFrame object).items :=
  unpackLoop_eq_drainFuel (object.length + 1) object

/-- The loop takes exactly the frames that the grouping buffer is made of. -/
theorem exact_parsePacketFrame :
    Exact parsePacketFrame packetFrame fun p => p.length ≤ 65535 := by
  refine ⟨?_, ?_, ?_⟩
  · intro bs p n
    unfold parsePacketFrame
    constructor
    · intro h
      split at h
      · exact absurd h (by simp)
      · next hlen =>
        dsimp only at h
        split at h
        · exact absurd h (by simp)
        · next hcut =>
          simp only [Parsed.item.injEq] at h
          obtain ⟨rfl, rfl⟩ := h
          -- two bytes give a length below 65536, so the field can be written back
          have hlt := ofBE_lt (bs.take 2)
          have htake : (bs.take 2).length = 2 := by
            rw [List.length_take]
            omega
          rw [htake] at hlt
          have hslice : (slice 2 (ofBE (bs.take 2)) bs).length = ofBE (bs.take 2) := by
            rw [length_slice]
            omega
          have hfield : toBE 2 (ofBE (bs.take 2)) = bs.take 2 := by
            have hback := toBE_ofBE (bs.take 2)
            rw [htake] at hback
            exact hback
          refine ⟨by omega, ?_, by simp [packetFrame, hslice]⟩
          rw [packetFrame, hslice, hfield, slice, ← List.take_add]
          exact List.take_prefix _ _
    · rintro ⟨hsize, ⟨rest, rfl⟩, rfl⟩
      have htake : (packetFrame p ++ rest).take 2 = toBE 2 p.length := by
        rw [packetFrame, List.append_assoc, List.take_left' (length_toBE 2 p.length)]
      have hlen : (packetFrame p).length = 2 + p.length := by simp [packetFrame]
      have hof : ofBE (toBE 2 p.length) = p.length := ofBE_toBE_of_lt (by omega)
      have hslice : slice 2 p.length (packetFrame p ++ rest) = p := by
        rw [packetFrame, List.append_assoc, slice_append_right _ _ (length_toBE 2 p.length).le,
          length_toBE]
        exact slice_zero_append p rest
      rw [if_neg (by rw [List.length_append]; omega), htake, hof]
      dsimp only
      rw [if_neg (by rw [List.length_append]; omega), hslice, hlen]
  · intro p hnil
    have hlen := congrArg List.length hnil
    simp [packetFrame] at hlen
  · intro bs r h
    unfold parsePacketFrame at h
    split at h
    · exact absurd h (by simp)
    · dsimp only at h
      split at h <;> exact absurd h (by simp)

/-! ## Packets of the helpers -/

/-- The object that `on_data_packet` publishes on every transport; `dataObjectId` is
`ctx->data_object_id`. -/
def onDataPacket (dataObjectId : UInt32) (trackId : MoqTrackId) (buf : Bytes)
    (priority : UInt8) : MoqObject where
  trackId := trackId
  groupId := 0
  objectId := dataObjectId.toUInt64
  data := buf
  isKeyframe := false
  priority := priority

end Bishlink
