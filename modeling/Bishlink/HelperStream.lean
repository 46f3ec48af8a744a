import Bishlink.DataUds
import Bishlink.Lib.Framing

/-!
# The stream a helper reads

`tund` takes the frames from its socket again and passes their payloads on. The frames it
finds are packets that were sent, as long as no call writes to a socket on which an earlier
call has failed in the middle of a frame.

* `Aligned.step`: a call that meets the condition leaves whole frames and at most the start
  of one more;
* `tundPackets_frames`: on such a stream `tund` sees a front part of the packets.
-/

namespace Bishlink

open ByteCodec Framing Runs

/-! ## What `tund` sees -/

/-- `sizeof(packet)` in `tund`. -/
def TUND_PACKET_SIZE : ℕ := 2048

/-- The reads of `tund` for one packet. A packet that is too large is discarded and the
connection closed. -/
def parseHelperFrame (bs : Bytes) : Parsed HelperPacket Unit :=
  if bs.length < 5 then .more
  else
    let len := ofHostBytes (bs.take 4)
    if TUND_PACKET_SIZE < len then .stop ()
    else if bs.length < 5 + len then .more
    else .item ⟨bs.getD 4 0, slice 5 len bs⟩ (5 + len)

/-- The packets that `tund` has seen when it has received some bytes. -/
def tundPackets (received : Bytes) : List HelperPacket := (drain parseHelperFrame received).items

theorem parseHelperFrame_eq_item {bs : Bytes} {p : HelperPacket} {n : ℕ}
    (h : parseHelperFrame bs = .item p n) :
    5 + ofHostBytes (bs.take 4) ≤ bs.length ∧ ofHostBytes (bs.take 4) ≤ TUND_PACKET_SIZE ∧
      p = ⟨bs.getD 4 0, slice 5 (ofHostBytes (bs.take 4)) bs⟩ ∧
      n = 5 + ofHostBytes (bs.take 4) := by
  unfold parseHelperFrame at h
  split at h
  · exact absurd h (by simp)
  · dsimp only at h
    split at h
    · exact absurd h (by simp)
    · split at h
      · exact absurd h (by simp)
      · simp only [Parsed.item.injEq] at h
        exact ⟨by omega, by omega, h.1.symm, h.2.symm⟩

theorem stable_parseHelperFrame : Stable parseHelperFrame := by
  refine ⟨?_, ?_, ?_⟩
  · intro bs p n h
    obtain ⟨hlen, -, -, rfl⟩ := parseHelperFrame_eq_item h
    omega
  · intro bs p n h more
    obtain ⟨hlen, hle, rfl, rfl⟩ := parseHelperFrame_eq_item h
    have htake : (bs ++ more).take 4 = bs.take 4 := List.take_append_of_le_length (by omega)
    have hget : (bs ++ more).getD 4 0 = bs.getD 4 0 := List.getD_append _ _ _ _ (by omega)
    have hslice : slice 5 (ofHostBytes (bs.take 4)) (bs ++ more) =
        slice 5 (ofHostBytes (bs.take 4)) bs := slice_append_left more hlen
    unfold parseHelperFrame
    rw [if_neg (by simp only [List.length_append]; omega), htake, hget]
    dsimp only
    rw [if_neg (by omega), if_neg (by simp only [List.length_append]; omega), hslice]
  · intro bs r h more
    unfold parseHelperFrame at h
    split at h
    · exact absurd h (by simp)
    · dsimp only at h
      split at h
      · next hlen hlarge =>
        have htake : (bs ++ more).take 4 = bs.take 4 := List.take_append_of_le_length (by omega)
        unfold parseHelperFrame
        rw [if_neg (by simp only [List.length_append]; omega), htake]
        dsimp only
        rw [if_pos hlarge]
      · split at h
        · exact absurd h (by simp)
        · exact absurd h (by simp)

/-- The size field of a frame. -/
theorem take_helperFrame {p : HelperPacket} {bs : Bytes} (h : helperFrame p <+: bs ∨
    (bs <+: helperFrame p ∧ 4 ≤ bs.length)) : bs.take 4 = hostBytes p.payload.length := by
  have hframe : (helperFrame p).take 4 = hostBytes p.payload.length := by
    rw [helperFrame, List.append_assoc, List.take_left' (by simp)]
  rw [← hframe]
  rcases h with ⟨rest, rfl⟩ | ⟨⟨rest, hrest⟩, hlen⟩
  · rw [List.take_append_of_le_length (by rw [length_helperFrame]; omega)]
  · rw [← hrest, List.take_append_of_le_length hlen]

/-- A whole frame is the packet, or is refused. -/
theorem parse_helperFrame {p : HelperPacket} (h : p.payload.length < 2 ^ 32) (rest : Bytes) :
    parseHelperFrame (helperFrame p ++ rest) = .item p (helperFrame p).length ∨
      ∃ r, parseHelperFrame (helperFrame p ++ rest) = .stop r := by
  obtain ⟨htake, hget, hpayload⟩ := fields_helperFrame p rest
  have hlen := length_helperFrame p
  unfold parseHelperFrame
  rw [if_neg (by simp only [List.length_append, hlen]; omega), htake, ofHostBytes_hostBytes h]
  dsimp only
  by_cases hlarge : TUND_PACKET_SIZE < p.payload.length
  · right
    exact ⟨(), if_pos hlarge⟩
  · left
    rw [if_neg hlarge, if_neg (by simp only [List.length_append, hlen]; omega), hget, hpayload,
      hlen]

/-- The start of a frame holds no packet. -/
theorem tundPackets_of_prefix {p : HelperPacket} (h : p.payload.length < 2 ^ 32) {tail : Bytes}
    (hpre : tail <+: helperFrame p) (hne : tail ≠ helperFrame p) : tundPackets tail = [] := by
  have hshort : tail.length < 5 + p.payload.length := by
    rw [← length_helperFrame]
    exact lt_of_le_of_ne hpre.length_le fun hlen => hne (hpre.eq_of_length hlen)
  cases hparse : parseHelperFrame tail with
  | more => rw [tundPackets, drain_more hparse]
  | stop r => rw [tundPackets, drain_stop hparse]
  | item q n =>
    obtain ⟨hlen, -⟩ := parseHelperFrame_eq_item hparse
    rw [take_helperFrame (Or.inr ⟨hpre, by omega⟩), ofHostBytes_hostBytes h] at hlen
    omega

/-- On a stream of frames with the start of one more, `tund` sees a front part of the
packets. -/
theorem tundPackets_frames {packets : List HelperPacket} {tail : Bytes}
    (hsize : ∀ p ∈ packets, p.payload.length < 2 ^ 32) (htail : tundPackets tail = []) :
    tundPackets (packets.flatMap helperFrame ++ tail) <+: packets :=
  items_drain_prefix stable_parseHelperFrame
    (fun p hp rest => parse_helperFrame (hsize p hp) rest) htail

/-! ## Calls at a frame boundary -/

/-- The outcomes before the first byte is taken lead to giving up, or the call has not got
further yet. -/
def givesUpAtOnce : List WriteOutcome → Bool
  | [] => true
  | .wrote 0 :: outcomes => givesUpAtOnce outcomes
  | .wrote (_ + 1) :: _ => false
  | .interrupted :: outcomes => givesUpAtOnce outcomes
  | .wouldBlock .ready :: outcomes => givesUpAtOnce outcomes
  | .wouldBlock .interrupted :: outcomes => givesUpAtOnce outcomes
  | .wouldBlock .timeout :: _ => true
  | .wouldBlock .failed :: _ => true
  | .failed :: _ => true

theorem sent_of_givesUpAtOnce {outcomes : List WriteOutcome} {buf : Bytes}
    (h : givesUpAtOnce outcomes = true) : (writeExactTimeout outcomes buf).sent = [] := by
  fun_induction writeExactTimeout outcomes buf with
  | case1 outcomes => rfl
  | case2 buf hbuf => rfl
  | case3 n outcomes buf hbuf r ih =>
    cases n with
    | zero => simpa [r] using ih (by simpa [givesUpAtOnce] using h)
    | succ n => exact absurd h (by simp [givesUpAtOnce])
  | case4 outcomes buf hbuf ih => exact ih h
  | case5 outcomes buf hbuf ih => exact ih h
  | case6 outcomes buf hbuf ih => exact ih h
  | case7 outcomes buf hbuf => rfl
  | case8 outcomes buf hbuf => rfl
  | case9 outcomes buf hbuf => rfl

/-- Such a call writes nothing. -/
theorem writeFrame_of_givesUpAtOnce {outcomes : List WriteOutcome} (p : HelperPacket)
    (h : givesUpAtOnce outcomes = true) : (writeFrame outcomes p).sent = [] := by
  have hsent : (writeExactTimeout outcomes (hostBytes p.payload.length)).sent = [] :=
    sent_of_givesUpAtOnce h
  have hreturned : ¬(writeExactTimeout outcomes (hostBytes p.payload.length)).returned =
      some true := by
    rw [(writes_writeExactTimeout _ _).returned_iff, hsent]
    intro hnil
    have hlen := congrArg List.length hnil
    simp at hlen
  rw [writeFrame, Written.andThen, Written.andThen, if_neg hreturned, if_neg hreturned, hsent]

/-- A call writes nothing, or writes a packet whose size fits its field to a socket on which no
call has failed inside a frame. -/
def SendOk (s : HelperStreams) (c : SendCall) : Prop :=
  givesUpAtOnce c.outcomes = true ∨
    ∀ fd ∈ targetFd s.clients c.trackId,
      s.torn fd = false ∧ c.packet.payload.length < 2 ^ 32

instance (s : HelperStreams) (c : SendCall) : Decidable (SendOk s c) := by
  unfold SendOk
  infer_instance

/-- The packets passed for the helper at a socket. -/
def passedTo (fd : ℕ) (passed : List PassedPacket) : List HelperPacket :=
  (passed.filter fun p => p.fd == fd).map (·.packet)

/-- The bytes written to a socket: whole frames of packets passed for it, in order, and the
start of one more; nothing but whole frames between the calls unless one has failed. -/
structure Aligned (s : HelperStreams) (passed : List PassedPacket) (fd : ℕ)
    (packets : List HelperPacket) (tail : Bytes) : Prop where
  written_eq : s.written fd = packets.flatMap helperFrame ++ tail
  sublist : packets.Sublist (passedTo fd passed)
  size_lt : ∀ p ∈ packets, p.payload.length < 2 ^ 32
  tail_eq : tail = [] ∨ ∃ p ∈ passedTo fd passed, p.payload.length < 2 ^ 32 ∧
    tail <+: helperFrame p ∧ tail ≠ helperFrame p
  boundary : s.torn fd = false → s.busy = false → tail = []

theorem passedTo_append (fd : ℕ) (passed passed' : List PassedPacket) :
    passedTo fd (passed ++ passed') = passedTo fd passed ++ passedTo fd passed' := by
  simp [passedTo]

/-- The stream of a socket that a call does not write to. -/
theorem Aligned.frame {s s' : HelperStreams} {passed o : List PassedPacket} {fd : ℕ}
    {packets : List HelperPacket} {tail : Bytes} (h : Aligned s passed fd packets tail)
    (hwritten : s'.written fd = s.written fd)
    (hboundary : s'.torn fd = false → s'.busy = false → s.torn fd = false ∧ s.busy = false) :
    Aligned s' (passed ++ o) fd packets tail := by
  refine ⟨hwritten.trans h.written_eq, ?_, h.size_lt, ?_, ?_⟩
  · rw [passedTo_append]
    exact h.sublist.trans (List.sublist_append_left _ _)
  · rcases h.tail_eq with htail | ⟨p, hp, htail⟩
    · exact Or.inl htail
    · refine Or.inr ⟨p, ?_, htail⟩
      rw [passedTo_append]
      exact List.mem_append_left _ hp
  · intro htorn hbusy
    exact h.boundary (hboundary htorn hbusy).1 (hboundary htorn hbusy).2

theorem Aligned.step {s s' : HelperStreams} {passed o : List PassedPacket} {fd : ℕ}
    {packets : List HelperPacket} {tail : Bytes} {c : SendCall}
    (h : Aligned s passed fd packets tail) (hok : SendOk s c)
    (hstep : sendStep s c = some (s', o)) :
    ∃ packets' tail', Aligned s' (passed ++ o) fd packets' tail' := by
  obtain ⟨hbusy, ⟨-, rfl, rfl⟩ | ⟨target, htarget, rfl, hwritten, htorn', hbusy', hframe⟩⟩ :=
    sendStep_cases hstep
  · exact ⟨packets, tail, h.frame rfl fun htorn hbusy => ⟨htorn, hbusy⟩⟩
  -- the other sockets are not written to
  by_cases hfd : fd = target
  · subst hfd
    have hwrites := writes_writeFrame c.outcomes c.packet
    rcases hok with hnothing | hok
    · -- nothing is written: the stream is as it was
      have hsent := writeFrame_of_givesUpAtOnce c.packet hnothing
      refine ⟨packets, tail, h.frame ?_ ?_⟩
      · rw [hwritten, hsent, List.append_nil]
      · intro htorn _
        rw [htorn', Bool.or_eq_false_iff] at htorn
        exact ⟨htorn.1, hbusy⟩
    · obtain ⟨htorn, hsize⟩ := hok fd htarget
      have htail := h.boundary htorn hbusy
      have hpassed : passedTo fd (passed ++ [⟨fd, c.packet⟩]) =
          passedTo fd passed ++ [c.packet] := by
        rw [passedTo_append]
        simp [passedTo]
      by_cases hreturned : (writeFrame c.outcomes c.packet).returned = some true
      · -- the whole frame
        refine ⟨packets ++ [c.packet], [], ?_, ?_, ?_, Or.inl rfl, fun _ _ => rfl⟩
        · rw [hwritten, h.written_eq, htail, hwrites.returned_iff.mp hreturned]
          simp
        · rw [hpassed]
          exact h.sublist.append_right _
        · intro p hp
          rcases List.mem_append.mp hp with hp | hp
          · exact h.size_lt p hp
          · rw [List.mem_singleton.mp hp]
            exact hsize
      · -- the start of a frame; a call that has returned without writing leaves no tail
        refine ⟨packets, (writeFrame c.outcomes c.packet).sent, ?_, ?_, h.size_lt, ?_, ?_⟩
        · rw [hwritten, h.written_eq, htail, List.append_nil]
        · rw [hpassed]
          exact h.sublist.trans (List.sublist_append_left _ _)
        · refine Or.inr ⟨c.packet, ?_, hsize, hwrites.sent_prefix, ?_⟩
          · rw [hpassed]
            exact List.mem_append_right _ List.mem_cons_self
          · exact fun hsent => hreturned (hwrites.returned_iff.mpr hsent)
        · intro hnotTorn hnotBusy
          rw [htorn', Bool.or_eq_false_iff, Bool.and_eq_false_iff] at hnotTorn
          rw [hbusy', beq_eq_false_iff_ne] at hnotBusy
          rcases hnotTorn.2 with hret | hsent
          · rw [beq_eq_false_iff_ne] at hret
            cases hr : (writeFrame c.outcomes c.packet).returned with
            | none => exact absurd hr hnotBusy
            | some b =>
              cases b with
              | false => exact absurd hr hret
              | true => exact absurd hr hreturned
          · simpa using hsent
  · refine ⟨packets, tail, h.frame (hframe fd hfd).1 ?_⟩
    intro htorn _
    rw [(hframe fd hfd).2] at htorn
    exact ⟨htorn, hbusy⟩

/-- In a run whose calls all meet the condition, what a helper has received at any time is
whole frames of packets passed for it, in call order, and at most the start of one more; and
`tund` sees only packets that were passed. -/
theorem helper_stream_whole (clients : List UdsClient) (calls : List SendCall)
    (hok : Along sendStep SendOk (HelperStreams.start clients) calls) {s : HelperStreams}
    {passed : List PassedPacket}
    (hrun : run sendStep (HelperStreams.start clients) calls = some (s, passed)) (fd : ℕ)
    {received : Bytes} (hreceived : received <+: s.written fd) :
    ∃ (packets : List HelperPacket) (tail : Bytes),
      received = packets.flatMap helperFrame ++ tail ∧
      packets.Sublist (passedTo fd passed) ∧
      (tail = [] ∨ ∃ p ∈ passedTo fd passed, tail <+: helperFrame p ∧ tail ≠ helperFrame p) ∧
      (tundPackets received).Sublist (passedTo fd passed) := by
  have hinit : ∃ packets tail, Aligned (HelperStreams.start clients) [] fd packets tail :=
    ⟨[], [], rfl, List.Sublist.refl _, by simp, Or.inl rfl, fun _ _ => rfl⟩
  obtain ⟨packets, tail, h⟩ := run_induction_along sendStep
    (P := fun _ s passed => ∃ packets tail, Aligned s passed fd packets tail) hinit
    (fun _ _ _ _ _ _ _ ⟨_, _, h⟩ hok hstep => h.step hok hstep) calls s passed hok hrun
  rw [h.written_eq] at hreceived
  obtain ⟨packets', tail', hpackets, rfl, htail'⟩ := prefix_flatMap hreceived
  -- what follows the whole frames is the start of one
  have hstart : tail' = [] ∨ ∃ p ∈ passedTo fd passed, p.payload.length < 2 ^ 32 ∧
      tail' <+: helperFrame p ∧ tail' ≠ helperFrame p := by
    rcases htail' with htail' | ⟨p, hp, hpre, hne⟩
    · rcases h.tail_eq with rfl | ⟨p, hp, hsize, hpre, hne⟩
      · exact Or.inl (List.prefix_nil.mp htail')
      · refine Or.inr ⟨p, hp, hsize, htail'.trans hpre, ?_⟩
        rintro rfl
        exact hne (hpre.eq_of_length (le_antisymm hpre.length_le htail'.length_le))
    · exact Or.inr ⟨p, h.sublist.subset hp, h.size_lt p hp, hpre, hne⟩
  have hnone : tundPackets tail' = [] := by
    rcases hstart with rfl | ⟨p, -, hsize, hpre, hne⟩
    · rfl
    · exact tundPackets_of_prefix hsize hpre hne
  have hsub : packets'.Sublist (passedTo fd passed) := hpackets.sublist.trans h.sublist
  refine ⟨packets', tail', rfl, hsub, ?_, ?_⟩
  · rcases hstart with hnil | ⟨p, hp, -, hstart⟩
    · exact Or.inl hnil
    · exact Or.inr ⟨p, hp, hstart⟩
  · have hsize : ∀ p ∈ packets', p.payload.length < 2 ^ 32 := fun p hp =>
      h.size_lt p (hpackets.subset hp)
    exact (tundPackets_frames hsize hnone).sublist.trans hsub

/-! ## A send that fails after its size field -/

/-- A helper on the unnamed DATA track. -/
def dataHelper : List UdsClient := [⟨7, ⟨MOQ_TRACK_DATA, 0, TrackName.empty⟩, true⟩]

/-- A call that sends three bytes, with two short writes and a retry. -/
def sendThree (outcomes : List WriteOutcome) : SendCall :=
  ⟨⟨MOQ_TRACK_DATA, 0, TrackName.empty⟩, ⟨1, [10, 20, 30]⟩, outcomes⟩

/-- A call that gives up at once and one that goes through: the helper has one packet. -/
theorem helper_stream_whole_retry :
    ∃ s passed, run sendStep (HelperStreams.start dataHelper)
        [sendThree [.interrupted, .wouldBlock .timeout],
          sendThree [.wrote 3, .wouldBlock .ready, .wrote 1, .wrote 1, .interrupted, .wrote 3]] =
        some (s, passed) ∧
      (tundPackets (s.written 7)).Sublist (passedTo 7 passed) := by
  have h := helper_stream_whole dataHelper
    [sendThree [.interrupted, .wouldBlock .timeout],
      sendThree [.wrote 3, .wouldBlock .ready, .wrote 1, .wrote 1, .interrupted, .wrote 3]]
    (by decide) rfl 7 List.prefix_rfl
  obtain ⟨packets, tail, -, -, -, htund⟩ := h
  exact ⟨_, _, rfl, htund⟩

/-- A call times out after the size field, the next one goes through: the helper reads the
size field of the second frame as priority and payload of the first. -/
theorem torn_frame_misread :
    ∃ s passed, run sendStep (HelperStreams.start dataHelper)
        [sendThree [.wrote 4, .wouldBlock .timeout], sendThree [.wrote 4, .wrote 1, .wrote 3]] =
        some (s, passed) ∧
      ∃ p ∈ tundPackets (s.written 7), p ∉ passedTo 7 passed :=
  ⟨_, _, rfl, ⟨3, [0, 0, 0]⟩, by decide, by decide⟩

end Bishlink
