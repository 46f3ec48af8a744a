import Bishlink.Subscription
import Bishlink.Lib.ByteCodec
import Bishlink.Lib.Runs
import Mathlib.Data.List.GetD
import Mathlib.Logic.Function.Basic

/-!
# Packets for the helpers

`data_uds_send` and its `write_exact_timeout`: a frame is its size in the byte order of the
host, its priority and its payload, written to a stream socket with three calls. What
`write` and `poll` return is the environment's; a list of outcomes that ends in the middle
of a call is a call that is still going on.
-/

namespace Bishlink

open ByteCodec

/-! ## Writing -/

/-- What `poll` gives for a socket that would block. -/
inductive PollOutcome where
  | ready
  | timeout
  | interrupted
  | failed
deriving DecidableEq

/-- What `write` gives: some bytes taken, `EINTR`, `EAGAIN` with the poll that follows, or
another error. -/
inductive WriteOutcome where
  | wrote (n : ℕ)
  | interrupted
  | wouldBlock (poll : PollOutcome)
  | failed
deriving DecidableEq

/-- What a call has put into the socket, what it returned if it has, and the outcomes that
are left. -/
structure Written where
  sent : Bytes
  returned : Option Bool
  rest : List WriteOutcome
deriving DecidableEq

/-- `write_exact_timeout`, from the bytes that are not written yet. -/
def writeExactTimeout : List WriteOutcome → Bytes → Written
  | outcomes, [] => ⟨[], some true, outcomes⟩
  | [], _ => ⟨[], none, []⟩
  | .wrote n :: outcomes, buf =>
    let r := writeExactTimeout outcomes (buf.drop n)
    { r with sent := buf.take n ++ r.sent }
  | .interrupted :: outcomes, buf => writeExactTimeout outcomes buf
  | .wouldBlock .ready :: outcomes, buf => writeExactTimeout outcomes buf
  -- a `poll` that a signal ends is made again; one that runs out gives the rest up
  | .wouldBlock .interrupted :: outcomes, buf => writeExactTimeout outcomes buf
  | .wouldBlock .timeout :: outcomes, _ => ⟨[], some false, outcomes⟩
  | .wouldBlock .failed :: outcomes, _ => ⟨[], some false, outcomes⟩
  | .failed :: outcomes, _ => ⟨[], some false, outcomes⟩

/-- `if (!write_exact_timeout(..)) return false;` and what comes after it. -/
def Written.andThen (w : Written) (next : List WriteOutcome → Written) : Written :=
  if w.returned = some true then
    let r := next w.rest
    { r with sent := w.sent ++ r.sent }
  else w

/-- A call that writes a buffer: a front part of it, and all of it exactly when it returned
true. -/
structure Writes (buf : Bytes) (w : Written) : Prop where
  sent_prefix : w.sent <+: buf
  returned_iff : w.returned = some true ↔ w.sent = buf

theorem writes_writeExactTimeout (outcomes : List WriteOutcome) (buf : Bytes) :
    Writes buf (writeExactTimeout outcomes buf) := by
  fun_induction writeExactTimeout outcomes buf with
  | case1 outcomes => exact ⟨List.nil_prefix, by simp⟩
  | case2 buf hbuf => exact ⟨List.nil_prefix, by simpa [eq_comm] using hbuf⟩
  | case3 n outcomes buf hbuf r ih =>
    refine ⟨?_, ?_⟩
    · have hpre := (List.prefix_append_right_inj (buf.take n)).mpr ih.sent_prefix
      rw [List.take_append_drop] at hpre
      exact hpre
    · have hsplit : buf.take n ++ r.sent = buf.take n ++ buf.drop n ↔ r.sent = buf.drop n :=
        List.append_right_inj (buf.take n)
      rw [List.take_append_drop] at hsplit
      exact ih.returned_iff.trans hsplit.symm
  | case4 outcomes buf hbuf ih => exact ih
  | case5 outcomes buf hbuf ih => exact ih
  | case6 outcomes buf hbuf ih => exact ih
  | case7 outcomes buf hbuf => exact ⟨List.nil_prefix, by simpa [eq_comm] using hbuf⟩
  | case8 outcomes buf hbuf => exact ⟨List.nil_prefix, by simpa [eq_comm] using hbuf⟩
  | case9 outcomes buf hbuf => exact ⟨List.nil_prefix, by simpa [eq_comm] using hbuf⟩

/-- Two buffers written one after the other, the second only when the first is through. -/
theorem Writes.andThen {buf buf' : Bytes} {w : Written} {next : List WriteOutcome → Written}
    (h : Writes buf w) (hnext : ∀ outcomes, Writes buf' (next outcomes)) :
    Writes (buf ++ buf') (w.andThen next) := by
  unfold Written.andThen
  by_cases hreturned : w.returned = some true
  · rw [if_pos hreturned, h.returned_iff.mp hreturned]
    obtain ⟨hpre, hiff⟩ := hnext w.rest
    exact ⟨(List.prefix_append_right_inj buf).mpr hpre, hiff.trans (List.append_right_inj buf).symm⟩
  · rw [if_neg hreturned]
    refine ⟨h.sent_prefix.trans (List.prefix_append buf buf'), ?_⟩
    constructor
    · exact fun hret => absurd hret hreturned
    · intro hsent
      -- a front part of the first buffer is the whole: the second buffer was empty
      refine h.returned_iff.mpr (h.sent_prefix.eq_of_length ?_)
      have hlen := congrArg List.length hsent
      have hle := h.sent_prefix.length_le
      rw [List.length_append] at hlen
      omega

/-! ## Frames -/

/-- The bytes of a `uint32_t` in memory, on a little-endian host. -/
def hostBytes (n : ℕ) : Bytes := (toBE 4 n).reverse

/-- The `uint32_t` that four bytes in memory are. -/
def ofHostBytes (bs : Bytes) : ℕ := ofBE bs.reverse

@[simp] theorem length_hostBytes (n : ℕ) : (hostBytes n).length = 4 := by simp [hostBytes]

theorem ofHostBytes_hostBytes {n : ℕ} (h : n < 2 ^ 32) : ofHostBytes (hostBytes n) = n := by
  rw [ofHostBytes, hostBytes, List.reverse_reverse]
  exact ofBE_toBE_of_lt h

/-- A packet with its priority, as a helper gets it. -/
structure HelperPacket where
  priority : UInt8
  payload : Bytes
deriving DecidableEq

/-- The frame of a packet; `(uint32_t)size` keeps the size modulo 2^32. -/
def helperFrame (p : HelperPacket) : Bytes :=
  hostBytes p.payload.length ++ [p.priority] ++ p.payload

theorem length_helperFrame (p : HelperPacket) :
    (helperFrame p).length = 5 + p.payload.length := by
  simp [helperFrame]
  omega

/-- The size, the priority and the payload where a reader looks for them. -/
theorem fields_helperFrame (p : HelperPacket) (rest : Bytes) :
    (helperFrame p ++ rest).take 4 = hostBytes p.payload.length ∧
      (helperFrame p ++ rest).getD 4 0 = p.priority ∧
      slice 5 p.payload.length (helperFrame p ++ rest) = p.payload := by
  have hsplit : helperFrame p ++ rest =
      (hostBytes p.payload.length ++ [p.priority]) ++ (p.payload ++ rest) := by
    rw [helperFrame, List.append_assoc]
  refine ⟨?_, ?_, ?_⟩
  · rw [hsplit, List.append_assoc, List.take_left' (length_hostBytes _)]
  · rw [hsplit, List.getD_append _ _ _ _ (by simp), List.getD_append_right _ _ _ _ (by simp)]
    simp
  · rw [hsplit, slice_append_right _ _ (by simp)]
    exact slice_zero_append _ _

/-- The three writes of `data_uds_send`. -/
def writeFrame (outcomes : List WriteOutcome) (p : HelperPacket) : Written :=
  ((writeExactTimeout outcomes (hostBytes p.payload.length)).andThen fun outcomes =>
    writeExactTimeout outcomes [p.priority]).andThen fun outcomes =>
      writeExactTimeout outcomes p.payload

/-- A frame is written up to some point, and whole exactly when the call returns true. -/
theorem writes_writeFrame (outcomes : List WriteOutcome) (p : HelperPacket) :
    Writes (helperFrame p) (writeFrame outcomes p) :=
  ((writes_writeExactTimeout _ _).andThen fun _ => writes_writeExactTimeout _ _).andThen
    fun _ => writes_writeExactTimeout _ _

/-! ## Calls -/

/-- `uds_client_t`. -/
structure UdsClient where
  fd : ℕ
  trackId : MoqTrackId
  active : Bool
deriving DecidableEq

/-- The socket that `data_uds_send` writes to: the first client of the track, else, for a
DATA track, the first DATA client. -/
def targetFd (clients : List UdsClient) (track : MoqTrackId) : Option ℕ :=
  match clients.find? fun c =>
      c.active && c.trackId.type == track.type && c.trackId.name == track.name with
  | some c => some c.fd
  | none =>
    if track.type = MOQ_TRACK_DATA then
      (clients.find? fun c => c.active && c.trackId.type == MOQ_TRACK_DATA).map (·.fd)
    else none

/-- A call of `data_uds_send`, with the outcomes of its writes. -/
structure SendCall where
  trackId : MoqTrackId
  packet : HelperPacket
  outcomes : List WriteOutcome

/-- What was written to each socket so far. `busy` while a call has not returned; `torn` once
a call has failed after it had written something. -/
structure HelperStreams where
  clients : List UdsClient
  written : ℕ → Bytes
  torn : ℕ → Bool
  busy : Bool

/-- Before the first call. -/
def HelperStreams.start (clients : List UdsClient) : HelperStreams :=
  ⟨clients, fun _ => [], fun _ => false, false⟩

/-- A packet passed to `data_uds_send` for the helper at a socket. -/
structure PassedPacket where
  fd : ℕ
  packet : HelperPacket
deriving DecidableEq

/-- One call of `data_uds_send`; the clients stay registered whatever it returns. The output
is the packet with the socket it goes to. -/
def sendStep (s : HelperStreams) (c : SendCall) :
    Option (HelperStreams × List PassedPacket) :=
  if s.busy then none
  else
    match targetFd s.clients c.trackId with
    | none => some (s, [])
    | some fd =>
      let w := writeFrame c.outcomes c.packet
      some ({ s with
        written := Function.update s.written fd (s.written fd ++ w.sent)
        torn := Function.update s.torn fd
          (s.torn fd || (w.returned == some false && !w.sent.isEmpty))
        busy := w.returned == none }, [⟨fd, c.packet⟩])

/-- What a call does: nothing without a client for the track, else it writes a frame to the
client's socket, and to no other. -/
theorem sendStep_cases {s s' : HelperStreams} {c : SendCall} {o : List PassedPacket}
    (h : sendStep s c = some (s', o)) :
    s.busy = false ∧
      ((targetFd s.clients c.trackId = none ∧ s' = s ∧ o = []) ∨
        ∃ fd, targetFd s.clients c.trackId = some fd ∧ o = [⟨fd, c.packet⟩] ∧
          s'.written fd = s.written fd ++ (writeFrame c.outcomes c.packet).sent ∧
          s'.torn fd = (s.torn fd || ((writeFrame c.outcomes c.packet).returned == some false &&
            !(writeFrame c.outcomes c.packet).sent.isEmpty)) ∧
          s'.busy = ((writeFrame c.outcomes c.packet).returned == none) ∧
          ∀ fd', fd' ≠ fd → s'.written fd' = s.written fd' ∧ s'.torn fd' = s.torn fd') := by
  unfold sendStep at h
  by_cases hbusy : s.busy = true
  · rw [if_pos hbusy] at h
    exact absurd h (by simp)
  rw [if_neg hbusy] at h
  refine ⟨by simpa using hbusy, ?_⟩
  cases htarget : targetFd s.clients c.trackId with
  | none =>
    simp only [htarget, Option.some.injEq, Prod.mk.injEq] at h
    exact Or.inl ⟨rfl, h.1.symm, h.2.symm⟩
  | some fd =>
    simp only [htarget, Option.some.injEq, Prod.mk.injEq] at h
    obtain ⟨rfl, rfl⟩ := h
    refine Or.inr ⟨fd, rfl, rfl, Function.update_self .., Function.update_self .., rfl, ?_⟩
    intro fd' hne
    exact ⟨Function.update_of_ne hne .., Function.update_of_ne hne ..⟩

end Bishlink
