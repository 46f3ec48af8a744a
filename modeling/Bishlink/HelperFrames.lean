import Bishlink.HelperInput
import Bishlink.Lib.Runs

/-!
# The frames of the helpers

The callback of `data_uds_tick` gets the complete frames of each helper, whatever the other helpers
do. All of them share one payload buffer, so that this holds as long as there is one
(`helper_frames_iff`): a `realloc` that fails leaves `payload_buf` at `NULL` with the capacity that
was asked for, and later frames are read into it.
-/

namespace Bishlink

open ByteCodec ByteSource Checked Runs

/-! ## The frames of a stream -/

/-- The first frame of a stream, if it is complete, and what follows it. -/
def takeFrame (bs : Bytes) : Option (HelperPacket × Bytes) :=
  let size := ofHostBytes (bs.take 4)
  if 5 + size ≤ bs.length then some (⟨bs.getD 4 0, slice 5 size bs⟩, bs.drop (5 + size)) else none

theorem takeFrame_eq_some {bs rest : Bytes} {p : HelperPacket} (h : takeFrame bs = some (p, rest)) :
    5 + ofHostBytes (bs.take 4) ≤ bs.length ∧
      p = ⟨bs.getD 4 0, slice 5 (ofHostBytes (bs.take 4)) bs⟩ ∧
      rest = bs.drop (5 + ofHostBytes (bs.take 4)) := by
  unfold takeFrame at h
  dsimp only at h
  split at h
  · next hle =>
    rw [Option.some.injEq, Prod.mk.injEq] at h
    exact ⟨hle, h.1.symm, h.2.symm⟩
  · exact absurd h (Option.some_ne_none _).symm

/-- The complete frames at the start of a stream. -/
def udsFrames (bs : Bytes) : List HelperPacket :=
  match _h : takeFrame bs with
  | none => []
  | some (p, rest) => p :: udsFrames rest
termination_by bs.length
decreasing_by
  obtain ⟨hle, -, hrest⟩ := takeFrame_eq_some _h
  rw [hrest, List.length_drop]
  omega

theorem udsFrames_of_none {bs : Bytes} (h : takeFrame bs = none) : udsFrames bs = [] := by
  rw [udsFrames]
  split
  · rfl
  · next hsome => exact absurd (h.symm.trans hsome) (Option.some_ne_none _).symm

theorem udsFrames_of_some {bs rest : Bytes} {p : HelperPacket} (h : takeFrame bs = some (p, rest)) :
    udsFrames bs = p :: udsFrames rest := by
  rw [udsFrames]
  split
  · next hnone => exact absurd (h.symm.trans hnone) (Option.some_ne_none _)
  · next hsome =>
    obtain ⟨rfl, rfl⟩ := Prod.mk.inj (Option.some.inj (h.symm.trans hsome))
    rfl

/-- A stream that starts with a frame. -/
theorem takeFrame_helperFrame {p : HelperPacket} (h : p.payload.length < 2 ^ 32) (rest : Bytes) :
    takeFrame (helperFrame p ++ rest) = some (p, rest) := by
  obtain ⟨htake, hget, hpayload⟩ := fields_helperFrame p rest
  have hlen := length_helperFrame p
  unfold takeFrame
  rw [htake, ofHostBytes_hostBytes h]
  dsimp only
  rw [if_pos (by rw [List.length_append, hlen]; omega), hget, hpayload, ← hlen, List.drop_left]

/-- The frames of a stream of frames that ends inside of one more. -/
theorem udsFrames_frames {packets : List HelperPacket} {tail : Bytes}
    (hsize : ∀ p ∈ packets, p.payload.length < 2 ^ 32) (htail : takeFrame tail = none) :
    udsFrames (packets.flatMap helperFrame ++ tail) = packets := by
  induction packets with
  | nil => exact udsFrames_of_none htail
  | cons p packets ih =>
    have hfirst := takeFrame_helperFrame (hsize p List.mem_cons_self)
      (packets.flatMap helperFrame ++ tail)
    rw [List.flatMap_cons, List.append_assoc, udsFrames_of_some hfirst]
    rw [ih fun q hq => hsize q (List.mem_cons_of_mem p hq)]

/-- Three reads take the size, the priority and the payload of the first frame. -/
theorem readExact_frame (retries : ReadFailure → Bool) (source : UdsSource) :
    let size := readExact retries source 4
    let priority := readExact retries size.rest 1
    let payload := readExact retries priority.rest (ofHostBytes size.got)
    ((size.complete = true ∧ priority.complete = true) ↔ 5 ≤ (flow retries source).length) ∧
      size.got = (flow retries source).take 4 ∧
      (5 ≤ (flow retries source).length →
        priority.got.getD 0 1 = (flow retries source).getD 4 0 ∧
        flow retries priority.rest = (flow retries source).drop 5 ∧
        (payload.complete = true ↔
          5 + ofHostBytes ((flow retries source).take 4) ≤ (flow retries source).length) ∧
        payload.got = slice 5 (ofHostBytes ((flow retries source).take 4)) (flow retries source) ∧
        (payload.complete = true → flow retries payload.rest =
          (flow retries source).drop (5 + ofHostBytes ((flow retries source).take 4)))) := by
  intro size priority payload
  -- three reads in a row, each from where the one before it stopped
  have hgot : size.got = (flow retries source).take 4 := got_readExact
  have hsize : size.complete = true ↔ 4 ≤ (flow retries source).length := complete_readExact
  have hafter : 4 ≤ (flow retries source).length →
      flow retries size.rest = (flow retries source).drop 4 := flow_rest_readExact
  have hpriority : priority.complete = true ↔ 1 ≤ (flow retries size.rest).length :=
    complete_readExact
  refine ⟨?_, hgot, fun hlen => ?_⟩
  · constructor
    · rintro ⟨hs, hp⟩
      have hle := hpriority.mp hp
      rw [hafter (hsize.mp hs), List.length_drop] at hle
      omega
    · intro hlen
      refine ⟨hsize.mpr (by omega), hpriority.mpr ?_⟩
      rw [hafter (by omega), List.length_drop]
      omega
  · have hflow := hafter (by omega)
    have hone : 1 ≤ (flow retries size.rest).length := by
      rw [hflow, List.length_drop]
      omega
    have hrest : flow retries priority.rest = (flow retries source).drop 5 := by
      have hdrop : flow retries priority.rest = (flow retries size.rest).drop 1 :=
        flow_rest_readExact hone
      rw [hdrop, hflow, List.drop_drop]
    have hbyte : priority.got = (flow retries size.rest).take 1 := got_readExact
    have hpayload : payload.complete = true ↔
        ofHostBytes size.got ≤ (flow retries priority.rest).length := complete_readExact
    have hbytes : payload.got = (flow retries priority.rest).take (ofHostBytes size.got) :=
      got_readExact
    rw [hrest, hgot, List.length_drop] at hpayload
    rw [hrest, hgot] at hbytes
    refine ⟨?_, hrest, ?_, hbytes, fun hcomplete => ?_⟩
    · rw [hbyte, hflow, List.getD_eq_getElem?_getD, List.getD_eq_getElem?_getD,
        List.getElem?_take_of_lt (by decide), List.getElem?_drop,
        List.getElem?_eq_getElem (by omega)]
      rfl
    · rw [hpayload]
      omega
    · have hdrop : flow retries payload.rest =
          (flow retries priority.rest).drop (ofHostBytes size.got) :=
        flow_rest_readExact (complete_readExact.mp hcomplete)
      rw [hdrop, hrest, hgot, List.drop_drop]

/-! ## The frames of a helper -/

/-- The packets that the callback is to get: those with a payload. -/
def inputsFrom (helper : ℕ) (trackId : MoqTrackId) (bs : Bytes) : List HelperInput :=
  ((udsFrames bs).filter fun p => !p.payload.isEmpty).map fun p => ⟨helper, trackId, p⟩

namespace DataUds

/-- What the callback got from a helper. -/
def inputsOf (s : DataUds) (helper : ℕ) : List HelperInput :=
  s.passed.filter fun input => input.helper == helper

/-- A slot belongs to a helper. -/
def Has (s : DataUds) (i : ℕ) (c : UdsHelper) : Prop := s.clients[i]? = some (some c)

/-- The callback got the frames of each helper so far: the others are still to come while the helper
is there, and there are none when it is gone. -/
structure FramesKept (s : DataUds) : Prop where
  active : ∀ i c, s.Has i c → ∃ conn, s.connected[c.helper]? = some conn ∧
    c.trackId = conn.trackId ∧
    s.inputsOf c.helper ++ inputsFrom c.helper c.trackId (udsFlow c.source) =
      inputsFrom c.helper conn.trackId conn.input
  gone : ∀ k conn, s.connected[k]? = some conn → (∀ i c, s.Has i c → c.helper ≠ k) →
    s.inputsOf k = inputsFrom k conn.trackId conn.input

/-- A tick takes one frame from each helper it reads from and closes those that have none; the
others stay as they are. -/
def ServesOne (s : DataUds) (io : UdsTickIO) (s' : DataUds) : Prop :=
  ∀ i c, s.Has i c →
    (i ∉ s.polled io → s'.Has i c) ∧
    (i ∈ s.polled io → takeFrame (udsFlow c.source) = none → s'.clients[i]? = some none) ∧
    (i ∈ s.polled io → ∀ p rest, takeFrame (udsFlow c.source) = some (p, rest) →
      ∃ source, udsFlow source = rest ∧ s'.Has i { c with source := source })

/-- The condition for one turn: a frame with a payload finds a buffer. -/
def Buffered (io : UdsTickIO) (s : DataUds) (i : ℕ) : Prop :=
  ∀ c, s.Has i c → ∀ p rest, takeFrame (udsFlow c.source) = some (p, rest) → p.payload ≠ [] →
    (s.reserve (io.reallocOk i) p.payload.length).payloadBuf = true

/-- The turns of a tick as steps. -/
def serveStep (io : UdsTickIO) (s : DataUds) (i : ℕ) : Option (DataUds × List HelperInput) :=
  some (s.serve io i, [])

/-! ## One turn -/

variable {s : DataUds} {io : UdsTickIO} {i : ℕ} {c : UdsHelper}

@[simp] theorem reserve_clients (s : DataUds) (b : Bool) (n : ℕ) :
    (s.reserve b n).clients = s.clients := by
  unfold reserve
  split <;> rfl

@[simp] theorem reserve_connected (s : DataUds) (b : Bool) (n : ℕ) :
    (s.reserve b n).connected = s.connected := by
  unfold reserve
  split <;> rfl

@[simp] theorem reserve_passed (s : DataUds) (b : Bool) (n : ℕ) :
    (s.reserve b n).passed = s.passed := by
  unfold reserve
  split <;> rfl

theorem Has.getD (h : s.Has i c) : s.clients.getD i none = some c := by
  rw [List.getD_eq_getElem?_getD, h]
  rfl

/-- The reads for the size, the priority and the payload of a frame. -/
theorem reads_frame (source : UdsSource) :
    let size := readExactTimeout source 4
    let priority := readExactTimeout size.rest 1
    let payload := readExactTimeout priority.rest (ofHostBytes size.got)
    ((size.complete = true ∧ priority.complete = true) ↔ 5 ≤ (udsFlow source).length) ∧
      size.got = (udsFlow source).take 4 ∧
      (5 ≤ (udsFlow source).length →
        priority.got.getD 0 1 = (udsFlow source).getD 4 0 ∧
        udsFlow priority.rest = (udsFlow source).drop 5 ∧
        (payload.complete = true ↔
          5 + ofHostBytes ((udsFlow source).take 4) ≤ (udsFlow source).length) ∧
        payload.got = slice 5 (ofHostBytes ((udsFlow source).take 4)) (udsFlow source) ∧
        (payload.complete = true → udsFlow payload.rest =
          (udsFlow source).drop (5 + ofHostBytes ((udsFlow source).take 4)))) :=
  readExact_frame ReadFailure.retried source

/-- A helper without a complete frame is closed. -/
theorem serve_of_none (io : UdsTickIO) (hc : s.Has i c) (h : takeFrame (udsFlow c.source) = none) :
    ∃ b n, s.serve io i = (s.reserve b n).setClient i none := by
  obtain ⟨hheader, hgot, hfields⟩ := reads_frame c.source
  unfold takeFrame at h
  dsimp only at h
  have hshort : ¬5 + ofHostBytes ((udsFlow c.source).take 4) ≤ (udsFlow c.source).length := by
    intro hle
    rw [if_pos hle] at h
    exact Option.some_ne_none _ h
  unfold serve
  rw [hc.getD]
  dsimp only
  by_cases hlen : 5 ≤ (udsFlow c.source).length
  · obtain ⟨-, -, hpayload, -, -⟩ := hfields hlen
    obtain ⟨hsize, hpriority⟩ := hheader.mpr hlen
    have hnonzero : ofHostBytes (readExactTimeout c.source 4).got ≠ 0 := by
      rw [hgot]
      omega
    rw [if_neg (by rw [hsize, hpriority]; decide), if_neg hnonzero,
      if_neg (fun hboth => hshort (hpayload.mp hboth.2))]
    exact ⟨_, _, rfl⟩
  · refine ⟨false, 0, ?_⟩
    rw [if_pos]
    · rfl
    · by_contra hboth
      rw [not_or, not_not, not_not] at hboth
      exact hlen (hheader.mp hboth)

/-- What a complete frame makes of the reads. -/
theorem serve_of_some (io : UdsTickIO) (hc : s.Has i c) {p : HelperPacket} {rest : Bytes}
    (h : takeFrame (udsFlow c.source) = some (p, rest)) :
    (p.payload = [] ∧ ∃ source, udsFlow source = rest ∧
      s.serve io i = s.setClient i (some { c with source := source })) ∨
    (p.payload ≠ [] ∧ ∃ source, udsFlow source = rest ∧
      s.serve io i =
        if (s.reserve (io.reallocOk i) p.payload.length).payloadBuf = true then
          { (s.reserve (io.reallocOk i) p.payload.length).setClient i
              (some { c with source := source }) with
            passed := s.passed ++ [⟨c.helper, c.trackId, p⟩] }
        else (s.reserve (io.reallocOk i) p.payload.length).setClient i none) := by
  obtain ⟨hheader, hgot, hfields⟩ := reads_frame c.source
  obtain ⟨hle, rfl, rfl⟩ := takeFrame_eq_some h
  obtain ⟨hbyte, hrest, hpayload, hbytes, hafter⟩ := hfields (by omega)
  obtain ⟨hsize, hpriority⟩ := hheader.mpr (by omega)
  have hlen : (slice 5 (ofHostBytes ((udsFlow c.source).take 4)) (udsFlow c.source)).length =
      ofHostBytes ((udsFlow c.source).take 4) := by
    rw [length_slice]
    omega
  have hempty : slice 5 (ofHostBytes ((udsFlow c.source).take 4)) (udsFlow c.source) = [] ↔
      ofHostBytes ((udsFlow c.source).take 4) = 0 := by
    rw [← List.length_eq_zero_iff, hlen]
  rw [← hgot] at hpayload hbytes hafter hlen hempty hle ⊢
  have hcomplete := hpayload.mpr (by rw [hgot] at hle ⊢; exact hle)
  unfold serve
  rw [hc.getD]
  dsimp only
  rw [if_neg (by rw [hsize, hpriority]; decide), hlen]
  by_cases hzero : ofHostBytes (readExactTimeout c.source 4).got = 0
  · left
    rw [if_pos hzero]
    refine ⟨hempty.mpr hzero, _, ?_, rfl⟩
    rw [hrest, hzero]
  · right
    rw [if_neg hzero]
    refine ⟨fun hnil => hzero (hempty.mp hnil), _, hafter hcomplete, ?_⟩
    rw [reserve_passed, hcomplete, hbytes, hbyte]
    simp only [and_true]

/-- A turn of slot `i`: the helper there goes on with what is left of its stream or is closed, and
the callback gets something from it or nothing. -/
structure Turn (s t : DataUds) (i : ℕ) (c : UdsHelper) (next : Option UdsSource)
    (news : List HelperInput) : Prop where
  clients : t.clients = s.clients.set i (next.map fun source => { c with source := source })
  connected : t.connected = s.connected
  passed : t.passed = s.passed ++ news
  helper : ∀ input ∈ news, input.helper = c.helper

/-- What the callback is to get from a helper. -/
def inputsLeft (c : UdsHelper) (source : UdsSource) : List HelperInput :=
  inputsFrom c.helper c.trackId (udsFlow source)

theorem inputsFrom_of_none {k : ℕ} {track : MoqTrackId} {bs : Bytes} (h : takeFrame bs = none) :
    inputsFrom k track bs = [] := by
  unfold inputsFrom
  rw [udsFrames_of_none h]
  rfl

theorem inputsFrom_of_some {k : ℕ} {track : MoqTrackId} {bs rest : Bytes} {p : HelperPacket}
    (h : takeFrame bs = some (p, rest)) :
    inputsFrom k track bs =
      if p.payload = [] then inputsFrom k track rest
      else ⟨k, track, p⟩ :: inputsFrom k track rest := by
  unfold inputsFrom
  rw [udsFrames_of_some h, List.filter_cons]
  by_cases hempty : p.payload = []
  · rw [if_pos hempty, hempty]
    rfl
  · rw [if_neg hempty, if_pos]
    · rfl
    · rw [List.isEmpty_eq_false_iff.mpr hempty]
      rfl

/-- The turn of an active slot: with a buffer nothing is lost, without one a frame is. -/
theorem turn_serve (io : UdsTickIO) (hc : s.Has i c) :
    ∃ next news, Turn s (s.serve io i) i c next news ∧
      (Buffered io s i → inputsLeft c c.source = news ++ next.elim [] (inputsLeft c)) ∧
      (¬Buffered io s i → next = none ∧ news = [] ∧ inputsLeft c c.source ≠ []) := by
  -- no whole frame, an empty one, or one with a payload, which needs the buffer
  cases hframe : takeFrame (udsFlow c.source) with
  | none =>
    obtain ⟨b, n, hserve⟩ := serve_of_none io hc hframe
    have hnone : inputsLeft c c.source = [] := inputsFrom_of_none hframe
    refine ⟨none, [], ⟨?_, ?_, ?_, fun _ h => absurd h List.not_mem_nil⟩, fun _ => hnone, ?_⟩
    · rw [hserve]
      show (s.reserve b n).clients.set i none = _
      rw [reserve_clients]
      rfl
    · rw [hserve]
      exact reserve_connected s b n
    · rw [hserve, List.append_nil]
      exact reserve_passed s b n
    · intro hnot
      refine absurd ?_ hnot
      intro c' hc' p rest hsome
      obtain rfl := Option.some.inj (Option.some.inj (hc.symm.trans hc'))
      exact absurd (hframe.symm.trans hsome) (Option.some_ne_none _).symm
  | some r =>
    obtain ⟨p, rest⟩ := r
    have hleft : inputsLeft c c.source = _ := inputsFrom_of_some hframe
    have hbuffered : Buffered io s i ↔ (p.payload ≠ [] →
        (s.reserve (io.reallocOk i) p.payload.length).payloadBuf = true) := by
      constructor
      · exact fun hall => hall c hc p rest hframe
      · intro hp c' hc' p' rest' hsome
        obtain rfl := Option.some.inj (Option.some.inj (hc.symm.trans hc'))
        obtain ⟨rfl, rfl⟩ := Prod.mk.inj (Option.some.inj (hframe.symm.trans hsome))
        exact hp
    rcases serve_of_some io hc hframe with
      ⟨hempty, source, rfl, hserve⟩ | ⟨hpayload, source, rfl, hserve⟩
    · rw [if_pos hempty] at hleft
      refine ⟨some source, [], ⟨?_, ?_, ?_, fun _ h => absurd h List.not_mem_nil⟩, ?_, ?_⟩
      · rw [hserve]
        rfl
      · rw [hserve]
        rfl
      · rw [hserve, List.append_nil]
        rfl
      · exact fun _ => hleft
      · exact fun hnot => absurd (hbuffered.mpr fun hne => absurd hempty hne) hnot
    · rw [if_neg hpayload] at hleft
      by_cases hbuf : (s.reserve (io.reallocOk i) p.payload.length).payloadBuf = true
      · rw [if_pos hbuf] at hserve
        refine ⟨some source, [⟨c.helper, c.trackId, p⟩], ⟨?_, ?_, ?_, ?_⟩, ?_, ?_⟩
        · rw [hserve]
          show (s.reserve _ _).clients.set i _ = _
          rw [reserve_clients]
          rfl
        · rw [hserve]
          exact reserve_connected s _ _
        · rw [hserve]
        · intro input hinput
          rw [List.mem_singleton.mp hinput]
        · exact fun _ => hleft
        · exact fun hnot => absurd (hbuffered.mpr fun _ => hbuf) hnot
      · rw [if_neg hbuf] at hserve
        refine ⟨none, [], ⟨?_, ?_, ?_, fun _ h => absurd h List.not_mem_nil⟩, ?_, ?_⟩
        · rw [hserve]
          show (s.reserve _ _).clients.set i none = _
          rw [reserve_clients]
          rfl
        · rw [hserve]
          exact reserve_connected s _ _
        · rw [hserve, List.append_nil]
          exact reserve_passed s _ _
        · exact fun hyes => absurd (hbuffered.mp hyes hpayload) hbuf
        · intro _
          refine ⟨rfl, rfl, ?_⟩
          rw [hleft]
          exact List.cons_ne_nil _ _

/-- A free slot has no turn. -/
theorem serve_of_free (io : UdsTickIO) (h : ¬∃ c, s.Has i c) : s.serve io i = s := by
  have hnone : s.clients.getD i none = none := by
    rw [List.getD_eq_getElem?_getD]
    cases hi : s.clients[i]? with
    | none => rfl
    | some slot =>
      cases slot with
      | none => rfl
      | some c => exact absurd ⟨c, hi⟩ h
  unfold serve
  rw [hnone]

/-! ## What the turns keep -/

section Turns

variable {t : DataUds} {next : Option UdsSource} {news : List HelperInput}

theorem Turn.has (h : Turn s t i c next news) (hc : s.Has i c) {j : ℕ} {c' : UdsHelper} :
    t.Has j c' ↔ (j = i ∧ ∃ source, next = some source ∧ c' = { c with source := source }) ∨
      (j ≠ i ∧ s.Has j c') := by
  have hlt : i < s.clients.length := (List.getElem?_eq_some_iff.mp hc).1
  unfold Has
  rw [h.clients, List.getElem?_set]
  by_cases hij : i = j
  · subst hij
    rw [if_pos rfl, if_pos hlt, Option.some.injEq, Option.map_eq_some_iff]
    constructor
    · rintro ⟨source, hnext, rfl⟩
      exact Or.inl ⟨rfl, source, hnext, rfl⟩
    · rintro (⟨-, source, hnext, rfl⟩ | ⟨hne, -⟩)
      · exact ⟨source, hnext, rfl⟩
      · exact absurd rfl hne
  · rw [if_neg hij]
    constructor
    · exact fun hj => Or.inr ⟨fun heq => hij heq.symm, hj⟩
    · rintro (⟨rfl, -⟩ | ⟨-, hj⟩)
      · exact absurd rfl hij
      · exact hj

/-- Another slot has no part in a turn. -/
theorem Turn.other (h : Turn s t i c next news) {j : ℕ} (hne : j ≠ i) :
    t.clients[j]? = s.clients[j]? := by
  rw [h.clients, List.getElem?_set_ne fun heq => hne heq.symm]

theorem Turn.inputsOf_self (h : Turn s t i c next news) :
    t.inputsOf c.helper = s.inputsOf c.helper ++ news := by
  unfold inputsOf
  rw [h.passed, List.filter_append]
  congr 1
  rw [List.filter_eq_self]
  exact fun input hinput => beq_iff_eq.mpr (h.helper input hinput)

theorem Turn.inputsOf_other (h : Turn s t i c next news) {k : ℕ} (hne : k ≠ c.helper) :
    t.inputsOf k = s.inputsOf k := by
  unfold inputsOf
  rw [h.passed, List.filter_append]
  have hnone : (news.filter fun input => input.helper == k) = [] := by
    rw [List.filter_eq_nil_iff]
    intro input hinput heq
    exact hne ((beq_iff_eq.mp heq).symm.trans (h.helper input hinput))
  rw [hnone, List.append_nil]

/-- The records agree with each other: no helper has two slots, and the callback got nothing from a
helper that has not registered. -/
structure UdsInv (s : DataUds) : Prop where
  kept : FramesKept s
  distinct : ∀ i j c c', s.Has i c → s.Has j c' → c.helper = c'.helper → i = j
  known : ∀ input ∈ s.passed, input.helper < s.connected.length

/-- A turn after which nothing is missing. -/
theorem UdsInv.turn (h : UdsInv s) (hc : s.Has i c) (hturn : Turn s t i c next news)
    (hbalance : inputsLeft c c.source = news ++ next.elim [] (inputsLeft c)) : UdsInv t := by
  obtain ⟨conn, hconn, htrack, hinputs⟩ := h.kept.active i c hc
  -- no two slots belong to one helper, so the others lose nothing
  have hother : ∀ {j c'}, j ≠ i → s.Has j c' → c'.helper ≠ c.helper := fun hne hj heq =>
    hne (h.distinct _ _ _ _ hj hc heq)
  have hsame : s.inputsOf c.helper ++ (news ++ next.elim [] (inputsLeft c)) =
      inputsFrom c.helper conn.trackId conn.input := by
    rw [← hbalance]
    exact hinputs
  refine ⟨⟨?_, ?_⟩, ?_, ?_⟩
  · intro j c' hj
    rcases (hturn.has hc).mp hj with ⟨rfl, source, rfl, rfl⟩ | ⟨hne, hj⟩
    · refine ⟨conn, hturn.connected ▸ hconn, htrack, ?_⟩
      show t.inputsOf c.helper ++ inputsLeft c source = _
      rw [hturn.inputsOf_self, List.append_assoc]
      exact hsame
    · obtain ⟨conn', hconn', htrack', hinputs'⟩ := h.kept.active j c' hj
      refine ⟨conn', hturn.connected ▸ hconn', htrack', ?_⟩
      rw [hturn.inputsOf_other (hother hne hj)]
      exact hinputs'
  · intro k conn' hconn' hgone
    rw [hturn.connected] at hconn'
    by_cases hk : k = c.helper
    · subst hk
      obtain rfl := Option.some.inj (hconn.symm.trans hconn')
      -- the helper of this turn is gone if the turn closed its slot
      cases hnext : next with
      | none =>
        rw [hnext] at hsame
        rw [hturn.inputsOf_self, ← hsame]
        exact congrArg (s.inputsOf c.helper ++ ·) (List.append_nil news).symm
      | some source =>
        have hslot : t.Has i { c with source := source } :=
          (hturn.has hc).mpr (Or.inl ⟨rfl, source, hnext, rfl⟩)
        exact (hgone i _ hslot rfl).elim
    · rw [hturn.inputsOf_other hk]
      refine h.kept.gone k conn' hconn' fun j c' hj => ?_
      by_cases hji : j = i
      · subst hji
        obtain rfl := Option.some.inj (Option.some.inj (hc.symm.trans hj))
        exact fun heq => hk heq.symm
      · exact hgone j c' ((hturn.has hc).mpr (Or.inr ⟨hji, hj⟩))
  · intro j j' d d' hj hj' heq
    rcases (hturn.has hc).mp hj with ⟨rfl, source, -, rfl⟩ | ⟨hne, hj⟩
    · rcases (hturn.has hc).mp hj' with ⟨rfl, -⟩ | ⟨hne', hj'⟩
      · rfl
      · exact absurd heq.symm (hother hne' hj')
    · rcases (hturn.has hc).mp hj' with ⟨rfl, source, -, rfl⟩ | ⟨hne', hj'⟩
      · exact absurd heq (hother hne hj)
      · exact h.distinct j j' d d' hj hj' heq
  · intro input hinput
    rw [hturn.connected]
    rw [hturn.passed] at hinput
    rcases List.mem_append.mp hinput with hinput | hinput
    · exact h.known input hinput
    · rw [hturn.helper input hinput]
      exact (List.getElem?_eq_some_iff.mp hconn).1

/-- A helper is gone, and the callback did not get all of its frames. -/
def Lost (s : DataUds) : Prop :=
  ∃ k conn, s.connected[k]? = some conn ∧ (∀ i c, s.Has i c → c.helper ≠ k) ∧
    s.inputsOf k ≠ inputsFrom k conn.trackId conn.input

theorem Lost.not_kept (h : s.Lost) : ¬FramesKept s := by
  obtain ⟨k, conn, hconn, hgone, hne⟩ := h
  exact fun hkept => hne (hkept.gone k conn hconn hgone)

/-- What is lost stays lost. -/
theorem Lost.turn (h : s.Lost) (hc : s.Has i c) (hturn : Turn s t i c next news) : t.Lost := by
  obtain ⟨k, conn, hconn, hgone, hne⟩ := h
  have hk : k ≠ c.helper := fun heq => hgone i c hc heq.symm
  refine ⟨k, conn, hturn.connected ▸ hconn, fun j c' hj => ?_, ?_⟩
  · rcases (hturn.has hc).mp hj with ⟨-, source, -, rfl⟩ | ⟨-, hj⟩
    · exact hgone i c hc
    · exact hgone j c' hj
  · rw [hturn.inputsOf_other hk]
    exact hne

/-- A turn in which a frame is lost. -/
theorem UdsInv.lost (h : UdsInv s) (hc : s.Has i c) (hturn : Turn s t i c none [])
    (hleft : inputsLeft c c.source ≠ []) : t.Lost := by
  obtain ⟨conn, hconn, htrack, hinputs⟩ := h.kept.active i c hc
  refine ⟨c.helper, conn, hturn.connected ▸ hconn, fun j c' hj => ?_, ?_⟩
  · rcases (hturn.has hc).mp hj with ⟨-, source, hnext, -⟩ | ⟨hne, hj⟩
    · exact absurd hnext (Option.some_ne_none source).symm
    · exact fun heq => hne (h.distinct j i c' c hj hc heq)
  · rw [hturn.inputsOf_self, List.append_nil, ← hinputs]
    intro heq
    exact hleft (List.append_right_eq_self.mp heq.symm)

end Turns

/-- A turn keeps the frames when it has a buffer, and loses one otherwise. -/
theorem UdsInv.serve (h : UdsInv s) (io : UdsTickIO) (i : ℕ) :
    (Buffered io s i → UdsInv (s.serve io i)) ∧ (¬Buffered io s i → (s.serve io i).Lost) := by
  by_cases hslot : ∃ c, s.Has i c
  · obtain ⟨c, hc⟩ := hslot
    obtain ⟨next, news, hturn, hgood, hbad⟩ := turn_serve io hc
    refine ⟨fun hb => h.turn hc hturn (hgood hb), fun hb => ?_⟩
    obtain ⟨rfl, rfl, hleft⟩ := hbad hb
    exact h.lost hc hturn hleft
  · rw [serve_of_free io hslot]
    exact ⟨fun _ => h, fun hb => absurd (fun c hc => absurd ⟨c, hc⟩ hslot) hb⟩

theorem Lost.serve (h : s.Lost) (io : UdsTickIO) (i : ℕ) : (s.serve io i).Lost := by
  by_cases hslot : ∃ c, s.Has i c
  · obtain ⟨c, hc⟩ := hslot
    obtain ⟨next, news, hturn, -, -⟩ := turn_serve io hc
    exact h.turn hc hturn
  · rw [serve_of_free io hslot]
    exact h

/-! ## A tick -/

/-- The turns of a tick, one after the other. -/
theorem turns_of_along {is : List ℕ} :
    ∀ {s : DataUds}, UdsInv s →
      (Along (serveStep io) (Buffered io) s is → UdsInv (is.foldl (serve io) s)) ∧
      (¬Along (serveStep io) (Buffered io) s is → (is.foldl (serve io) s).Lost) := by
  have hlost : ∀ (is : List ℕ) {s : DataUds}, s.Lost → (is.foldl (serve io) s).Lost := by
    intro is
    induction is with
    | nil => exact fun h => h
    | cons i is ih => exact fun h => ih (h.serve io i)
  induction is with
  | nil => exact fun h => ⟨fun _ => h, fun hnot => absurd trivial hnot⟩
  | cons i is ih =>
    intro s h
    obtain ⟨hgood, hbad⟩ := h.serve io i
    have hcons : Along (serveStep io) (Buffered io) s (i :: is) ↔
        Buffered io s i ∧ Along (serveStep io) (Buffered io) (s.serve io i) is := by
      refine and_congr_right fun _ => ⟨fun hall => hall _ _ rfl, fun hrest s' o hstep => ?_⟩
      obtain ⟨rfl, -⟩ := Prod.mk.inj (Option.some.inj hstep)
      exact hrest
    rw [hcons, List.foldl_cons]
    refine ⟨fun hall => (ih (hgood hall.1)).1 hall.2, fun hnot => ?_⟩
    by_cases hb : Buffered io s i
    · exact (ih (hgood hb)).2 fun hrest => hnot ⟨hb, hrest⟩
    · exact hlost is (hbad hb)

/-- What `accept` changes. -/
theorem accept_cases {source : UdsSource} {s' : DataUds} (h : s.accept source = .ok s') :
    s' = s ∨ ∃ slot track rest, s.clients[slot]? = some none ∧
      s' = { s.setClient slot (some ⟨s.connected.length, track, rest⟩) with
        connected := s.connected ++ [⟨track, udsFlow rest⟩] } := by
  unfold accept at h
  split at h
  · exact absurd h (by simp)
  · exact Or.inl (Except.ok.inj h).symm
  · next track rest _ =>
    split at h
    · exact Or.inl (Except.ok.inj h).symm
    · next slot hslot =>
      right
      obtain ⟨hlt, hfree, -⟩ := List.findIdx?_eq_some_iff_getElem.mp hslot
      refine ⟨slot, track, rest, ?_, (Except.ok.inj h).symm⟩
      rw [List.getElem?_eq_getElem hlt, Option.isNone_iff_eq_none.mp hfree]

theorem Has.accept {s' : DataUds} {source : UdsSource} (h : s.accept source = .ok s')
    (hc : s.Has i c) : s'.Has i c := by
  rcases accept_cases h with rfl | ⟨slot, track, rest, hfree, rfl⟩
  · exact hc
  · have hne : slot ≠ i := by
      rintro rfl
      exact Option.some_ne_none c (Option.some.inj (hc.symm.trans hfree))
    show (s.clients.set slot _)[i]? = _
    rw [List.getElem?_set_ne hne]
    exact hc

/-- A new helper has sent nothing yet. -/
theorem UdsInv.accept {s' : DataUds} {source : UdsSource} (h : UdsInv s)
    (haccept : s.accept source = .ok s') : UdsInv s' := by
  rcases accept_cases haccept with rfl | ⟨slot, track, rest, hfree, rfl⟩
  · exact h
  have hlt : slot < s.clients.length := (List.getElem?_eq_some_iff.mp hfree).1
  have hhas : ∀ j d, DataUds.Has { s.setClient slot (some ⟨s.connected.length, track, rest⟩) with
        connected := s.connected ++ [⟨track, udsFlow rest⟩] } j d ↔
      (j = slot ∧ d = ⟨s.connected.length, track, rest⟩) ∨ (j ≠ slot ∧ s.Has j d) := by
    intro j d
    show (s.clients.set slot _)[j]? = _ ↔ _
    rw [List.getElem?_set]
    by_cases hj : slot = j
    · subst hj
      rw [if_pos rfl, if_pos hlt, Option.some.injEq, Option.some.injEq]
      constructor
      · exact fun heq => Or.inl ⟨rfl, heq.symm⟩
      · rintro (⟨-, heq⟩ | ⟨hne, -⟩)
        · exact heq.symm
        · exact absurd rfl hne
    · rw [if_neg hj]
      constructor
      · exact fun hd => Or.inr ⟨fun heq => hj heq.symm, hd⟩
      · rintro (⟨rfl, -⟩ | ⟨-, hd⟩)
        · exact absurd rfl hj
        · exact hd
  have hold : ∀ {j d}, s.Has j d → d.helper < s.connected.length := by
    intro j d hd
    obtain ⟨conn, hconn, -, -⟩ := h.kept.active j d hd
    exact (List.getElem?_eq_some_iff.mp hconn).1
  -- nothing was passed on for a helper that is not there yet
  have hnew : s.inputsOf s.connected.length = [] := by
    unfold inputsOf
    rw [List.filter_eq_nil_iff]
    intro input hinput heq
    have hknown := h.known input hinput
    rw [beq_iff_eq.mp heq] at hknown
    exact lt_irrefl _ hknown
  refine ⟨⟨fun j d hd => ?_, fun k conn hconn hgone => ?_⟩, fun j j' d d' hj hj' heq => ?_,
    fun input hinput => ?_⟩
  · show ∃ conn, (s.connected ++ [_])[d.helper]? = some conn ∧ _
    rcases (hhas j d).mp hd with ⟨rfl, rfl⟩ | ⟨-, hd⟩
    · refine ⟨⟨track, udsFlow rest⟩, List.getElem?_concat_length, rfl, ?_⟩
      show s.inputsOf s.connected.length ++ _ = _
      rw [hnew, List.nil_append]
    · obtain ⟨conn, hconn, hboth⟩ := h.kept.active j d hd
      exact ⟨conn, by rw [List.getElem?_append_left (hold hd)]; exact hconn, hboth⟩
  · have hconn' : (s.connected ++ [⟨track, udsFlow rest⟩])[k]? = some conn := hconn
    have hk : k ≠ s.connected.length := fun heq =>
      hgone slot _ ((hhas slot _).mpr (Or.inl ⟨rfl, rfl⟩)) heq.symm
    have hlen := (List.getElem?_eq_some_iff.mp hconn').1
    rw [List.length_append, List.length_singleton] at hlen
    rw [List.getElem?_append_left (by omega)] at hconn'
    refine h.kept.gone k conn hconn' fun j d hd => ?_
    refine hgone j d ((hhas j d).mpr (Or.inr ⟨?_, hd⟩))
    rintro rfl
    exact Option.some_ne_none d (Option.some.inj (hd.symm.trans hfree))
  · rcases (hhas j d).mp hj with ⟨hslot, rfl⟩ | ⟨-, hd⟩
    · rcases (hhas j' d').mp hj' with ⟨hslot', -⟩ | ⟨-, hd'⟩
      · rw [hslot, hslot']
      · exact absurd heq (ne_of_gt (hold hd'))
    · rcases (hhas j' d').mp hj' with ⟨-, rfl⟩ | ⟨-, hd'⟩
      · exact absurd heq (ne_of_lt (hold hd))
      · exact h.distinct j j' d d' hd hd' heq
  · show input.helper < (s.connected ++ [_]).length
    have hknown := h.known input hinput
    rw [List.length_append]
    omega

/-- What a turn leaves in the slots: another slot keeps its helper. -/
theorem clients_serve_other (io : UdsTickIO) (s : DataUds) {i j : ℕ} (hne : j ≠ i) :
    (s.serve io i).clients[j]? = s.clients[j]? := by
  by_cases hslot : ∃ c, s.Has i c
  · obtain ⟨c, hc⟩ := hslot
    obtain ⟨next, news, hturn, -, -⟩ := turn_serve io hc
    exact hturn.other hne
  · rw [serve_of_free io hslot]

theorem clients_turns_other (io : UdsTickIO) {j : ℕ} {is : List ℕ} (hj : j ∉ is) (s : DataUds) :
    (is.foldl (serve io) s).clients[j]? = s.clients[j]? := by
  induction is generalizing s with
  | nil => rfl
  | cons i is ih =>
    rw [List.mem_cons, not_or] at hj
    rw [List.foldl_cons, ih hj.2, clients_serve_other io s hj.1]

/-- The turn of a slot in a tick finds the helper as it was before. -/
theorem turn_of_mem {is : List ℕ} (hnodup : is.Nodup) (hi : i ∈ is) :
    ∀ {s : DataUds}, s.Has i c → Along (serveStep io) (Buffered io) s is →
      ∃ t : DataUds, t.Has i c ∧ Buffered io t i ∧
        (is.foldl (serve io) s).clients[i]? = (t.serve io i).clients[i]? := by
  induction is with
  | nil => exact absurd hi List.not_mem_nil
  | cons j is ih =>
    intro s hc halong
    rw [List.nodup_cons] at hnodup
    have hrest : Along (serveStep io) (Buffered io) (s.serve io j) is := halong.2 _ _ rfl
    rw [List.foldl_cons]
    by_cases hij : i = j
    · subst hij
      exact ⟨s, hc, halong.1, clients_turns_other io hnodup.1 (s.serve io i)⟩
    · have hmem : i ∈ is := List.mem_of_ne_of_mem hij hi
      have hc' : (s.serve io j).Has i c := (clients_serve_other io s hij).trans hc
      exact ih hnodup.2 hmem hc' hrest

theorem nodup_polled (s : DataUds) (io : UdsTickIO) : (s.polled io).Nodup :=
  List.nodup_range.filter _

/-- The condition for a tick: each frame it reads finds a buffer. -/
def TickBuffered (s : DataUds) (io : UdsTickIO) : Prop :=
  ∀ s', s.listen io = .ok s' → Along (serveStep io) (Buffered io) s' (s.polled io)

theorem UdsInv.listen {s' : DataUds} (h : UdsInv s) (hlisten : s.listen io = .ok s') :
    UdsInv s' := by
  unfold DataUds.listen at hlisten
  split at hlisten
  · rw [← Except.ok.inj hlisten]
    exact h
  · exact h.accept hlisten

theorem Has.listen {s' : DataUds} (hlisten : s.listen io = .ok s') (hc : s.Has i c) :
    s'.Has i c := by
  unfold DataUds.listen at hlisten
  split at hlisten
  · rw [← Except.ok.inj hlisten]
    exact hc
  · exact hc.accept hlisten

/-- A tick in which every frame finds a buffer serves each helper once. -/
theorem servesOne_of_buffered {s' : DataUds} (hbuffered : s.TickBuffered io)
    (h : dataUdsTick io s = .ok s') : s.ServesOne io s' := by
  unfold dataUdsTick at h
  split at h
  · exact absurd h (by simp)
  · next s₁ hlisten =>
    obtain rfl := Except.ok.inj h
    have halong := hbuffered s₁ hlisten
    intro i c hc
    have hc₁ := hc.listen hlisten
    refine ⟨fun hnot => ?_, fun hmem hnone => ?_, fun hmem p rest hsome => ?_⟩
    · exact (clients_turns_other io hnot s₁).trans hc₁
    · obtain ⟨t, ht, -, heq⟩ := turn_of_mem (nodup_polled s io) hmem hc₁ halong
      obtain ⟨b, n, hserve⟩ := serve_of_none io ht hnone
      have hlt : i < t.clients.length := (List.getElem?_eq_some_iff.mp ht).1
      rw [heq, hserve]
      show ((t.reserve b n).clients.set i none)[i]? = _
      rw [reserve_clients, List.getElem?_set_self hlt]
    · obtain ⟨t, ht, hbuf, heq⟩ := turn_of_mem (nodup_polled s io) hmem hc₁ halong
      have hlt : i < t.clients.length := (List.getElem?_eq_some_iff.mp ht).1
      have hnext : ∃ source, udsFlow source = rest ∧
          (t.serve io i).clients = t.clients.set i (some { c with source := source }) := by
        rcases serve_of_some io ht hsome with
          ⟨-, source, hflow, hserve⟩ | ⟨hpayload, source, hflow, hserve⟩
        · exact ⟨source, hflow, by rw [hserve]; rfl⟩
        · rw [if_pos (hbuf c ht p rest hsome hpayload)] at hserve
          refine ⟨source, hflow, ?_⟩
          rw [hserve]
          show (t.reserve _ _).clients.set i _ = _
          rw [reserve_clients]
      obtain ⟨source, hflow, hclients⟩ := hnext
      refine ⟨source, hflow, ?_⟩
      show ((s.polled io).foldl _ s₁).clients[i]? = _
      rw [heq, hclients, List.getElem?_set_self hlt]

end DataUds

/-! ## Runs -/

open DataUds

/-- `data_uds_tick` as a step: refused when a registration leaves `name[64]`. -/
def udsStep (s : DataUds) (io : UdsTickIO) : Option (DataUds × List HelperInput) :=
  match dataUdsTick io s with
  | .error _ => none
  | .ok s' => some (s', [])

/-- In a run of ticks the callback gets the frames of each helper, and each helper is served
whatever the others do. -/
def HelpersServed (ticks : List UdsTickIO) : Prop :=
  (∀ pre s o, pre <+: ticks → run udsStep create pre = some (s, o) → FramesKept s) ∧
    Along udsStep (fun s io => ∀ s' o, udsStep s io = some (s', o) → s.ServesOne io s') create ticks

theorem udsStep_eq_some {s s' : DataUds} {io : UdsTickIO} {o : List HelperInput}
    (h : udsStep s io = some (s', o)) : dataUdsTick io s = .ok s' := by
  unfold udsStep at h
  split at h
  · exact absurd h (Option.some_ne_none _).symm
  · next t ht =>
    obtain ⟨rfl, -⟩ := Prod.mk.inj (Option.some.inj h)
    exact ht

theorem udsInv_create : UdsInv create := by
  have hfree : ∀ i c, ¬create.Has i c := by
    intro i c hc
    have hmem := List.mem_of_getElem? hc
    exact absurd (List.eq_of_mem_replicate hmem) (Option.some_ne_none c)
  refine ⟨⟨fun i c hc => absurd hc (hfree i c), fun k conn hconn => ?_⟩,
    fun i j c c' hc => absurd hc (hfree i c), fun input hinput => absurd hinput List.not_mem_nil⟩
  exact absurd hconn (Option.some_ne_none conn).symm

/-- A tick keeps the frames when each frame it reads finds a buffer, and loses one otherwise. -/
theorem dataUdsTick_kept {s : DataUds} {io : UdsTickIO} (h : UdsInv s) :
    (∀ s' o, s.TickBuffered io → udsStep s io = some (s', o) → UdsInv s') ∧
      (¬s.TickBuffered io → ∃ s' o, udsStep s io = some (s', o) ∧ s'.Lost) := by
  constructor
  · intro s' o hbuffered hstep
    have htick := udsStep_eq_some hstep
    unfold dataUdsTick at htick
    split at htick
    · exact absurd htick (by simp)
    · next s₁ hlisten =>
      obtain rfl := Except.ok.inj htick
      exact (turns_of_along (h.listen hlisten)).1 (hbuffered s₁ hlisten)
  · intro hnot
    unfold TickBuffered at hnot
    rw [not_forall] at hnot
    obtain ⟨s₁, hnot⟩ := hnot
    rw [Classical.not_imp] at hnot
    obtain ⟨hlisten, hnot⟩ := hnot
    refine ⟨(s.polled io).foldl (serve io) s₁, [], ?_, (turns_of_along (h.listen hlisten)).2 hnot⟩
    unfold udsStep dataUdsTick
    rw [hlisten]

/-- The callback gets the frames of each helper exactly in the runs in which each complete frame
with a payload finds a buffer: its own `realloc` succeeds, or none is needed and the last one
did. -/
theorem helper_frames_iff (ticks : List UdsTickIO) :
    HelpersServed ticks ↔ Along udsStep TickBuffered create ticks := by
  have hkept : (∀ pre s o, pre <+: ticks → run udsStep create pre = some (s, o) → FramesKept s) ↔
      Along udsStep TickBuffered create ticks := by
    refine safe_iff_along (J := UdsInv) (H := fun _ _ => True) (fun s h => h.kept) ?_ ?_
      udsInv_create (along_of_forall (fun _ _ => trivial) _ _)
    · intro s io s' o h _ hbuffered hstep
      exact (dataUdsTick_kept h).1 s' o hbuffered hstep
    · intro s io h hnot
      obtain ⟨s', o, hstep, hlost⟩ := (dataUdsTick_kept h).2 hnot
      exact ⟨s', o, hstep, hlost.not_kept⟩
  refine ⟨fun h => hkept.mp h.1, fun h => ⟨hkept.mpr h, ?_⟩⟩
  exact along_mono (fun s io hbuffered s' o hstep =>
    servesOne_of_buffered hbuffered (udsStep_eq_some hstep)) h

/-- The registration of a helper for an unnamed DATA track. -/
def dataRegistration : Bytes := [MOQ_TRACK_DATA, 0, 0]

/-- Two helpers register. The first one announces a frame of 2^32 - 1 bytes and disconnects, and the
`realloc` for it fails; then the second one is read from. -/
def hugeFrame : List UdsTickIO :=
  [⟨some [.bytes dataRegistration, .bytes [255, 255, 255, 255, 1], .other .eof], fun _ => true,
      fun _ => false, fun _ => true⟩,
    ⟨some [.bytes dataRegistration, .bytes (helperFrame ⟨1, [42]⟩)], fun _ => true, fun _ => false,
      fun _ => true⟩,
    ⟨none, fun _ => true, fun i => i == 0, fun _ => false⟩,
    ⟨none, fun _ => true, fun i => i == 1, fun _ => true⟩]

/-- The frame of the second helper is complete, and the callback does not get it. -/
theorem not_helpersServed_huge : ¬HelpersServed hugeFrame := by
  rintro ⟨hkept, -⟩
  obtain ⟨s, hrun, hclients, hconnected, hpassed⟩ : ∃ s,
      run udsStep create hugeFrame = some (s, []) ∧
      s.clients = List.replicate MAX_UDS_CLIENTS none ∧
      s.connected[1]? = some ⟨⟨MOQ_TRACK_DATA, 0, TrackName.empty⟩, helperFrame ⟨1, [42]⟩⟩ ∧
      s.passed = [] := ⟨_, rfl, by decide, by decide, by decide⟩
  have hgone : ∀ i c, s.Has i c → c.helper ≠ 1 := by
    intro i c hc
    have hmem := List.mem_of_getElem? hc
    rw [hclients] at hmem
    exact absurd (List.eq_of_mem_replicate hmem) (Option.some_ne_none c)
  have hinputs := (hkept hugeFrame s [] (List.prefix_refl _) hrun).gone 1 _ hconnected hgone
  have hframes : udsFrames ([⟨1, [42]⟩].flatMap helperFrame ++ []) = [⟨1, [42]⟩] :=
    udsFrames_frames (by decide) (by decide)
  have hone : udsFrames (helperFrame ⟨1, [42]⟩) = [⟨1, [42]⟩] := hframes
  unfold inputsFrom inputsOf at hinputs
  rw [hpassed, hone] at hinputs
  exact absurd hinputs (by decide)

end Bishlink
