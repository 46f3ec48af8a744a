import Bishlink.Callback
import Bishlink.ControlCodec
import Bishlink.Lib.Reader

/-!
# The control stream in chunks

`on_receive` on the control stream with the callback in the loop is a `Framing.Reader`: its state
is the reception without the bytes that wait (`controlLoop_eq_read`). What the messages do and the
bytes left over therefore do not depend on how QUIC cuts the stream (`control_chunks`).
-/

namespace Bishlink

open Framing

variable (lib : FecLib) (io : ℕ → ControlIO) (app : Application) (conn sid : ℕ)

/-! ## The reader -/

/-- The control stream with these bytes waiting. -/
def Stream.control (bs : Bytes) (s : Stream) : Stream := { s with isControl := true, ingress := bs }

/-- A message is handled, and the callback called. -/
def controlAct (q : Reception) (m : ControlMessage) : Reception × List Effect :=
  match q.transport.findConn conn with
  | none => (q, [])
  | some c =>
    let r := handleControlMessage lib (io q.handled) q.transport c m
    let d := deliver lib app { q with transport := r.1.setConn r.2.1 } r.2.2
    ({ d.1 with handled := d.1.handled + 1 }, d.2)

/-- The connection is closed. -/
def controlRefuse (q : Reception) (reason : String) : Reception × List Effect :=
  match q.transport.findConn conn with
  | none => (q, [])
  | some c => ({ q with transport := q.transport.setConn (c.close reason).1 }, (c.close reason).2)

/-- What is found at the start of the bytes. -/
def controlParse (q : Reception) (bs : Bytes) : ControlParse :=
  match (q.transport.findConn conn) with
  | none => .more
  | some c =>
    match c.findStream sid with
    | none => .more
    | some _ => parseControlMessage q.transport.isServer c.authenticated bs

/-- `parse_control_messages` with its callback. -/
def controlReader : Reader Reception ControlMessage String Effect where
  parse := controlParse conn sid
  act := controlAct lib io app conn
  refuse := controlRefuse conn

theorem controlParse_stable (q : Reception) : Stable (controlParse conn sid q) := by
  unfold controlParse
  cases q.transport.findConn conn with
  | none => exact ⟨fun h => by simp at h, fun h => by simp at h, fun h => by simp at h⟩
  | some c =>
    dsimp only
    cases c.findStream sid with
    | none => exact ⟨fun h => by simp at h, fun h => by simp at h, fun h => by simp at h⟩
    | some s => exact parseControlMessage_stable q.transport.isServer c.authenticated

/-- The connection after a refusal. -/
theorem findConn_refuse {q : Reception} {c : Conn} (h : q.transport.findConn conn = some c)
    (reason : String) :
    (controlRefuse conn q reason).1.transport.findConn conn = some (c.close reason).1 := by
  obtain ⟨-, rfl⟩ := Transport.findConn_eq_some h
  unfold controlRefuse
  rw [h]
  exact Transport.findConn_setConn (c := c) h

theorem setConn_setConn (t : Transport) (c : Conn) : (t.setConn c).setConn c = t.setConn c := by
  unfold Transport.setConn
  dsimp only
  rw [List.map_map]
  congr 1
  refine List.map_congr_left fun x _ => ?_
  dsimp only [Function.comp]
  by_cases hx : x.ptr = c.ptr
  · simp only [if_pos hx, if_true]
  · simp only [if_neg hx]

theorem controlReader_lawful : (controlReader lib io app conn sid).Lawful := by
  refine ⟨controlParse_stable conn sid, ?_, ?_⟩
  · intro q reason bs
    show controlParse conn sid (controlRefuse conn q reason).1 bs = controlParse conn sid q bs
    cases hc : q.transport.findConn conn with
    | none =>
      have hsame : controlRefuse conn q reason = (q, []) := by rw [controlRefuse, hc]
      rw [hsame]
    | some c =>
      have hserver : (controlRefuse conn q reason).1.transport.isServer = q.transport.isServer := by
        rw [controlRefuse, hc]
        rfl
      rw [controlParse, controlParse, findConn_refuse conn hc reason, hc, hserver]
      rfl
  · intro q reason
    show controlRefuse conn (controlRefuse conn q reason).1 reason = controlRefuse conn q reason
    cases hc : q.transport.findConn conn with
    | none =>
      have hsame : controlRefuse conn q reason = (q, []) := by rw [controlRefuse, hc]
      rw [hsame, hsame]
    | some c =>
      rw [controlRefuse, findConn_refuse conn hc reason, controlRefuse, hc]
      dsimp only
      have hclose : ((c.close reason).1.close reason) = c.close reason := rfl
      rw [hclose, setConn_setConn]

/-! ## The loop is the reader -/

variable {lib io app conn sid}

theorem unseen_control (bs : Bytes) : Unseen (Stream.control bs) := ⟨fun _ => rfl, fun _ => rfl⟩

/-- The reception with these bytes waiting on the control stream. -/
def Reception.control (q : Reception) (conn sid : ℕ) (bs : Bytes) : Reception :=
  q.updateStream conn sid (Stream.control bs)

theorem handleControlMessage_streams (lib : FecLib) (io : ControlIO) (t : Transport) (c : Conn)
    (m : ControlMessage) : (handleControlMessage lib io t c m).2.1.streams = c.streams := by
  cases m with
  | data trackAlias payload =>
    simp only [handleControlMessage]
    split <;> rfl
  | nack trackAlias groupId objectId missing =>
    simp only [handleControlMessage]
    split
    · rfl
    · split <;> rfl
  | _ => rfl

/-- Handling a message does not look at what waits on a stream. -/
theorem handleControlMessage_updateAt (lib : FecLib) (io : ControlIO) (f : Stream → Stream)
    (t : Transport) (c : Conn) (m : ControlMessage) :
    handleControlMessage lib io (t.updateStream conn sid f) (c.updateAt conn sid f) m =
      ((handleControlMessage lib io t c m).1.updateStream conn sid f,
        (handleControlMessage lib io t c m).2.1.updateAt conn sid f,
        (handleControlMessage lib io t c m).2.2) := by
  -- the connection is changed in its streams or not at all, and no message looks at these
  have hchange : ∃ streams, ∀ c' : Conn, c'.ptr = c.ptr → c'.streams = c.streams →
      c'.updateAt conn sid f = { c' with streams := streams } := by
    by_cases hptr : c.ptr = conn
    · refine ⟨(c.updateStream sid f).streams, fun c' h hs => ?_⟩
      rw [Conn.updateAt, if_pos (h.trans hptr), Conn.updateStream, hs]
      rfl
    · refine ⟨c.streams, fun c' h hs => ?_⟩
      rw [Conn.updateAt, if_neg (fun h' => hptr (h.symm.trans h')), ← hs]
  obtain ⟨streams, hchange⟩ := hchange
  rw [hchange c rfl rfl, hchange _ (handleControlMessage_ptr lib io t c m)
    (handleControlMessage_streams lib io t c m)]
  cases m with
  | data trackAlias payload =>
    simp only [handleControlMessage]
    split <;> rfl
  | nack trackAlias groupId objectId missing =>
    have hcache : (t.updateStream conn sid f).sentCache = t.sentCache := rfl
    simp only [handleControlMessage, hcache]
    split
    · rfl
    · split <;> rfl
  | _ => rfl

/-- Bytes are taken from those that wait. -/
theorem shift_control {c : Conn} (hptr : c.ptr = conn) (bs : Bytes) (n : ℕ) :
    (c.updateAt conn sid (Stream.control bs)).shift sid n =
      c.updateAt conn sid (Stream.control (bs.drop n)) := by
  rw [Conn.updateAt, if_pos hptr, Conn.updateAt, if_pos hptr]
  unfold Conn.shift Conn.updateStream
  dsimp only
  rw [List.map_map]
  congr 1
  refine List.map_congr_left fun s _ => ?_
  dsimp only [Function.comp]
  by_cases hid : s.id = sid
  · simp only [if_pos hid, if_pos (show (s.control bs).id = sid from hid)]
    rfl
  · simp only [if_neg hid]

variable (lib io) in
/-- What the reader finds is what an iteration does. -/
theorem receiveStep_control (happ : ∀ seen, ∀ call ∈ app seen, call.Spares conn sid)
    {q : Reception} (hptrs : q.transport.ptrs.Nodup) (bs : Bytes) :
    (controlParse conn sid q bs = .more →
      receiveStep lib app (controlStep lib io) conn sid (q.control conn sid bs) =
        (q.control conn sid bs, [], false)) ∧
    (∀ reason, controlParse conn sid q bs = .stop reason →
      receiveStep lib app (controlStep lib io) conn sid (q.control conn sid bs) =
        ((controlRefuse conn q reason).1.control conn sid bs, (controlRefuse conn q reason).2,
          false)) ∧
    ∀ m n, controlParse conn sid q bs = .item m n →
      receiveStep lib app (controlStep lib io) conn sid (q.control conn sid bs) =
        ((controlAct lib io app conn q m).1.control conn sid (bs.drop n),
          (controlAct lib io app conn q m).2, true) := by
  have hfind : (q.control conn sid bs).transport.findConn conn =
      (q.transport.findConn conn).map (Conn.updateAt conn sid (Stream.control bs)) :=
    findConn_updateStream q.transport conn
  unfold receiveStep controlParse controlAct controlRefuse
  rw [hfind]
  cases hc : q.transport.findConn conn with
  | none => exact ⟨fun _ => rfl, fun _ h => by simp at h, fun _ _ h => by simp at h⟩
  | some c =>
    have hptr := (Transport.findConn_eq_some hc).2
    rw [Option.map_some]
    dsimp only
    rw [findStream_updateAt (unseen_control bs) hptr]
    cases hs : c.findStream sid with
    | none => exact ⟨fun _ => rfl, fun _ h => by simp at h, fun _ _ h => by simp at h⟩
    | some s =>
      have hid : s.id = sid := by
        have hfound := List.find?_some hs
        exact beq_iff_eq.mp hfound
      have hstep : controlStep lib io q.handled (q.control conn sid bs).transport
          (c.updateAt conn sid (Stream.control bs)) (s.control bs) =
          controlIteration lib (io q.handled) (q.control conn sid bs).transport
            (c.updateAt conn sid (Stream.control bs)) sid bs := by
        rw [← hid]
        rfl
      have hserver : (q.control conn sid bs).transport.isServer = q.transport.isServer := rfl
      have hhandled : (q.control conn sid bs).handled = q.handled := rfl
      rw [Option.map_some]
      dsimp only
      rw [hhandled, hstep]
      unfold controlIteration
      rw [hserver, updateAt_authenticated]
      -- what an iteration leaves in the stream is put back last
      have hback : ∀ {t₁ : Transport} (c₁ : Conn), c₁.ptr = conn → ∀ bs',
          (t₁.updateStream conn sid (Stream.control bs)).setConn
              (c₁.updateAt conn sid (Stream.control bs')) =
            (t₁.setConn c₁).updateStream conn sid (Stream.control bs') :=
        fun _ h bs' => setConn_updateStream h (Stream.control bs') _
      refine ⟨fun hmore => ?_, fun reason hstop => ?_, fun m n hitem => ?_⟩
      · have hself : (q.control conn sid bs).transport.setConn
            (c.updateAt conn sid (Stream.control bs)) = (q.control conn sid bs).transport := by
          refine (hback c hptr bs).trans ?_
          rw [setConn_self hptrs hc]
          rfl
        rw [hmore]
        dsimp only [deliver]
        rw [hself]
        rfl
      · have hclose : (q.control conn sid bs).transport.setConn
            ((c.updateAt conn sid (Stream.control bs)).close reason).1 =
            (q.transport.setConn (c.close reason).1).updateStream conn sid (Stream.control bs) := by
          unfold Conn.close
          rw [updateAt_with_closing]
          exact hback { c with closing := true } hptr bs
        have heffect : ((c.updateAt conn sid (Stream.control bs)).close reason).2 =
            (c.close reason).2 := by
          unfold Conn.close
          rw [updateAt_ptr]
        rw [hstop]
        dsimp only
        rw [hclose, heffect]
        rfl
      · have hhandle : handleControlMessage lib (io q.handled) (q.control conn sid bs).transport
            (c.updateAt conn sid (Stream.control bs)) m = _ :=
          handleControlMessage_updateAt lib (io q.handled) (Stream.control bs) q.transport c m
        have hptr' := (handleControlMessage_ptr lib (io q.handled) q.transport c m).trans hptr
        have hdeliver := deliver_updateStream (unseen_control (bs.drop n)) lib happ
          { q with
            transport := ((handleControlMessage lib (io q.handled) q.transport c m).1.setConn
              (handleControlMessage lib (io q.handled) q.transport c m).2.1) }
          (handleControlMessage lib (io q.handled) q.transport c m).2.2
        rw [hitem]
        dsimp only
        rw [hhandle]
        dsimp only
        rw [shift_control hptr', hback _ hptr', if_pos rfl]
        exact congrArg (fun d : Reception × List Effect =>
          (({ d.1 with handled := d.1.handled + 1 } : Reception), d.2, true)) hdeliver

theorem ptrs_controlAct (q : Reception) (m : ControlMessage) :
    (controlAct lib io app conn q m).1.transport.ptrs = q.transport.ptrs := by
  unfold controlAct
  cases q.transport.findConn conn with
  | none => rfl
  | some c =>
    dsimp only
    rw [ptrs_deliver, ptrs_setConn]
    obtain ⟨fc, hfc⟩ := handleControlMessage_transport lib (io q.handled) q.transport c m
    rw [hfc]
    rfl

variable (lib io) in
/-- The loop is the reader, beside the bytes that wait. -/
theorem controlLoop_eq_read (happ : ∀ seen, ∀ call ∈ app seen, call.Spares conn sid) (fuel : ℕ)
    {q : Reception} (hptrs : q.transport.ptrs.Nodup) (bs : Bytes) :
    receiveLoop lib app (controlStep lib io) conn sid fuel (q.control conn sid bs) =
      (((controlReader lib io app conn sid).readFuel fuel q bs).state.control conn sid
          ((controlReader lib io app conn sid).readFuel fuel q bs).rest,
        ((controlReader lib io app conn sid).readFuel fuel q bs).out) := by
  induction fuel generalizing q bs with
  | zero => rfl
  | succ fuel ih =>
    obtain ⟨hmore, hstop, hitem⟩ := receiveStep_control lib io happ hptrs bs
    rw [receiveLoop, Reader.readFuel]
    cases hparse : (controlReader lib io app conn sid).parse q bs with
    | more =>
      rw [hmore hparse]
      rfl
    | stop reason =>
      rw [hstop reason hparse]
      rfl
    | item m n =>
      rw [hitem m n hparse]
      dsimp only
      have hptrs' : (controlAct lib io app conn q m).1.transport.ptrs.Nodup := by
        rw [ptrs_controlAct]
        exact hptrs
      rw [if_pos rfl, ih hptrs']
      rfl

theorem ptrs_readFuel (fuel : ℕ) (q : Reception) (bs : Bytes) :
    ((controlReader lib io app conn sid).readFuel fuel q bs).state.transport.ptrs =
      q.transport.ptrs := by
  induction fuel generalizing q bs with
  | zero => rfl
  | succ fuel ih =>
    rw [Reader.readFuel]
    split
    · rfl
    · show (controlRefuse conn q _).1.transport.ptrs = _
      unfold controlRefuse
      split
      · rfl
      · exact ptrs_setConn q.transport _
    · exact (ih _ _).trans (ptrs_controlAct q _)

variable (conn sid) in
theorem arrive_control (q : Reception) (bs chunk : Bytes) :
    (q.control conn sid bs).arrive conn sid chunk = q.control conn sid (bs ++ chunk) := by
  have happend : (q.transport.updateStream conn sid (Stream.control bs)).updateStream conn sid
      (fun s => { s with ingress := s.ingress ++ chunk }) =
      q.transport.updateStream conn sid (Stream.control (bs ++ chunk)) :=
    updateStream_updateStream (unseen_control bs) _ q.transport
  exact congrArg (fun t : Transport => ({ q with transport := t } : Reception)) happend

variable (lib io) in
/-- `on_receive` on the control stream. -/
theorem onReceive_control (happ : ∀ seen, ∀ call ∈ app seen, call.Spares conn sid)
    {q : Reception} (hptrs : q.transport.ptrs.Nodup) (bs chunk : Bytes) :
    onReceive lib io app conn sid (q.control conn sid bs) chunk =
      (((controlReader lib io app conn sid).read q (bs ++ chunk)).state.control conn sid
          ((controlReader lib io app conn sid).read q (bs ++ chunk)).rest,
        ((controlReader lib io app conn sid).read q (bs ++ chunk)).out) := by
  have hfind : ((q.control conn sid (bs ++ chunk)).transport.findConn conn).bind
      (·.findStream sid) =
      ((q.transport.findConn conn).bind (·.findStream sid)).map (Stream.control (bs ++ chunk)) := by
    show ((q.transport.updateStream conn sid _).findConn conn).bind _ = _
    rw [findConn_updateStream]
    cases hc : q.transport.findConn conn with
    | none => rfl
    | some c =>
      exact findStream_updateAt (unseen_control _) (Transport.findConn_eq_some hc).2
  have hloop := controlLoop_eq_read lib io happ
    ((bs ++ chunk).length + 1) hptrs (bs ++ chunk)
  unfold onReceive
  rw [arrive_control]
  dsimp only
  rw [hfind]
  cases hstream : (q.transport.findConn conn).bind (·.findStream sid) with
  | some s => exact hloop
  | none =>
    have hmore : (controlReader lib io app conn sid).parse q (bs ++ chunk) = .more := by
      show controlParse conn sid q (bs ++ chunk) = .more
      unfold controlParse
      cases hc : q.transport.findConn conn with
      | none => rfl
      | some c =>
        rw [hc, Option.bind_some] at hstream
        dsimp only
        rw [hstream]
    rw [Reader.read_more hmore]
    rfl

variable (lib io) in
/-- The chunks arrive one after the other. -/
theorem receiveAll_control (happ : ∀ seen, ∀ call ∈ app seen, call.Spares conn sid)
    {w : Read Reception String Effect} (hptrs : w.state.transport.ptrs.Nodup)
    (chunks : List Bytes) :
    chunks.foldl (fun r chunk =>
        let d := onReceive lib io app conn sid r.1 chunk
        ((d.1, r.2 ++ d.2) : Reception × List Effect))
      (w.state.control conn sid w.rest, w.out) =
      ((chunks.foldl (controlReader lib io app conn sid).feed w).state.control conn sid
          (chunks.foldl (controlReader lib io app conn sid).feed w).rest,
        (chunks.foldl (controlReader lib io app conn sid).feed w).out) := by
  induction chunks generalizing w with
  | nil => rfl
  | cons chunk chunks ih =>
    rw [List.foldl_cons, List.foldl_cons]
    dsimp only
    rw [onReceive_control lib io happ hptrs]
    have hptrs' :
        ((controlReader lib io app conn sid).feed w chunk).state.transport.ptrs.Nodup := by
      show ((controlReader lib io app conn sid).read w.state _).state.transport.ptrs.Nodup
      rw [Reader.read, ptrs_readFuel]
      exact hptrs
    exact ih hptrs'

/-! ## Chunks do not matter -/

variable (conn) in
/-- What a refusal puts out. -/
theorem controlRefuse_out (q : Reception) (reason : String) :
    (controlRefuse conn q reason).2 = [] ∨
      (controlRefuse conn q reason).2 = [.close conn reason] := by
  unfold controlRefuse
  cases hc : q.transport.findConn conn with
  | none => exact Or.inl rfl
  | some c =>
    right
    show [Effect.close c.ptr reason] = _
    rw [(Transport.findConn_eq_some hc).2]

variable (lib io app conn sid) in
/-- Refusals that are made once more. -/
theorem again_control {w : Read Reception String Effect} (q : Reception) (bs : Bytes) (k : ℕ)
    (hw : (controlReader lib io app conn sid).read q bs = w) :
    ∃ reason k', (controlReader lib io app conn sid).again w k =
        List.replicate k' (.close conn reason) ∧ (k' ≠ 0 → .close conn reason ∈ w.out) := by
  unfold Reader.again
  cases hstopped : w.stopped with
  | none => exact ⟨"", 0, rfl, fun h => absurd rfl h⟩
  | some reason =>
    have hlast : ((controlReader lib io app conn sid).read q bs).stopped = some reason := by
      rw [hw, hstopped]
    obtain ⟨o, ho⟩ := Reader.out_of_stopped (controlReader_lawful lib io app conn sid) hlast
    rw [hw] at ho
    have hout : ∀ q', ((controlReader lib io app conn sid).refuse q' reason).2 =
        (controlRefuse conn q' reason).2 := fun _ => rfl
    dsimp only
    rw [hout] at ho ⊢
    rcases controlRefuse_out conn w.state reason with hnil | hclose
    · refine ⟨reason, 0, ?_, fun h => absurd rfl h⟩
      rw [hnil]
      simp
    · refine ⟨reason, k, ?_, fun _ => ?_⟩
      · rw [hclose]
        simp
      · rw [ho, hclose]
        simp

/-- An iteration that goes on has taken a byte at least. -/
theorem controlStep_consumes {k : ℕ} {t : Transport} {c : Conn} {s : Stream}
    (hs : c.findStream s.id = some s) (h : (controlStep lib io k t c s).goesOn = true) :
    ∃ n, 0 < n ∧ n ≤ s.ingress.length ∧
      (controlStep lib io k t c s).conn.findStream s.id =
        some { s with ingress := s.ingress.drop n } := by
  unfold controlStep controlIteration at h ⊢
  cases hparse : parseControlMessage t.isServer c.authenticated s.ingress with
  | more =>
    rw [hparse] at h
    exact absurd h Bool.false_ne_true
  | stop reason =>
    rw [hparse] at h
    exact absurd h Bool.false_ne_true
  | item m n =>
    obtain ⟨hpos, hle, -⟩ := parseControlMessage_item hparse
    refine ⟨n, hpos, hle, ?_⟩
    have hstream : (handleControlMessage lib (io k) t c m).2.1.findStream s.id = some s := by
      rw [Conn.findStream, handleControlMessage_streams]
      exact hs
    have hid : ∀ s : Stream, ({ s with ingress := s.ingress.drop n }).id = s.id := fun _ => rfl
    show ((handleControlMessage lib (io k) t c m).2.1.updateStream s.id _).findStream s.id = _
    rw [Conn.findStream_updateStream hid, hstream, Option.map_some]

/-- Control parsing does not depend on how the bytes are cut. From any state in which pointers and
stream ids are unique, and for any application, the bytes in chunks lead to the same transport (its
tables, flags and bytes left over), the same events and the same messages handled as all of them at
once, and to the same effects, but for closes of a connection that was closed already. Each
iteration that does not stop the loop takes a byte at least, and the loop comes to its stop: more
iterations than bytes change nothing. -/
theorem control_chunks (lib : FecLib) (io : ℕ → ControlIO) (app : Application) {conn sid : ℕ}
    (happ : ∀ seen, ∀ call ∈ app seen, call.Spares conn sid) {q : Reception} {c : Conn}
    {s : Stream} (hptrs : q.transport.ptrs.Nodup) (hids : (c.streams.map (·.id)).Nodup)
    (hc : q.transport.findConn conn = some c) (hs : c.findStream sid = some s)
    (hcontrol : s.isControl = true) {chunks : List Bytes} (hne : chunks ≠ []) :
    ((receiveAll lib io app conn sid q chunks).1 =
        (onReceive lib io app conn sid q chunks.flatten).1 ∧
      ∃ reason k, (receiveAll lib io app conn sid q chunks).2 =
          (onReceive lib io app conn sid q chunks.flatten).2 ++
            List.replicate k (.close conn reason) ∧
        (k ≠ 0 → .close conn reason ∈ (onReceive lib io app conn sid q chunks.flatten).2)) ∧
    (∀ k t c s, c.findStream s.id = some s → (controlStep lib io k t c s).goesOn = true →
      ∃ n, 0 < n ∧ n ≤ s.ingress.length ∧
        (controlStep lib io k t c s).conn.findStream s.id =
          some { s with ingress := s.ingress.drop n }) ∧
    ∀ fuel, s.ingress.length + chunks.flatten.length < fuel →
      receiveLoop lib app (controlStep lib io) conn sid fuel
          (q.arrive conn sid chunks.flatten) =
        onReceive lib io app conn sid q chunks.flatten := by
  have hself : q.control conn sid s.ingress = q := by
    have hstream : s.control s.ingress = s := by rw [Stream.control, ← hcontrol]
    have ht := updateStream_self hptrs hids hc hs hstream
    rw [Reception.control, Reception.updateStream, ht]
  -- the loop is a reader in the sense of `Reader`, so a cut makes no difference
  have hlawful := controlReader_lawful lib io app conn sid
  have hwhole := onReceive_control lib io happ hptrs s.ingress chunks.flatten
  have hcut := receiveAll_control lib io happ
    (w := ⟨q, [], s.ingress, none⟩) hptrs chunks
  rw [hself] at hwhole
  dsimp only at hcut
  rw [hself] at hcut
  obtain ⟨k, hk⟩ := Reader.feedAll_eq_read hlawful q s.ingress hne
  rw [hk] at hcut
  -- a connection that was refused is refused again at every later chunk
  obtain ⟨reason, k', hagain, hclosed⟩ := again_control lib io app conn sid q
    (s.ingress ++ chunks.flatten) k rfl
  refine ⟨?_, fun k t c s hs h => controlStep_consumes hs h, fun fuel hfuel => ?_⟩
  · rw [receiveAll, hcut, hwhole]
    refine ⟨rfl, reason, k', ?_, hclosed⟩
    show ((controlReader lib io app conn sid).read q _).out ++ _ = _
    rw [hagain]
  · have harrive := arrive_control conn sid q s.ingress chunks.flatten
    rw [hself] at harrive
    have hlen : (s.ingress ++ chunks.flatten).length < fuel := by
      rw [List.length_append]
      exact hfuel
    rw [hwhole, harrive, controlLoop_eq_read lib io happ fuel hptrs,
      Reader.readFuel_of_lt hlawful hlen]

/-- An application that approves whoever sends a token. -/
def approving : Application := fun seen =>
  match seen.getLast? with
  | some (conn, .auth _) => [.respondAuth conn true]
  | _ => []

theorem approving_spares (conn sid : ℕ) :
    ∀ seen, ∀ call ∈ approving seen, call.Spares conn sid := by
  intro seen call h
  unfold approving at h
  split at h
  · rw [List.mem_singleton.mp h]
    trivial
  · exact absurd h List.not_mem_nil

/-- A server whose one connection has its control stream open. -/
def openControl : Reception :=
  ⟨{ Transport.init true [] 1280 with conns := [onStreamOpen (Conn.zero 1) 0 true] }, [], 0⟩

/-- A token that comes in two parts. -/
theorem control_chunks_token :
    (receiveAll FecLib.unavailable (fun _ => ControlIO.still) approving 1 0 openControl
        [[0x04, 0x00], [0x01, 0x2a]]).1 =
      (onReceive FecLib.unavailable (fun _ => ControlIO.still) approving 1 0 openControl
        [0x04, 0x00, 0x01, 0x2a]).1 :=
  (control_chunks FecLib.unavailable (fun _ => ControlIO.still) approving (approving_spares 1 0)
    (q := openControl) (by decide) (by decide) rfl rfl rfl
    (List.cons_ne_nil [0x04, 0x00] [[0x01, 0x2a]])).1.1

end Bishlink
