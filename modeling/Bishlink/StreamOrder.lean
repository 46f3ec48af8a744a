import Mathlib.Logic.Function.Basic
import Bishlink.TrackStreams

/-!
# The order of reliable objects

Two transports with a connection between them publish on one reliable track, in both directions.
A stream keeps the order of what is written to it, different streams do not wait for each other.
`Duplex` is the two transports with the bytes in flight.

* `Flow`: one direction, with the stream that the sender writes to and the objects that the
  receiver has not handed on yet;
* `reliable_in_order`: as long as a publish opens a stream only when everything before it was
  handled, the objects are handed on in the order of the calls.
-/

namespace Bishlink

open ByteCodec Runs

/-! ## Two transports -/

/-- The two ends of a connection. -/
inductive Side where
  | left
  | right
deriving DecidableEq

def Side.other : Side → Side
  | .left => .right
  | .right => .left

/-- The transports at both ends, and the bytes that an end has written to a stream and that have
not arrived at the other one. -/
structure Duplex where
  ends : Side → Transport
  flight : Side → ℕ → Bytes

/-- The connection of an end to the other one. -/
def Duplex.conn (ptr : Side → ℕ) (d : Duplex) (side : Side) : Option Conn :=
  (d.ends side).findConn (ptr side)

/-- A stream id that neither end has for its connection. -/
def Duplex.unused (ptr : Side → ℕ) (d : Duplex) (sid : ℕ) : Bool :=
  sid != 0 && [Side.left, Side.right].all fun side =>
    (d.conn ptr side).all fun c => (c.findStream sid).isNone

/-- An object is published on the track, bytes of a stream arrive, or the receive loop of a
stream takes a turn. -/
inductive DuplexLabel where
  | publish (side : Side) (io : PublishIO) (obj : MoqObject)
  | arrive (side : Side) (sid n : ℕ)
  | iterate (side : Side) (sid : ℕ) (io : ControlIO)

/-- The calls of `transport_publish` and the OBJECT events for the track. -/
inductive DuplexEvent where
  | published (side : Side) (data : Bytes)
  | raised (side : Side) (data : Bytes)
deriving DecidableEq

/-- The first bytes of a stream open it: the peer's stream has no send side here. -/
def acceptStream (lib : FecLib) (t : Transport) (ptr sid : ℕ) : Option Transport :=
  (t.findConn ptr).bind fun c =>
    if (c.findStream sid).isSome then some t
    else (transportStep lib t (.conn ptr (.openStream sid false))).map Prod.fst

/-- One step of the two transports. QUIC gives a new stream an id of its own. -/
def duplexStep (lib : FecLib) (ptr : Side → ℕ) (track : MoqTrackId) (d : Duplex) :
    DuplexLabel → Option (Duplex × List DuplexEvent)
  | .publish side io obj =>
    if obj.trackId.key = track.key ∧ (getTrackProfile obj.trackId).reliable = true ∧
        (io.openStream (ptr side)).any (d.unused ptr) = true then
      (transportStep lib (d.ends side) (.publish io obj)).map fun r =>
        (⟨Function.update d.ends side r.1,
          Function.update d.flight side fun sid =>
            d.flight side sid ++ written (ptr side) sid r.2⟩,
          [.published side obj.data])
    else none
  | .arrive side sid n =>
    let sent := d.flight side.other
    if (sent sid).take n = [] then none
    else
      (acceptStream lib (d.ends side) (ptr side) sid).bind fun t =>
        (transportStep lib t (.conn (ptr side) (.receive sid ((sent sid).take n)))).map fun r =>
          (⟨Function.update d.ends side r.1,
            Function.update d.flight side.other (Function.update sent sid ((sent sid).drop n))⟩, [])
  | .iterate side sid io =>
    -- the control stream has no part in this
    if ((d.conn ptr side).bind (·.findStream sid)).any (·.isControl) then none
    else
      (transportStep lib (d.ends side) (.conn (ptr side) (.iterate sid io))).map fun r =>
        (⟨Function.update d.ends side r.1, d.flight⟩,
          (trackObjects track r.2).map (.raised side))

/-- What an end published on the track. -/
def publishedBy (side : Side) (o : List DuplexEvent) : List Bytes :=
  o.filterMap fun e =>
    match e with
    | .published s data => if s = side then some data else none
    | .raised _ _ => none

/-- What was handed to the application of an end. -/
def raisedAt (side : Side) (o : List DuplexEvent) : List Bytes :=
  o.filterMap fun e =>
    match e with
    | .published _ _ => none
    | .raised s data => if s = side then some data else none

/-- Both ends hold the track under the alias, and it stands for the track there; there is no
stream but the control stream. -/
structure PeersReady (ptr : Side → ℕ) (track : MoqTrackId) (trackAlias : UInt8) (d : Duplex) :
    Prop where
  quiet : ∀ side sid, d.flight side sid = []
  nodup : ∀ side, (d.ends side).ptrs.Nodup
  conns : ∀ side, ∃ c, d.conn ptr side = some c ∧ c.closing = false ∧ c.authenticated = true ∧
    findAliasByTrack c.subscriptions track = some trackAlias ∧
    (findSubscriptionByAlias c.subscriptions trackAlias MoqTrackId.zero).map MoqTrackId.key =
      some track.key ∧
    c.trackStream track = none ∧ ∀ s ∈ c.streams, s.isControl = true

/-- Everything that an end wrote has arrived, and the receive loops of the other end have
stopped. -/
def Handled (ptr : Side → ℕ) (d : Duplex) (side : Side) : Prop :=
  (∀ c ∈ d.conn ptr side, ∀ s ∈ c.streams, d.flight side s.id = []) ∧
    ∀ c ∈ d.conn ptr side.other, ∀ s ∈ c.streams, s.isControl = false →
      (trackIteration (d.ends side.other) c s).goesOn = false

/-- A published object is not grouped and the length of its frame fits four bytes; when no stream
for it is open, everything before it was handled. -/
def OpensInOrder (ptr : Side → ℕ) (track : MoqTrackId) (d : Duplex) : DuplexLabel → Prop
  | .publish side _ obj =>
    routedToGroup (d.ends side) obj = false ∧ 4 + obj.data.length < 2 ^ 32 ∧
      ∀ c ∈ d.conn ptr side, c.sendOpen (c.trackStream track) = false → Handled ptr d side
  | _ => True

instance (ptr : Side → ℕ) (d : Duplex) (side : Side) : Decidable (Handled ptr d side) := by
  unfold Handled
  infer_instance

instance (ptr : Side → ℕ) (track : MoqTrackId) (d : Duplex) (l : DuplexLabel) :
    Decidable (OpensInOrder ptr track d l) := by
  unfold OpensInOrder
  split <;> infer_instance

/-! ## The steps at one end -/

/-- An end that is ready for the track, with its connection. -/
structure Ready (ptr : ℕ) (track : MoqTrackId) (trackAlias : UInt8) (t : Transport) (c : Conn) :
    Prop where
  find : t.findConn ptr = some c
  nodup : t.ptrs.Nodup
  holds : HoldsTrack track trackAlias c

/-- Writing the connection back. -/
theorem Ready.setConn {ptr : ℕ} {track : MoqTrackId} {trackAlias : UInt8} {t t₁ : Transport}
    {c c' : Conn} (h : Ready ptr track trackAlias t c) (hconns : t₁.conns = t.conns)
    (hptr : c'.ptr = c.ptr) (hholds : HoldsTrack track trackAlias c') :
    Ready ptr track trackAlias (t₁.setConn c') c' := by
  obtain ⟨-, hcptr⟩ := Transport.findConn_eq_some h.find
  have hptr' : c'.ptr = ptr := hptr.trans hcptr
  refine ⟨?_, ?_, hholds⟩
  · have hfind : t₁.findConn c'.ptr = some c := by
      rw [hptr', Transport.findConn, hconns]
      exact h.find
    have hset := Transport.findConn_setConn hfind
    rw [hptr'] at hset
    exact hset
  · rw [ptrs_setConn, Transport.ptrs, hconns]
    exact h.nodup

/-- `transport_publish` on the track: a frame on the stream of the entry, or a new stream with
the alias in front. -/
theorem Ready.publish {lib : FecLib} {ptr sid : ℕ} {track : MoqTrackId} {trackAlias : UInt8}
    {t t' : Transport} {c : Conn} {io : PublishIO} {obj : MoqObject} {o : List Effect}
    (h : Ready ptr track trackAlias t c) (hnamed : track.named = true)
    (hkey : obj.trackId.key = track.key) (hrel : (getTrackProfile obj.trackId).reliable = true)
    (hroute : routedToGroup t obj = false) (hopens : io.openStream ptr = some sid)
    (hstep : transportStep lib t (.publish io obj) = some (t', o)) :
    (∃ old, c.trackStream track = some old ∧ c.sendOpen (some old) = true ∧
        Ready ptr track trackAlias t' c ∧
        ∀ s, written ptr s o = if s = old then frame obj.data else []) ∨
      (c.sendOpen (c.trackStream track) = false ∧
        Ready ptr track trackAlias t' (c.openTrack track sid) ∧
        ∀ s, written ptr s o = if s = sid then trackAlias :: frame obj.data else []) := by
  obtain ⟨-, hcptr⟩ := Transport.findConn_eq_some h.find
  simp only [transportStep, Option.some.injEq] at hstep
  -- the object is neither grouped nor sent in datagrams
  have hpublish : (transportPublish lib io t obj).2 = publishReliable io t obj := by
    unfold transportPublish publishDirect
    rw [if_neg (by rw [hroute]; decide), if_pos hrel]
  rw [hpublish] at hstep
  have ht : t' = (publishReliable io t obj).1 := by rw [hstep]
  have ho : o = (publishReliable io t obj).2 := by rw [hstep]
  obtain ⟨hfind, hwritten⟩ := publishReliable_spec io obj h.nodup h.find
  have hnodup : t'.ptrs.Nodup := by
    have hsame := ptrs_publishDirect lib io t obj
    rw [publishDirect, if_pos hrel, ← ht] at hsame
    rw [hsame]
    exact h.nodup
  rw [← ht] at hfind
  rw [← ho] at hwritten
  rw [← hcptr] at hopens
  rcases publishReliableConn_spec t.isServer h.holds hnamed hkey hopens with
    ⟨old, hold, hsend, heq⟩ | ⟨hnone, heq⟩
  · left
    rw [heq] at hfind hwritten
    refine ⟨old, hold, hsend, ⟨hfind, hnodup, h.holds⟩, fun s => ?_⟩
    rw [hwritten s, ← hcptr]
    exact written_writeObject c old s obj.data
  · right
    rw [heq] at hfind hwritten
    refine ⟨hnone, ⟨hfind, hnodup, (h.holds.openTrack sid).1⟩, fun s => ?_⟩
    rw [hwritten s, ← hcptr]
    have hcons : ∀ e : Effect, ∀ o : List Effect, written c.ptr s (e :: o) =
        written c.ptr s [e] ++ written c.ptr s o := fun e o => written_append c.ptr s [e] o
    rw [hcons, written_writeObject]
    by_cases hs : s = sid
    · subst hs
      simp [written]
    · have hne : ¬sid = s := fun heq => hs heq.symm
      simp [written, hs, hne]

/-- A stream that the peer opened, before anything arrived on it. -/
def newStream (sid : ℕ) : Stream := ⟨sid, decide (sid = 0), false, 0, [], false⟩

/-- The stream is there once its first bytes arrive. -/
theorem Ready.accept {lib : FecLib} {ptr sid : ℕ} {track : MoqTrackId} {trackAlias : UInt8}
    {t t₁ : Transport} {c : Conn} (h : Ready ptr track trackAlias t c)
    (haccept : acceptStream lib t ptr sid = some t₁) :
    ∃ c₁, Ready ptr track trackAlias t₁ c₁ ∧ c₁.trackStream track = c.trackStream track ∧
      c₁.findStream sid = some ((c.findStream sid).getD (newStream sid)) ∧
      ∀ sid', sid' ≠ sid → c₁.findStream sid' = c.findStream sid' := by
  unfold acceptStream at haccept
  rw [h.find, Option.bind_some] at haccept
  cases hs : c.findStream sid with
  | some s =>
    rw [hs, Option.isSome_some, if_pos rfl, Option.some.injEq] at haccept
    rw [← haccept]
    exact ⟨c, h, rfl, hs, fun _ _ => rfl⟩
  | none =>
    rw [hs, Option.isSome_none, if_neg Bool.false_ne_true] at haccept
    obtain ⟨r, hr, rfl⟩ := Option.map_eq_some_iff.mp haccept
    obtain ⟨c₀, t₀, c₁, hfind, hconn, ht⟩ := transportStep_conn.mp hr
    rw [h.find, Option.some.injEq] at hfind
    subst hfind
    simp only [connStep, hs, Option.isSome_none, Bool.false_eq_true, if_false, Option.some.injEq,
      Prod.mk.injEq] at hconn
    obtain ⟨rfl, rfl, -⟩ := hconn
    refine ⟨onStreamOpen c sid false, ?_, rfl, findStream_onStreamOpen hs false, ?_⟩
    · rw [ht]
      exact h.setConn rfl rfl (h.holds.of_same rfl rfl rfl)
    · exact fun sid' hne => findStream_onStreamOpen_of_ne hne false

/-- Bytes arrive on a stream. -/
theorem Ready.arrive {lib : FecLib} {ptr sid : ℕ} {track : MoqTrackId} {trackAlias : UInt8}
    {t t₁ t₂ : Transport} {c : Conn} {bytes : Bytes} {o : List Effect}
    (h : Ready ptr track trackAlias t c) (haccept : acceptStream lib t ptr sid = some t₁)
    (hstep : transportStep lib t₁ (.conn ptr (.receive sid bytes)) = some (t₂, o)) :
    ∃ c₂ s, Ready ptr track trackAlias t₂ c₂ ∧ c₂.trackStream track = c.trackStream track ∧
      s = (c.findStream sid).getD (newStream sid) ∧
      c₂.findStream sid = some { s with ingress := s.ingress ++ bytes } ∧
      ∀ sid', sid' ≠ sid → c₂.findStream sid' = c.findStream sid' := by
  obtain ⟨c₁, h₁, htrack, hs, hothers⟩ := h.accept haccept
  obtain ⟨c₀, t₀, c₂, hfind, hconn, rfl⟩ := transportStep_conn.mp hstep
  rw [h₁.find, Option.some.injEq] at hfind
  subst hfind
  simp only [connStep, Option.some.injEq, Prod.mk.injEq] at hconn
  obtain ⟨rfl, rfl, -⟩ := hconn
  have hid : ∀ s : Stream, ({ s with ingress := s.ingress ++ bytes }).id = s.id := fun _ => rfl
  refine ⟨c₁.receive sid bytes, _, h₁.setConn rfl rfl (h₁.holds.of_same rfl rfl rfl), htrack,
    rfl, ?_,
    fun sid' hne => ?_⟩
  · rw [Conn.receive, Conn.findStream_updateStream hid, hs, Option.map_some]
  · rw [Conn.receive, Conn.findStream_updateStream_of_ne hid hne]
    exact hothers sid' hne

/-- A turn of a receive loop. -/
theorem Ready.iterate {lib : FecLib} {ptr sid : ℕ} {track : MoqTrackId} {trackAlias : UInt8}
    {t t' : Transport} {c : Conn} {io : ControlIO} {o : List Effect}
    (h : Ready ptr track trackAlias t c)
    (hcontrol : ((c.findStream sid).any (·.isControl)) = false)
    (hstep : transportStep lib t (.conn ptr (.iterate sid io)) = some (t', o)) :
    ∃ s, c.findStream sid = some s ∧ s.id = sid ∧ s.isControl = false ∧
      t' = (trackIteration t c s).transport.setConn (trackIteration t c s).conn ∧
      o = (trackIteration t c s).effects := by
  obtain ⟨c₀, t₀, c', hfind, hconn, rfl⟩ := transportStep_conn.mp hstep
  rw [h.find, Option.some.injEq] at hfind
  subst hfind
  simp only [connStep] at hconn
  cases hs : c.findStream sid with
  | none =>
    rw [hs] at hconn
    exact absurd hconn (by simp)
  | some s =>
    rw [hs, Option.any_some] at hcontrol
    simp only [hs, Option.some.injEq, Prod.mk.injEq] at hconn
    obtain ⟨rfl, rfl, rfl⟩ := hconn
    have hid : s.id = sid := beq_iff_eq.mp (List.find?_some (p := fun s : Stream => s.id == sid) hs)
    have hiter : streamIteration lib io t c s = trackIteration t c s :=
      if_neg (by rw [hcontrol]; decide)
    rw [hiter]
    exact ⟨s, rfl, hid, hcontrol, rfl, rfl⟩

/-! ## One direction -/

/-- One direction: the sender with connection `cS` writes to stream `cur`, if to any, and the
receiver with connection `cR` has not handed on the objects `pending`. The streams before `cur`
are finished. -/
structure Flow (track : MoqTrackId) (trackAlias : UInt8) (cS cR : Conn) (f : ℕ → Bytes)
    (cur : Option ℕ) (pending : List Bytes) : Prop where
  pointer : ∀ sid, cS.trackStream track = some sid → cS.sendOpen (some sid) = true →
    cur = some sid
  started : cur = none → pending = []
  idle : ∀ sid, cur ≠ some sid → f sid = [] ∧
    ∀ s, cR.findStream sid = some s → s.isControl = false → s.ingress = []
  current : ∀ sid, cur = some sid → (cS.findStream sid).isSome = true ∧
    Owes trackAlias ((cR.findStream sid).getD (newStream sid)) (f sid) pending

section Flow

variable {track : MoqTrackId} {trackAlias : UInt8} {cS cR : Conn} {f : ℕ → Bytes}
  {cur : Option ℕ} {pending : List Bytes}

/-- What happens at the sender when it receives. -/
theorem Flow.sender {cS' : Conn} (h : Flow track trackAlias cS cR f cur pending)
    (hpointer : ∀ sid, cS'.trackStream track = some sid → cS'.sendOpen (some sid) = true →
      cS.trackStream track = some sid ∧ cS.sendOpen (some sid) = true)
    (hstreams : ∀ sid, (cS.findStream sid).isSome = true → (cS'.findStream sid).isSome = true) :
    Flow track trackAlias cS' cR f cur pending := by
  refine ⟨?_, h.started, h.idle, ?_⟩
  · intro sid htrack hopen
    obtain ⟨htrack', hopen'⟩ := hpointer sid htrack hopen
    exact h.pointer sid htrack' hopen'
  · intro sid hcur
    obtain ⟨hthere, howes⟩ := h.current sid hcur
    exact ⟨hstreams sid hthere, howes⟩

/-- The receiver opens a stream of its own. -/
theorem Flow.receiver_opens {cR' : Conn} {new : ℕ} (h : Flow track trackAlias cS cR f cur pending)
    (hfresh : cS.findStream new = none)
    (hnew : ∀ s, cR'.findStream new = some s → s.ingress = [])
    (hothers : ∀ sid, sid ≠ new → cR'.findStream sid = cR.findStream sid) :
    Flow track trackAlias cS cR' f cur pending := by
  have hcur : ∀ sid, cur = some sid → sid ≠ new := by
    rintro sid hcur rfl
    have hthere := (h.current sid hcur).1
    rw [hfresh] at hthere
    exact Bool.false_ne_true hthere
  refine ⟨h.pointer, h.started, ?_, ?_⟩
  · intro sid hne
    obtain ⟨hflight, hingress⟩ := h.idle sid hne
    refine ⟨hflight, fun s hs hcontrol => ?_⟩
    by_cases heq : sid = new
    · subst heq
      exact hnew s hs
    · rw [hothers sid heq] at hs
      exact hingress s hs hcontrol
  · intro sid hcurrent
    rw [hothers sid (hcur sid hcurrent)]
    exact h.current sid hcurrent

/-- The sender writes an object to the current stream. -/
theorem Flow.write {f' : ℕ → Bytes} {sid : ℕ} {data : Bytes}
    (h : Flow track trackAlias cS cR f cur pending) (hcur : cur = some sid)
    (hdata : 4 + data.length < 2 ^ 32)
    (hf : ∀ s, f' s = f s ++ if s = sid then frame data else []) :
    Flow track trackAlias cS cR f' cur (pending ++ [data]) := by
  refine ⟨h.pointer, ?_, ?_, ?_⟩
  · intro hnone
    rw [hcur] at hnone
    exact absurd hnone (Option.some_ne_none sid)
  · intro s hne
    obtain ⟨hflight, hingress⟩ := h.idle s hne
    refine ⟨?_, hingress⟩
    have hs : s ≠ sid := fun heq => hne (heq ▸ hcur)
    rw [hf, hflight, if_neg hs, List.append_nil]
  · intro s hs
    obtain ⟨hthere, howes⟩ := h.current s hs
    have heq : s = sid := Option.some.inj (hs.symm.trans hcur)
    refine ⟨hthere, howes.track, howes.closed, ?_, ?_, howes.read, ?_⟩
    · exact List.forall_mem_append.mpr ⟨howes.short, List.forall_mem_singleton.mpr hdata⟩
    · rw [hf, if_pos heq, ← List.append_assoc, howes.bytes, List.flatMap_append, List.append_assoc,
        List.flatMap_singleton]
    · exact fun _ => List.append_ne_nil_of_right_ne_nil _ (List.cons_ne_nil _ _)

/-- The sender opens a stream once all before it was handled. -/
theorem flow_open {cS' : Conn} {f' : ℕ → Bytes} {sid : ℕ} {data : Bytes}
    (hdone : ∀ s, f s = [])
    (hingress : ∀ sid s, cR.findStream sid = some s → s.isControl = false → s.ingress = [])
    (hsid : sid ≠ 0) (hfresh : cR.findStream sid = none) (hdata : 4 + data.length < 2 ^ 32)
    (hpointer : cS'.trackStream track = some sid) (hthere : (cS'.findStream sid).isSome = true)
    (hf : ∀ s, f' s = f s ++ if s = sid then trackAlias :: frame data else []) :
    Flow track trackAlias cS' cR f' (some sid) [data] := by
  refine ⟨?_, ?_, ?_, ?_⟩
  · intro s htrack _
    exact hpointer.symm.trans htrack
  · intro hnone
    exact absurd hnone (Option.some_ne_none sid)
  · intro s hne
    have hs : s ≠ sid := fun heq => hne (congrArg some heq.symm)
    refine ⟨?_, hingress s⟩
    rw [hf, hdone, if_neg hs]
    rfl
  · intro s hs
    have heq : sid = s := Option.some.inj hs
    subst heq
    rw [hfresh, Option.getD_none]
    refine ⟨hthere, ?_, rfl, List.forall_mem_singleton.mpr hdata, ?_, ?_, ?_⟩
    · exact decide_eq_false hsid
    · rw [hf, hdone, if_pos rfl, List.flatMap_singleton]
      rfl
    · exact fun hread => Bool.noConfusion hread
    · exact fun _ => List.cons_ne_nil _ _

/-- Bytes arrive at the receiver. -/
theorem Flow.arrive {cR' : Conn} {f' : ℕ → Bytes} {sid n : ℕ} {s : Stream}
    (h : Flow track trackAlias cS cR f cur pending) (hbytes : (f sid).take n ≠ [])
    (hs : s = (cR.findStream sid).getD (newStream sid))
    (hthere : cR'.findStream sid = some { s with ingress := s.ingress ++ (f sid).take n })
    (hothers : ∀ sid', sid' ≠ sid → cR'.findStream sid' = cR.findStream sid')
    (hf : f' sid = (f sid).drop n) (hfothers : ∀ sid', sid' ≠ sid → f' sid' = f sid') :
    Flow track trackAlias cS cR' f' cur pending := by
  have hcur : cur = some sid := by
    by_contra hne
    rw [(h.idle sid hne).1, List.take_nil] at hbytes
    exact hbytes rfl
  refine ⟨h.pointer, h.started, ?_, ?_⟩
  · intro sid' hne
    have hsid : sid' ≠ sid := fun heq => hne (heq ▸ hcur)
    rw [hfothers sid' hsid, hothers sid' hsid]
    exact h.idle sid' hne
  · intro sid' hcur'
    have heq : sid = sid' := Option.some.inj (hcur.symm.trans hcur')
    subst heq
    obtain ⟨hsender, howes⟩ := h.current sid hcur
    rw [← hs] at howes
    refine ⟨hsender, ?_⟩
    rw [hthere, Option.getD_some]
    refine ⟨howes.track, howes.closed, howes.short, ?_, howes.read, howes.unread⟩
    rw [hf, List.append_assoc, List.take_append_drop]
    exact howes.bytes

/-- The receiver takes a turn on one of its streams. -/
theorem Flow.take {t : Transport} {sid : ℕ} {s : Stream} (halias : 8 ≤ trackAlias)
    (h : Flow track trackAlias cS cR f cur pending) (hc : HoldsTrack track trackAlias cR)
    (hs : cR.findStream sid = some s) (hid : s.id = sid) (hcontrol : s.isControl = false) :
    ∃ taken left, pending = taken ++ left ∧
      trackObjects track (trackIteration t cR s).effects = taken ∧
      (trackIteration t cR s).transport = t ∧ (trackIteration t cR s).conn.ptr = cR.ptr ∧
      HoldsTrack track trackAlias (trackIteration t cR s).conn ∧
      Flow track trackAlias cS (trackIteration t cR s).conn f cur left ∧
      (∀ sid', (trackIteration t cR s).conn.trackStream track = some sid' →
        (trackIteration t cR s).conn.sendOpen (some sid') = true →
        cR.trackStream track = some sid' ∧ cR.sendOpen (some sid') = true) ∧
      ∀ sid', (cR.findStream sid').isSome = true →
        ((trackIteration t cR s).conn.findStream sid').isSome = true := by
  by_cases hcur : cur = some sid
  · obtain ⟨hsender, howes⟩ := h.current sid hcur
    rw [hs, Option.getD_some] at howes
    obtain ⟨taken, left, htakes⟩ := trackIteration_spec t halias hc (by rw [hid]; exact hs) howes
    rw [hid] at htakes
    obtain ⟨s', hs', howes'⟩ := htakes.owes
    refine ⟨taken, left, htakes.split, htakes.objects_eq, htakes.transport_eq, htakes.ptr_eq,
      htakes.holds, ⟨h.pointer, ?_, ?_, ?_⟩, ?_, ?_⟩
    · intro hnone
      rw [hcur] at hnone
      exact absurd hnone (Option.some_ne_none sid)
    · intro sid' hne
      have hsid : sid' ≠ sid := fun heq => hne (heq ▸ hcur)
      rw [htakes.others sid' hsid]
      exact h.idle sid' hne
    · intro sid' hcur'
      have heq : sid = sid' := Option.some.inj (hcur.symm.trans hcur')
      subst heq
      rw [hs', Option.getD_some]
      exact ⟨hsender, howes'⟩
    · intro sid' htrack hopen
      -- the peer's stream cannot be written to
      have hne : sid' ≠ sid := by
        rintro rfl
        rw [Conn.sendOpen, hs', Option.map_some, Option.getD_some, howes'.closed] at hopen
        exact Bool.false_ne_true hopen
      rcases htakes.trackStream with hsame | hnew
      · refine ⟨hsame.symm.trans htrack, ?_⟩
        rw [Conn.sendOpen, htakes.others sid' hne] at hopen
        exact hopen
      · exact absurd (Option.some.inj (htrack.symm.trans hnew)) hne
    · intro sid' hthere
      by_cases heq : sid' = sid
      · rw [heq, hs']
        rfl
      · rw [htakes.others sid' heq]
        exact hthere
  -- nothing has come on a stream that is not the current one
  · have hstop : trackIteration t cR s = ⟨t, cR, [], false⟩ := by
      unfold trackIteration
      rw [(h.idle sid hcur).2 s hs hcontrol]
    rw [hstop]
    exact ⟨[], pending, rfl, rfl, rfl, rfl, hc, h, fun _ htrack hopen => ⟨htrack, hopen⟩,
      fun _ hthere => hthere⟩

/-- Once everything has arrived and the loops have stopped, every object was handed on. -/
theorem Flow.finished {t : Transport} (halias : 8 ≤ trackAlias)
    (h : Flow track trackAlias cS cR f cur pending) (hc : HoldsTrack track trackAlias cR)
    (hflight : ∀ s ∈ cS.streams, f s.id = [])
    (hstopped : ∀ s ∈ cR.streams, s.isControl = false → (trackIteration t cR s).goesOn = false) :
    pending = [] ∧ (∀ sid, f sid = []) ∧
      ∀ sid s, cR.findStream sid = some s → s.isControl = false → s.ingress = [] := by
  cases hcur : cur with
  | none =>
    refine ⟨h.started hcur, fun sid => ?_, fun sid => ?_⟩
    · exact (h.idle sid (by rw [hcur]; exact (Option.some_ne_none sid).symm)).1
    · exact (h.idle sid (by rw [hcur]; exact (Option.some_ne_none sid).symm)).2
  | some sid =>
    obtain ⟨hsender, howes⟩ := h.current sid hcur
    obtain ⟨s₀, hs₀⟩ := Option.isSome_iff_exists.mp hsender
    have hid₀ : s₀.id = sid :=
      beq_iff_eq.mp (List.find?_some (p := fun s : Stream => s.id == sid) hs₀)
    have hfsid : f sid = [] := by
      rw [← hid₀]
      exact hflight s₀ (List.mem_of_find?_eq_some hs₀)
    have hothers : ∀ sid', sid' ≠ sid → cur ≠ some sid' := fun sid' hne heq =>
      hne (Option.some.inj (heq.symm.trans hcur))
    cases hs : cR.findStream sid with
    | none =>
      -- the header would still be in flight
      rw [hs, Option.getD_none] at howes
      have hbytes := howes.bytes
      rw [hfsid] at hbytes
      exact absurd hbytes.symm (List.cons_ne_nil _ _)
    | some s =>
      rw [hs, Option.getD_some] at howes
      have hid : s.id = sid :=
        beq_iff_eq.mp (List.find?_some (p := fun s : Stream => s.id == sid) hs)
      -- an iteration on the stream would go on while an object is owed
      have hpending : pending = [] := by
        by_contra hne
        obtain ⟨taken, left, htakes⟩ :=
          trackIteration_spec t halias hc (by rw [hid]; exact hs) howes
        have hgoes := htakes.goesOn hfsid hne
        rw [hstopped s (List.mem_of_find?_eq_some hs) howes.track] at hgoes
        exact Bool.false_ne_true hgoes
      have hread : s.headerReceived = true := by
        by_contra hunread
        exact howes.unread (by simpa using hunread) hpending
      have hingress : s.ingress = [] := by
        have hbytes := howes.bytes
        rw [hfsid, List.append_nil, hread, if_pos rfl, hpending] at hbytes
        exact hbytes
      refine ⟨hpending, fun sid' => ?_, fun sid' s' hs' hcontrol => ?_⟩
      · by_cases heq : sid' = sid
        · rw [heq, hfsid]
        · exact (h.idle sid' (hothers sid' heq)).1
      · by_cases heq : sid' = sid
        · subst heq
          rw [hs, Option.some.injEq] at hs'
          rw [← hs', hingress]
        · exact (h.idle sid' (hothers sid' heq)).2 s' hs' hcontrol

end Flow

/-! ## Both directions -/

@[simp] theorem Side.other_other (side : Side) : side.other.other = side := by cases side <;> rfl

theorem Side.other_ne (side : Side) : side.other ≠ side := by cases side <;> decide

theorem Side.eq_or_other (x side : Side) : side = x ∨ side = x.other := by
  cases x <;> cases side <;> decide

theorem unused_iff {ptr : Side → ℕ} {d : Duplex} {sid : ℕ} :
    d.unused ptr sid = true ↔
      sid ≠ 0 ∧ ∀ side c, d.conn ptr side = some c → c.findStream sid = none := by
  unfold Duplex.unused
  rw [Bool.and_eq_true, bne_iff_ne, List.all_eq_true]
  refine and_congr Iff.rfl ⟨fun h side c hc => ?_, fun h side _ => ?_⟩
  · have hside := h side (by cases side <;> simp)
    rw [hc, Option.all_some] at hside
    exact Option.isNone_iff_eq_none.mp hside
  · cases hc : d.conn ptr side with
    | none => rfl
    | some c =>
      rw [Option.all_some]
      exact Option.isNone_iff_eq_none.mpr (h side c hc)

theorem publishedBy_append (side : Side) (o o' : List DuplexEvent) :
    publishedBy side (o ++ o') = publishedBy side o ++ publishedBy side o' := List.filterMap_append

theorem raisedAt_append (side : Side) (o o' : List DuplexEvent) :
    raisedAt side (o ++ o') = raisedAt side o ++ raisedAt side o' := List.filterMap_append

/-- The events of a turn of a receive loop. -/
theorem events_raised (x side : Side) (l : List Bytes) :
    publishedBy side (l.map (.raised x)) = [] ∧
      raisedAt side (l.map (.raised x)) = if x = side then l else [] := by
  constructor
  · rw [publishedBy, List.filterMap_map, List.filterMap_eq_nil_iff]
    exact fun _ _ => rfl
  · rw [raisedAt, List.filterMap_map]
    by_cases h : x = side
    · subst h
      rw [if_pos rfl]
      exact (List.filterMap_congr (g := some) fun _ _ => if_pos rfl).trans List.filterMap_some
    · rw [if_neg h, List.filterMap_eq_nil_iff]
      exact fun _ _ => if_neg h

/-- The event of a publish. -/
theorem events_published (x side : Side) (data : Bytes) :
    publishedBy side [.published x data] = (if x = side then [data] else []) ∧
      raisedAt side [.published x data] = [] := by
  refine ⟨?_, rfl⟩
  by_cases h : x = side
  · rw [if_pos h]
    exact List.filterMap_cons_some (if_pos h)
  · rw [if_neg h]
    exact List.filterMap_cons_none (if_neg h)

/-- Both ends are ready for the track, and in each direction the objects published are those
handed on and those pending. -/
def DuplexInv (ptr : Side → ℕ) (track : MoqTrackId) (trackAlias : UInt8) (d : Duplex)
    (o : List DuplexEvent) : Prop :=
  ∃ c : Side → Conn, (∀ side, Ready (ptr side) track trackAlias (d.ends side) (c side)) ∧
    ∀ side, ∃ cur pending,
      Flow track trackAlias (c side) (c side.other) (d.flight side) cur pending ∧
        publishedBy side o = raisedAt side.other o ++ pending

/-- The invariant from the connections of an end and of the other one. -/
theorem DuplexInv.of_side {ptr : Side → ℕ} {track : MoqTrackId} {trackAlias : UInt8}
    {d : Duplex} {o : List DuplexEvent} (x : Side) (c c' : Conn)
    (hready : Ready (ptr x) track trackAlias (d.ends x) c)
    (hother : Ready (ptr x.other) track trackAlias (d.ends x.other) c')
    (hsends : ∃ cur pending, Flow track trackAlias c c' (d.flight x) cur pending ∧
      publishedBy x o = raisedAt x.other o ++ pending)
    (hreceives : ∃ cur pending, Flow track trackAlias c' c (d.flight x.other) cur pending ∧
      publishedBy x.other o = raisedAt x o ++ pending) :
    DuplexInv ptr track trackAlias d o := by
  refine ⟨Function.update (fun _ => c') x c, fun side => ?_, fun side => ?_⟩
  · rcases Side.eq_or_other x side with rfl | rfl
    · rw [Function.update_self]
      exact hready
    · rw [Function.update_of_ne (Side.other_ne x)]
      exact hother
  · rcases Side.eq_or_other x side with rfl | rfl
    · rw [Function.update_self, Function.update_of_ne (Side.other_ne side)]
      exact hsends
    · rw [Side.other_other, Function.update_self, Function.update_of_ne (Side.other_ne x)]
      exact hreceives

theorem duplexInv_publish {lib : FecLib} {ptr : Side → ℕ} {track : MoqTrackId}
    {trackAlias : UInt8} {d d' : Duplex} {o o' : List DuplexEvent} {x : Side} {io : PublishIO}
    {obj : MoqObject} (hnamed : track.named = true) (halias : 8 ≤ trackAlias)
    (hinv : DuplexInv ptr track trackAlias d o)
    (hguard : OpensInOrder ptr track d (.publish x io obj))
    (h : duplexStep lib ptr track d (.publish x io obj) = some (d', o')) :
    DuplexInv ptr track trackAlias d' (o ++ o') := by
  obtain ⟨c, hready, hflow⟩ := hinv
  obtain ⟨hroute, hdata, hopens⟩ := hguard
  simp only [duplexStep] at h
  split at h
  swap
  · exact absurd h (by simp)
  next hcond =>
  obtain ⟨hkey, hrel, hid⟩ := hcond
  obtain ⟨r, hstep, hr⟩ := Option.map_eq_some_iff.mp h
  obtain ⟨t', e⟩ := r
  rw [Prod.mk.injEq] at hr
  obtain ⟨rfl, rfl⟩ := hr
  obtain ⟨sid, hsid, hunused⟩ := (Option.any_eq_true _ _).mp hid
  obtain ⟨hzero, hfresh⟩ := unused_iff.mp hunused
  have hx := hready x
  have hother := hready x.other
  obtain ⟨cur, pending, hsends, hpub⟩ := hflow x
  obtain ⟨cur', pending', hreceives, hpub'⟩ := hflow x.other
  rw [Side.other_other] at hreceives hpub'
  obtain ⟨hpublished, hraised⟩ := events_published x x obj.data
  obtain ⟨hpublished', hraised'⟩ := events_published x x.other obj.data
  rw [if_pos rfl] at hpublished
  rw [if_neg (Side.other_ne x).symm] at hpublished'
  -- the other direction does not notice
  have hback : publishedBy x.other (o ++ [.published x obj.data]) =
      raisedAt x (o ++ [.published x obj.data]) ++ pending' := by
    rw [publishedBy_append, raisedAt_append, hpublished', hraised, List.append_nil, List.append_nil,
      hpub']
  have hother' : Ready (ptr x.other) track trackAlias (Function.update d.ends x t' x.other)
      (c x.other) := by
    rw [Function.update_of_ne (Side.other_ne x)]
    exact hother
  rcases hx.publish hnamed hkey hrel hroute hsid hstep with
    ⟨old, hold, hsend, hx', hwritten⟩ | ⟨hnone, hx', hwritten⟩
  · refine DuplexInv.of_side x (c x) (c x.other) ?_ hother' ⟨cur, pending ++ [obj.data], ?_, ?_⟩
      ⟨cur', pending', ?_, hback⟩
    · show Ready _ _ _ (Function.update d.ends x t' x) _
      rw [Function.update_self]
      exact hx'
    · show Flow _ _ _ _ (Function.update d.flight x _ x) _ _
      rw [Function.update_self]
      refine hsends.write (hsends.pointer old hold hsend) hdata fun s => ?_
      rw [hwritten]
    · rw [publishedBy_append, raisedAt_append, hpublished, hraised', List.append_nil, hpub,
        List.append_assoc]
    · show Flow _ _ _ _ (Function.update d.flight x _ x.other) _ _
      rw [Function.update_of_ne (Side.other_ne x)]
      exact hreceives
  -- a new stream: everything on the one before has been handled
  · have hhandled := hopens (c x) hx.find hnone
    obtain ⟨rfl, hdone, hingress⟩ := hsends.finished halias hother.holds (hhandled.1 (c x) hx.find)
      (hhandled.2 (c x.other) hother.find)
    obtain ⟨hstream, hothers⟩ := findStream_openTrack track (hfresh x (c x) hx.find)
    refine DuplexInv.of_side x ((c x).openTrack track sid) (c x.other) ?_ hother'
      ⟨some sid, [obj.data], ?_, ?_⟩ ⟨cur', pending', ?_, hback⟩
    · show Ready _ _ _ (Function.update d.ends x t' x) _
      rw [Function.update_self]
      exact hx'
    · show Flow _ _ _ _ (Function.update d.flight x _ x) _ _
      rw [Function.update_self]
      refine flow_open hdone hingress hzero (hfresh x.other _ hother.find) hdata
        (hx.holds.openTrack sid).2 (by rw [hstream]; rfl) fun s => ?_
      rw [hwritten]
    · rw [publishedBy_append, raisedAt_append, hpublished, hraised', List.append_nil, hpub,
        List.append_nil]
    · show Flow _ _ _ _ (Function.update d.flight x _ x.other) _ _
      rw [Function.update_of_ne (Side.other_ne x)]
      refine hreceives.receiver_opens (hfresh x.other _ hother.find) (fun s hs => ?_) hothers
      rw [hstream, Option.some.injEq] at hs
      rw [← hs]

/-- A stream that can be written to after bytes arrived could be written to before. -/
theorem sendOpen_arrive {c c₂ : Conn} {sid : ℕ} {s : Stream} {bytes : Bytes}
    (hs : s = (c.findStream sid).getD (newStream sid))
    (hthere : c₂.findStream sid = some { s with ingress := s.ingress ++ bytes })
    (hothers : ∀ sid', sid' ≠ sid → c₂.findStream sid' = c.findStream sid') {sid' : ℕ}
    (h : c₂.sendOpen (some sid') = true) : c.sendOpen (some sid') = true := by
  unfold Conn.sendOpen at h ⊢
  dsimp only at h ⊢
  by_cases heq : sid' = sid
  · subst heq
    rw [hthere, Option.map_some, Option.getD_some] at h
    cases hfind : c.findStream sid' with
    | none =>
      rw [hfind, Option.getD_none] at hs
      rw [hs] at h
      exact absurd h Bool.false_ne_true
    | some s' =>
      rw [hfind, Option.getD_some] at hs
      rw [Option.map_some, Option.getD_some, ← hs]
      exact h
  · rw [hothers sid' heq] at h
    exact h

theorem duplexInv_arrive {lib : FecLib} {ptr : Side → ℕ} {track : MoqTrackId}
    {trackAlias : UInt8} {d d' : Duplex} {o o' : List DuplexEvent} {x : Side} {sid n : ℕ}
    (hinv : DuplexInv ptr track trackAlias d o)
    (h : duplexStep lib ptr track d (.arrive x sid n) = some (d', o')) :
    DuplexInv ptr track trackAlias d' (o ++ o') := by
  obtain ⟨c, hready, hflow⟩ := hinv
  simp only [duplexStep] at h
  split at h
  · exact absurd h (by simp)
  next hbytes =>
  obtain ⟨t₁, haccept, h⟩ := Option.bind_eq_some_iff.mp h
  obtain ⟨⟨t₂, e⟩, hstep, hr⟩ := Option.map_eq_some_iff.mp h
  rw [Prod.mk.injEq] at hr
  obtain ⟨rfl, rfl⟩ := hr
  obtain ⟨cur, pending, hsends, hpub⟩ := hflow x
  obtain ⟨cur', pending', hreceives, hpub'⟩ := hflow x.other
  rw [Side.other_other] at hreceives hpub'
  obtain ⟨c₂, s, hx', htrack, hs, hthere, hothers⟩ := (hready x).arrive haccept hstep
  rw [List.append_nil]
  refine DuplexInv.of_side x c₂ (c x.other) ?_ ?_ ⟨cur, pending, ?_, hpub⟩
    ⟨cur', pending', ?_, hpub'⟩
  · show Ready _ _ _ (Function.update d.ends x t₂ x) _
    rw [Function.update_self]
    exact hx'
  · show Ready _ _ _ (Function.update d.ends x t₂ x.other) _
    rw [Function.update_of_ne (Side.other_ne x)]
    exact hready x.other
  · show Flow _ _ _ _ (Function.update d.flight x.other _ x) _ _
    rw [Function.update_of_ne (Side.other_ne x).symm]
    refine hsends.sender (fun sid' hsid' hopen => ?_) fun sid' hsome => ?_
    · exact ⟨htrack.symm.trans hsid', sendOpen_arrive hs hthere hothers hopen⟩
    · by_cases heq : sid' = sid
      · rw [heq, hthere]
        rfl
      · rw [hothers sid' heq]
        exact hsome
  · show Flow _ _ _ _ (Function.update d.flight x.other _ x.other) _ _
    rw [Function.update_self]
    refine hreceives.arrive hbytes hs hthere hothers ?_ fun sid' hne => ?_
    · rw [Function.update_self]
    · rw [Function.update_of_ne hne]

theorem duplexInv_iterate {lib : FecLib} {ptr : Side → ℕ} {track : MoqTrackId}
    {trackAlias : UInt8} {d d' : Duplex} {o o' : List DuplexEvent} {x : Side} {sid : ℕ}
    {io : ControlIO} (halias : 8 ≤ trackAlias) (hinv : DuplexInv ptr track trackAlias d o)
    (h : duplexStep lib ptr track d (.iterate x sid io) = some (d', o')) :
    DuplexInv ptr track trackAlias d' (o ++ o') := by
  obtain ⟨c, hready, hflow⟩ := hinv
  have hx := hready x
  simp only [duplexStep] at h
  split at h
  · exact absurd h (by simp)
  next hcontrol =>
  have hconn : d.conn ptr x = some (c x) := hx.find
  rw [hconn, Option.bind_some, Bool.not_eq_true] at hcontrol
  obtain ⟨⟨t', e⟩, hstep, hr⟩ := Option.map_eq_some_iff.mp h
  rw [Prod.mk.injEq] at hr
  obtain ⟨rfl, rfl⟩ := hr
  obtain ⟨cur, pending, hsends, hpub⟩ := hflow x
  obtain ⟨cur', pending', hreceives, hpub'⟩ := hflow x.other
  rw [Side.other_other] at hreceives hpub'
  obtain ⟨s, hs, hid, htrackStream, rfl, rfl⟩ := hx.iterate hcontrol hstep
  obtain ⟨taken, left, hsplit, hobjects, htransport, hptr, hholds, hflow', hpointer, hstreams⟩ :=
    hreceives.take (t := d.ends x) halias hx.holds hs hid htrackStream
  obtain ⟨hpublished, hraised⟩ := events_raised x x taken
  obtain ⟨hpublished', hraised'⟩ := events_raised x x.other taken
  rw [if_pos rfl] at hraised
  rw [if_neg (Side.other_ne x).symm] at hraised'
  dsimp only
  rw [hobjects]
  refine DuplexInv.of_side x (trackIteration (d.ends x) (c x) s).conn (c x.other) ?_ ?_
    ⟨cur, pending, ?_, ?_⟩ ⟨cur', left, ?_, ?_⟩
  · show Ready _ _ _ (Function.update d.ends x _ x) _
    rw [Function.update_self]
    exact hx.setConn (by rw [htransport]) hptr hholds
  · show Ready _ _ _ (Function.update d.ends x _ x.other) _
    rw [Function.update_of_ne (Side.other_ne x)]
    exact hready x.other
  · exact hsends.sender hpointer hstreams
  · rw [publishedBy_append, raisedAt_append, hpublished, hraised', List.append_nil, List.append_nil]
    exact hpub
  · exact hflow'
  · rw [publishedBy_append, raisedAt_append, hpublished', hraised, List.append_nil, hpub', hsplit,
      List.append_assoc]

/-- The two ends before anything was published. -/
theorem duplexInv_init {ptr : Side → ℕ} {track : MoqTrackId} {trackAlias : UInt8} {d : Duplex}
    (hnamed : track.named = true) (h : PeersReady ptr track trackAlias d) :
    8 ≤ trackAlias ∧ DuplexInv ptr track trackAlias d [] := by
  choose c hconn hlive hauth halias htrack hstream hcontrol using h.conns
  have hholds := fun side => holdsTrack_of_lookups hnamed (hlive side) (hauth side) (halias side)
    (htrack side)
  refine ⟨(hholds .left).1, c, fun side => ⟨hconn side, h.nodup side, (hholds side).2⟩,
    fun side => ⟨none, [], ?_, rfl⟩⟩
  refine ⟨?_, fun _ => rfl, fun sid _ => ⟨h.quiet side sid, fun s hs hnot => ?_⟩, ?_⟩
  · intro sid hsid
    rw [hstream side] at hsid
    exact absurd hsid (Option.some_ne_none sid).symm
  · rw [hcontrol side.other s (List.mem_of_find?_eq_some hs)] at hnot
    exact Bool.noConfusion hnot
  · intro sid hnone
    exact absurd hnone (Option.some_ne_none sid).symm

/-- In every run whose publishes open streams in order, each end is handed the other's objects
in the order of the calls, each once: they are a front part of those published, and all of them
once everything was handled. -/
theorem reliable_in_order (lib : FecLib) (ptr : Side → ℕ) (track : MoqTrackId)
    (trackAlias : UInt8) (hnamed : track.named = true) (d₀ : Duplex)
    (hpeers : PeersReady ptr track trackAlias d₀) (labels : List DuplexLabel) (d : Duplex)
    (o : List DuplexEvent)
    (hguard : Along (duplexStep lib ptr track) (OpensInOrder ptr track) d₀ labels)
    (hrun : run (duplexStep lib ptr track) d₀ labels = some (d, o)) (side : Side) :
    raisedAt side.other o <+: publishedBy side o ∧
      (Handled ptr d side → raisedAt side.other o = publishedBy side o) := by
  obtain ⟨halias, hinit⟩ := duplexInv_init hnamed hpeers
  have hinv : DuplexInv ptr track trackAlias d o := by
    refine run_induction_along (duplexStep lib ptr track)
      (P := fun _ d o => DuplexInv ptr track trackAlias d o) hinit ?_ labels d o hguard hrun
    intro _ d o l d' o' _ hinv hguard hstep
    cases l with
    | publish x io obj => exact duplexInv_publish hnamed halias hinv hguard hstep
    | arrive x sid n => exact duplexInv_arrive hinv hstep
    | iterate x sid io => exact duplexInv_iterate halias hinv hstep
  obtain ⟨c, hready, hflow⟩ := hinv
  obtain ⟨cur, pending, hsends, hpub⟩ := hflow side
  refine ⟨⟨pending, hpub.symm⟩, fun hhandled => ?_⟩
  obtain ⟨hnil, -, -⟩ := hsends.finished halias (hready side.other).holds
    (hhandled.1 (c side) (hready side).find) (hhandled.2 (c side.other) (hready side.other).find)
  rw [hpub, hnil, List.append_nil]

/-! ## A server and a client -/

/-- The connection of an end to a peer with which it shares the track `a` under alias 8. -/
def peerConn : Conn :=
  { Conn.zero 1 with
    authenticated := true
    subscriptions := addSubscription Subscriptions.empty MOQ_TRACK_VIDEO MOQ_TRACK_FLAG_RELIABLE
      (TrackName.ofBuffer [97]) 8
    stream := some 0
    streams := [⟨0, true, false, 0, [], true⟩] }

/-- A client on the left and a server on the right. -/
def clientAndServer : Duplex where
  ends side := { Transport.init (side == .right) [] 1280 with conns := [peerConn] }
  flight _ _ := []

/-- One byte is published, and QUIC would give a new stream the id `sid`. -/
def publishOn (side : Side) (sid : ℕ) (b : UInt8) : DuplexLabel :=
  .publish side { publishAt 0 with openStream := fun _ => some sid }
    ⟨reliableTrack [97], 0, 0, [b], true, 0⟩

/-- Everything on a stream arrives, and the receive loop takes a turn. -/
def arriveOn (side : Side) (sid : ℕ) : List DuplexLabel :=
  [.arrive side sid 16, .iterate side sid ⟨MoqTrackId.zero, 0, fun _ => 0⟩]

/-- Both ends publish, the server's stream arrives, and the client publishes again: after its
first object was handled, or before. -/
def secondPublish (handledFirst : Bool) : List DuplexLabel :=
  [publishOn .left 2 1, publishOn .right 3 9] ++ arriveOn .left 3 ++
    if handledFirst then arriveOn .right 2 ++ [publishOn .left 6 2] ++ arriveOn .right 6
    else [publishOn .left 6 2] ++ arriveOn .right 6 ++ arriveOn .right 2

theorem peersReady_clientAndServer :
    PeersReady (fun _ => 1) (reliableTrack [97]) 8 clientAndServer := by
  refine ⟨fun _ _ => rfl, fun side => ?_, fun side => ⟨peerConn, ?_, rfl, rfl, by decide, by decide,
    by decide, by decide⟩⟩
  · cases side <;> decide
  · cases side <;> rfl

set_option maxRecDepth 8000 in
/-- The client's objects arrive in order when the first was handled before the second. -/
theorem reliable_in_order_handled :
    ∃ d o, run (duplexStep FecLib.unavailable (fun _ => 1) (reliableTrack [97])) clientAndServer
        (secondPublish true) = some (d, o) ∧
      publishedBy .left o = [[1], [2]] ∧ raisedAt .right o = publishedBy .left o := by
  have hinOrder := reliable_in_order FecLib.unavailable (fun _ => 1) (reliableTrack [97]) 8
    (by decide) clientAndServer peersReady_clientAndServer (secondPublish true) _ _ (by decide) rfl
    .left
  exact ⟨_, _, rfl, rfl, hinOrder.2 (by decide)⟩

set_option maxRecDepth 8000 in
/-- The header of the server's stream makes the client open a second stream, which overtakes the
first. -/
theorem second_stream_overtakes :
    PeersReady (fun _ => 1) (reliableTrack [97]) 8 clientAndServer ∧
      ∃ d o, run (duplexStep FecLib.unavailable (fun _ => 1) (reliableTrack [97])) clientAndServer
          (secondPublish false) = some (d, o) ∧
        publishedBy .left o = [[1], [2]] ∧ raisedAt .right o = [[2], [1]] :=
  ⟨peersReady_clientAndServer, _, _, rfl, rfl, rfl⟩

end Bishlink
