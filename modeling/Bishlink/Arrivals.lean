import Bishlink.Contexts

/-!
# Datagrams at one connection

The ring of slots of a connection changes only when a datagram arrives. `arrive` is the handler
as a step on the ring; all else it reads (the transport, the table, clocks, memory) comes with
the `Arrival` and may be anything. Every ring of every run of the system is reached by such steps
(`ring_arrivals`).
-/

namespace Bishlink

open Checked

/-! ## Arrivals -/

/-- A call of `on_receive_datagram_frame`, but for the ring. The contexts are sound, as they are
in every run (`sound_run`). -/
structure Arrival (lib : FecLib) where
  transport : Transport
  conn : Conn
  io : ReceiveIO
  payload : Bytes
  sound : transport.fecCache.Sound lib

variable {lib : FecLib}

namespace Arrival

/-- The track and the header of its symbol, if it brings one. -/
def symbol? (a : Arrival lib) : Option (MoqTrackId × FecPacketHeader) :=
  symbolOf a.transport a.conn a.io a.payload

/-- The bytes behind the header. -/
def bytes (a : Arrival lib) : Bytes := a.payload.drop FecPacketHeader.size

/-- The same call with other memory under `full_data`. -/
def withJunk (a : Arrival lib) (junk : ℕ → UInt8) : Arrival lib :=
  { a with io := { a.io with junk := junk } }

end Arrival

/-- A datagram arrives at a ring: the ring after it and what the handler does, or nothing when
the handler leaves an array. -/
def arrive (lib : FecLib) (s : AssemblerCache) (a : Arrival lib) :
    Option (AssemblerCache × List Effect) :=
  match onReceiveDatagramFrame lib a.io a.transport { a.conn with assemblers := s } a.payload with
  | .error _ => none
  | .ok (_, c, o) => some (c.assemblers, o)

/-- What the handler does outside the tables for a symbol. -/
def Arrival.effects (a : Arrival lib) (s : AssemblerCache) (track : MoqTrackId)
    (h : FecPacketHeader) (r : Received) : List Effect :=
  .datagram a.conn.ptr h.pathId.toNat (telemetryReply a.io h).encode ::
    ((match s.evicted h with
      | none => []
      | some old => objectLost a.io a.conn old) ++
    (match r.nack with
      | none => []
      | some missing => sendNack a.conn h.trackId h.groupId h.objectId missing) ++
    match r.fullData with
    | none => []
    | some fullData => [objectEvent a.conn track h r.slot.priority fullData])

/-- The objects an arrival hands on: the object of its slot, if it was completed. -/
theorem Arrival.objectsOf_effects (a : Arrival lib) (s : AssemblerCache) (track : MoqTrackId)
    (h : FecPacketHeader) (r : Received) :
    objectsOf (a.effects s track h r) =
      r.fullData.toList.map fun fullData =>
        { trackId := { track with flags := datagramFlags track.flags }
          groupId := h.groupId.toUInt64
          objectId := h.objectId.toUInt64
          data := fullData
          isKeyframe := h.isKeyframe ≠ 0
          priority := r.slot.priority } := by
  have hlost : ∀ old, objectsOf (objectLost a.io a.conn old) = [] := by
    intro old
    rw [objectLost]
    split <;> rfl
  have hnack : ∀ missing,
      objectsOf (sendNack a.conn h.trackId h.groupId h.objectId missing) = [] := by
    intro missing
    rw [sendNack, Conn.writeControl]
    split
    · split <;> rfl
    · rfl
  have hcons : ∀ o, objectsOf (Effect.datagram a.conn.ptr h.pathId.toNat
      (telemetryReply a.io h).encode :: o) = objectsOf o := fun o => rfl
  rw [Arrival.effects, hcons, objectsOf_append, objectsOf_append]
  have hfirst : objectsOf (match s.evicted h with
      | none => []
      | some old => objectLost a.io a.conn old) = [] := by
    split
    · rfl
    · exact hlost _
  have hsecond : objectsOf (match r.nack with
      | none => []
      | some missing => sendNack a.conn h.trackId h.groupId h.objectId missing) = [] := by
    split
    · rfl
    · exact hnack _
  rw [hfirst, hsecond, List.nil_append, List.nil_append]
  cases r.fullData <;> rfl

/-- An arrival without a symbol leaves the ring alone, and does the same at every ring and with
any new memory. -/
theorem arrive_withJunk_of_none {a : Arrival lib} (h : a.symbol? = none) :
    ∃ o, eventsOf o = [] ∧ ∀ s junk, arrive lib s (a.withJunk junk) = some (s, o) := by
  obtain ⟨t', o, hok, -, hevents⟩ := onReceiveDatagramFrame_of_none h lib
  refine ⟨o, hevents, fun s junk => ?_⟩
  have hquiet : onReceiveDatagramFrame lib (a.withJunk junk).io (a.withJunk junk).transport
      { (a.withJunk junk).conn with assemblers := s } (a.withJunk junk).payload = _ := hok s junk
  rw [arrive, hquiet]

theorem arrive_of_none {a : Arrival lib} (h : a.symbol? = none) :
    ∃ o, eventsOf o = [] ∧ ∀ s, arrive lib s a = some (s, o) := by
  obtain ⟨o, hevents, hall⟩ := arrive_withJunk_of_none h
  exact ⟨o, hevents, fun s => hall s a.io.junk⟩

/-- An arrival with a symbol is a step of the ring. -/
theorem arrive_of_some {a : Arrival lib} {track : MoqTrackId} {h : FecPacketHeader}
    (hsym : a.symbol? = some (track, h)) (s : AssemblerCache) :
    arrive lib s a =
      match ringStep lib a.io.junk track.type s h a.bytes with
      | .error _ => none
      | .ok (s', r) => some (s', a.effects s track h r) := by
  have hsym' : symbolOf a.transport { a.conn with assemblers := s } a.io a.payload =
      some (track, h) := hsym
  obtain ⟨cache', -, hassemble⟩ := assemble_eq a.sound a.io track.type s h a.bytes
  rw [Arrival.bytes] at hassemble
  rw [arrive, onReceiveDatagramFrame_of_some hsym']
  dsimp only
  rw [hassemble, Arrival.bytes]
  cases ringStep lib a.io.junk track.type s h (a.payload.drop FecPacketHeader.size) with
  | error e => rfl
  | ok r => rfl

theorem arrive_of_ringStep {a : Arrival lib} {track : MoqTrackId} {h : FecPacketHeader}
    (hsym : a.symbol? = some (track, h)) {s s' : AssemblerCache} {r : Received}
    (hring : ringStep lib a.io.junk track.type s h a.bytes = .ok (s', r)) :
    arrive lib s a = some (s', a.effects s track h r) := by
  rw [arrive_of_some hsym, hring]

/-! ## Rings of the system -/

theorem handleControlMessage_assemblers (lib : FecLib) (io : ControlIO) (t : Transport) (c : Conn)
    (m : ControlMessage) : (handleControlMessage lib io t c m).2.1.assemblers = c.assemblers := by
  cases m with
  | data trackAlias payload =>
    simp only [handleControlMessage]
    split <;> rfl
  | nack trackAlias groupId objectId missing =>
    simp only [handleControlMessage]
    split
    · rfl
    · split <;> rfl
  | _ => rfl

theorem trackObjectIteration_assemblers (t : Transport) (c : Conn) (sid : ℕ)
    (trackAlias : UInt8) (input : Bytes) :
    (trackObjectIteration t c sid trackAlias input).conn.assemblers = c.assemblers := by
  simp only [trackObjectIteration]
  split
  · rfl
  · split
    · rfl
    · split <;> rfl

theorem streamIteration_assemblers (lib : FecLib) (io : ControlIO) (t : Transport) (c : Conn)
    (s : Stream) : (streamIteration lib io t c s).conn.assemblers = c.assemblers := by
  rw [streamIteration]
  split
  · rw [controlIteration]
    split
    · rfl
    · rfl
    · exact handleControlMessage_assemblers lib io t c _
  · rw [trackIteration]
    split
    · rfl
    · split
      · exact trackObjectIteration_assemblers t c _ _ _
      · exact trackObjectIteration_assemblers t (receiveStreamHeader c _ _) _ _ _

/-- Only a datagram changes the ring, as an arrival. -/
theorem connStep_assemblers {t t' : Transport} {c c' : Conn} {l : ConnLabel} {o : List Effect}
    (hsound : t.fecCache.Sound lib) (h : connStep lib t c l = some (t', c', o)) :
    c'.assemblers = c.assemblers ∨
      ∃ a : Arrival lib, arrive lib c.assemblers a = some (c'.assemblers, o) := by
  -- only a datagram gets to the slots
  cases l with
  | openStream sid sendOpen =>
    simp only [connStep] at h
    split at h
    · simp at h
    · simp only [Option.some.injEq, Prod.mk.injEq] at h
      rw [← h.2.1]
      exact Or.inl rfl
  | iterate sid io =>
    simp only [connStep] at h
    split at h
    · simp at h
    · simp only [Option.some.injEq, Prod.mk.injEq] at h
      rw [← h.2.1]
      exact Or.inl (streamIteration_assemblers lib io t c _)
  | datagram io payload =>
    refine Or.inr ⟨⟨t, c, io, payload, hsound⟩, ?_⟩
    simp only [connStep] at h
    split at h
    · simp at h
    · rename_i r hr
      rw [Option.some.injEq] at h
      rw [h] at hr
      have hr' : onReceiveDatagramFrame lib io t { c with assemblers := c.assemblers } payload =
          .ok (t', c', o) := hr
      rw [arrive, hr']
  | respondAuth success =>
    simp only [connStep, Option.some.injEq] at h
    have hc : c' = (transportRespondAuth c success).2.1 := (congrArg (fun r => r.2.1) h).symm
    rw [hc, transportRespondAuth]
    refine Or.inl ?_
    split
    · rfl
    · split <;> rfl
  | _ =>
    simp only [connStep, Option.some.injEq] at h
    exact Or.inl (congrArg (fun r => r.2.1.assemblers) h).symm

/-- Every ring of a run of the system is what arrivals made of an empty one. -/
theorem ring_arrivals {isServer : Bool} {links : List SockAddr} {mtu : ℕ} {labels : List Label}
    {s : System} {o : List Effect}
    (hrun : Runs.run (step lib) (System.init isServer links mtu) labels = some (s, o)) :
    ∀ c ∈ s.transport.conns, ∃ (as : List (Arrival lib)) (o' : List Effect),
      Runs.run (arrive lib) AssemblerCache.empty as = some (c.assemblers, o') := by
  refine Runs.run_induction (step lib) (P := fun _ s _ => ∀ c ∈ s.transport.conns,
    ∃ (as : List (Arrival lib)) (o' : List Effect),
      Runs.run (arrive lib) AssemblerCache.empty as = some (c.assemblers, o'))
    (fun c hc => absurd hc List.not_mem_nil) ?_ labels s o hrun
  intro labels s o l s' o' hrun ih hstep c' hc'
  rcases step_conn hstep hc' with ⟨-, -, hzero⟩ | ⟨c, hc, -, hchange⟩
  · rw [hzero]
    exact ⟨[], [], rfl⟩
  obtain ⟨as, o₁, has⟩ := ih c hc
  cases hchange with
  | same hsame => exact ⟨as, o₁, by rw [hsame.assemblers]; exact has⟩
  | subscribe hopen => exact ⟨as, o₁, has⟩
  | conn hfind hconn =>
    rcases connStep_assemblers (sound_run hrun) hconn with hsame | ⟨a, ha⟩
    · exact ⟨as, o₁, by rw [hsame]; exact has⟩
    · exact ⟨as ++ [a], _, Runs.run_concat.mpr ⟨_, _, _, has, ha, rfl⟩⟩

end Bishlink
