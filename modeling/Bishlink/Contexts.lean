import Bishlink.Reassembly
import Bishlink.System

/-!
# The cache of contexts in a run

In every reachable state each cached context was created for the parameters of its entry
(`sound_run`), so that what `get_cached_fec` returns depends on the requested parameters alone.
-/

namespace Bishlink

/-! ## Steps -/

theorem sound_cachedSymbols {lib : FecLib} {cache : FecCache} (h : cache.Sound lib)
    (io : ControlIO) (o : SentObject) (data : Bytes) :
    (cachedSymbols lib cache io o data).2.Sound lib := by
  simp only [cachedSymbols]
  split
  · split
    · exact sound_getCachedFec h _ _
    · exact sound_getCachedFec h _ _
  · exact h

theorem sound_handleControlMessage {lib : FecLib} {t : Transport} (h : t.fecCache.Sound lib)
    (io : ControlIO) (c : Conn) (m : ControlMessage) :
    (handleControlMessage lib io t c m).1.fecCache.Sound lib := by
  cases m with
  | data trackAlias payload =>
    simp only [handleControlMessage]
    split <;> exact h
  | nack trackAlias groupId objectId missing =>
    simp only [handleControlMessage]
    split
    · exact h
    · split
      · exact h
      · exact sound_cachedSymbols h io _ _
  | _ => exact h

theorem sound_streamIteration {lib : FecLib} {t : Transport} (h : t.fecCache.Sound lib)
    (io : ControlIO) (c : Conn) (s : Stream) :
    (streamIteration lib io t c s).transport.fecCache.Sound lib := by
  rw [streamIteration]
  split
  · rw [controlIteration]
    split
    · exact h
    · exact h
    · exact sound_handleControlMessage h io c _
  · rw [trackIteration_transport]
    exact h

theorem sound_onReceiveDatagramFrame {lib : FecLib} {io : ReceiveIO} {t t' : Transport}
    {c c' : Conn} {payload : Bytes} {o : List Effect} (h : t.fecCache.Sound lib)
    (hr : onReceiveDatagramFrame lib io t c payload = .ok (t', c', o)) :
    t'.fecCache.Sound lib := by
  cases hsym : symbolOf t c io payload with
  | none =>
    obtain ⟨t₁, o₁, hok, hcache, -⟩ := onReceiveDatagramFrame_of_none hsym lib
    have heq := hr.symm.trans (hok c.assemblers io.junk)
    simp only [Except.ok.injEq, Prod.mk.injEq] at heq
    rw [heq.1, hcache]
    exact h
  | some p =>
    obtain ⟨track, hdr⟩ := p
    obtain ⟨cache', hsound, hassemble⟩ := assemble_eq h io track.type c.assemblers hdr
      (payload.drop FecPacketHeader.size)
    rw [onReceiveDatagramFrame_of_some hsym, hassemble] at hr
    obtain ⟨r, hr, hok⟩ := Checked.bind_eq_ok.mp hr
    obtain ⟨q, -, hq⟩ := Checked.bind_eq_ok.mp hr
    simp only [Except.ok.injEq, Prod.mk.injEq] at hok hq
    rw [← hok.1, ← hq]
    exact hsound

theorem sound_connStep {lib : FecLib} {t t' : Transport} {c c' : Conn} {l : ConnLabel}
    {o : List Effect} (h : t.fecCache.Sound lib) (hstep : connStep lib t c l = some (t', c', o)) :
    t'.fecCache.Sound lib := by
  cases l with
  | openStream sid sendOpen =>
    simp only [connStep] at hstep
    split at hstep
    · simp at hstep
    · simp only [Option.some.injEq, Prod.mk.injEq] at hstep
      rw [← hstep.1]
      exact h
  | iterate sid io =>
    simp only [connStep] at hstep
    split at hstep
    · simp at hstep
    · simp only [Option.some.injEq, Prod.mk.injEq] at hstep
      rw [← hstep.1]
      exact sound_streamIteration h io c _
  | datagram io payload =>
    simp only [connStep] at hstep
    split at hstep
    · simp at hstep
    · rename_i r hr
      rw [Option.some.injEq] at hstep
      rw [hstep] at hr
      exact sound_onReceiveDatagramFrame h hr
  | _ =>
    simp only [connStep, Option.some.injEq, Prod.mk.injEq] at hstep
    rw [← hstep.1]
    exact h

theorem sound_shardObject {lib : FecLib} {t : Transport} (h : t.fecCache.Sound lib)
    (io : PublishIO) (obj : MoqObject) : (shardObject lib io t obj).2.Sound lib := by
  simp only [shardObject]
  split
  · exact sound_getCachedFec h _ _
  · exact h

theorem sound_publishDirect {lib : FecLib} {t : Transport} (h : t.fecCache.Sound lib)
    (io : PublishIO) (obj : MoqObject) :
    (publishDirect lib io t obj).1.fecCache.Sound lib := by
  rw [publishDirect]
  split
  · exact h
  · exact sound_shardObject h io obj

theorem sound_flushFecBuffer {lib : FecLib} {t : Transport} (h : t.fecCache.Sound lib)
    (io : PublishIO) : (flushFecBuffer lib io t).1.fecCache.Sound lib := by
  rw [flushFecBuffer]
  split
  · exact h
  · apply sound_publishDirect
    exact h

theorem sound_transportPublish {lib : FecLib} {t : Transport} (h : t.fecCache.Sound lib)
    (io : PublishIO) (obj : MoqObject) :
    (transportPublish lib io t obj).2.1.fecCache.Sound lib := by
  simp only [transportPublish, groupPacket]
  split
  · split
    · exact h
    · split
      · apply sound_flushFecBuffer
        exact h
      · exact h
  · exact sound_publishDirect h io obj

theorem sound_tickFecBuffer {lib : FecLib} {t : Transport} (h : t.fecCache.Sound lib)
    (io : PublishIO) : (tickFecBuffer lib io t).1.fecCache.Sound lib := by
  rw [tickFecBuffer]
  split
  · exact sound_flushFecBuffer h io
  · exact h

theorem sound_transportSubscribe {lib : FecLib} {t : Transport} (h : t.fecCache.Sound lib)
    (track : MoqTrackId) : (transportSubscribe t track).2.1.fecCache.Sound lib := by
  rw [transportSubscribe]
  split
  · exact h
  · split
    · exact h
    · split <;> exact h

/-- Every step keeps the cache sound. -/
theorem sound_step {lib : FecLib} {s s' : System} {l : Label} {o : List Effect}
    (h : s.transport.fecCache.Sound lib) (hstep : step lib s l = some (s', o)) :
    s'.transport.fecCache.Sound lib := by
  rcases step_eq_some hstep with ⟨ptr, -, -, -, -, ht⟩ | ⟨ht, -⟩
  · rw [ht]
    exact h
  cases l with
  | connect ptr => simp [transportStep] at ht
  | conn ptr l =>
    obtain ⟨c, t₁, c₁, -, hconn, ht⟩ := transportStep_conn.mp ht
    rw [ht]
    show t₁.fecCache.Sound lib
    exact sound_connStep h hconn
  | free ptr =>
    simp only [transportStep] at ht
    split at ht
    · simp at ht
    · simp only [Option.some.injEq, Prod.mk.injEq] at ht
      rw [← ht.1]
      exact h
  | subscribe track =>
    simp only [transportStep, Option.some.injEq] at ht
    rw [show s'.transport = (transportSubscribe s.transport track).2.1 by rw [ht]]
    exact sound_transportSubscribe h track
  | requestKeyframe track =>
    simp only [transportStep, Option.some.injEq, Prod.mk.injEq] at ht
    rw [← ht.1]
    exact h
  | publish io obj =>
    simp only [transportStep, Option.some.injEq] at ht
    rw [show s'.transport = (transportPublish lib io s.transport obj).2.1 by rw [ht]]
    exact sound_transportPublish h io obj
  | tick io =>
    simp only [transportStep, Option.some.injEq] at ht
    rw [show s'.transport = (tickFecBuffer lib io s.transport).1 by rw [ht]]
    exact sound_tickFecBuffer h io
  | links links =>
    simp only [transportStep, Option.some.injEq, Prod.mk.injEq] at ht
    rw [← ht.1]
    exact h

/-- The cache is sound in every reachable state. -/
theorem sound_run {lib : FecLib} {isServer : Bool} {links : List SockAddr} {mtu : ℕ}
    {labels : List Label} {s : System} {o : List Effect}
    (hrun : Runs.run (step lib) (System.init isServer links mtu) labels = some (s, o)) :
    s.transport.fecCache.Sound lib :=
  Runs.invariant (I := fun s => s.transport.fecCache.Sound lib)
    (FecCache.sound_empty lib) (fun _ _ _ _ h hstep => sound_step h hstep) labels s o hrun

end Bishlink
