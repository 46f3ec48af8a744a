import Bishlink.Authentication
import Bishlink.Grouping

/-!
# Who gets published objects

`transport_publish` does not look at the authentication of a connection. What it sends goes
to the connections of a server that count as subscribed (`publishDirect_effects`), so a guest
gets an object on an unnamed track, or when its table holds the track. The peer cannot put a
track into a guest's table; only the application's own `transport_subscribe`, which walks
over all connections, can (`guest_mappings`).
-/

namespace Bishlink

/-! ## What a label publishes -/

/-- The object a label sends: the one published, or the one flushed. -/
def sentObjectOf (t : Transport) : Label → Option MoqObject
  | .publish io obj =>
    if routedToGroup t obj then flushedObject t (.publish io obj) else some obj
  | l => flushedObject t l

/-- A call of `transport_publish`, or a tick, which may call it. -/
def Label.publishes : Label → Bool
  | .publish _ _ => true
  | .tick _ => true
  | _ => false

/-- What is sent to a connection was sent because it counts as subscribed. -/
theorem publishReliableConn_effects {io : PublishIO} {obj : MoqObject} {c : Conn} {e : Effect}
    (he : e ∈ (publishReliableConn io true obj c).2) :
    e.conn = c.ptr ∧ isSubscribed c.subscriptions obj.trackId = true ∧ c.closing = false := by
  simp only [publishReliableConn] at he
  split at he
  · simp at he
  rename_i hlive
  have hsub : isSubscribed c.subscriptions obj.trackId = true ∧ c.closing = false := by
    simp only [true_and, not_or, Bool.not_eq_true, Bool.not_eq_false] at hlive
    exact ⟨hlive.2, hlive.1⟩
  refine ⟨?_, hsub⟩
  split at he
  · simp only [transportSendUnicast, Conn.writeControl] at he
    split at he
    · split at he
      · simp at he
      · simp only [List.mem_append, List.mem_singleton] at he
        rcases he with rfl | rfl <;> rfl
    · simp at he
  split at he
  · simp only [writeObject, List.mem_cons, List.not_mem_nil, or_false] at he
    rcases he with rfl | rfl <;> rfl
  split at he
  · simp at he
  · simp only [writeObject, List.mem_cons, List.not_mem_nil, or_false] at he
    rcases he with rfl | rfl | rfl <;> rfl

theorem sendDatagrams_effects {t : Transport} {io : PublishIO} {obj : MoqObject}
    {sh : ShardedObject} {c : Conn} {e : Effect} (hserver : t.isServer = true)
    (he : e ∈ sendDatagrams t io obj sh c) :
    e.conn = c.ptr ∧ isSubscribed c.subscriptions obj.trackId = true ∧ c.closing = false := by
  simp only [sendDatagrams] at he
  split at he
  · simp at he
  rename_i hlive
  simp only [hserver, true_and, not_or, Bool.not_eq_true, Bool.not_eq_false] at hlive
  split at he
  · simp at he
  · obtain ⟨s, -, rfl⟩ := List.mem_map.mp he
    exact ⟨rfl, hlive.2, hlive.1⟩

/-- Every effect of publishing on a server is for a live connection that counts as
subscribed to the track. -/
theorem publishDirect_effects {lib : FecLib} {io : PublishIO} {t : Transport} {obj : MoqObject}
    {e : Effect} (hserver : t.isServer = true) (he : e ∈ (publishDirect lib io t obj).2) :
    ∃ c ∈ t.conns, e.conn = c.ptr ∧ isSubscribed c.subscriptions obj.trackId = true ∧
      c.closing = false := by
  rw [publishDirect] at he
  split at he
  · simp only [publishReliable, hserver, List.flatMap_map, List.mem_flatMap] at he
    obtain ⟨c, hc, he⟩ := he
    exact ⟨c, hc, publishReliableConn_effects he⟩
  · simp only [publishDatagrams, List.mem_flatMap] at he
    obtain ⟨c, hc, he⟩ := he
    exact ⟨c, hc, sendDatagrams_effects hserver he⟩

/-- What a publishing label sends is its object, to the connections that count as subscribed. -/
theorem publishes_effects {lib : FecLib} {s s' : System} {l : Label} {o : List Effect}
    (hserver : s.transport.isServer = true) (hl : l.publishes = true)
    (h : step lib s l = some (s', o)) {e : Effect} (he : e ∈ o) :
    ∃ obj, sentObjectOf s.transport l = some obj ∧ ∃ c ∈ s.transport.conns,
      e.conn = c.ptr ∧ isSubscribed c.subscriptions obj.trackId = true ∧ c.closing = false := by
  -- a flush sends as a publish does, to the same connections
  have flush : ∀ {t : Transport} {io : PublishIO}, t.isServer = true →
      t.conns = s.transport.conns → t.fec.buf ≠ [] → e ∈ (flushFecBuffer lib io t).2 →
      ∃ c ∈ s.transport.conns, e.conn = c.ptr ∧
        isSubscribed c.subscriptions (groupedObject t).trackId = true ∧ c.closing = false := by
    intro t io hsrv hconns hbuf he
    rw [flushFecBuffer, if_neg hbuf] at he
    obtain ⟨c, hc, hspec⟩ := publishDirect_effects (t := { t with fec := { t.fec with
      objectId := t.fec.objectId + 1, inFlush := true } }) hsrv he
    exact ⟨c, hconns ▸ hc, hspec⟩
  rcases step_eq_some h with ⟨_, rfl, -⟩ | ⟨ht, -⟩
  · simp [Label.publishes] at hl
  cases l with
  | publish io obj =>
    simp only [transportStep, Option.some.injEq] at ht
    have ho : o = (transportPublish lib io s.transport obj).2.2 := by rw [ht]
    rw [ho] at he
    simp only [sentObjectOf, flushedObject]
    simp only [transportPublish] at he
    by_cases hroute : routedToGroup s.transport obj = true
    · rw [if_pos hroute, groupPacket] at he
      simp only [hroute, if_true]
      cases happend : (s.transport.fec.record io obj).append io obj with
      | none => simp [happend] at he
      | some fec =>
        simp only [happend] at he ⊢
        by_cases hfull : fec.full = true
        · simp only [hfull, if_true] at he ⊢
          refine ⟨_, rfl, flush hserver rfl ?_ he⟩
          rw [(FecBuffer.append_eq_some happend).1]
          exact List.append_ne_nil_of_right_ne_nil _ (packetFrame_ne_nil obj.data)
        · simp [hfull] at he
    · rw [if_neg hroute] at he
      rw [if_neg hroute]
      exact ⟨obj, rfl, publishDirect_effects hserver he⟩
  | tick io =>
    simp only [transportStep, Option.some.injEq] at ht
    have ho : o = (tickFecBuffer lib io s.transport).2 := by rw [ht]
    rw [ho, tickFecBuffer] at he
    simp only [sentObjectOf, flushedObject]
    split at he
    · rename_i hold
      rw [if_pos hold]
      exact ⟨_, rfl, flush hserver rfl hold.1 he⟩
    · simp at he
  | _ => simp [Label.publishes] at hl

/-! ## The table of a guest -/

/-- A connection is never a guest again. -/
theorem handleControlMessage_authenticated {lib : FecLib} {io : ControlIO} {t : Transport}
    {c : Conn} (hauth : c.authenticated = true) (m : ControlMessage) :
    (handleControlMessage lib io t c m).2.1.authenticated = true := by
  cases m with
  | data trackAlias payload =>
    simp only [handleControlMessage]
    split <;> exact hauth
  | nack trackAlias groupId objectId missing =>
    simp only [handleControlMessage]
    split
    · exact hauth
    · split <;> exact hauth
  | authResponse status => simp [handleControlMessage, hauth]
  | _ => exact hauth

theorem trackObjectIteration_authenticated (t : Transport) (c : Conn) (sid : ℕ)
    (trackAlias : UInt8) (input : Bytes) :
    (trackObjectIteration t c sid trackAlias input).conn.authenticated = c.authenticated := by
  simp only [trackObjectIteration]
  split
  · rfl
  · split
    · rfl
    · split <;> rfl

theorem trackObjectIteration_subscriptions (t : Transport) (c : Conn) (sid : ℕ)
    (trackAlias : UInt8) (input : Bytes) :
    (trackObjectIteration t c sid trackAlias input).conn.subscriptions = c.subscriptions := by
  simp only [trackObjectIteration]
  split
  · rfl
  · split
    · rfl
    · split <;> rfl

theorem streamIteration_authenticated {lib : FecLib} {io : ControlIO} {t : Transport} {c : Conn}
    {s : Stream} (hauth : c.authenticated = true) :
    (streamIteration lib io t c s).conn.authenticated = true := by
  rw [streamIteration]
  split
  · rw [controlIteration]
    split
    · exact hauth
    · exact hauth
    · exact handleControlMessage_authenticated hauth _
  · rw [trackIteration]
    split
    · exact hauth
    · split
      · rw [trackObjectIteration_authenticated]
        exact hauth
      · rw [trackObjectIteration_authenticated]
        exact hauth

theorem trackIteration_mappings (t : Transport) (c : Conn) (s : Stream) :
    (trackIteration t c s).conn.subscriptions.mappings = c.subscriptions.mappings := by
  rw [trackIteration]
  split
  · rfl
  · split
    · rw [trackObjectIteration_subscriptions]
    · rw [trackObjectIteration_subscriptions]
      exact mappings_update_stream _ _ _

/-- Whatever happens to a connection of a server that is a guest afterwards, it was a guest
before, and its mappings are the same. -/
theorem guest_mappings {lib : FecLib} {t t' : Transport} {c c' : Conn} {l : ConnLabel}
    {o : List Effect} (hserver : t.isServer = true) (h : connStep lib t c l = some (t', c', o))
    (hguest : c'.authenticated = false) :
    c.authenticated = false ∧ c'.subscriptions.mappings = c.subscriptions.mappings := by
  cases l with
  | openStream sid sendOpen =>
    simp only [connStep] at h
    split at h
    · simp at h
    · simp only [Option.some.injEq, Prod.mk.injEq] at h
      obtain ⟨-, rfl, -⟩ := h
      exact ⟨hguest, rfl⟩
  | destroyStream sid =>
    simp only [connStep, Option.some.injEq, Prod.mk.injEq] at h
    obtain ⟨-, rfl, -⟩ := h
    exact ⟨hguest, mappings_update_stream _ _ _⟩
  | iterate sid io =>
    simp only [connStep] at h
    split at h
    · simp at h
    rename_i s hs
    simp only [Option.some.injEq, Prod.mk.injEq] at h
    obtain ⟨-, rfl, -⟩ := h
    -- an iteration never takes the authentication back
    have hbefore : c.authenticated = false := by
      by_contra hauth
      rw [streamIteration_authenticated (by simpa using hauth)] at hguest
      cases hguest
    refine ⟨hbefore, ?_⟩
    rw [streamIteration]
    split
    · rw [(controlIteration_guest hserver hbefore lib io s.id s.ingress).2.1]
    · exact trackIteration_mappings t c s
  | datagram io payload =>
    simp only [connStep] at h
    split at h
    · simp at h
    rename_i r hr
    rw [Option.some.injEq] at h
    rw [h] at hr
    rcases onReceiveDatagramFrame_cases hr with ⟨rfl, -, -⟩ | ⟨-, _, _, -, -, -, rfl, -⟩
    · exact ⟨hguest, rfl⟩
    · exact ⟨hguest, rfl⟩
  | respondAuth success =>
    simp only [connStep, Option.some.injEq] at h
    have hc : c' = (transportRespondAuth c success).2.1 := (congrArg (fun r => r.2.1) h).symm
    rw [hc, transportRespondAuth] at hguest
    rw [hc, transportRespondAuth]
    split at hguest
    · rename_i hopen
      rw [if_pos hopen]
      exact ⟨hguest, rfl⟩
    · rename_i hopen
      rw [if_neg hopen]
      cases success with
      | true => exact absurd hguest (by simp)
      | false => exact ⟨hguest, rfl⟩
  | _ =>
    simp only [connStep, Option.some.injEq] at h
    have hc := congrArg (fun r => r.2.1) h
    dsimp only at hc
    rw [← hc] at hguest ⊢
    exact ⟨hguest, rfl⟩

/-! ## Whole runs -/

/-- Within the labels, the application subscribed the track while the connection was there
with an open control stream. -/
def SubscribedFor (lib : FecLib) (s₀ : System) (labels : List Label) (ptr : ℕ)
    (track : MoqTrackId) : Prop :=
  ∃ pre track' post s o, labels = pre ++ .subscribe track' :: post ∧
    Runs.run (step lib) s₀ pre = some (s, o) ∧ track'.sameTrack track = true ∧
    ∃ c ∈ s.transport.conns, c.ptr = ptr ∧ c.controlOpen = true

theorem SubscribedFor.append {lib : FecLib} {s₀ : System} {labels : List Label} {ptr : ℕ}
    {track : MoqTrackId} (h : SubscribedFor lib s₀ labels ptr track) (l : Label) :
    SubscribedFor lib s₀ (labels ++ [l]) ptr track := by
  obtain ⟨pre, track', post, s, o, rfl, hspec⟩ := h
  exact ⟨pre, track', post ++ [l], s, o, by simp, hspec⟩

/-- What a guest's table holds, the application subscribed while the guest was there. -/
def GuestTablesFrom (lib : FecLib) (s₀ : System) (labels : List Label) (s : System) : Prop :=
  ∀ c ∈ s.transport.conns, c.authenticated = false → ∀ e ∈ c.subscriptions.entries,
    e.active = true → SubscribedFor lib s₀ labels c.ptr e.trackId

theorem guestTables_step {lib : FecLib} {s₀ s s' : System} {labels : List Label} {l : Label}
    {o₀ o : List Effect} (hserver : s.transport.isServer = true)
    (hrun : Runs.run (step lib) s₀ labels = some (s, o₀)) (h : step lib s l = some (s', o))
    (hinv : GuestTablesFrom lib s₀ labels s) : GuestTablesFrom lib s₀ (labels ++ [l]) s' := by
  intro c' hc' hguest e he hactive
  rcases step_conn h hc' with ⟨-, -, hzero⟩ | ⟨c, hmem, hptr, hchange⟩
  · rw [hzero] at he
    have hfalse : e.active = false := by
      rw [List.eq_of_mem_replicate he]
      rfl
    rw [hfalse] at hactive
    cases hactive
  have old : c.authenticated = false → c'.subscriptions.mappings = c.subscriptions.mappings →
      SubscribedFor lib s₀ (labels ++ [l]) c'.ptr e.trackId := by
    intro hbefore hmap
    obtain ⟨e₀, he₀, htrack, -, hact⟩ := mem_of_mappings_eq hmap he
    rw [← htrack, hptr]
    exact (hinv c hmem hbefore e₀ he₀ (hact.trans hactive)).append l
  cases hchange with
  | same hsame => exact old (hsame.authenticated ▸ hguest) hsame.mappings
  | conn hfind hstep =>
    obtain ⟨hbefore, hmap⟩ := guest_mappings hserver hstep hguest
    exact old hbefore hmap
  | @subscribe track _ hopen =>
    simp only [subscribeConn, subscribeTable] at he hguest
    split at he
    · rcases mem_addSubscription he hactive with ⟨he, -⟩ | ⟨hholds, -⟩
      · rw [hptr]
        exact (hinv c hmem hguest e he hactive).append _
      · obtain ⟨-, htype, hname⟩ := TrackSubscription.holds_iff.mp hholds
        refine ⟨labels, track, [], s, o₀, rfl, hrun, ?_, c, hmem, hptr.symm, hopen⟩
        exact (MoqTrackId.sameTrack_iff _ _).mpr ⟨htype.symm, hname.symm⟩
    · rw [hptr]
      exact (hinv c hmem hguest e he hactive).append _

/-- In every run of a server, what a guest's table holds was subscribed by the application
while the guest was there. -/
theorem guestTables_run {lib : FecLib} {links : List SockAddr} {mtu : ℕ} {labels : List Label}
    {s : System} {o : List Effect}
    (hrun : Runs.run (step lib) (System.init true links mtu) labels = some (s, o)) :
    s.transport.isServer = true ∧ GuestTablesFrom lib (System.init true links mtu) labels s := by
  refine Runs.run_induction (step lib)
    (P := fun labels s _ => s.transport.isServer = true ∧
      GuestTablesFrom lib (System.init true links mtu) labels s)
    ⟨rfl, fun c hc => absurd hc List.not_mem_nil⟩ ?_ labels s o hrun
  intro labels s o l s' o' hrun ih hstep
  exact ⟨(step_isServer hstep).trans ih.1, guestTables_step ih.1 hrun hstep ih.2⟩

/-- A label that sends no object a live guest could get: the track is named, and the
application has not subscribed it while the guest was there. -/
def SparesGuests (lib : FecLib) (s₀ : System) (labels : List Label) (s : System) (l : Label) :
    Prop :=
  ∀ obj ∈ sentObjectOf s.transport l, ∀ c ∈ s.transport.conns, c.authenticated = false →
    c.closing = false → obj.trackId.named = true ∧
      ¬SubscribedFor lib s₀ labels c.ptr obj.trackId

/-- In every run of a server that spares its guests, whatever `transport_publish` sends goes
to an authenticated connection. -/
theorem published_to_authenticated (lib : FecLib) (links : List SockAddr) (mtu : ℕ)
    (labels : List Label)
    (hguard : Runs.AlongHistory (step lib) (SparesGuests lib (System.init true links mtu))
      (System.init true links mtu) labels)
    (pre : List Label) (l : Label) (post : List Label) (hlabels : labels = pre ++ l :: post)
    (hpublishes : l.publishes = true) (s s' : System) (o o' : List Effect)
    (hrun : Runs.run (step lib) (System.init true links mtu) pre = some (s, o))
    (hstep : step lib s l = some (s', o')) :
    ∀ e ∈ o', ∀ c ∈ s.transport.conns, c.ptr = e.conn → c.authenticated = true := by
  intro e he c hc hptr
  obtain ⟨hserver, htables⟩ := guestTables_run hrun
  obtain ⟨obj, hobj, c₁, hc₁, hconn, hsub, hlive⟩ := publishes_effects hserver hpublishes hstep he
  have heq : c = c₁ := (ptrsOk_run hrun).eq_of_ptr hc hc₁ (hptr.trans hconn)
  subst heq
  by_contra hauth
  have hguest : c.authenticated = false := by simpa using hauth
  obtain ⟨hnamed, hnot⟩ := hguard pre l post hlabels s o hrun obj hobj c hc hguest hlive
  obtain ⟨e', he', hholds⟩ := (isSubscribed_iff hnamed).mp hsub
  obtain ⟨hactive, htype, hname⟩ := TrackSubscription.holds_iff.mp hholds
  obtain ⟨p, track', q, s₁, o₁, hsplit, hrun₁, hsame, hthere⟩ := htables c hc hguest e' he' hactive
  obtain ⟨htype', hname'⟩ := (MoqTrackId.sameTrack_iff _ _).mp hsame
  exact hnot ⟨p, track', q, s₁, o₁, hsplit, hrun₁, (MoqTrackId.sameTrack_iff _ _).mpr
    ⟨htype'.trans htype, hname'.trans hname⟩, hthere⟩

/-- A video track that goes over streams. -/
def reliableTrack (name : Bytes) : MoqTrackId :=
  ⟨MOQ_TRACK_VIDEO, MOQ_TRACK_FLAG_RELIABLE, TrackName.ofBuffer name⟩

/-- A peer connects, and the application subscribes to a track. -/
def subscribedSetup : List Label :=
  [.connect 1, .conn 1 (.openStream 0 true), .subscribe (reliableTrack [97])]

/-- An object of one byte on that track is published. -/
def publishByte : Label :=
  .publish (publishAt 0) ⟨reliableTrack [97], 0, 0, [42], true, 0⟩

/-- The peer is approved, and then another one connects. -/
def guestSetup : List Label :=
  subscribedSetup ++ [.conn 1 (.respondAuth true), .connect 2, .conn 2 (.openStream 0 true)]

set_option maxRecDepth 4000 in
/-- The application subscribed before the other peer came. -/
theorem guestSetup_notSubscribed (track : MoqTrackId) :
    ¬SubscribedFor FecLib.unavailable (System.init true [] 1280) guestSetup 2 track := by
  rintro ⟨pre, track', post, s, o, hsplit, hrun, -, c, hc, hptr, -⟩
  have hfront : pre = [.connect 1, .conn 1 (.openStream 0 true)] := by
    refine ((List.append_cons_inj_of_notMem ?_ ?_).mp
      (show [Label.connect 1, .conn 1 (.openStream 0 true)] ++ .subscribe (reliableTrack [97]) ::
        [.conn 1 (.respondAuth true), .connect 2, .conn 2 (.openStream 0 true)] = _ from
          hsplit)).1.symm
    · simp
    · simp
  rw [hfront] at hrun
  have hs : s = ((Runs.run (step FecLib.unavailable) (System.init true [] 1280)
      [.connect 1, .conn 1 (.openStream 0 true)]).get rfl).1 := by
    simp [hrun]
  rw [hs] at hc
  rw [List.mem_singleton.mp hc] at hptr
  exact absurd hptr (by decide)

set_option maxRecDepth 4000 in
/-- The object goes to the approved peer, and the guest is spared. -/
theorem published_to_authenticated_approved :
    ∃ s s' o o' guest, Runs.run (step FecLib.unavailable) (System.init true [] 1280) guestSetup =
        some (s, o) ∧ guest ∈ s.transport.conns ∧ guest.authenticated = false ∧
      step FecLib.unavailable s publishByte = some (s', o') ∧ o'.map Effect.conn = [1, 1, 1] ∧
      ∀ e ∈ o', ∀ c ∈ s.transport.conns, c.ptr = e.conn → c.authenticated = true := by
  refine ⟨_, _, _, _, _, rfl, List.mem_cons_of_mem _ (List.mem_singleton_self _), rfl, rfl, rfl, ?_⟩
  refine published_to_authenticated FecLib.unavailable [] 1280 (guestSetup ++ [publishByte])
    (Runs.alongHistory_concat.mpr ⟨Runs.alongHistory_of_forall ?_, ?_⟩) _ publishByte [] rfl rfl
    _ _ _ _ rfl rfl
  · simp [guestSetup, subscribedSetup, SparesGuests, sentObjectOf, flushedObject]
  · intro s o hrun
    have hs : s = ((Runs.run (step FecLib.unavailable) (System.init true [] 1280)
        guestSetup).get rfl).1 := by
      simp [hrun]
    intro obj hobj c hc hguest _
    rw [hs] at hobj hc
    have hnamed : obj.trackId.named = true := by
      rw [← Option.some.inj hobj]
      rfl
    refine ⟨hnamed, ?_⟩
    rcases List.mem_pair.mp hc with rfl | rfl
    · exact absurd hguest (by decide)
    · exact guestSetup_notSubscribed obj.trackId

set_option maxRecDepth 4000 in
/-- A guest gets an object on a track the application subscribed on all connections. -/
theorem published_to_guest :
    ∃ s s' o c, Runs.run (step FecLib.unavailable) (System.init true [] 1280)
        subscribedSetup = some (s, o) ∧ c ∈ s.transport.conns ∧ c.authenticated = false ∧
      step FecLib.unavailable s publishByte = some (s', [.streamWrite c.ptr 4 [8],
        .streamWrite c.ptr 4 [0, 0, 0, 1], .streamWrite c.ptr 4 [42]]) :=
  ⟨_, _, _, _, rfl, List.mem_singleton_self _, rfl, rfl⟩

end Bishlink
