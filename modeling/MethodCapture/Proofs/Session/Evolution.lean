import MethodCapture.Proofs.Session.Effects
import MethodCapture.Proofs.Surface.Guard

/-!
Every step evolves a session by the effects of its event alone, and so a run evolves it by the
effects of the steps it is made of.
-/

namespace MethodCapture.Session

variable {s s' : Session} {t : Ticket} {E : Effects}

/-! What the worker does. -/

section Wake

variable {w : Wake} {cause : Failure} {deadline : Nat}

theorem mem_inFlight_of_current (h : s.phase.current? = some t) : t ∈ s.inFlight := by
  simp [inFlight, h]

theorem mem_inFlight_of_waiting (h : s.waiting = some t) : t ∈ s.inFlight := by
  simp [inFlight, h]

theorem completes_of_mem (h : t ∈ s.inFlight) : (s.effects (.wake w)).Completes t where
  tells := Tells.completed h
  enters := Enters.completed h

theorem drains_of_mem (h : t ∈ s.inFlight) (hc : s.cancelled = true) :
    (s.effects (.wake w)).Drains t where
  toCompletes := completes_of_mem h
  resolves := Resolves.shutdown h hc

theorem fails_of_mem {e : Failure} (h : t ∈ s.inFlight) (hc : s.cancelled = false)
    (he : s.Tells (.wake w) t (.captureFailed e.processingReason e)) :
    (s.effects (.wake w)).Fails t e where
  tells := he
  resolves := Resolves.failed h hc
  enters := Enters.faulted h hc

theorem evolves_launch {methods : List Method}
    (h : E.tells t
      (.startedProbes (methods.map (Plan.ofMethod s.settings.nestingLimit)) s.cancelled)) :
    s.Evolves E (s.launch t methods) := by
  have hequip := evolves_update (s := s) (t := t) (E := E)
    (f := (·.equip (methods.map (Plan.ofMethod s.settings.nestingLimit))))
    fun r _ => .of_signal rfl rfl rfl (fun _ h => h) fun _ h => .inl h
  exact (hequip.trans (evolves_enter ..)).trans (evolves_notify h)

/-- The request leaves the queue before anything is done to it. -/
theorem evolves_leave (s : Session) : s.Evolves E { s with waiting := none } :=
  .of_eq rfl rfl rfl rfl fun h => h

/-- The session once the resolver has been asked about the request taken up. -/
def asking (s : Session) (t : Ticket) (r : Request) (resolver : Resolver) : Session :=
  ({ s with waiting := none }.update t (·.enter .resolving)).notifyAll t
    ((Resolution.asked (Resolution.answers resolver r.methods)).map .askedResolver)

theorem Takes.take_eq {r : Request} (h : s.Takes t r) (resolver : Resolver) :
    { s with waiting := none }.take resolver t =
      match Resolution.outcome (Resolution.answers resolver r.methods) with
      | .error e => ((s.asking t r resolver).fail t e).retire t
      | .ok methods => (s.asking t r resolver).launch t methods := by
  have hr : { s with waiting := none }.request? t = some r := h.request
  rw [take, hr]
  dsimp only
  rw [if_neg (by simp [h.unresolved])]
  rfl

theorem Takes.evolves {r : Request} {resolver : Resolver} (h : s.Takes t r) :
    s.Evolves (s.effects (.wake (.poll resolver)))
      ({ s with waiting := none }.take resolver t) := by
  have hmem := mem_inFlight_of_waiting h.waiting
  have henter : (s.effects (.wake (.poll resolver))).enters t .resolving := Enters.resolving h
  have hask : ∀ m ∈ (Resolution.asked (Resolution.answers resolver r.methods)).map .askedResolver,
      (s.effects (.wake (.poll resolver))).tells t m := by
    intro m hm
    obtain ⟨d, hd, rfl⟩ := List.mem_map.1 hm
    exact Tells.resolving h hd
  have hasking : s.Evolves (s.effects (.wake (.poll resolver))) (s.asking t r resolver) :=
    ((evolves_leave s).trans (evolves_update fun r _ => .enter r henter)).trans
      (evolves_notifyAll hask)
  rw [h.take_eq]
  split
  · next e he =>
    have hfail := fails_of_mem hmem h.cancelled (.unresolved h he)
    refine (hasking.trans (evolves_fail hfail)).retire fun _ u hu => ?_
    simp [asking, fail, notify] at hu
  · next methods hm =>
    refine hasking.trans (evolves_launch ?_)
    have hlaunch : s.Tells (.wake (.poll resolver)) t _ := .launched h hm
    rw [asking, cancelled_notifyAll, settings_notifyAll]
    rwa [← h.cancelled] at hlaunch

/-- A stopped request ends as soon as the worker finds it. -/
theorem evolves_take_of_resolved {resolver : Resolver} {r : Request} (hw : s.waiting = some t)
    (hr : s.request? t = some r) (hs : r.signal.isResolved = true) :
    s.Evolves (s.effects (.wake w)) ({ s with waiting := none }.take resolver t) := by
  have hr : { s with waiting := none }.request? t = some r := hr
  have hend := completes_of_mem (w := w) (mem_inFlight_of_waiting hw)
  unfold take
  rw [hr]
  dsimp only
  rw [if_pos hs]
  refine ((evolves_leave s).trans (evolves_conclude hend)).retire fun _ u hu => ?_
  simp [conclude, notify] at hu

theorem evolves_take {resolver : Resolver} (hc : s.cancelled = false) (hw : s.waiting = some t) :
    s.Evolves (s.effects (.wake (.poll resolver)))
      ({ s with waiting := none }.take resolver t) := by
  cases hr : s.request? t with
  | none =>
    have hr : { s with waiting := none }.request? t = none := hr
    unfold take
    rw [hr]
    exact (evolves_leave s).retire fun _ u hu => nomatch hu
  | some r =>
    by_cases hs : r.signal.isResolved = true
    · exact evolves_take_of_resolved hw hr hs
    · exact Takes.evolves ⟨hw, hc, hr, by simpa using hs⟩

theorem evolves_activate (hp : s.phase = .starting t) :
    s.Evolves (s.effects (.wake (.started none))) (s.activate t) := by
  unfold activate
  split
  · exact (Evolves.refl s).retire fun hc u hu => drains_of_mem (mem_inFlight_of_waiting hu) hc
  · next r hr =>
    have hactive := evolves_update (s := s) (t := t) fun r _ =>
      Request.Evolves.enter (E := s.effects (.wake (.started none))) r (.active hp)
    exact (hactive.trans (evolves_enter ..)).trans (evolves_notify (.activated hp hr))

theorem evolves_cleanUp (hp : s.phase = .starting t) :
    s.Evolves (s.effects (.wake (.started (some cause)))) (s.cleanUp t cause) :=
  (evolves_enter s _).trans (evolves_notify (.cleaning hp))

theorem evolves_abandon (hp : s.phase = .cleaning t cause) {failure : Option Failure} :
    s.Evolves (s.effects (.wake (.stopped failure))) (s.abandon t cause) := by
  have hmem : t ∈ s.inFlight := mem_inFlight_of_current (by rw [hp]; rfl)
  unfold abandon
  split
  · next hc =>
    have hdrain := drains_of_mem (w := .stopped failure) hmem hc
    refine ((evolves_resolve hdrain.resolves).trans (evolves_conclude hdrain.toCompletes)).retire
      fun _ u hu => ?_
    have hu : s.waiting = some u := by simpa [conclude, notify] using hu
    exact drains_of_mem (mem_inFlight_of_waiting hu) hc
  · next hc =>
    have hc : s.cancelled = false := by simpa using hc
    refine (evolves_fail (fails_of_mem hmem hc (.abandoned hp hc))).retire fun hc' => ?_
    simp [fail, notify, hc] at hc'

theorem Evolves.wind (h : s.Evolves E s') (he : E.enters t .stopping)
    (ht : E.tells t (.stoppedProbes s'.cancelled)) : s.Evolves E (s'.wind t) :=
  ((h.trans (evolves_update fun r _ => .enter r he)).trans (evolves_enter ..)).trans
    (evolves_notify ht)

theorem evolves_finish (hp : s.phase = .stopping t) {failure : Option Failure} :
    s.Evolves (s.effects (.wake (.stopped failure))) (s.finish t failure) := by
  have hmem : t ∈ s.inFlight := mem_inFlight_of_current (by rw [hp]; rfl)
  have hend : s.Evolves (s.effects (.wake (.stopped failure))) ((s.conclude t).retire t) := by
    refine (evolves_conclude (completes_of_mem hmem)).retire fun hc u hu => ?_
    have hc : s.cancelled = true := by simpa [conclude, notify] using hc
    have hu : s.waiting = some u := by simpa [conclude, notify] using hu
    exact drains_of_mem (mem_inFlight_of_waiting hu) hc
  unfold finish
  split
  · exact hend
  split
  · exact hend
  · next e hc =>
    have hc : s.cancelled = false := by simpa using hc
    refine (evolves_fail (fails_of_mem hmem hc (.unfinished hp hc))).retire fun hc' => ?_
    simp [fail, notify, hc] at hc'

theorem evolves_wake (h : s.wake w = some s') : s.Evolves (s.effects (.wake w)) s' := by
  cases wakes_of_wake h with
  | exit hp hend =>
    refine evolves_exit fun u hu => drains_of_mem (mem_inFlight_of_waiting hu) ?_
    rcases hend with hc | ⟨hw, -⟩
    · exact hc
    · simp [hw] at hu
  | take hp hc hw => exact evolves_take hc hw
  | activate hp => exact evolves_activate hp
  | cleanUp hp => exact evolves_cleanUp hp
  | abandon hp => exact evolves_abandon hp
  | finish hp => exact evolves_finish hp
  | signalled hp _ => exact (Evolves.refl s).wind (Enters.stopping hp) (Tells.stopping hp)
  | @timedOut t deadline hp hd =>
    have helapsed : s.Resolves (.wake .timedOut) t .durationElapsed :=
      .stopped (.durationElapsed hp hd)
    exact (evolves_resolve helapsed).wind (Enters.stopping hp) (Tells.stopping hp)
  | @cancelled t deadline hp hc =>
    have hshutdown : s.Resolves (.wake .cancelled) t .shutdown :=
      .shutdown (mem_inFlight_of_current (by rw [hp]; rfl)) hc
    exact (evolves_resolve hshutdown).wind (Enters.stopping hp) (Tells.stopping hp)

end Wake

/-! What clients and probes do. -/

section Submit

variable {policy : Policy} {p : Submission}

theorem methods_of_toRequest {r : Request} {settings : Settings}
    (h : p.toRequest settings = .ok r) :
    r.methods = p.methods := by
  unfold Submission.toRequest at h
  dsimp only at h
  split at h
  · cases h
  split at h
  · cases h
  split at h
  · cases h
  · cases h
    rfl

theorem submit_of_refused {r : Request} (hp : p.toRequest s.settings = .ok r)
    (hr : policy.refused r.methods ≠ []) :
    s.submit policy p =
      ((s.register r).refuse s.requests.length .deniedMethods
          (.deniedMethods (policy.refused r.methods)),
        .error (.deniedMethods (policy.refused r.methods))) := by
  rw [submit, hp]
  dsimp only
  rw [if_neg (by simpa using hr)]

theorem evolves_register (r : Request)
    (h : ∀ d ∈ r.methods, E.tells s.requests.length (.askedPolicy d)) :
    s.Evolves E (s.register r) := by
  have happend : s.Evolves E { s with requests := s.requests ++ [r.enter .validating] } := by
    refine ⟨⟨[], by simp [log], nofun⟩, ⟨[], by simp, nofun⟩, fun t r hr => ⟨r, ?_, .refl r⟩, rfl,
      fun h => h⟩
    have hlt := (List.getElem?_eq_some_iff.1 hr).1
    simpa [request?, List.getElem?_append_left hlt] using hr
  refine happend.trans (evolves_notifyAll fun m hm => ?_)
  obtain ⟨d, hd, rfl⟩ := List.mem_map.1 hm
  exact h d hd

theorem Evolves.deny (h : s.Evolves E s') (hr : E.resolves t .cancelled) (he : E.enters t .denied) :
    s.Evolves E (s'.deny t) :=
  h.trans (evolves_update fun r _ => (Request.Evolves.resolve r hr).trans (.enter _ he))

theorem evolves_enqueue {id : RequestId} (hr : E.resolves t .cancelled) (he : E.enters t .denied)
    (hfull : (s.enqueue t id).2 = .error .tooManyRequests →
      E.tells t (.captureFailed .tooManyRequests .tooManyRequests))
    (hok : (s.enqueue t id).2 = .ok () → E.admits t) : s.Evolves E (s.enqueue t id).1 := by
  rw [enqueue_eq] at hfull hok ⊢
  by_cases hid : s.registry.contains id = true
  · rw [if_pos hid]
    exact .refl s
  rw [if_neg hid] at hfull hok ⊢
  by_cases hexited : s.hasExited = true
  · rw [if_pos hexited]
    exact (Evolves.refl s).deny hr he
  rw [if_neg hexited] at hfull hok ⊢
  by_cases hwaiting : s.waiting.isSome = true
  · rw [if_pos hwaiting] at hfull ⊢
    exact ((Evolves.refl s).deny hr he).trans (evolves_notify (hfull rfl))
  · rw [if_neg hwaiting] at hok ⊢
    have hadmits : E.admits t := hok rfl
    exact ⟨⟨[], by simp [log], nofun⟩, ⟨[t], rfl, by simpa using hadmits⟩,
      fun u r hr => ⟨r, hr, .refl r⟩, rfl, fun h => h⟩

theorem evolves_submit (policy : Policy) (p : Submission) :
    s.Evolves (s.effects (.submit policy p)) (s.submit policy p).1 := by
  have hresolves : (s.effects (.submit policy p)).resolves s.requests.length .cancelled :=
    Resolves.refused
  have henters : (s.effects (.submit policy p)).enters s.requests.length .denied := Enters.denied
  cases hp : p.toRequest s.settings with
  | error e =>
    rw [submit, hp]
    exact .refl s
  | ok r =>
    have hmethods := methods_of_toRequest hp
    have hregister : s.Evolves (s.effects (.submit policy p)) (s.register r) :=
      evolves_register r fun d hd => Tells.asked (hmethods ▸ hd)
    by_cases hallowed : policy.refused r.methods = []
    · have hsubmit := submit_of_allowed hp hallowed
      rw [hsubmit]
      refine hregister.trans (evolves_enqueue hresolves henters (fun h => ?_) fun h => ?_)
      · exact Tells.crowded (by rw [hsubmit, h])
      · exact Admits.submitted (by rw [hsubmit, h])
    · have hsubmit := submit_of_refused hp hallowed
      rw [hsubmit]
      refine (hregister.deny hresolves henters).trans (evolves_notify ?_)
      rw [hmethods]
      exact Tells.denied (by rw [hsubmit, hmethods])

end Submit

theorem evolves_stop (id : RequestId) : s.Evolves (s.effects (.stop id)) (s.stop id).1 := by
  unfold stop
  split
  · exact .refl s
  · next t ht =>
    have hstop : s.Resolves (.stop id) t .explicit := .stopped (.explicit ht)
    exact evolves_resolve hstop

theorem evolves_reportFault (m : MethodId) :
    s.Evolves (s.effects (.fault m)) (s.reportFault m) := by
  unfold reportFault
  split
  · exact .refl s
  · next hf => exact evolves_notify (Tells.faulty hf)

theorem evolves_offer {r : Request} {offer : Offer} {accepts : Bool} (hr : s.request? t = some r) :
    r.Evolves (s.effects (.capture t offer accepts)) t (r.offer accepts) := by
  unfold Request.offer
  split
  · next g hg =>
    rcases Watch.signal_offer ⟨g, r.signal⟩ accepts with hsame | ⟨rfl, hopen, hlast, hresolved⟩
    · dsimp only
      rw [hsame]
      exact .of_signal rfl rfl rfl (fun _ h => h) fun _ h => .inl h
    · have hstop : s.Resolves (.capture t offer true) t .limitReached :=
        .stopped (.limitReached hr hg hopen hlast)
      have hresolve := Request.Evolves.resolve (E := s.effects (.capture t offer true)) r hstop
      dsimp only
      rw [hresolved]
      exact .of_signal rfl rfl rfl hresolve.kept hresolve.resolved
  · exact .refl r

theorem evolves_capture (t : Ticket) (offer : Offer) (accepts : Bool) :
    s.Evolves (s.effects (.capture t offer accepts)) (s.capture t offer accepts).1 := by
  unfold capture
  split
  · next hreaches =>
    refine (evolves_notify (Tells.offered hreaches)).trans (evolves_update fun r hr => ?_)
    rw [notify, request?_notifyAll] at hr
    exact evolves_offer hr
  · exact .refl s

/-- A step has no effects but those of its event. -/
theorem evolves_step {e : Event} (h : s.step e = some s') : s.Evolves (s.effects e) s' := by
  cases steps_of_step h with
  | submit => exact evolves_submit _ _
  | stop => exact evolves_stop _
  | fault => exact evolves_reportFault _
  | capture => exact evolves_capture _ _ _
  | elapse | cancel | disconnect =>
    exact .of_eq rfl rfl rfl rfl (by simp [cancel, elapse, disconnect])
  | wake => exact evolves_wake h

/-! Runs. -/

/-- In the run of `es` from `s` to `s'`, the event `e` carries the session from `a` to `b`. -/
def Occurs (s : Session) (es : List Event) (s' a : Session) (e : Event) (b : Session) : Prop :=
  ∃ before after, es = before ++ e :: after ∧ s.run before = some a ∧ a.step e = some b ∧
    b.run after = some s'

theorem run_append (s : Session) (es es' : List Event) :
    s.run (es ++ es') = (s.run es).bind (·.run es') := by
  induction es generalizing s with
  | nil => rfl
  | cons e es ih =>
    rw [List.cons_append, run_cons, run_cons, Option.bind_assoc]
    congr 1
    funext s₁
    exact ih s₁

theorem run_trans {a : Session} {es es' : List Event} (h : s.run es = some a)
    (h' : a.run es' = some s') : s.run (es ++ es') = some s' := by
  rw [run_append, h]
  exact h'

theorem run_concat {a : Session} {es : List Event} {e : Event} (h : s.run es = some a)
    (hstep : a.step e = some s') : s.run (es ++ [e]) = some s' := by
  have hlast : a.run [e] = some s' := by rw [run_cons, hstep]; rfl
  exact run_trans h hlast

namespace Occurs

variable {a b s₁ : Session} {e e' : Event} {es : List Event}

theorem head (hs : s.step e = some s₁) (hr : s₁.run es = some s') : s.Occurs (e :: es) s' s e s₁ :=
  ⟨[], es, rfl, rfl, hs, hr⟩

theorem tail (hs : s.step e' = some s₁) (h : s₁.Occurs es s' a e b) :
    s.Occurs (e' :: es) s' a e b := by
  obtain ⟨before, after, rfl, hbefore, hstep, hafter⟩ := h
  exact ⟨e' :: before, after, rfl, by simp [hs, hbefore], hstep, hafter⟩

theorem step_eq (h : s.Occurs es s' a e b) : a.step e = some b := by
  obtain ⟨_, _, -, -, hstep, -⟩ := h
  exact hstep

end Occurs

/-- What holds at the end of a run held at its start, or came to hold in one of its steps. -/
theorem exists_change {I : Session → Prop} {es : List Event} (h : s.run es = some s') (hs' : I s') :
    I s ∨ ∃ a e b, s.Occurs es s' a e b ∧ ¬ I a ∧ I b := by
  induction es generalizing s with
  | nil =>
    rw [Option.some.inj h]
    exact .inl hs'
  | cons e es ih =>
    obtain ⟨s₁, hstep, hrun⟩ := Option.bind_eq_some_iff.1 h
    rcases ih hrun with hs₁ | ⟨a, e', b, ho, hchange⟩
    · by_cases hs : I s
      · exact .inl hs
      · exact .inr ⟨s, e, s₁, .head hstep hrun, hs, hs₁⟩
    · exact .inr ⟨a, e', b, ho.tail hstep, hchange⟩

/-- The effects of the steps of a run. A stop signal is resolved by the first step that may. -/
def runEffects (s : Session) (es : List Event) (s' : Session) : Effects where
  tells t m := ∃ a e b, s.Occurs es s' a e b ∧ t < b.requests.length ∧ a.Tells e t m
  resolves t reason := ∃ a e b, s.Occurs es s' a e b ∧ a.Holds t (·.signal.reason = none) ∧
    a.Resolves e t reason
  enters t stage := ∃ a e b, s.Occurs es s' a e b ∧ a.Enters e t stage
  admits t := ∃ a e b, s.Occurs es s' a e b ∧ a.Admits e t

theorem evolves_run {es : List Event} (h : s.run es = some s') :
    s.Evolves (s.runEffects es s') s' := by
  induction es generalizing s with
  | nil =>
    rw [← Option.some.inj h]
    exact .refl s
  | cons e es ih =>
    obtain ⟨s₁, hstep, hrun⟩ := Option.bind_eq_some_iff.1 h
    -- the effects of the first step and those of the rest are both effects of the whole run
    have hhead := Occurs.head hstep hrun
    have hfirst : s.Evolves (s.runEffects (e :: es) s') s₁ := (evolves_step hstep).imp
      (fun t m ht h => ⟨s, e, s₁, hhead, ht, h⟩) (fun t reason hu h => ⟨s, e, s₁, hhead, hu, h⟩)
      (fun t stage h => ⟨s, e, s₁, hhead, h⟩) (fun t h => ⟨s, e, s₁, hhead, h⟩)
    have hrest : s₁.Evolves (s.runEffects (e :: es) s') s' := (ih hrun).imp
      (fun t m _ ⟨a, e, b, ho, h⟩ => ⟨a, e, b, ho.tail hstep, h⟩)
      (fun t reason _ ⟨a, e, b, ho, h⟩ => ⟨a, e, b, ho.tail hstep, h⟩)
      (fun t stage ⟨a, e, b, ho, h⟩ => ⟨a, e, b, ho.tail hstep, h⟩)
      (fun t ⟨a, e, b, ho, h⟩ => ⟨a, e, b, ho.tail hstep, h⟩)
    exact hfirst.trans hrest

end MethodCapture.Session
