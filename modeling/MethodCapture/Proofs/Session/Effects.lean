import MethodCapture.Proofs.Session.Tracking

/-!
What a step may do. For each event there are the notices it may send, the reasons it may resolve a
stop signal with, the stages it may put a request in, and the request it may admit; everything else
that was there stays. What holds of all steps, or of all runs, is read off these lists.
-/

namespace MethodCapture

/-- What may be done, and to which request. -/
structure Effects where
  tells : Ticket → Message → Prop
  resolves : Ticket → StopReason → Prop
  enters : Ticket → Stage → Prop
  admits : Ticket → Prop

namespace Effects

/-- A request may end well. -/
structure Completes (E : Effects) (t : Ticket) : Prop where
  tells : E.tells t .captureStopped
  enters : E.enters t .completed

/-- A request may be cut short by cancellation. -/
structure Drains (E : Effects) (t : Ticket) : Prop extends E.Completes t where
  resolves : E.resolves t .shutdown

/-- A request may end with a failure. -/
structure Fails (E : Effects) (t : Ticket) (e : Failure) : Prop where
  tells : E.tells t (.captureFailed e.processingReason e)
  resolves : E.resolves t .cancelled
  enters : E.enters t .faulted

end Effects

namespace Request

variable {E : Effects} {t : Ticket} {r r' r'' : Request}

/-- A request keeps what it was asked for, and the reason of its stop signal once there is one. -/
structure Evolves (E : Effects) (t : Ticket) (r r' : Request) : Prop where
  id : r'.id = r.id
  methods : r'.methods = r.methods
  kept : ∀ reason, r.signal.reason = some reason → r'.signal.reason = some reason
  resolved : ∀ reason, r'.signal.reason = some reason →
    r.signal.reason = some reason ∨ E.resolves t reason
  path : ∃ stages, r'.path = r.path ++ stages ∧ ∀ stage ∈ stages, E.enters t stage

namespace Evolves

/-- Only the stop signal and what is not listed may differ. -/
theorem of_signal (hid : r'.id = r.id) (hmethods : r'.methods = r.methods)
    (hpath : r'.path = r.path)
    (hkept : ∀ reason, r.signal.reason = some reason → r'.signal.reason = some reason)
    (hresolved : ∀ reason, r'.signal.reason = some reason →
      r.signal.reason = some reason ∨ E.resolves t reason) : r.Evolves E t r' :=
  ⟨hid, hmethods, hkept, hresolved, [], by simp [hpath], nofun⟩

theorem refl (r : Request) : r.Evolves E t r :=
  of_signal rfl rfl rfl (fun _ h => h) fun _ h => .inl h

theorem trans (h : r.Evolves E t r') (h' : r'.Evolves E t r'') : r.Evolves E t r'' := by
  obtain ⟨stages, hpath, hstages⟩ := h.path
  obtain ⟨stages', hpath', hstages'⟩ := h'.path
  refine ⟨h'.id.trans h.id, h'.methods.trans h.methods, fun reason hr => h'.kept _ (h.kept _ hr),
    fun reason hr => ?_, stages ++ stages', by simp [hpath', hpath], ?_⟩
  · rcases h'.resolved reason hr with hr | hr
    · exact h.resolved reason hr
    · exact .inr hr
  · intro stage hs
    rcases List.mem_append.1 hs with hs | hs
    · exact hstages stage hs
    · exact hstages' stage hs

/-- Other effects will do, if they cover those that come to pass. -/
theorem imp {E' : Effects} (h : r.Evolves E t r')
    (hr : r.signal.reason = none → ∀ reason, E.resolves t reason → E'.resolves t reason)
    (he : ∀ stage, E.enters t stage → E'.enters t stage) : r.Evolves E' t r' := by
  obtain ⟨stages, hpath, hstages⟩ := h.path
  refine ⟨h.id, h.methods, h.kept, fun reason hreason => ?_, stages, hpath,
    fun stage hs => he stage (hstages stage hs)⟩
  cases hsignal : r.signal.reason with
  | none =>
    rcases h.resolved reason hreason with hold | hnew
    · rw [hsignal] at hold
      cases hold
    · exact .inr (hr hsignal reason hnew)
  | some first =>
    have hkept := h.kept first hsignal
    rw [hreason] at hkept
    exact .inl hkept.symm

theorem enter (r : Request) {stage : Stage} (h : E.enters t stage) :
    r.Evolves E t (r.enter stage) :=
  ⟨rfl, rfl, fun _ h => h, fun _ h => .inl h, [stage], rfl, by simpa using h⟩

theorem resolve (r : Request) {reason : StopReason} (h : E.resolves t reason) :
    r.Evolves E t (r.resolve reason) := by
  refine of_signal rfl rfl rfl (fun x hx => ?_) fun x hx => ?_
  · simp [Request.resolve, hx]
  · cases hr : r.signal.reason with
    | none =>
      have hx : reason = x := by simpa [Request.resolve, hr] using hx
      exact .inr (hx ▸ h)
    | some y =>
      have hx : y = x := by simpa [Request.resolve, hr] using hx
      exact .inl (hx ▸ rfl)

end Evolves

end Request

namespace Session

/-- The worker takes `t` up when it finds it in the queue: neither the session is cancelled nor the
request stopped. -/
structure Takes (s : Session) (t : Ticket) (r : Request) : Prop where
  waiting : s.waiting = some t
  cancelled : s.cancelled = false
  request : s.request? t = some r
  unresolved : r.signal.isResolved = false

/-- The notices an event may send. -/
inductive Tells (s : Session) : Event → Ticket → Message → Prop
  | asked {policy : Policy} {p : Submission} {d : Description} (hd : d ∈ p.methods) :
    Tells s (.submit policy p) s.requests.length (.askedPolicy d)
  | denied {policy : Policy} {p : Submission}
    (h : (s.submit policy p).2 = .error (.deniedMethods (policy.refused p.methods))) :
    Tells s (.submit policy p) s.requests.length
      (.captureFailed .deniedMethods (.deniedMethods (policy.refused p.methods)))
  | crowded {policy : Policy} {p : Submission}
      (h : (s.submit policy p).2 = .error .tooManyRequests) :
    Tells s (.submit policy p) s.requests.length (.captureFailed .tooManyRequests .tooManyRequests)
  | faulty {m : MethodId} {t : Ticket} {method : Method} (hf : s.faulty? m = some (t, method)) :
    Tells s (.fault m) t (.probeFault method)
  | offered {t : Ticket} {offer : Offer} {accepts : Bool} (hr : s.reachesHost t = true) :
    Tells s (.capture t offer accepts) t (.offered offer accepts)
  | resolving {t : Ticket} {r : Request} {resolver : Resolver} {d : Description} (ht : s.Takes t r)
    (hd : d ∈ Resolution.asked (Resolution.answers resolver r.methods)) :
    Tells s (.wake (.poll resolver)) t (.askedResolver d)
  | unresolved {t : Ticket} {r : Request} {resolver : Resolver} {e : Failure} (ht : s.Takes t r)
    (he : Resolution.outcome (Resolution.answers resolver r.methods) = .error e) :
    Tells s (.wake (.poll resolver)) t (.captureFailed e.processingReason e)
  | launched {t : Ticket} {r : Request} {resolver : Resolver} {methods : List Method}
    (ht : s.Takes t r)
    (hm : Resolution.outcome (Resolution.answers resolver r.methods) = .ok methods) :
    Tells s (.wake (.poll resolver)) t
      (.startedProbes (methods.map (Plan.ofMethod s.settings.nestingLimit)) false)
  | activated {t : Ticket} {r : Request} (hp : s.phase = .starting t) (hr : s.request? t = some r) :
    Tells s (.wake (.started none)) t (.captureStarted .active (r.plans.getD []))
  | cleaning {t : Ticket} {cause : Failure} (hp : s.phase = .starting t) :
    Tells s (.wake (.started (some cause))) t (.stoppedProbes s.cancelled)
  | abandoned {t : Ticket} {cause : Failure} {failure : Option Failure}
    (hp : s.phase = .cleaning t cause) (hc : s.cancelled = false) :
    Tells s (.wake (.stopped failure)) t (.captureFailed cause.processingReason cause)
  | stopping {t : Ticket} {deadline : Nat} {w : Wake} (hp : s.phase = .active t deadline) :
    Tells s (.wake w) t (.stoppedProbes s.cancelled)
  | unfinished {t : Ticket} {e : Failure} (hp : s.phase = .stopping t) (hc : s.cancelled = false) :
    Tells s (.wake (.stopped (some e))) t (.captureFailed e.processingReason e)
  | completed {t : Ticket} {w : Wake} (ht : t ∈ s.inFlight) : Tells s (.wake w) t .captureStopped

/-- An event that stops the request `t` before its course is over. -/
inductive Stops (s : Session) (t : Ticket) : Event → StopReason → Prop
  | explicit {id : RequestId} (h : s.registry.get? id = some t) : Stops s t (.stop id) .explicit
  | limitReached {r : Request} {g : LimitGuard} {offer : Offer} (hr : s.request? t = some r)
    (hg : r.surface = some (.limited g)) (ht : g.tripped = false) (hc : g.captured + 1 = g.limit) :
    Stops s t (.capture t offer true) .limitReached
  | durationElapsed {deadline : Nat} (hp : s.phase = .active t deadline) (hd : deadline ≤ s.clock) :
    Stops s t (.wake .timedOut) .durationElapsed

/-- The reasons an event may resolve a stop signal with. -/
inductive Resolves (s : Session) : Event → Ticket → StopReason → Prop
  | stopped {e : Event} {t : Ticket} {reason : StopReason} (h : s.Stops t e reason) :
    Resolves s e t reason
  | refused {policy : Policy} {p : Submission} :
    Resolves s (.submit policy p) s.requests.length .cancelled
  | failed {w : Wake} {t : Ticket} (ht : t ∈ s.inFlight) (hc : s.cancelled = false) :
    Resolves s (.wake w) t .cancelled
  | shutdown {w : Wake} {t : Ticket} (ht : t ∈ s.inFlight) (hc : s.cancelled = true) :
    Resolves s (.wake w) t .shutdown

/-- The stages an event may put a request in. -/
inductive Enters (s : Session) : Event → Ticket → Stage → Prop
  | denied {policy : Policy} {p : Submission} :
    Enters s (.submit policy p) s.requests.length .denied
  | resolving {t : Ticket} {r : Request} {resolver : Resolver} (ht : s.Takes t r) :
    Enters s (.wake (.poll resolver)) t .resolving
  | active {t : Ticket} (hp : s.phase = .starting t) : Enters s (.wake (.started none)) t .active
  | stopping {t : Ticket} {deadline : Nat} {w : Wake} (hp : s.phase = .active t deadline) :
    Enters s (.wake w) t .stopping
  | completed {t : Ticket} {w : Wake} (ht : t ∈ s.inFlight) : Enters s (.wake w) t .completed
  | faulted {t : Ticket} {w : Wake} (ht : t ∈ s.inFlight) (hc : s.cancelled = false) :
    Enters s (.wake w) t .faulted

/-- A request is admitted when its submission succeeds. -/
inductive Admits (s : Session) : Event → Ticket → Prop
  | submitted {policy : Policy} {p : Submission} (h : (s.submit policy p).2 = .ok ()) :
    Admits s (.submit policy p) s.requests.length

def effects (s : Session) (e : Event) : Effects where
  tells := s.Tells e
  resolves := s.Resolves e
  enters := s.Enters e
  admits := s.Admits e

/-- `s'` comes out of `s` by nothing but the effects `E`. -/
structure Evolves (E : Effects) (s s' : Session) : Prop where
  log : ∃ ns, s'.log = s.log ++ ns ∧
    ∀ n ∈ ns, n.ticket < s'.requests.length ∧ E.tells n.ticket n.message
  admitted : ∃ ts, s'.admitted = s.admitted ++ ts ∧ ∀ t ∈ ts, E.admits t
  request : ∀ t r, s.request? t = some r → ∃ r', s'.request? t = some r' ∧ r.Evolves E t r'
  settings : s'.settings = s.settings
  cancelled : s.cancelled = true → s'.cancelled = true

variable {s s' s'' : Session} {t : Ticket} {E : Effects}

namespace Evolves

/-- Nothing changes but the worker, the queue, the registry, the clock and the connection. -/
theorem of_eq (hlog : s'.log = s.log) (hadmitted : s'.admitted = s.admitted)
    (hrequests : s'.requests = s.requests) (hsettings : s'.settings = s.settings)
    (hcancelled : s.cancelled = true → s'.cancelled = true) : s.Evolves E s' where
  log := ⟨[], by simp [hlog], nofun⟩
  admitted := ⟨[], by simp [hadmitted], nofun⟩
  request t r hr := ⟨r, by rw [request?, hrequests]; exact hr, .refl r⟩
  settings := hsettings
  cancelled := hcancelled

theorem refl (s : Session) : s.Evolves E s := of_eq rfl rfl rfl rfl fun h => h

theorem length_le (h : s.Evolves E s') : s.requests.length ≤ s'.requests.length := by
  by_contra hlt
  obtain ⟨r', hr', -⟩ := h.request s'.requests.length _ (List.getElem?_eq_getElem (by omega))
  have := (List.getElem?_eq_some_iff.1 hr').1
  omega

theorem trans (h : s.Evolves E s') (h' : s'.Evolves E s'') : s.Evolves E s'' := by
  obtain ⟨ns, hlog, hns⟩ := h.log
  obtain ⟨ns', hlog', hns'⟩ := h'.log
  obtain ⟨ts, hadmitted, hts⟩ := h.admitted
  obtain ⟨ts', hadmitted', hts'⟩ := h'.admitted
  refine ⟨⟨ns ++ ns', by rw [hlog', hlog, List.append_assoc], fun n hn => ?_⟩,
    ⟨ts ++ ts', by rw [hadmitted', hadmitted, List.append_assoc], fun t ht => ?_⟩,
    fun t r hr => ?_, h'.settings.trans h.settings, fun hc => h'.cancelled (h.cancelled hc)⟩
  · rcases List.mem_append.1 hn with hn | hn
    · exact ⟨Nat.lt_of_lt_of_le (hns n hn).1 h'.length_le, (hns n hn).2⟩
    · exact hns' n hn
  · exact (List.mem_append.1 ht).elim (hts t) (hts' t)
  · obtain ⟨r', hr', hevolves⟩ := h.request t r hr
    obtain ⟨r'', hr'', hevolves'⟩ := h'.request t r' hr'
    exact ⟨r'', hr'', hevolves.trans hevolves'⟩

/-- Other effects will do, if they cover those that come to pass. -/
theorem imp {E' : Effects} (h : s.Evolves E s')
    (htells : ∀ t m, t < s'.requests.length → E.tells t m → E'.tells t m)
    (hresolves : ∀ t reason, s.Holds t (·.signal.reason = none) → E.resolves t reason →
      E'.resolves t reason)
    (henters : ∀ t stage, E.enters t stage → E'.enters t stage)
    (hadmits : ∀ t, E.admits t → E'.admits t) : s.Evolves E' s' := by
  obtain ⟨ns, hlog, hns⟩ := h.log
  obtain ⟨ts, hadmitted, hts⟩ := h.admitted
  refine ⟨⟨ns, hlog, fun n hn => ⟨(hns n hn).1, htells _ _ (hns n hn).1 (hns n hn).2⟩⟩,
    ⟨ts, hadmitted, fun t ht => hadmits t (hts t ht)⟩, fun t r hr => ?_, h.settings, h.cancelled⟩
  obtain ⟨r', hr', hevolves⟩ := h.request t r hr
  exact ⟨r', hr', hevolves.imp (fun hnone reason => hresolves t reason ⟨r, hr, hnone⟩) (henters t)⟩

end Evolves

/-! The parts of a step. -/

theorem evolves_update {f : Request → Request}
    (hf : ∀ r, s.request? t = some r → r.Evolves E t (f r)) : s.Evolves E (s.update t f) where
  log := ⟨[], by simp, nofun⟩
  admitted := ⟨[], by simp, nofun⟩
  request u r hr := by
    by_cases htu : t = u
    · subst htu
      exact ⟨f r, by simp [hr], hf r hr⟩
    · exact ⟨r, by simp [htu, hr], .refl r⟩
  settings := rfl
  cancelled h := h

theorem evolves_enter (s : Session) (phase : Phase) : s.Evolves E (s.enter phase) :=
  .of_eq rfl rfl rfl rfl fun h => h

theorem evolves_untrack (s : Session) (t : Ticket) : s.Evolves E (s.untrack t) := by
  unfold untrack
  split
  · exact .refl s
  · exact .of_eq rfl rfl rfl rfl fun h => h

theorem evolves_notifyAll {messages : List Message} (h : ∀ m ∈ messages, E.tells t m) :
    s.Evolves E (s.notifyAll t messages) := by
  cases hr : s.request? t with
  | none =>
    have : s.notifyAll t messages = s := by simp [notifyAll, hr]
    rw [this]
    exact .refl s
  | some r =>
    refine ⟨⟨messages.map (⟨t, r.id, ·⟩), log_notifyAll hr messages, fun n hn => ?_⟩,
      ⟨[], by simp, by simp⟩, fun u r hr => ⟨r, by simpa using hr, .refl r⟩, ?_, ?_⟩
    · obtain ⟨m, hm, rfl⟩ := List.mem_map.1 hn
      have hlt := (List.getElem?_eq_some_iff.1 hr).1
      exact ⟨by simpa using hlt, h m hm⟩
    · simp [notifyAll, hr]
    · simp [notifyAll, hr]

theorem evolves_notify {m : Message} (h : E.tells t m) : s.Evolves E (s.notify t m) :=
  evolves_notifyAll (by simpa using h)

theorem evolves_conclude (h : E.Completes t) : s.Evolves E (s.conclude t) :=
  (evolves_update fun r _ => .enter r h.enters).trans (evolves_notify h.tells)

theorem evolves_resolve {reason : StopReason} (h : E.resolves t reason) :
    s.Evolves E (s.update t (·.resolve reason)) :=
  evolves_update fun r _ => .resolve r h

theorem evolves_fail {e : Failure} (h : E.Fails t e) : s.Evolves E (s.fail t e) :=
  (evolves_update fun r _ => (Request.Evolves.resolve r h.resolves).trans (.enter _ h.enters)).trans
    (evolves_notify h.tells)

theorem evolves_exit (h : ∀ u, s.waiting = some u → E.Drains u) : s.Evolves E s.exit := by
  unfold exit
  split
  · exact evolves_enter ..
  · next u hu =>
    have hdrain := (evolves_resolve (s := s) (h u hu).resolves).trans
      (evolves_conclude (h u hu).toCompletes)
    exact (hdrain.trans (evolves_untrack ..)).trans (.of_eq rfl rfl rfl rfl fun h => h)

/-- After a request is left, the worker ends only if the session is cancelled. -/
theorem Evolves.retire (h : s.Evolves E s')
    (hd : s'.cancelled = true → ∀ u, s'.waiting = some u → E.Drains u) :
    s.Evolves E (s'.retire t) := by
  unfold Session.retire
  dsimp only
  split
  · next hc =>
    rw [cancelled_untrack] at hc
    refine h.trans ((evolves_untrack ..).trans (evolves_exit fun u hu => hd hc u ?_))
    rwa [waiting_untrack] at hu
  · exact h.trans ((evolves_untrack ..).trans (evolves_enter ..))

end Session

end MethodCapture
