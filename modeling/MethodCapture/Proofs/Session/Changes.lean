import MethodCapture.Proofs.Session.Growth

/-!
What is done to one request. Every step makes a list of changes to a request, which is read off the
event and the session before it, and a run makes the lists of its steps, one after the other. So a
request is what its submission asked for with all its changes applied in order. Which changes may be
made to a request depends on the stage it is in.
-/

namespace MethodCapture

inductive Change where
  | enter (stage : Stage)
  | resolve (reason : StopReason)
  | equip (plans : List Plan)
  /-- The guard counts an acceptance. -/
  | count
  deriving DecidableEq

namespace Change

def stage? : Change → Option Stage
  | enter stage => some stage
  | _ => none

/-- A request is cut short by cancellation. -/
def drained : List Change := [resolve .shutdown, enter .completed]

def failed : List Change := [resolve .cancelled, enter .faulted]

def denied : List Change := [resolve .cancelled, enter .denied]

/-- What changes to the request `u` are to the request `t`. -/
def upon (u t : Nat) (cs : List Change) : List Change := if u = t then cs else []

@[simp] theorem upon_self (t : Nat) (cs : List Change) : upon t t cs = cs := if_pos rfl

theorem upon_of_ne {u t : Nat} (h : u ≠ t) (cs : List Change) : upon u t cs = [] := if_neg h

theorem upon_append (u t : Nat) (cs cs' : List Change) :
    upon u t cs ++ upon u t cs' = upon u t (cs ++ cs') := by
  unfold upon
  split <;> rfl

end Change

namespace Request

def count (r : Request) : Request :=
  match r.surface with
  | some (.limited g) => { r with surface := some (.limited g.count) }
  | _ => r

def apply (r : Request) : Change → Request
  | .enter stage => r.enter stage
  | .resolve reason => r.resolve reason
  | .equip plans => r.equip plans
  | .count => r.count

def applyAll (r : Request) (cs : List Change) : Request := cs.foldl apply r

variable {r : Request} {cs : List Change}

@[simp] theorem applyAll_nil (r : Request) : r.applyAll [] = r := rfl

@[simp] theorem applyAll_cons (r : Request) (c : Change) (cs : List Change) :
    r.applyAll (c :: cs) = (r.apply c).applyAll cs := rfl

@[simp] theorem applyAll_append (r : Request) (cs cs' : List Change) :
    r.applyAll (cs ++ cs') = (r.applyAll cs).applyAll cs' :=
  List.foldl_append

@[simp] theorem limit_count (r : Request) : r.count.limit = r.limit := by
  unfold count
  split <;> rfl

@[simp] theorem path_count (r : Request) : r.count.path = r.path := by
  unfold count
  split <;> rfl

/-- What no change touches stays. -/
theorem applyAll_keeps {α : Type} {f : Request → α} (hf : ∀ r c, f (r.apply c) = f r) (r : Request)
    (cs : List Change) : f (r.applyAll cs) = f r := by
  induction cs generalizing r with
  | nil => rfl
  | cons c cs ih => rw [applyAll_cons, ih, hf]

@[simp] theorem limit_applyAll (r : Request) (cs : List Change) :
    (r.applyAll cs).limit = r.limit := by
  refine applyAll_keeps (fun r c => ?_) r cs
  cases c with
  | count => exact limit_count r
  | _ => rfl

/-- The stages are passed in the order in which they are entered. -/
theorem path_applyAll (r : Request) (cs : List Change) :
    (r.applyAll cs).path = r.path ++ cs.filterMap (·.stage?) := by
  induction cs generalizing r with
  | nil => simp
  | cons c cs ih =>
    rw [applyAll_cons, ih]
    cases c with
    | count => rw [apply, path_count]; rfl
    | enter stage => rw [apply, path_enter, List.append_assoc]; rfl
    | _ => rfl

/-- What an offer through the surface does. -/
def offerChanges (r : Request) (accepts : Bool) : List Change :=
  match r.surface with
  | some (.limited g) =>
    if !g.tripped && accepts then
      .count :: if g.captured + 1 = g.limit then [.resolve .limitReached] else []
    else []
  | _ => []

theorem offer_eq_applyAll (r : Request) (accepts : Bool) :
    r.offer accepts = r.applyAll (r.offerChanges accepts) := by
  obtain ⟨_, _, _, _, _, _, _, _, surface⟩ := r
  match surface with
  | none | some .host => rfl
  | some (.limited g) =>
    by_cases htaken : g.tripped = false ∧ accepts = true
    · obtain ⟨hopen, rfl⟩ := htaken
      by_cases hlast : g.captured + 1 = g.limit <;>
        simp [offer, offerChanges, Watch.offer, Watch.passes, LimitGuard.count, hopen, hlast, apply,
          count, Request.resolve]
    · have hdeclined : (!g.tripped && accepts) = false := by simpa using htaken
      simp [offer, offerChanges, Watch.offer, Watch.passes, hdeclined]

theorem offerChanges_of_not_passes (h : r.passes = false) (accepts : Bool) :
    r.offerChanges accepts = [] := by
  unfold passes at h
  unfold offerChanges
  split at h
  · next hs => rw [hs]
  · cases h
  · next g hs =>
    have htripped : g.tripped = true := by simpa [Watch.passes] using h
    simp [hs, htripped]

end Request

namespace Session

/-! What an event does to the request `t`. -/

/-- The request that an event makes, before anything is done to it. -/
def made? (s : Session) (t : Ticket) : Event → Option Request
  | .submit _ p => if t = s.requests.length then (p.toRequest s.settings).toOption else none
  | _ => none

def admissionChanges (s : Session) (policy : Policy) (p : Submission) : List Change :=
  .enter .validating ::
    if policy.refused p.methods ≠ [] then Change.denied
    else if s.registry.contains p.id then []
    else if s.hasExited || s.waiting.isSome then Change.denied
    else []

def exitChanges (s : Session) (t : Ticket) : List Change :=
  match s.waiting with
  | none => []
  | some u => Change.upon u t Change.drained

def retireChanges (s : Session) (t : Ticket) : List Change :=
  if s.cancelled then s.exitChanges t else []

def takeChanges (s : Session) (resolver : Resolver) (r : Request) : List Change :=
  if r.signal.isResolved then [.enter .completed]
  else match Resolution.outcome (Resolution.answers resolver r.methods) with
    | .error _ => .enter .resolving :: Change.failed
    | .ok methods =>
      [.enter .resolving, .equip (methods.map (Plan.ofMethod s.settings.nestingLimit))]

def pollChanges (s : Session) (t : Ticket) (resolver : Resolver) : List Change :=
  if s.cancelled then s.exitChanges t
  else match s.waiting with
    | none => []
    | some u => Change.upon u t ((s.request? u).toList.flatMap (s.takeChanges resolver))

/-- Once probes are removed, the request ends; a cancelled worker ends, too. -/
def stoppedChanges (s : Session) (t : Ticket) (failure : Option Failure) : List Change :=
  match s.phase with
  | .cleaning u _ =>
    Change.upon u t (if s.cancelled then Change.drained else Change.failed) ++ s.retireChanges t
  | .stopping u =>
    Change.upon u t (if failure.isSome && !s.cancelled then Change.failed else [.enter .completed])
      ++ s.retireChanges t
  | _ => []

/-- The active request stops. -/
def windChanges (s : Session) (t : Ticket) (cs : List Change) : List Change :=
  match s.phase with
  | .active u _ => Change.upon u t (cs ++ [.enter .stopping])
  | _ => []

def wakeChanges (s : Session) (t : Ticket) : Wake → List Change
  | .poll resolver => s.pollChanges t resolver
  | .started none => if s.phase = .starting t then [.enter .active] else []
  | .started (some _) => []
  | .stopped failure => s.stoppedChanges t failure
  | .signalled => s.windChanges t []
  | .timedOut => s.windChanges t [.resolve .durationElapsed]
  | .cancelled => s.windChanges t [.resolve .shutdown]

def changes (s : Session) (t : Ticket) : Event → List Change
  | .submit policy p => if t = s.requests.length then s.admissionChanges policy p else []
  | .stop id => if s.registry.get? id = some t then [.resolve .explicit] else []
  | .capture u _ accepts => Change.upon u t ((s.request? u).toList.flatMap (·.offerChanges accepts))
  | .wake w => s.wakeChanges t w
  | .fault _ | .elapse _ | .cancel | .disconnect => []

/-- All that a run does to the request `t`. -/
def changesOver (s : Session) (t : Ticket) : List Event → List Change
  | [] => []
  | e :: es => s.changes t e ++ ((s.step e).map (·.changesOver t es)).getD []

/-- The request `t` comes out of `s` with the changes `cs`. -/
def Changed (s s' : Session) (t : Ticket) (cs : List Change) : Prop :=
  s'.request? t = (s.request? t).map (·.applyAll cs)

variable {s s' s'' a b : Session} {t u : Ticket} {cs cs' : List Change} {r : Request}
  {es : List Event} {e : Event}

namespace Changed

theorem of_requests (h : s'.requests = s.requests) : Changed s s' t [] := by
  simp [Changed, request?, h]

theorem trans (h : Changed s s' t cs) (h' : Changed s' s'' t cs') :
    Changed s s'' t (cs ++ cs') := by
  rw [Changed, h', h, Option.map_map]
  congr 1
  funext r
  simp

theorem request? (h : Changed s s' t cs) (hr : s.request? t = some r) :
    s'.request? t = some (r.applyAll cs) := by
  rw [h, hr, Option.map_some]

/-- The requests themselves stay as they are. -/
theorem keep (h : Changed s s' t cs) (hk : s''.requests = s'.requests) : Changed s s'' t cs := by
  have := h.trans (.of_requests hk)
  rwa [List.append_nil] at this

end Changed

/-! The parts of a step. -/

theorem changed_update {f : Request → Request}
    (hf : ∀ r, s.request? u = some r → f r = r.applyAll cs) :
    Changed s (s.update u f) t (Change.upon u t cs) := by
  rw [Changed, request?_update]
  split
  · next hu =>
    subst hu
    rw [Change.upon_self]
    cases hr : s.request? u with
    | none => rfl
    | some r => simp [hf r hr]
  · next hu => simp [Change.upon_of_ne hu]

theorem changed_conclude (s : Session) (t u : Ticket) :
    Changed s (s.conclude u) t (Change.upon u t [.enter .completed]) :=
  (changed_update fun _ _ => rfl).keep requests_notifyAll

theorem changed_drain (s : Session) (t u : Ticket) :
    Changed s ((s.update u (·.resolve .shutdown)).conclude u) t
      (Change.upon u t Change.drained) := by
  have hresolve :
      Changed s (s.update u (·.resolve .shutdown)) t (Change.upon u t [.resolve .shutdown]) :=
    changed_update fun _ _ => rfl
  have hdrain := hresolve.trans (changed_conclude _ t u)
  rwa [Change.upon_append] at hdrain

theorem changed_fail (s : Session) (t u : Ticket) (e : Failure) :
    Changed s (s.fail u e) t (Change.upon u t Change.failed) :=
  (changed_update fun _ _ => rfl).keep requests_notifyAll

theorem changed_deny (s : Session) (t u : Ticket) :
    Changed s (s.deny u) t (Change.upon u t Change.denied) :=
  changed_update fun _ _ => rfl

theorem changed_refuse (s : Session) (t u : Ticket) (reason : FailureReason) (e : Failure) :
    Changed s (s.refuse u reason e) t (Change.upon u t Change.denied) :=
  (changed_deny s t u).keep requests_notifyAll

theorem changed_exit (s : Session) (t : Ticket) : Changed s s.exit t (s.exitChanges t) := by
  unfold exit exitChanges
  cases s.waiting with
  | none => exact .of_requests rfl
  | some u => exact (changed_drain s t u).keep requests_untrack

theorem Changed.retire (h : Changed s s' t cs) :
    Changed s (s'.retire u) t (cs ++ s'.retireChanges t) := by
  refine h.trans ?_
  unfold Session.retire retireChanges
  dsimp only
  rw [cancelled_untrack]
  split
  · have hexit := (Changed.of_requests requests_untrack).trans (changed_exit (s'.untrack u) t)
    rwa [List.nil_append, exitChanges, waiting_untrack] at hexit
  · exact .of_requests requests_untrack

theorem retireChanges_congr (hc : s'.cancelled = s.cancelled) (hw : s'.waiting = s.waiting) :
    s'.retireChanges t = s.retireChanges t := by
  simp only [retireChanges, exitChanges, hc, hw]

theorem retireChanges_of_not_cancelled (hc : s.cancelled = false) : s.retireChanges t = [] := by
  simp [retireChanges, hc]

/-! The steps of the worker. -/

theorem changed_launch (s : Session) (t u : Ticket) (methods : List Method) :
    Changed s (s.launch u methods) t
      (Change.upon u t [.equip (methods.map (Plan.ofMethod s.settings.nestingLimit))]) :=
  (changed_update fun _ _ => rfl).keep requests_notifyAll

theorem changed_take (hc : s.cancelled = false) (resolver : Resolver) (hr : s.request? u = some r) :
    Changed s (s.take resolver u) t (Change.upon u t (s.takeChanges resolver r)) := by
  have hretire {s' : Session} {cs : List Change} (h : Changed s s' t cs)
      (hc' : s'.cancelled = false) : Changed s (s'.retire u) t cs := by
    have := h.retire (u := u)
    rwa [retireChanges_of_not_cancelled hc', List.append_nil] at this
  unfold take takeChanges
  rw [hr]
  by_cases hs : r.signal.isResolved = true
  · simp only [hs, if_true]
    exact hretire (changed_conclude s t u) (by simp [conclude, notify, hc])
  have hask : Changed s ((s.update u (·.enter .resolving)).notifyAll u
      ((Resolution.asked (Resolution.answers resolver r.methods)).map .askedResolver)) t
      (Change.upon u t [.enter .resolving]) :=
    (changed_update fun _ _ => rfl).keep requests_notifyAll
  simp only [hs, if_false, Bool.false_eq_true]
  cases Resolution.outcome (Resolution.answers resolver r.methods) with
  | error e =>
    have hfail := hask.trans (changed_fail _ t u e)
    rw [Change.upon_append] at hfail
    exact hretire hfail (by simp [fail, notify, hc])
  | ok methods =>
    have hlaunch := hask.trans (changed_launch _ t u methods)
    rwa [Change.upon_append, settings_notifyAll, settings_update] at hlaunch

theorem changed_poll (resolver : Resolver) (h : s.poll resolver = some s') (ho : s.Orderly) :
    Changed s s' t (s.pollChanges t resolver) := by
  unfold poll at h
  unfold pollChanges
  by_cases hc : s.cancelled = true
  · rw [if_pos hc] at h ⊢
    cases h
    exact changed_exit s t
  rw [if_neg hc] at h ⊢
  cases hw : s.waiting with
  | none =>
    simp only [hw] at h
    split at h <;> cases h
    have hexit := changed_exit s t
    rwa [exitChanges, hw] at hexit
  | some u =>
    simp only [hw] at h
    cases h
    obtain ⟨r, hr, -⟩ := ho.stage_of_waiting hw
    have hr' : { s with waiting := none }.request? u = some r := hr
    dsimp only
    rw [hr, Option.toList_some, List.flatMap_singleton]
    exact changed_take (by simpa using hc) resolver hr'

theorem changed_wind (s : Session) (t u : Ticket) :
    Changed s (s.wind u) t (Change.upon u t [.enter .stopping]) :=
  (changed_update fun _ _ => rfl).keep requests_notifyAll

theorem changed_wind_resolve (s : Session) (t u : Ticket) (reason : StopReason) :
    Changed s ((s.update u (·.resolve reason)).wind u) t
      (Change.upon u t [.resolve reason, .enter .stopping]) := by
  have hresolve : Changed s (s.update u (·.resolve reason)) t (Change.upon u t [.resolve reason]) :=
    changed_update fun _ _ => rfl
  have hwind := hresolve.trans (changed_wind _ t u)
  rwa [Change.upon_append] at hwind

theorem changed_abandon (cause : Failure) :
    Changed s (s.abandon u cause) t
      (Change.upon u t (if s.cancelled then Change.drained else Change.failed) ++
        s.retireChanges t) := by
  unfold abandon
  by_cases hc : s.cancelled = true
  · rw [if_pos hc, if_pos hc]
    have hretire := (changed_drain s t u).retire (u := u)
    rwa [retireChanges_congr (s := s) (by simp [conclude, notify]) (by simp [conclude, notify])]
      at hretire
  · rw [if_neg hc, if_neg hc]
    have hretire := (changed_fail s t u cause).retire (u := u)
    rwa [retireChanges_congr (s := s) (by simp [fail, notify]) (by simp [fail, notify])] at hretire

theorem changed_finish (failure : Option Failure) : Changed s (s.finish u failure) t
    (Change.upon u t (if failure.isSome && !s.cancelled then Change.failed else [.enter .completed])
      ++ s.retireChanges t) := by
  have hconclude := (changed_conclude s t u).retire (u := u)
  rw [retireChanges_congr (s := s) (by simp [conclude, notify]) (by simp [conclude, notify])]
    at hconclude
  unfold finish
  cases failure with
  | none => exact hconclude
  | some e =>
    by_cases hc : s.cancelled = true
    · simpa [hc] using hconclude
    · have hfail := (changed_fail s t u e).retire (u := u)
      rw [retireChanges_congr (s := s) (by simp [fail, notify]) (by simp [fail, notify])] at hfail
      simpa [hc] using hfail

theorem changed_wake (ho : s.Orderly) {w : Wake} (h : s.wake w = some s') :
    Changed s s' t (s.wakeChanges t w) := by
  cases wakes_of_wake h with
  | exit hp _ | take hp _ _ =>
    rw [wake, if_pos hp] at h
    exact changed_poll _ h ho
  | @activate u hp =>
    obtain ⟨r, hr, -⟩ := ho.stage_of_current? (t := u) (by rw [hp]; rfl)
    have hactive : Changed s (s.activate u) t (Change.upon u t [.enter .active]) := by
      unfold activate
      rw [hr]
      exact (changed_update fun _ _ => rfl).keep requests_notifyAll
    simpa [wakeChanges, hp, Change.upon] using hactive
  | cleanUp hp => exact .of_requests requests_notifyAll
  | abandon hp =>
    rw [wakeChanges, stoppedChanges, hp]
    exact changed_abandon _
  | finish hp =>
    rw [wakeChanges, stoppedChanges, hp]
    exact changed_finish _
  | signalled hp _ =>
    rw [wakeChanges, windChanges, hp]
    exact changed_wind s t _
  | timedOut hp _ =>
    rw [wakeChanges, windChanges, hp]
    exact changed_wind_resolve s t _ _
  | cancelled hp _ =>
    rw [wakeChanges, windChanges, hp]
    exact changed_wind_resolve s t _ _

/-! Submissions. -/

theorem eq_of_toRequest {p : Submission} {settings : Settings} (h : p.toRequest settings = .ok r) :
    r = .ofSubmission { p with limit := p.limit.or settings.defaultLimit } ∧ r.limit ≠ some 0 := by
  unfold Submission.toRequest at h
  dsimp only at h
  split at h
  · cases h
  split at h
  · cases h
  next hlimit =>
  split at h <;> cases h
  exact ⟨rfl, hlimit⟩

theorem id_of_toRequest {p : Submission} {settings : Settings} (h : p.toRequest settings = .ok r) :
    r.id = p.id := by
  rw [(eq_of_toRequest h).1]
  rfl

theorem changed_register (ht : t ≠ s.requests.length) (r : Request) :
    Changed s (s.register r) t [] := by
  suffices h : (s.requests ++ [r.enter .validating])[t]? = s.requests[t]? by
    simpa [Changed, register, request?] using h
  rcases Nat.lt_or_gt_of_ne ht with hlt | hgt
  · exact List.getElem?_append_left hlt
  · rw [List.getElem?_eq_none (by simpa [Nat.succ_le_iff] using hgt),
      List.getElem?_eq_none (Nat.le_of_lt hgt)]

theorem changed_enqueue (s : Session) (t u : Ticket) (id : RequestId) :
    Changed s (s.enqueue u id).1 t (Change.upon u t
      (if s.registry.contains id then []
        else if s.hasExited || s.waiting.isSome then Change.denied else [])) := by
  have hkeep {s' : Session} (h : s'.requests = s.requests) :
      Changed s s' t (Change.upon u t []) := by
    simpa [Change.upon] using Changed.of_requests h
  rw [enqueue_eq]
  by_cases hid : s.registry.contains id = true
  · rw [if_pos hid, if_pos hid]
    exact hkeep rfl
  rw [if_neg hid, if_neg hid]
  by_cases hexited : s.hasExited = true
  · rw [if_pos hexited, hexited, Bool.true_or, if_pos rfl]
    exact changed_deny s t u
  rw [if_neg hexited, (Bool.not_eq_true _).mp hexited, Bool.false_or]
  split
  · exact changed_refuse s t u _ _
  · exact hkeep rfl

/-- A submission does nothing to other requests. -/
theorem changed_submit (ht : t ≠ s.requests.length) (policy : Policy) (p : Submission) :
    Changed s (s.submit policy p).1 t [] := by
  have hne : s.requests.length ≠ t := Ne.symm ht
  cases hp : p.toRequest s.settings with
  | error e =>
    rw [submit, hp]
    exact .of_requests rfl
  | ok r =>
    have hregister := changed_register ht r
    by_cases hrefused : policy.refused r.methods = []
    · have henqueue := hregister.trans (changed_enqueue (s.register r) t s.requests.length r.id)
      rwa [Change.upon_of_ne hne, List.append_nil, ← submit_of_allowed hp hrefused] at henqueue
    · have hrefuse := hregister.trans (changed_refuse (s.register r) t s.requests.length
        .deniedMethods (.deniedMethods (policy.refused r.methods)))
      rw [submit_of_refused hp hrefused]
      rwa [Change.upon_of_ne hne, List.append_nil] at hrefuse

theorem request?_submit (s : Session) (policy : Policy) (p : Submission) :
    (s.submit policy p).1.request? s.requests.length =
      (p.toRequest s.settings).toOption.map (·.applyAll (s.admissionChanges policy p)) := by
  cases hp : p.toRequest s.settings with
  | error e =>
    rw [submit, hp]
    exact List.getElem?_eq_none (Nat.le_refl _)
  | ok r =>
    have hid := id_of_toRequest hp
    have hmethods := methods_of_toRequest hp
    have hnew := request?_register (s := s) r
    have hexited : (s.register r).hasExited = s.hasExited := by simp [hasExited]
    change _ = some (r.applyAll (s.admissionChanges policy p))
    rw [admissionChanges, ← hmethods, Request.applyAll_cons, Request.apply]
    by_cases hrefused : policy.refused r.methods = []
    · rw [submit_of_allowed hp hrefused, (changed_enqueue ..).request? hnew, hid, hexited,
        registry_register, waiting_register, Change.upon_self, if_neg (not_not.2 hrefused)]
    · rw [submit_of_refused hp hrefused, (changed_refuse ..).request? hnew, Change.upon_self,
        if_pos hrefused]

/-! What clients and probes do. -/

theorem changed_stop (s : Session) (t : Ticket) (id : RequestId) :
    Changed s (s.stop id).1 t
      (if s.registry.get? id = some t then [.resolve .explicit] else []) := by
  unfold stop
  cases s.registry.get? id with
  | none => exact .of_requests rfl
  | some u =>
    have hresolve : Changed s (s.update u (·.resolve .explicit)) t
        (Change.upon u t [.resolve .explicit]) := changed_update fun _ _ => rfl
    simpa [Change.upon] using hresolve

theorem changed_capture (hr : s.request? u = some r) (offer : Offer) (accepts : Bool) :
    Changed s (s.capture u offer accepts).1 t (Change.upon u t (r.offerChanges accepts)) := by
  have hreaches : s.reachesHost u = r.passes := by rw [reachesHost, hr, Option.any_some]
  unfold capture
  rw [hreaches]
  split
  · have hnotify : Changed s (s.notify u (.offered offer accepts)) t [] :=
      .of_requests requests_notifyAll
    refine hnotify.trans (changed_update fun r' hr' => ?_)
    have hsame : r = r' := by simpa [notify, hr] using hr'
    rw [hsame, Request.offer_eq_applyAll]
  · next hblocked =>
    rw [Request.offerChanges_of_not_passes (by simpa using hblocked), Change.upon, ite_self]
    exact .of_requests rfl

theorem request?_eq_none (h : s.requests.length ≤ t) : s.request? t = none :=
  List.getElem?_eq_none h

/-- A step makes its changes to a request, be it there before or made by the step itself. -/
theorem request?_step (ho : s.Orderly) (h : s.step e = some s') :
    s'.request? t = ((s.request? t).or (s.made? t e)).map (·.applyAll (s.changes t e)) := by
  have hold {cs : List Change} (hc : Changed s s' t cs) :
      s'.request? t = ((s.request? t).or none).map (·.applyAll cs) := by
    rw [Option.or_none]
    exact hc
  cases steps_of_step h with
  | @submit policy p _ =>
    rw [made?, changes]
    by_cases ht : t = s.requests.length
    · subst ht
      rw [request?_submit, if_pos rfl, if_pos rfl, request?_eq_none (Nat.le_refl _), Option.none_or]
    · rw [if_neg ht, if_neg ht]
      exact hold (changed_submit ht policy p)
  | stop => exact hold (changed_stop ..)
  | @fault m _ =>
    refine hold (.of_requests ?_)
    unfold reportFault
    split
    · rfl
    · exact requests_notifyAll
  | @capture u offer accepts hs =>
    obtain ⟨r, hr, -⟩ := (Option.any_eq_true ..).1 hs
    have hcapture := changed_capture (t := t) hr offer accepts
    refine hold ?_
    rwa [changes, hr, Option.toList_some, List.flatMap_singleton]
  | elapse | cancel | disconnect => exact hold (.of_requests rfl)
  | wake hw => exact hold (changed_wake ho h)

/-! Runs. -/

theorem changesOver_cons (h : s.step e = some s') :
    s.changesOver t (e :: es) = s.changes t e ++ s'.changesOver t es := by
  rw [changesOver, h, Option.map_some, Option.getD_some]

theorem request?_run (ho : s.Orderly) (h : s.run es = some s') (hr : s.request? t = some r) :
    s'.request? t = some (r.applyAll (s.changesOver t es)) := by
  induction es generalizing s r with
  | nil =>
    rw [← Option.some.inj h]
    exact hr
  | cons e es ih =>
    obtain ⟨s₁, hstep, hrun⟩ := Option.bind_eq_some_iff.1 h
    have hr₁ : s₁.request? t = some (r.applyAll (s.changes t e)) := by
      rw [request?_step ho hstep, hr]
      rfl
    rw [changesOver_cons hstep, Request.applyAll_append]
    exact ih (ho.step hstep) hrun hr₁

/-- How the request `t` comes about in the run of `es`: the submission `p` asks for `r`, and from
then on the changes `cs` are made. -/
structure Arises (settings : Settings) (es : List Event) (t : Ticket) (p : Submission) (r : Request)
    (cs : List Change) : Prop where
  asked : p.toRequest settings = .ok r
  made : ∃ before policy after a, es = before ++ .submit policy p :: after ∧
    (ofSettings settings).run before = some a ∧ t = a.requests.length ∧
    cs = a.changesOver t (.submit policy p :: after)

theorem eq_submit_of_made? (h : s.made? t e = some r) :
    ∃ policy p, e = .submit policy p ∧ t = s.requests.length ∧ p.toRequest s.settings = .ok r := by
  cases e with
  | submit policy p =>
    rw [made?] at h
    split at h
    · next ht =>
      cases hp : p.toRequest s.settings with
      | error e =>
        rw [hp] at h
        cases h
      | ok r' =>
        rw [hp] at h
        exact ⟨policy, p, rfl, ht, by rw [hp, ← Option.some.inj h]⟩
    · cases h
  | _ => cases h

/-- A request that is not there at first is made on the way. -/
theorem exists_made (ho : s.Orderly) (h : s.run es = some s') (hnone : s.request? t = none)
    (hr : s'.request? t = some r) : ∃ before policy p after a r₀,
      es = before ++ .submit policy p :: after ∧ s.run before = some a ∧ t = a.requests.length ∧
      p.toRequest a.settings = .ok r₀ ∧
      r = r₀.applyAll (a.changesOver t (.submit policy p :: after)) := by
  induction es generalizing s with
  | nil =>
    rw [← Option.some.inj h, hnone] at hr
    cases hr
  | cons e es ih =>
    obtain ⟨s₁, hstep, hrun⟩ := Option.bind_eq_some_iff.1 h
    have hstepped := request?_step (t := t) ho hstep
    rw [hnone, Option.none_or] at hstepped
    cases hmade : s.made? t e with
    | none =>
      rw [hmade, Option.map_none] at hstepped
      obtain ⟨before, policy, p, after, a, r₀, rfl, hbefore, ht, hp, heq⟩ :=
        ih (ho.step hstep) hrun hstepped
      exact ⟨e :: before, policy, p, after, a, r₀, rfl, by simp [hstep, hbefore], ht, hp, heq⟩
    | some r₀ =>
      obtain ⟨policy, p, rfl, ht, hp⟩ := eq_submit_of_made? hmade
      rw [hmade, Option.map_some] at hstepped
      have hrest := request?_run (ho.step hstep) hrun hstepped
      rw [hr, Option.some.injEq] at hrest
      refine ⟨[], policy, p, es, s, r₀, rfl, rfl, ht, hp, ?_⟩
      rw [changesOver_cons hstep, Request.applyAll_append, hrest]

theorem exists_arises {settings : Settings} (h : (ofSettings settings).run es = some s)
    (hr : s.request? t = some r) :
    ∃ p r₀ cs, Arises settings es t p r₀ cs ∧ r = r₀.applyAll cs := by
  obtain ⟨before, policy, p, after, a, r₀, hes, hbefore, ht, hp, heq⟩ :=
    exists_made (orderly_ofSettings settings) h rfl hr
  have hsettings : a.settings = settings := (evolves_run hbefore).settings
  exact ⟨p, r₀, _, ⟨hsettings ▸ hp, before, policy, after, a, hes, hbefore, ht, rfl⟩, heq⟩

theorem admissionChanges_cases (s : Session) (policy : Policy) (p : Submission) :
    s.admissionChanges policy p = [.enter .validating] ∨
      s.admissionChanges policy p = .enter .validating :: Change.denied := by
  unfold admissionChanges
  split
  · exact .inr rfl
  split
  · exact .inl rfl
  split
  · exact .inr rfl
  · exact .inl rfl

end Session

end MethodCapture
