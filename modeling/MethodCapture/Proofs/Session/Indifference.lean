import MethodCapture.Proofs.Session.Tracking

/-!
The reason for which a request stops is recorded, but nothing depends on it. Sessions that differ
only in the recorded reason of one request make the same steps, and differ only in that afterwards.
-/

namespace MethodCapture

namespace Request

variable {r r' : Request}

/-- The request with nothing recorded but that it was stopped. -/
def forget (r : Request) : Request :=
  { r with signal := if r.signal.isResolved then ⟨some .cancelled⟩ else r.signal }

theorem isResolved_forget (r : Request) : r.forget.signal.isResolved = r.signal.isResolved := by
  unfold forget
  split
  · next h => exact h.symm
  · rfl

theorem forget_enter (r : Request) (stage : Stage) :
    (r.enter stage).forget = r.forget.enter stage :=
  rfl

theorem forget_equip (r : Request) (plans : List Plan) :
    (r.equip plans).forget = r.forget.equip plans :=
  rfl

/-- Whatever the reason is, and whether or not it is the first, it is forgotten. -/
theorem forget_resolve (r : Request) (reason : StopReason) :
    (r.resolve reason).forget = r.forget.resolve .cancelled := by
  cases h : r.signal.reason <;> simp [forget, resolve, StopSignal.resolve, StopSignal.isResolved, h]

theorem forget_offer (r : Request) (accepts : Bool) :
    (r.offer accepts).forget = (r.forget.offer accepts).forget := by
  obtain ⟨_, _, _, _, _, _, ⟨reason⟩, _, surface⟩ := r
  match surface with
  | none | some .host => cases reason <;> rfl
  | some (.limited g) =>
    by_cases htaken : (!g.tripped && accepts) = true
    · cases reason <;> by_cases hlast : g.count.tripped = true <;>
        simp [forget, offer, Watch.offer, Watch.passes, StopSignal.isResolved, StopSignal.resolve,
          htaken, hlast]
    · cases reason <;>
        simp [forget, offer, Watch.offer, Watch.passes, StopSignal.isResolved, htaken]

end Request

namespace Session

/-- The sessions differ in nothing but the reason recorded for the request `t`. -/
structure Alike (t : Ticket) (s s' : Session) : Prop where
  rest : { s with requests := [] } = { s' with requests := [] }
  self : (s.request? t).map (·.forget) = (s'.request? t).map (·.forget)
  others : ∀ u, u ≠ t → s.request? u = s'.request? u

variable {s s' s₁ s₁' : Session} {t u : Ticket} {f f' : Request → Request} {r r' : Request}

namespace Alike

theorem refl (t : Ticket) (s : Session) : Alike t s s := ⟨rfl, rfl, fun _ _ => rfl⟩

theorem symm (h : Alike t s s') : Alike t s' s :=
  ⟨h.rest.symm, h.self.symm, fun u hu => (h.others u hu).symm⟩

section Rest

variable (h : Alike t s s')
include h

theorem settings : s.settings = s'.settings :=
  (congrArg Session.settings h.rest :)

theorem admitted : s.admitted = s'.admitted :=
  (congrArg Session.admitted h.rest :)

theorem registry : s.registry = s'.registry :=
  (congrArg Session.registry h.rest :)

theorem waiting : s.waiting = s'.waiting :=
  (congrArg Session.waiting h.rest :)

theorem phase : s.phase = s'.phase :=
  (congrArg Session.phase h.rest :)

theorem connected : s.connected = s'.connected :=
  (congrArg Session.connected h.rest :)

theorem cancelled : s.cancelled = s'.cancelled :=
  (congrArg Session.cancelled h.rest :)

theorem clock : s.clock = s'.clock :=
  (congrArg Session.clock h.rest :)

theorem log : s.log = s'.log :=
  (congrArg Session.log h.rest :)

/-! What is read off a request without its reason is the same. -/

theorem forget_request? (u : Ticket) :
    (s.request? u).map (·.forget) = (s'.request? u).map (·.forget) := by
  by_cases hu : u = t
  · rw [hu, h.self]
  · rw [h.others u hu]

theorem exists_request? (hr : s.request? u = some r) :
    ∃ r', s'.request? u = some r' ∧ r.forget = r'.forget := by
  have hforget := h.forget_request? u
  rw [hr, Option.map_some] at hforget
  obtain ⟨r', hr', heq⟩ := Option.map_eq_some_iff.1 hforget.symm
  exact ⟨r', hr', heq.symm⟩

theorem request?_eq_none (hr : s.request? u = none) : s'.request? u = none := by
  have hforget := h.forget_request? u
  rw [hr, Option.map_none] at hforget
  exact Option.map_eq_none_iff.1 hforget.symm

theorem length_requests : s.requests.length = s'.requests.length := by
  apply Nat.le_antisymm
  · exact List.getElem?_eq_none_iff.1
      (h.symm.request?_eq_none (List.getElem?_eq_none (Nat.le_refl _)))
  · exact List.getElem?_eq_none_iff.1 (h.request?_eq_none (List.getElem?_eq_none (Nat.le_refl _)))

theorem any_request? {p : Request → Bool} (hp : ∀ r, p r.forget = p r) (u : Ticket) :
    (s.request? u).any p = (s'.request? u).any p := by
  cases hr : s.request? u with
  | none => rw [h.request?_eq_none hr]
  | some r =>
    obtain ⟨r', hr', heq⟩ := h.exists_request? hr
    rw [hr', Option.any_some, Option.any_some, ← hp r, heq, hp r']

end Rest

/-! The parts of a step. -/

theorem update (h : Alike t s s')
    (hf : ∀ r r', r.forget = r'.forget → (f r).forget = (f' r').forget)
    (hne : u ≠ t → f = f') : Alike t (s.update u f) (s'.update u f') where
  rest := h.rest
  self := by
    rw [request?_update, request?_update]
    split
    · cases hr : s.request? t with
      | none => rw [h.request?_eq_none hr]; rfl
      | some r =>
        obtain ⟨r', hr', heq⟩ := h.exists_request? hr
        rw [hr']
        exact congrArg some (hf r r' heq)
    · exact h.self
  others v hv := by
    rw [request?_update, request?_update, h.others v hv]
    split
    · next hu => rw [hne (hu ▸ hv)]
    · rfl

/-- Whatever is done apart from the requests. -/
theorem map (h : Alike t s s') {g : Session → Session}
    (hg : ∀ s, { g s with requests := [] } = g { s with requests := [] })
    (hk : ∀ s, (g s).requests = s.requests) : Alike t (g s) (g s') where
  rest := by rw [hg, hg, h.rest]
  self := by
    rw [request?, request?, hk, hk]
    exact h.self
  others u hu := by
    rw [request?, request?, hk, hk]
    exact h.others u hu

theorem enter (h : Alike t s s') (phase : Phase) : Alike t (s.enter phase) (s'.enter phase) :=
  h.map (g := (·.enter phase)) (fun _ => rfl) fun _ => rfl

theorem leave (h : Alike t s s') : Alike t { s with waiting := none } { s' with waiting := none } :=
  h.map (g := fun s => { s with waiting := none }) (fun _ => rfl) fun _ => rfl

theorem notifyAll (h : Alike t s s') (u : Ticket) (ms : List Message) :
    Alike t (s.notifyAll u ms) (s'.notifyAll u ms) := by
  unfold Session.notifyAll
  cases hr : s.request? u with
  | none =>
    rw [h.request?_eq_none hr]
    exact h
  | some r =>
    obtain ⟨r', hr', heq⟩ := h.exists_request? hr
    have hid : r.id = r'.id := (congrArg Request.id heq :)
    rw [hr']
    dsimp only
    rw [← hid]
    exact h.map (g := fun s => { s with history := (ms.map (⟨u, r.id, ·⟩)).reverse ++ s.history })
      (fun _ => rfl) fun _ => rfl

theorem untrack (h : Alike t s s') (u : Ticket) : Alike t (s.untrack u) (s'.untrack u) := by
  unfold Session.untrack
  cases hr : s.request? u with
  | none =>
    rw [h.request?_eq_none hr]
    exact h
  | some r =>
    obtain ⟨r', hr', heq⟩ := h.exists_request? hr
    have hid : r.id = r'.id := (congrArg Request.id heq :)
    rw [hr']
    dsimp only
    rw [← hid]
    exact h.map (g := fun s => { s with registry := s.registry.erase r.id }) (fun _ => rfl)
      fun _ => rfl

theorem enterStage (h : Alike t s s') (u : Ticket) (stage : Stage) :
    Alike t (s.update u (·.enter stage)) (s'.update u (·.enter stage)) :=
  h.update (fun r r' heq => by rw [r.forget_enter, r'.forget_enter, heq]) fun _ => rfl

theorem resolve (h : Alike t s s') (u : Ticket) (reason : StopReason) :
    Alike t (s.update u (·.resolve reason)) (s'.update u (·.resolve reason)) :=
  h.update (fun r r' heq => by rw [r.forget_resolve, r'.forget_resolve, heq]) fun _ => rfl

theorem resolveThenEnter (h : Alike t s s') (u : Ticket) (reason : StopReason) (stage : Stage) :
    Alike t (s.update u fun r => (r.resolve reason).enter stage)
      (s'.update u fun r => (r.resolve reason).enter stage) :=
  h.update (fun r r' heq => by rw [Request.forget_enter, Request.forget_enter, r.forget_resolve,
    r'.forget_resolve, heq]) fun _ => rfl

theorem conclude (h : Alike t s s') (u : Ticket) : Alike t (s.conclude u) (s'.conclude u) :=
  (h.enterStage u .completed).notifyAll u _

theorem fail (h : Alike t s s') (u : Ticket) (e : Failure) : Alike t (s.fail u e) (s'.fail u e) :=
  (h.resolveThenEnter u .cancelled .faulted).notifyAll u _

theorem deny (h : Alike t s s') (u : Ticket) : Alike t (s.deny u) (s'.deny u) :=
  h.resolveThenEnter u .cancelled .denied

theorem refuse (h : Alike t s s') (u : Ticket) (reason : FailureReason) (e : Failure) :
    Alike t (s.refuse u reason e) (s'.refuse u reason e) :=
  (h.deny u).notifyAll u _

/-! The steps of the worker. -/

theorem exit (h : Alike t s s') : Alike t s.exit s'.exit := by
  unfold Session.exit
  rw [← h.waiting]
  cases s.waiting with
  | none => exact h.enter _
  | some u => exact ((((h.resolve u .shutdown).conclude u).untrack u).leave).enter _

theorem retire (h : Alike t s s') (u : Ticket) : Alike t (s.retire u) (s'.retire u) := by
  have huntrack := h.untrack u
  unfold Session.retire
  dsimp only
  rw [← huntrack.cancelled]
  split
  · exact huntrack.exit
  · exact huntrack.enter _

theorem launch (h : Alike t s s') (u : Ticket) (methods : List Method) :
    Alike t (s.launch u methods) (s'.launch u methods) := by
  unfold Session.launch
  rw [← h.settings, ← h.cancelled]
  refine ((h.update (fun r r' heq => ?_) fun _ => rfl).enter _).notifyAll u _
  rw [Request.forget_equip, Request.forget_equip, heq]

theorem take (h : Alike t s s') (resolver : Resolver) (u : Ticket) :
    Alike t (s.take resolver u) (s'.take resolver u) := by
  unfold Session.take
  cases hr : s.request? u with
  | none =>
    rw [h.request?_eq_none hr]
    exact h.retire u
  | some r =>
    obtain ⟨r', hr', heq⟩ := h.exists_request? hr
    have hmethods : r.methods = r'.methods := (congrArg Request.methods heq :)
    have hresolved : r.signal.isResolved = r'.signal.isResolved := by
      rw [← r.isResolved_forget, heq, r'.isResolved_forget]
    rw [hr']
    dsimp only
    rw [← hmethods, ← hresolved]
    split
    · exact (h.conclude u).retire u
    · have hask := (h.enterStage u .resolving).notifyAll u
        ((Resolution.asked (Resolution.answers resolver r.methods)).map .askedResolver)
      split
      · exact (hask.fail u _).retire u
      · exact hask.launch u _

theorem activate (h : Alike t s s') (u : Ticket) : Alike t (s.activate u) (s'.activate u) := by
  unfold Session.activate
  cases hr : s.request? u with
  | none =>
    rw [h.request?_eq_none hr]
    exact h.retire u
  | some r =>
    obtain ⟨r', hr', heq⟩ := h.exists_request? hr
    have hduration : r.duration = r'.duration := (congrArg Request.duration heq :)
    have hplans : r.plans = r'.plans := (congrArg Request.plans heq :)
    rw [hr']
    dsimp only
    rw [← hduration, ← hplans, ← h.clock]
    exact ((h.enterStage u .active).enter _).notifyAll u _

theorem cleanUp (h : Alike t s s') (u : Ticket) (cause : Failure) :
    Alike t (s.cleanUp u cause) (s'.cleanUp u cause) := by
  unfold Session.cleanUp
  rw [← h.cancelled]
  exact (h.enter _).notifyAll u _

theorem abandon (h : Alike t s s') (u : Ticket) (cause : Failure) :
    Alike t (s.abandon u cause) (s'.abandon u cause) := by
  unfold Session.abandon
  rw [← h.cancelled]
  split
  · exact ((h.resolve u .shutdown).conclude u).retire u
  · exact (h.fail u cause).retire u

theorem wind (h : Alike t s s') (u : Ticket) : Alike t (s.wind u) (s'.wind u) := by
  unfold Session.wind
  rw [← h.cancelled]
  exact ((h.enterStage u .stopping).enter _).notifyAll u _

theorem finish (h : Alike t s s') (u : Ticket) (failure : Option Failure) :
    Alike t (s.finish u failure) (s'.finish u failure) := by
  unfold Session.finish
  rw [← h.cancelled]
  split
  · exact (h.conclude u).retire u
  split
  · exact (h.conclude u).retire u
  · exact (h.fail u _).retire u

theorem isSignalled (h : Alike t s s') (u : Ticket) : s.isSignalled u = s'.isSignalled u :=
  h.any_request? (fun r => r.isResolved_forget) u

theorem wakes (h : Alike t s s') {w : Wake} (hw : s.Wakes w s₁) :
    ∃ s₁', s'.Wakes w s₁' ∧ Alike t s₁ s₁' := by
  cases hw with
  | exit hp hend =>
    rw [h.phase] at hp
    rw [h.cancelled, h.waiting, h.connected] at hend
    exact ⟨_, .exit hp hend, h.exit⟩
  | take hp hc hw =>
    exact ⟨_, .take (h.phase ▸ hp) (h.cancelled ▸ hc) (h.waiting ▸ hw), h.leave.take _ _⟩
  | activate hp => exact ⟨_, .activate (h.phase ▸ hp), h.activate _⟩
  | cleanUp hp => exact ⟨_, .cleanUp (h.phase ▸ hp), h.cleanUp _ _⟩
  | abandon hp => exact ⟨_, .abandon (h.phase ▸ hp), h.abandon _ _⟩
  | finish hp => exact ⟨_, .finish (h.phase ▸ hp), h.finish _ _⟩
  | signalled hp hs => exact ⟨_, .signalled (h.phase ▸ hp) (h.isSignalled _ ▸ hs), h.wind _⟩
  | timedOut hp hd => exact ⟨_, .timedOut (h.phase ▸ hp) (h.clock ▸ hd), (h.resolve _ _).wind _⟩
  | cancelled hp hc =>
    exact ⟨_, .cancelled (h.phase ▸ hp) (h.cancelled ▸ hc), (h.resolve _ _).wind _⟩

/-! What clients and probes do. -/

theorem register (h : Alike t s s') (r : Request) : Alike t (s.register r) (s'.register r) := by
  have hlength := h.length_requests
  have happend : Alike t { s with requests := s.requests ++ [r.enter .validating] }
      { s' with requests := s'.requests ++ [r.enter .validating] } := by
    refine ⟨h.rest, ?_, fun u hu => ?_⟩
    · simp only [request?, List.getElem?_append, ← hlength]
      split
      · exact h.self
      · rfl
    · simp only [request?, List.getElem?_append, ← hlength]
      split
      · exact h.others u hu
      · rfl
  unfold Session.register
  rw [← hlength]
  exact happend.notifyAll _ _

theorem enqueue (h : Alike t s s') (u : Ticket) (id : RequestId) :
    Alike t (s.enqueue u id).1 (s'.enqueue u id).1 := by
  have hexited : s.hasExited = s'.hasExited := by rw [hasExited, hasExited, h.phase]
  rw [enqueue_eq, enqueue_eq, ← h.registry, ← h.waiting, ← hexited]
  split
  · exact h
  split
  · exact h.deny u
  split
  · exact h.refuse u _ _
  · exact h.map (g := fun a => { a with
      registry := ⟨s.registry.entries ++ [(id, u)]⟩
      waiting := some u
      admitted := a.admitted ++ [u] }) (fun _ => rfl) fun _ => rfl

theorem submit (h : Alike t s s') (policy : Policy) (p : Submission) :
    Alike t (s.submit policy p).1 (s'.submit policy p).1 := by
  unfold Session.submit
  rw [← h.settings, ← h.length_requests]
  split
  · exact h
  dsimp only
  split
  · exact (h.register _).enqueue _ _
  · exact (h.register _).refuse _ _ _

theorem stop (h : Alike t s s') (id : RequestId) : Alike t (s.stop id).1 (s'.stop id).1 := by
  unfold Session.stop
  rw [← h.registry]
  split
  · exact h
  · exact h.resolve _ _

theorem probed? (h : Alike t s s') : s.probed? = s'.probed? := by
  rw [Session.probed?, Session.probed?, h.registry]
  congr 1
  funext u
  exact h.any_request? (fun _ => rfl) u

theorem faulty? (h : Alike t s s') (m : MethodId) : s.faulty? m = s'.faulty? m := by
  rw [Session.faulty?, Session.faulty?, ← h.probed?]
  cases s.probed? with
  | none => rfl
  | some u =>
    cases hr : s.request? u with
    | none => simp [hr, h.request?_eq_none hr]
    | some r =>
      obtain ⟨r', hr', heq⟩ := h.exists_request? hr
      have hplans : r.plans = r'.plans := (congrArg Request.plans heq :)
      simp [hr, hr', hplans]

theorem reportFault (h : Alike t s s') (m : MethodId) :
    Alike t (s.reportFault m) (s'.reportFault m) := by
  unfold Session.reportFault
  rw [← h.faulty? m]
  split
  · exact h
  · exact h.notifyAll _ _

theorem reachesHost (h : Alike t s s') (u : Ticket) : s.reachesHost u = s'.reachesHost u :=
  h.any_request? (fun _ => rfl) u

theorem capture (h : Alike t s s') (u : Ticket) (offer : Offer) (accepts : Bool) :
    Alike t (s.capture u offer accepts).1 (s'.capture u offer accepts).1 := by
  unfold Session.capture
  rw [← h.reachesHost u]
  split
  · refine (h.notifyAll u _).update (fun r r' heq => ?_) fun _ => rfl
    rw [r.forget_offer, r'.forget_offer, heq]
  · exact h

theorem steps (h : Alike t s s') {e : Event} (hs : s.Steps e s₁) :
    ∃ s₁', s'.Steps e s₁' ∧ Alike t s₁ s₁' := by
  cases hs with
  | submit hc => exact ⟨_, .submit (h.connected ▸ hc), h.submit _ _⟩
  | stop hc => exact ⟨_, .stop (h.connected ▸ hc), h.stop _⟩
  | fault hc => exact ⟨_, .fault (h.connected ▸ hc), h.reportFault _⟩
  | @capture u offer accepts hs =>
    have hsurface := h.any_request? (p := (·.surface.isSome)) (fun _ => rfl) u
    exact ⟨_, .capture (hsurface ▸ hs), h.capture _ _ _⟩
  | @elapse d =>
    exact ⟨_, .elapse, h.map (g := (·.elapse d)) (fun _ => rfl) fun _ => rfl⟩
  | cancel => exact ⟨_, .cancel, h.map (g := (·.cancel)) (fun _ => rfl) fun _ => rfl⟩
  | disconnect => exact ⟨_, .disconnect, h.map (g := (·.disconnect)) (fun _ => rfl) fun _ => rfl⟩
  | wake hw =>
    obtain ⟨s₁', hw', h'⟩ := h.wakes hw
    exact ⟨s₁', .wake hw', h'⟩

/-- What happens after is the same, too. -/
theorem run (h : Alike t s s') {es : List Event} (hr : s.run es = some s₁) :
    ∃ s₁', s'.run es = some s₁' ∧ Alike t s₁ s₁' := by
  induction es generalizing s s' with
  | nil =>
    obtain rfl := Option.some.inj hr
    exact ⟨s', rfl, h⟩
  | cons e es ih =>
    obtain ⟨a, hstep, hrun⟩ := Option.bind_eq_some_iff.1 hr
    obtain ⟨a', hstep', h'⟩ := h.steps (steps_of_step hstep)
    obtain ⟨s₁', hrun', hend⟩ := ih h' hrun
    exact ⟨s₁', by rw [run_cons, step_of_steps hstep']; exact hrun', hend⟩

end Alike

end Session

end MethodCapture
