import MethodCapture.Proofs.Session.Consistency

/-!
Every run keeps the invariant. The worker's phase tells what it has in its hand, and an exited
worker leaves no request waiting.
-/

namespace MethodCapture

def Phase.hand? : Phase → Option Held
  | idle | exited => none
  | starting t => some ⟨t, .installing⟩
  | cleaning t _ => some ⟨t, .cleaning⟩
  | active t _ => some ⟨t, .capturing⟩
  | stopping t => some ⟨t, .removing⟩

theorem Phase.map_ticket_hand? (phase : Phase) : phase.hand?.map (·.ticket) = phase.current? := by
  cases phase <;> rfl

namespace Session

structure Orderly (s : Session) : Prop where
  consistent : ∃ done, Consistent s done s.phase.hand?
  exited : s.phase = .exited → s.waiting = none

theorem orderly_ofSettings (settings : Settings) : (ofSettings settings).Orderly where
  consistent := ⟨[], {
    heard := by simp [ofSettings, log]
    strays := by simp [ofSettings, log]
    distinct := List.nodup_nil
    admitted := rfl
    marks := rfl
    tracked := rfl
    names := by simp [ofSettings, Registry.empty]
    ids := List.nodup_nil
    finished := by simp
    held := by simp [ofSettings, Phase.hand?]
    queued := by simp [ofSettings] }⟩
  exited := by simp [ofSettings]

variable {s s' : Session} {done : List Course} {t : Ticket} {p : Progress}

/-! What the worker does. -/

theorem notifyAll_leave (s : Session) (t : Ticket) (messages : List Message) :
    { s.notifyAll t messages with waiting := none } =
      { s with waiting := none }.notifyAll t messages := by
  cases hr : s.requests[t]? <;> simp [notifyAll, request?, hr]

theorem untrack_leave (s : Session) (t : Ticket) :
    { s.untrack t with waiting := none } = { s with waiting := none }.untrack t := by
  cases hr : s.requests[t]? <;> simp [untrack, request?, hr]

/-- Ending a request that waits does not depend on when it leaves the queue. -/
theorem close_leave (s : Session) (t : Ticket) (f : Request → Request) :
    { ((s.update t f).conclude t).untrack t with waiting := none } =
      (({ s with waiting := none }.update t f).conclude t).untrack t := by
  rw [untrack_leave, conclude, notify, notifyAll_leave]
  rfl

namespace Consistent

theorem close_conclude (h : Consistent s done (some ⟨t, p⟩)) (hp : p.isClear = true)
    (hs : s.Holds t (·.signal.isResolved = true)) :
    Consistent ((s.conclude t).untrack t) (done ++ [⟨t, p, .completed, hp⟩]) none :=
  h.close hp (fun _ hr => ⟨rfl, rfl, (hs.of_request? hr :)⟩) rfl

theorem close_fail (h : Consistent s done (some ⟨t, p⟩)) (hp : p.isClear = true) (e : Failure) :
    Consistent ((s.fail t e).untrack t) (done ++ [⟨t, p, .faulted, hp⟩]) none :=
  h.close hp (fun _ _ => ⟨rfl, rfl, rfl⟩) rfl

theorem orderly_exit (h : Consistent s done none) : s.exit.Orderly := by
  unfold exit
  split
  · next hw => exact ⟨⟨done, h.enter _⟩, fun _ => hw⟩
  · next t hw =>
    have hheld := (h.take hw).update_steady (t := t) fun r => r.steady_resolve .shutdown
    have hdone := hheld.close_conclude rfl ((h.take hw).holds_held.resolve .shutdown)
    dsimp only
    rw [close_leave]
    exact ⟨⟨_, hdone.enter _⟩, fun _ => by simp [conclude, notify]⟩

theorem orderly_retire (h : Consistent (s.untrack t) done none) : (s.retire t).Orderly := by
  unfold retire
  dsimp only
  split
  · exact h.orderly_exit
  · exact ⟨⟨done, h.enter _⟩, nofun⟩

/-- The worker carries the request in its hand on, tells the host, and waits. -/
theorem orderly_advance (h : Consistent s done (some ⟨t, p⟩)) {q : Progress} {f : Request → Request}
    {m : Message} {phase : Phase} (hp : phase.hand? = some ⟨t, q⟩)
    (hf : ∀ r, s.request? t = some r → (f r).id = r.id ∧ (f r).stage = q.stage ∧
      (q = .removing → (f r).signal.isResolved = true))
    (hm : q.milestones = p.milestones ++ [m].filterMap (·.milestone?)) :
    (((s.update t f).enter phase).notify t m).Orderly where
  consistent := by
    refine ⟨done, ?_⟩
    rw [phase_notify, phase_enter, hp]
    exact (h.enter phase).advance hf hm
  exited he := by
    rw [phase_notify, phase_enter] at he
    rw [he] at hp
    cases hp

theorem orderly_launch (h : Consistent s done (some ⟨t, .resolving⟩)) (methods : List Method) :
    (s.launch t methods).Orderly :=
  h.orderly_advance (q := .installing) rfl
    (fun _ hr => ⟨rfl, (h.holds_held.of_request? hr :), nofun⟩) rfl

theorem orderly_take (h : Consistent s done (some ⟨t, .taken⟩)) (resolver : Resolver) :
    (s.take resolver t).Orderly := by
  obtain ⟨r, hr, -⟩ := h.holds_held
  unfold Session.take
  rw [hr]
  dsimp only
  split
  · next hs => exact (h.close_conclude rfl ⟨r, hr, hs⟩).orderly_retire
  · have hres (messages : List Message) (hm : ∀ m ∈ messages, m.milestone? = none) :
        Consistent ((s.update t (·.enter .resolving)).notifyAll t messages) done
          (some ⟨t, .resolving⟩) := by
      refine h.advance (fun _ _ => ⟨rfl, rfl, nofun⟩) ?_
      rw [List.filterMap_eq_nil_iff.2 hm]
      rfl
    split
    · exact ((hres _ (by simp [Message.milestone?])).close_fail rfl _).orderly_retire
    · exact (hres _ (by simp [Message.milestone?])).orderly_launch _

theorem orderly_activate (h : Consistent s done (some ⟨t, .installing⟩)) :
    (s.activate t).Orderly := by
  obtain ⟨r, hr, -⟩ := h.holds_held
  unfold activate
  rw [hr]
  exact h.orderly_advance (q := .capturing) rfl (fun _ _ => ⟨rfl, rfl, nofun⟩) rfl

theorem orderly_cleanUp (h : Consistent s done (some ⟨t, .installing⟩)) (cause : Failure) :
    (s.cleanUp t cause).Orderly := by
  have hp : (Phase.cleaning t cause).hand? = some ⟨t, .cleaning⟩ := rfl
  have hq := h.orderly_advance (f := id) (m := .stoppedProbes s.cancelled) hp
    (fun _ hr => ⟨rfl, (h.holds_held.of_request? hr :), nofun⟩) rfl
  rwa [update_id] at hq

theorem orderly_abandon (h : Consistent s done (some ⟨t, .cleaning⟩)) (cause : Failure) :
    (s.abandon t cause).Orderly := by
  unfold abandon
  split
  · have hs := h.update_steady (t := t) fun r => r.steady_resolve .shutdown
    exact (hs.close_conclude rfl (h.holds_held.resolve .shutdown)).orderly_retire
  · exact (h.close_fail rfl cause).orderly_retire

/-- Probes are removed only after the stop signal is resolved. -/
theorem orderly_wind (h : Consistent s done (some ⟨t, .capturing⟩))
    (hs : s.Holds t (·.signal.isResolved = true)) : (s.wind t).Orderly :=
  h.orderly_advance (q := .removing) rfl
    (fun _ hr => ⟨rfl, rfl, fun _ => (hs.of_request? hr :)⟩) rfl

theorem orderly_finish (h : Consistent s done (some ⟨t, .removing⟩)) (failure : Option Failure) :
    (s.finish t failure).Orderly := by
  have hs : s.Holds t (·.signal.isResolved = true) := (h.held _ rfl).imp fun _ hr => hr.2 rfl
  unfold finish
  split
  · exact (h.close_conclude rfl hs).orderly_retire
  split
  · exact (h.close_conclude rfl hs).orderly_retire
  · exact (h.close_fail rfl _).orderly_retire

end Consistent

theorem Orderly.wake (h : s.Orderly) {w : Wake} (hw : s.wake w = some s') : s'.Orderly := by
  obtain ⟨done, hc⟩ := h.consistent
  have resolved (t : Ticket) (hc : Consistent s done (some ⟨t, .capturing⟩)) (reason : StopReason) :
      ((s.update t (·.resolve reason)).wind t).Orderly :=
    (hc.update_steady fun r => r.steady_resolve reason).orderly_wind (hc.holds_held.resolve reason)
  cases wakes_of_wake hw with
  | exit hp _ =>
    rw [hp] at hc
    exact hc.orderly_exit
  | take hp _ hwaiting =>
    rw [hp] at hc
    exact (hc.take hwaiting).orderly_take _
  | activate hp =>
    rw [hp] at hc
    exact hc.orderly_activate
  | cleanUp hp =>
    rw [hp] at hc
    exact hc.orderly_cleanUp _
  | abandon hp =>
    rw [hp] at hc
    exact hc.orderly_abandon _
  | finish hp =>
    rw [hp] at hc
    exact hc.orderly_finish _
  | signalled hp hs =>
    rw [hp] at hc
    obtain ⟨r, hr, -⟩ := hc.holds_held
    exact hc.orderly_wind ⟨r, hr, by simpa [isSignalled, hr] using hs⟩
  | timedOut hp _ =>
    rw [hp] at hc
    exact resolved _ hc _
  | cancelled hp _ =>
    rw [hp] at hc
    exact resolved _ hc _

/-! What clients and the surroundings do. -/

/-- A step of a client may add to what the session holds, but it leaves the worker alone. -/
theorem Orderly.of_consistent (h : s.Orderly)
    (hc : ∀ done hand, Consistent s done hand → Consistent s' done hand)
    (hp : s'.phase = s.phase) (hw : s.phase = .exited → s'.waiting = s.waiting) : s'.Orderly where
  consistent := by
    obtain ⟨done, h⟩ := h.consistent
    exact ⟨done, hp ▸ hc _ _ h⟩
  exited he := by
    rw [hp] at he
    rw [hw he, h.exited he]

theorem Consistent.length_not_mem {hand : Option Held} (h : Consistent s done hand) :
    s.requests.length ∉ s.admitted :=
  fun hmem => Nat.lt_irrefl _ (h.lt_of_mem_admitted hmem)

/-- A refused request is told of its failure, and nothing else changes. -/
theorem Consistent.refuse {hand : Option Held} (h : Consistent s done hand) (ht : t ∉ s.admitted)
    (reason : FailureReason) (e : Failure) : Consistent (s.refuse t reason e) done hand :=
  (h.update_of_not_mem ht).notify_of_not_mem ht rfl

/-- Of a request just registered the host has only been asked. -/
theorem Consistent.register_quiet {hand : Option Held} (h : Consistent s done hand) (r : Request)
    {n : Notice} (hn : n ∈ (s.register r).log) (ht : n.ticket = s.requests.length) :
    n.message.milestone? = none := by
  rcases mem_log_notifyAll hn with hn | ⟨-, hm, -⟩
  · exact absurd ht (Nat.ne_of_lt (h.heard n hn))
  · obtain ⟨d, -, hd⟩ := List.mem_map.1 hm
    rw [← hd]
    rfl

theorem Consistent.submit {hand : Option Held} (h : Consistent s done hand) (policy : Policy)
    (p : Submission) : Consistent (s.submit policy p).1 done hand := by
  unfold Session.submit
  split
  · exact h
  next r _ =>
  have hr := h.register r
  have ht : s.requests.length ∉ (s.register r).admitted := by
    rw [admitted_register]
    exact h.length_not_mem
  dsimp only
  split
  · rw [enqueue_eq]
    split
    · exact hr
    next hfree =>
    split
    · exact hr.update_of_not_mem ht
    split
    · exact hr.refuse ht _ _
    next hw =>
    exact hr.enlist (by simpa using hw) ht (request?_register r) rfl
      (fun n hn => h.register_quiet r hn) (if_neg hfree)
  · exact hr.refuse ht _ _

theorem waiting_submit_of_exited (hp : s.phase = .exited) (policy : Policy) (p : Submission) :
    (s.submit policy p).1.waiting = s.waiting := by
  unfold submit
  split
  · rfl
  next r _ =>
  have hexited : (s.register r).hasExited = true := by simp [hasExited, hp]
  dsimp only
  split
  · rw [enqueue_eq, if_pos hexited]
    split
    · simp
    · simp [deny]
  · simp

theorem Orderly.submit (h : s.Orderly) (policy : Policy) (p : Submission) :
    (s.submit policy p).1.Orderly :=
  h.of_consistent (fun _ _ hc => hc.submit policy p) (phase_submit ..)
    fun hp => waiting_submit_of_exited hp policy p

theorem Orderly.stop (h : s.Orderly) (id : RequestId) : (s.stop id).1.Orderly := by
  unfold Session.stop
  split
  · exact h
  · exact h.of_consistent (fun _ _ hc => hc.update_steady fun r => r.steady_resolve .explicit) rfl
      fun _ => rfl

theorem Orderly.reportFault (h : s.Orderly) (m : MethodId) : (s.reportFault m).Orderly := by
  unfold Session.reportFault
  split
  · exact h
  · exact h.of_consistent (fun _ _ hc => hc.notifyAll_quiet (by simp [Message.milestone?]))
      (phase_notify ..) fun _ => waiting_notifyAll

theorem Orderly.capture (h : s.Orderly) (t : Ticket) (offer : Offer) (accepts : Bool) :
    (s.capture t offer accepts).1.Orderly := by
  unfold Session.capture
  split
  · refine h.of_consistent (fun _ _ hc => ?_) (phase_notify ..) fun _ => waiting_notifyAll
    exact (hc.notifyAll_quiet (by simp [Message.milestone?])).update_steady
      fun r => r.steady_offer accepts
  · exact h

theorem Orderly.step (h : s.Orderly) {e : Event} (hs : s.step e = some s') : s'.Orderly := by
  cases steps_of_step hs with
  | submit => exact h.submit _ _
  | stop => exact h.stop _
  | fault => exact h.reportFault _
  | capture => exact h.capture _ _ _
  | elapse | cancel | disconnect =>
    exact h.of_consistent (fun _ _ hc => { hc with }) rfl fun _ => rfl
  | wake => exact h.wake hs

theorem Orderly.run (h : s.Orderly) {es : List Event} (hr : s.run es = some s') : s'.Orderly :=
  invariant_run (fun _ _ _ ha hstep => ha.step hstep) h hr

theorem orderly_run {settings : Settings} {es : List Event}
    (h : (ofSettings settings).run es = some s) : s.Orderly :=
  (orderly_ofSettings settings).run h

/-! A run with two requests, on which statements about runs can be looked at. -/

def sampleSubmission (n : Nat) : Submission where
  id := .ofNat n
  methods := [⟨"Shop.dll", "Shop.Orders", "Place", []⟩]
  duration := .ofSeconds 60
  limit := none

def sampleMethod : Method where
  id := ⟨⟨1⟩, Token.ofRow Table.methodDef 1⟩
  declaringType := "Shop.Orders"
  name := "Place"
  receiver := none
  parameters := []
  signature := []

/-- Installing probes fails for the first request. The second is cut short by cancellation, and then
removing its probes fails. -/
def sampleRun : List Event :=
  [.submit (fun _ _ => true) (sampleSubmission 1),
    .wake (.poll fun _ _ => .ok [sampleMethod]),
    .submit (fun _ _ => true) (sampleSubmission 2),
    .wake (.started (some (.instrumentation "not installed"))),
    .wake (.stopped none),
    .wake (.poll fun _ _ => .ok [sampleMethod]),
    .wake (.started none),
    .cancel,
    .wake .cancelled,
    .wake (.stopped (some (.instrumentation "not removed")))]

end Session

end MethodCapture
