import MethodCapture.Proofs.Session.Growth

/-!
A cancelled session drains. Its worker takes nothing up and reports no failure, and every wake
brings it nearer to its end; no request is stopped for another reason than the first.
-/

namespace MethodCapture

namespace Phase

/-- The wakes that are left to the worker of a cancelled session. -/
def drain : Phase → Nat
  | exited => 0
  | idle | cleaning .. | stopping _ => 1
  | active .. => 2
  | starting _ => 3

/-- What the worker of a cancelled session waits for; the call on the probes that it waits for, if
any, ends as `failure` tells. -/
def awaited (resolver : Resolver) (failure : Option Failure) : Phase → Wake
  | idle | exited => .poll resolver
  | starting _ => .started failure
  | active .. => .cancelled
  | cleaning .. | stopping _ => .stopped failure

/-- The phases of a cancelled session, one after the other. -/
inductive Drains : Phase → Phase → Prop
  | activate (t : Ticket) (deadline : Nat) : Drains (.starting t) (.active t deadline)
  | cleanUp (t : Ticket) (cause : Failure) : Drains (.starting t) (.cleaning t cause)
  | wind (t : Ticket) (deadline : Nat) : Drains (.active t deadline) (.stopping t)
  | exit (p : Phase) (h : p ≠ .exited) : Drains p .exited

variable {p q : Phase}

theorem Drains.drain_lt (h : Drains p q) : q.drain < p.drain := by
  cases h with
  | activate | cleanUp | wind => simp [drain]
  | exit p hp => cases p <;> simp_all [drain]

/-- The worker only gives up what it is at. -/
theorem Drains.current?_eq (h : Drains p q) {t : Ticket} (ht : q.current? = some t) :
    p.current? = some t := by
  cases h with
  | activate | cleanUp | wind => exact ht
  | exit => cases ht

end Phase

namespace Session

variable {s s' a b : Session} {t : Ticket} {es : List Event} {e : Event} {w : Wake}

/-! The way of the worker to its end. -/

@[simp] theorem phase_exit (s : Session) : s.exit.phase = .exited := by
  unfold exit
  split <;> rfl

theorem phase_retire (hc : s.cancelled = true) (t : Ticket) : (s.retire t).phase = .exited := by
  have hc : (s.untrack t).cancelled = true := by simpa using hc
  rw [retire, if_pos hc, phase_exit]

/-- The worker is done with a request that it leaves. -/
@[simp] theorem current?_retire (s : Session) (t : Ticket) :
    (s.retire t).phase.current? = none := by
  unfold retire
  dsimp only
  split
  · rw [phase_exit]
    rfl
  · rfl

@[simp] theorem current?_abandon (s : Session) (t : Ticket) (cause : Failure) :
    (s.abandon t cause).phase.current? = none := by
  unfold abandon
  split <;> exact current?_retire _ _

@[simp] theorem current?_finish (s : Session) (t : Ticket) (failure : Option Failure) :
    (s.finish t failure).phase.current? = none := by
  unfold finish
  split
  · exact current?_retire _ _
  · split <;> exact current?_retire _ _

/-- Only a start keeps a request that is taken up in the worker's hand. -/
theorem starting_of_take {resolver : Resolver} {u : Ticket}
    (h : (s.take resolver u).phase.current? = some t) :
    (s.take resolver u).phase = .starting u := by
  revert h
  unfold take
  split
  · simp
  split
  · simp
  dsimp only
  split
  · simp
  · exact fun _ => phase_notify ..

theorem drains_wake (hc : s.cancelled = true) (h : s.wake w = some s') :
    s.phase.Drains s'.phase := by
  have hend {u : Session} (hu : u.cancelled = true) (hp : s.phase ≠ .exited) (t : Ticket) :
      s.phase.Drains (u.retire t).phase := by
    rw [phase_retire hu]
    exact .exit _ hp
  have hwind {u : Session} {t : Ticket} {deadline : Nat} (hp : s.phase = .active t deadline) :
      s.phase.Drains (u.wind t).phase := by
    rw [Session.wind, phase_notify, phase_enter, hp]
    exact .wind ..
  cases wakes_of_wake h with
  | exit hp _ =>
    rw [phase_exit]
    exact .exit _ (by simp [hp])
  | take _ hn _ => simp [hn] at hc
  | @activate t hp =>
    unfold activate
    split
    · exact hend hc (by simp [hp]) t
    · rw [phase_notify, phase_enter, hp]
      exact .activate ..
  | cleanUp hp =>
    rw [cleanUp, phase_notify, phase_enter, hp]
    exact .cleanUp ..
  | @abandon t cause failure hp =>
    rw [abandon, if_pos hc]
    exact hend (by simp [conclude, notify, hc]) (by simp [hp]) t
  | @finish t failure hp =>
    have hconclude : (s.conclude t).cancelled = true := by simp [conclude, notify, hc]
    unfold finish
    split
    · exact hend hconclude (by simp [hp]) t
    · rw [if_pos hc]
      exact hend hconclude (by simp [hp]) t
  | signalled hp _ => exact hwind hp
  | timedOut hp _ => exact hwind hp
  | cancelled hp _ => exact hwind hp

theorem drain_step (hc : s.cancelled = true) (h : s.step e = some s') :
    [e].countP (·.isWake) + s'.phase.drain ≤ s.phase.drain := by
  cases he : e.isWake with
  | false => simp [he, phase_step h he]
  | true =>
    cases e with
    | wake w =>
      have hlt := (drains_wake hc h).drain_lt
      rw [List.countP_singleton, if_pos he]
      omega
    | _ => cases he

theorem current?_step (hc : s.cancelled = true) (h : s.step e = some s')
    (ht : s'.phase.current? = some t) : s.phase.current? = some t := by
  cases he : e.isWake with
  | false => rwa [phase_step h he] at ht
  | true =>
    cases e with
    | wake w => exact (drains_wake hc h).current?_eq ht
    | _ => cases he

theorem cancelled_step (hc : s.cancelled = true) (h : s.step e = some s') : s'.cancelled = true :=
  (evolves_step h).cancelled hc

/-- Every wake is paid for by the worker's way to its end. -/
theorem drain_run (hc : s.cancelled = true) (h : s.run es = some s') :
    es.countP (·.isWake) + s'.phase.drain ≤ s.phase.drain := by
  induction es generalizing s with
  | nil =>
    rw [← Option.some.inj h]
    simp
  | cons e es ih =>
    obtain ⟨s₁, hstep, hrun⟩ := Option.bind_eq_some_iff.1 h
    have hfirst := drain_step hc hstep
    have hrest := ih (cancelled_step hc hstep) hrun
    rw [List.countP_cons]
    rw [List.countP_singleton] at hfirst
    omega

theorem current?_run (hc : s.cancelled = true) (h : s.run es = some s')
    (ht : s'.phase.current? = some t) : s.phase.current? = some t := by
  have hboth : s'.cancelled = true ∧ (s'.phase.current? = some t → s.phase.current? = some t) :=
    invariant_run (I := fun a => a.cancelled = true ∧
        (a.phase.current? = some t → s.phase.current? = some t))
      (fun _ _ _ ⟨hca, hcurrent⟩ hstep =>
        ⟨cancelled_step hca hstep, fun hb => hcurrent (current?_step hca hstep hb)⟩) ⟨hc, id⟩ h
  exact hboth.2 ht

/-- However the pending call ends, the worker goes on. -/
theorem isSome_wake_awaited (hc : s.cancelled = true) (hp : s.phase ≠ .exited) (resolver : Resolver)
    (failure : Option Failure) : (s.wake (s.phase.awaited resolver failure)).isSome = true := by
  cases hphase : s.phase with
  | exited => exact absurd hphase hp
  | idle => simp [Phase.awaited, wake, hphase, poll, hc]
  | starting t => cases failure <;> simp [Phase.awaited, wake, hphase]
  | cleaning t cause => simp [Phase.awaited, wake, hphase]
  | active t deadline => simp [Phase.awaited, wake, hphase, hc]
  | stopping t => simp [Phase.awaited, wake, hphase]

/-- The session after `n` wakes, each one that it waits for. A call on the probes that is pending in
some phase ends as `answer` tells. -/
def follow (resolver : Resolver) (answer : Phase → Option Failure) : Nat → Session → Option Session
  | 0, s => some s
  | n + 1, s =>
    (s.wake (s.phase.awaited resolver (answer s.phase))).bind (follow resolver answer n)

theorem exists_follow_exited (hs : s.Orderly) (hc : s.cancelled = true) (resolver : Resolver)
    (answer : Phase → Option Failure) : ∃ n ≤ s.phase.drain, ∃ s',
    s.follow resolver answer n = some s' ∧ s'.phase = .exited ∧ s'.registry.entries = [] := by
  -- every wake of a cancelled worker lowers `drain`
  induction hd : s.phase.drain using Nat.strongRecOn generalizing s with
  | ind d ih =>
    by_cases hp : s.phase = .exited
    · exact ⟨0, Nat.zero_le _, s, rfl, hp, hs.registry_of_exited hp⟩
    · obtain ⟨s₁, hwake⟩ :=
        Option.isSome_iff_exists.1 (isSome_wake_awaited hc hp resolver (answer s.phase))
      have hlt := (drains_wake hc hwake).drain_lt
      have hc₁ : s₁.cancelled = true := (evolves_wake hwake).cancelled hc
      obtain ⟨n, hn, s', hfollow, hexited⟩ := ih s₁.phase.drain (hd ▸ hlt) (hs.wake hwake) hc₁ rfl
      refine ⟨n + 1, by omega, s', ?_, hexited⟩
      rw [follow, hwake]
      exact hfollow

/-! What the steps of a cancelled session may do. -/

theorem Occurs.cancelled (ho : s.Occurs es s' a e b) (hc : s.cancelled = true) :
    a.cancelled = true := by
  obtain ⟨_, -, hevolves⟩ := ho.evolves_before
  exact hevolves.cancelled hc

theorem not_startedProbes_of_cancelled (hc : s.cancelled = true) {plans : List Plan} {c : Bool} :
    ¬ s.Tells e t (.startedProbes plans c) := by
  intro h
  cases h with
  | launched ht => simp [ht.cancelled] at hc

/-- The only failures that are told are those of rejected submissions. -/
theorem Tells.of_cancelled (hc : s.cancelled = true) {reason : FailureReason} {failure : Failure}
    (h : s.Tells e t (.captureFailed reason failure)) : ∃ policy p, e = .submit policy p ∧
      t = s.requests.length ∧ (s.submit policy p).2 = .error failure := by
  cases h with
  | denied h => exact ⟨_, _, rfl, rfl, h⟩
  | crowded h => exact ⟨_, _, rfl, rfl, h⟩
  | unresolved ht => simp [ht.cancelled] at hc
  | abandoned _ hn => simp [hn] at hc
  | unfinished _ hn => simp [hn] at hc

theorem Resolves.of_cancelled (hc : s.cancelled = true) (ht : t < s.requests.length)
    {reason : StopReason} (h : s.Resolves e t reason) :
    reason = .shutdown ∨ s.Stops t e reason := by
  cases h with
  | stopped h => exact .inr h
  | refused => exact absurd ht (Nat.lt_irrefl _)
  | failed _ hn => simp [hn] at hc
  | shutdown => exact .inl rfl

theorem Enters.of_cancelled (hc : s.cancelled = true) (ht : t < s.requests.length)
    (hcurrent : s.phase.current? ≠ some t) {stage : Stage} (h : s.Enters e t stage) :
    stage = .completed := by
  cases h with
  | denied => exact absurd ht (Nat.lt_irrefl _)
  | resolving ht => simp [ht.cancelled] at hc
  | active hp => simp [hp, Phase.current?] at hcurrent
  | stopping hp => simp [hp, Phase.current?] at hcurrent
  | completed => rfl
  | faulted _ hn => simp [hn] at hc

/-! A stop that comes first is kept. -/

theorem Holds.update_self {P Q : Request → Prop} {f : Request → Request} (h : s.Holds t P)
    (hf : ∀ r, s.request? t = some r → P r → Q (f r)) : (s.update t f).Holds t Q :=
  h.update (fun _ r hr hP => hf r hr hP) fun htt => absurd rfl htt

theorem holds_resolve (h : s.Holds t (·.signal.reason = none)) (reason : StopReason) :
    (s.update t (·.resolve reason)).Holds t (·.signal.reason = some reason) :=
  h.update_self fun r _ hnone => by simp [Request.resolve, hnone]

/-- A stop resolves an open signal. -/
theorem Stops.reason_eq {reason : StopReason} (h : a.Stops t e reason)
    (hopen : a.Holds t (·.signal.reason = none)) (hstep : a.step e = some b) :
    b.Holds t (·.signal.reason = some reason) := by
  cases h with
  | explicit hid =>
    cases steps_of_step hstep with
    | stop =>
      rw [stop, hid]
      exact holds_resolve hopen .explicit
  | @limitReached r g offer hr hg htripped hlast =>
    have hreaches : a.reachesHost t = true := by
      simp [reachesHost, hr, Request.passes, hg, Watch.passes, htripped]
    cases steps_of_step hstep
    rw [capture, if_pos hreaches]
    refine (holds_notifyAll.2 hopen).update_self fun r' hr' hnone => ?_
    have heq : r' = r := by
      rw [request?_notifyAll, hr] at hr'
      exact (Option.some.inj hr').symm
    subst heq
    simp [Request.offer, hg, Watch.offer, Watch.passes, htripped, LimitGuard.count, hlast, hnone]
  | @durationElapsed deadline hp hd =>
    rw [step, wake, hp] at hstep
    dsimp only at hstep
    rw [if_pos hd] at hstep
    cases hstep
    exact holds_notifyAll.2 ((holds_resolve hopen .durationElapsed).update_self fun _ _ h => h)

theorem Occurs.kept {reason : StopReason} (ho : s.Occurs es s' a e b)
    (h : b.Holds t (·.signal.reason = some reason)) :
    s'.Holds t (·.signal.reason = some reason) := by
  obtain ⟨r, hr, hreason⟩ := h
  obtain ⟨_, -, hevolves⟩ := ho.evolves_after
  obtain ⟨r', hr', hkept⟩ := hevolves.request t r hr
  exact ⟨r', hr', hkept.kept reason hreason⟩

end Session

end MethodCapture
