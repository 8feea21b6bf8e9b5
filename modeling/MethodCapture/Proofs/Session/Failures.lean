import MethodCapture.Proofs.Session.Instrumentation
import MethodCapture.Proofs.Session.Shutdown

/-!
The failures that are reported of admitted requests, and where they come from. A request fails by
the session's own verdict, when one of its descriptions names no method, or by a failure that the
host returned: the resolver, or the probes when they were installed or removed.
-/

namespace MethodCapture

theorem Failure.processingReason_cases (e : Failure) :
    (e.processingReason = .unresolvedMethods ∧ ∃ ds, e = .unresolvedMethods ds) ∨
      (e.processingReason = .internalError ∧ ∀ ds, e ≠ .unresolvedMethods ds) := by
  cases e <;> simp [processingReason]

theorem Failure.processingReason_of_ne {e : Failure} (h : ∀ ds, e ≠ .unresolvedMethods ds) :
    e.processingReason = .internalError := by
  rcases e.processingReason_cases with ⟨-, ds, he⟩ | ⟨hreason, -⟩
  · exact absurd he (h ds)
  · exact hreason

namespace Session

variable {s s' a b : Session} {t : Ticket} {r : Request} {es : List Event} {e : Failure}
  {event : Event} {settings : Settings} {w : Wake}

/-! The clean-up after a failed start. -/

/-- Only a start that failed leads to the clean-up. -/
theorem cleaning_wake (h : s.wake w = some s') (hp : s'.phase = .cleaning t e) :
    s.phase = .starting t ∧ w = .started (some e) := by
  have hcurrent : s'.phase.current? = some t := by rw [hp]; rfl
  cases wakes_of_wake h with
  | exit => simp at hp
  | take =>
    rw [starting_of_take hcurrent] at hp
    cases hp
  | @activate u _ =>
    unfold activate at hp
    split at hp
    · have hnone := current?_retire s u
      rw [hp] at hnone
      cases hnone
    · rw [phase_notify, phase_enter] at hp
      cases hp
  | cleanUp hstart =>
    rw [cleanUp, phase_notify, phase_enter] at hp
    cases hp
    exact ⟨hstart, rfl⟩
  | abandon | finish => simp at hcurrent
  | signalled | timedOut | cancelled => simp [wind] at hp

theorem exists_started (h : s.run es = some s') (hp : s'.phase = .cleaning t e) :
    s.phase = .cleaning t e ∨
      ∃ a b, s.Occurs es s' a (.wake (.started (some e))) b ∧ a.phase = .starting t := by
  refine (exists_change (I := fun a => a.phase = .cleaning t e) h hp).imp_right ?_
  rintro ⟨a, event, b, ho, hn, hcleaning⟩
  cases hwake : event.isWake with
  | false => exact absurd (phase_step ho.step_eq hwake ▸ hcleaning) hn
  | true =>
    cases event with
    | wake w =>
      obtain ⟨hstart, rfl⟩ := cleaning_wake ho.step_eq hcleaning
      exact ⟨a, b, ho, hstart⟩
    | _ => cases hwake

/-- The clean-up lasts until the probes are removed. -/
theorem exists_cleaned (h : s.run es = some s') (hp : s.phase = .cleaning t e) :
    s'.phase = .cleaning t e ∨
      ∃ a failure b, s.Occurs es s' a (.wake (.stopped failure)) b ∧ a.phase = .cleaning t e := by
  by_cases hp' : s'.phase = .cleaning t e
  · exact .inl hp'
  rcases exists_change (I := fun a => a.phase ≠ .cleaning t e) h hp' with
    hn | ⟨a, event, b, ho, hcleaning, hleft⟩
  · exact absurd hp hn
  have hcleaning : a.phase = .cleaning t e := not_not.1 hcleaning
  cases hwake : event.isWake with
  | false => exact absurd ((phase_step ho.step_eq hwake).trans hcleaning) hleft
  | true =>
    cases steps_of_step ho.step_eq with
    | wake hw =>
      cases hw with
      | abandon => exact .inr ⟨a, _, _, ho, hcleaning⟩
      | _ => simp_all
    | _ => cases hwake

/-! The end of a request whose probes were removed. -/

/-- The step that untracks a request tells its outcome. -/
theorem outcome_told (ho : s.Orderly) (ht : s.Tracks t) (h : s.step event = some s')
    (hu : ¬ s'.Tracks t) : ∃ m, (s'.messages t).filter (·.isOutcome) = [m] ∧ m.isOutcome = true ∧
      s.Tells event t m := by
  have hadmitted := (evolves_step h).extends.admitted.subset
    (ho.mem_admitted_of_inFlight (ho.tracks_iff.1 ht))
  have hone := (ho.step h).countP_isOutcome hadmitted hu
  rw [List.countP_eq_length_filter, List.length_eq_one_iff] at hone
  obtain ⟨m, hm⟩ := hone
  obtain ⟨hmem, houtcome⟩ := List.mem_filter.1 (hm ▸ List.mem_singleton_self m)
  obtain ⟨n, hn, rfl, rfl⟩ := mem_messages.1 hmem
  obtain ⟨ns, hlog, hns⟩ := (evolves_step h).log
  rw [hlog, List.mem_append] at hn
  rcases hn with hold | hnew
  · have hnone := ho.isOutcome_eq_false ht (mem_messages.2 ⟨n, hold, rfl, rfl⟩)
    rw [houtcome] at hnone
    cases hnone
  · exact ⟨n.message, hm, houtcome, (hns n hnew).2⟩

/-- The failure that is to be reported when the call on the probes that the worker waits for has
ended. -/
inductive Faulty (s : Session) (t : Ticket) : Option Failure → Failure → Prop
  | start {e : Failure} {failure : Option Failure} (hp : s.phase = .cleaning t e) :
      Faulty s t failure e
  | stop {e : Failure} (hp : s.phase = .stopping t) : Faulty s t (some e) e

variable {failure : Option Failure}

theorem Faulty.current?_eq (h : s.Faulty t failure e) : s.phase.current? = some t := by
  cases h with
  | start hp | stop hp =>
    rw [hp]
    rfl

theorem Faulty.eq_fail (h : s.Faulty t failure e) (hc : s.cancelled = false)
    (hstep : s.step (.wake (.stopped failure)) = some s') : s' = (s.fail t e).retire t := by
  cases h with
  | start hp | stop hp => simpa [step, wake, hp, abandon, finish, hc, eq_comm] using hstep

/-- The worker of a cancelled session ends here, and the request completes. -/
theorem Faulty.completes (ho : s.Orderly) (h : s.Faulty t failure e) (hc : s.cancelled = true)
    (hstep : s.step (.wake (.stopped failure)) = some s') :
    ¬ s'.Tracks t ∧ (s'.messages t).filter (·.isOutcome) = [.captureStopped] := by
  have ht : s.Tracks t := ho.tracks_iff.2 (mem_inFlight_of_current h.current?_eq)
  have hexited : s'.phase = .exited := by
    have hdrains := drains_wake (w := .stopped failure) hc hstep
    generalize s'.phase = q at hdrains ⊢
    cases h with
    | start hp | stop hp =>
      rw [hp] at hdrains
      cases hdrains
      rfl
  have hu := (ho.step hstep).not_tracks_of_exited hexited t
  obtain ⟨m, hm, houtcome, htells⟩ := outcome_told ho ht hstep hu
  refine ⟨hu, ?_⟩
  rw [hm, captureStopped_of_isOutcome houtcome fun reason failure heq => ?_]
  obtain ⟨_, _, hsubmit, -⟩ := (heq ▸ htells).of_cancelled hc
  cases hsubmit

theorem Faulty.fails (ho : s.Orderly) (h : s.Faulty t failure e) (hc : s.cancelled = false)
    (hstep : s.step (.wake (.stopped failure)) = some s') : ¬ s'.Tracks t ∧
      (s'.messages t).filter (·.isOutcome) = [.captureFailed e.processingReason e] := by
  have ht : s.Tracks t := ho.tracks_iff.2 (mem_inFlight_of_current h.current?_eq)
  obtain ⟨r, hr, -⟩ := ho.stage_of_current? h.current?_eq
  have hmessages : s'.messages t = s.messages t ++ [.captureFailed e.processingReason e] := by
    rw [h.eq_fail hc hstep]
    exact messages_fail_retire hr hc e
  constructor
  · intro ht'
    have hnone := (ho.step hstep).isOutcome_eq_false ht' (m := .captureFailed e.processingReason e)
      (by simp [hmessages])
    cases hnone
  · have hbefore : (s.messages t).filter (·.isOutcome) = [] :=
      List.filter_eq_nil_iff.2 fun m hm => by simp [ho.isOutcome_eq_false ht hm]
    rw [hmessages, List.filter_append, hbefore]
    rfl

/-- The failure is reported, unless the session is cancelled. -/
theorem Faulty.outcome (ho : s.Orderly) (h : s.Faulty t failure e)
    (hstep : s.step (.wake (.stopped failure)) = some s') : ¬ s'.Tracks t ∧
      (s'.messages t).filter (·.isOutcome) =
        [if s.cancelled then .captureStopped else .captureFailed e.processingReason e] := by
  cases hc : s.cancelled with
  | true => exact h.completes ho hc hstep
  | false => exact h.fails ho hc hstep

/-! Where failures come from. -/

section Run

variable (settings : Settings) (es : List Event) (s : Session) (t : Ticket)

/-- In the run of `es` to `s` the host returned the failure `e` for the request `t`: the resolver
for the first description that it has no answer to, or the probes, when they were installed or when
those of the active request were removed. -/
inductive Returned : Failure → Prop
  | resolver {r : Request} {resolver : Resolver} {a b : Session} {before after : List Description}
    {d : Description} {lists : List (List Method)} {e : Failure}
    (h : TakenUp settings es s t r resolver a b) (hr : r.methods = before ++ d :: after)
    (hl : Resolution.Answered resolver before lists) (he : resolver before.length d = .error e) :
    Returned e
  | start {a b : Session} {e : Failure}
    (h : (ofSettings settings).Occurs es s a (.wake (.started (some e))) b)
    (hp : a.phase = .starting t) : Returned e
  | stop {a b : Session} {e : Failure}
    (h : (ofSettings settings).Occurs es s a (.wake (.stopped (some e))) b)
    (hp : a.phase = .stopping t) : Returned e

/-- In the run of `es` to `s` the descriptions `ds` of the request `t`, at least one, named no
method; then probes are not installed for it. -/
def NamesNothing (ds : List Description) : Prop :=
  (∃ r resolver a b lists, TakenUp settings es s t r resolver a b ∧
    Resolution.Answered resolver r.methods lists ∧ [] ∈ lists ∧
    ds = Resolution.unnamed r.methods lists) ∧
  ∀ plans c, .startedProbes plans c ∉ s.messages t

end Run

theorem TakenUp.blame (h : TakenUp settings es s t r resolver a b)
    (hrun : (ofSettings settings).run es = some s)
    (he : Resolution.outcome (Resolution.answers resolver r.methods) = .error e) :
    Returned settings es s t e ∨
      ∃ ds, e = .unresolvedMethods ds ∧ NamesNothing settings es s t ds := by
  rcases Resolution.answered_or_failed resolver r.methods with
    ⟨lists, hl⟩ | ⟨before, d, after, lists, e', hr, hl, hd⟩
  · by_cases hne : [] ∈ lists
    · have hunprobed := (h.failsUnprobed hrun rfl he).unprobed
      rw [Resolution.outcome_of_unnamed hl hne] at he
      exact .inr ⟨_, (Except.error.inj he).symm, ⟨r, _, a, b, lists, h, hl, hne, rfl⟩, hunprobed⟩
    · rw [Resolution.outcome_of_named hl hne] at he
      cases he
  · rw [hr, Resolution.outcome_of_failed hl hd] at he
    exact .inl (.resolver h hr hl (Except.error.inj he ▸ hd))

/-- Every failure that is reported of an admitted request is the session's verdict or was
returned. -/
theorem failure_blamed (hrun : (ofSettings settings).run es = some s) (ht : t ∈ s.admitted)
    {reason : FailureReason} (hm : .captureFailed reason e ∈ s.messages t) :
    reason = e.processingReason ∧ (Returned settings es s t e ∨
      ∃ ds, e = .unresolvedMethods ds ∧ NamesNothing settings es s t ds) := by
  have hstart := orderly_ofSettings settings
  obtain ⟨a, event, b, ho, hlt, htells⟩ := exists_told hrun hm
  cases htells with
  | denied hf | crowded hf => exact absurd ht (ho.not_admitted_of_refused hstart hlt hf)
  | unresolved htakes he =>
    have hmem := (ho.orderly hstart).1.mem_admitted_of_inFlight
      (mem_inFlight_of_waiting htakes.waiting)
    exact ⟨rfl, TakenUp.blame ⟨ho, hmem, htakes⟩ hrun he⟩
  | abandoned hp _ =>
    obtain ⟨before, hbefore, hearlier⟩ := ho.exists_before
    rcases exists_started hbefore hp with hp | ⟨c, d, hoccurs, hp⟩
    · cases hp
    · exact ⟨rfl, .inl (.start (hearlier c _ d hoccurs) hp)⟩
  | unfinished hp _ => exact ⟨rfl, .inl (.stop ho hp)⟩

theorem Faulty.outcome_run {failure : Option Failure}
    (ho : (ofSettings settings).Occurs es s a (.wake (.stopped failure)) b)
    (h : a.Faulty t failure e) :
    (s.messages t).filter (·.isOutcome) =
      [if a.cancelled then .captureStopped else .captureFailed e.processingReason e] := by
  obtain ⟨ha, hb⟩ := ho.orderly (orderly_ofSettings settings)
  obtain ⟨before, after, -, -, hstep, hafter⟩ := id ho
  obtain ⟨hu, houtcome⟩ := h.outcome ha hstep
  have hadmitted := ho.evolves.extends.admitted.subset
    (ha.mem_admitted_of_inFlight (mem_inFlight_of_current h.current?_eq))
  rw [(hb.outcome_final hadmitted hu hafter).2, houtcome]

/-- What the reasons of reported failures tell about the request `t` in the run of `es` to `s`. -/
structure Truthful (settings : Settings) (es : List Event) (s : Session) (t : Ticket) : Prop where
  reasons : ∀ reason e, .captureFailed reason e ∈ s.messages t →
    reason = .unresolvedMethods ∨ reason = .internalError
  /-- Unless the host returned such a failure itself, descriptions that named no method are behind
  it. -/
  unresolved : ∀ e, .captureFailed .unresolvedMethods e ∈ s.messages t →
    (∀ ds, ¬ Returned settings es s t (.unresolvedMethods ds)) →
    ∃ ds, e = .unresolvedMethods ds ∧ NamesNothing settings es s t ds
  internal : ∀ e, .captureFailed .internalError e ∈ s.messages t → Returned settings es s t e
  resolver : ∀ r resolver a b before d after lists e, TakenUp settings es s t r resolver a b →
    r.methods = before ++ d :: after → Resolution.Answered resolver before lists →
    resolver before.length d = .error e → (∀ ds, e ≠ .unresolvedMethods ds) →
    (s.messages t).filter (·.isOutcome) = [.captureFailed .internalError e]
  /-- A failed start is reported after the clean-up, however that ends. -/
  start : ∀ a b e, (ofSettings settings).Occurs es s a (.wake (.started (some e))) b →
    a.phase = .starting t → (∀ ds, e ≠ .unresolvedMethods ds) →
    s.phase = .cleaning t e ∨ ∃ c failure d,
      (ofSettings settings).Occurs es s c (.wake (.stopped failure)) d ∧ c.phase = .cleaning t e ∧
      (s.messages t).filter (·.isOutcome) =
        [if c.cancelled then .captureStopped else .captureFailed .internalError e]
  stop : ∀ a b e, (ofSettings settings).Occurs es s a (.wake (.stopped (some e))) b →
    a.phase = .stopping t → (∀ ds, e ≠ .unresolvedMethods ds) →
    (s.messages t).filter (·.isOutcome) =
      [if a.cancelled then .captureStopped else .captureFailed .internalError e]

/-- The reasons of failures tell where they come from. As long as the host itself returns no
unresolved methods, this reason is the session's own verdict, and no probes are installed; any other
failure that the host returned is reported as an internal error, or the session is cancelled and the
request completes. -/
theorem failure_reasons_truthful (settings : Settings) (es : List Event) (s : Session)
    (h : (ofSettings settings).run es = some s) (t : Ticket) (ht : t ∈ s.admitted) :
    Truthful settings es s t := by
  refine {
    reasons := fun reason e hm => ?_
    unresolved := fun e hm hnone => ?_
    internal := fun e hm => ?_
    resolver := fun r resolver a b before d after lists e htaken hr hl he hne => ?_
    start := fun a b e ho hp hne => ?_
    stop := fun a b e ho hp hne => ?_ }
  · obtain ⟨rfl, -⟩ := failure_blamed h ht hm
    exact e.processingReason_cases.imp And.left And.left
  · obtain ⟨hreason, hreturned | hnothing⟩ := failure_blamed h ht hm
    · rcases e.processingReason_cases with ⟨-, ds, rfl⟩ | ⟨hinternal, -⟩
      · exact absurd hreturned (hnone ds)
      · rw [hinternal] at hreason
        cases hreason
    · exact hnothing
  · obtain ⟨hreason, hreturned | ⟨ds, rfl, -⟩⟩ := failure_blamed h ht hm
    · exact hreturned
    · cases hreason
  · have houtcome : Resolution.outcome (Resolution.answers resolver r.methods) = .error e := by
      rw [hr]
      exact Resolution.outcome_of_failed hl he
    rw [(htaken.failsUnprobed h rfl houtcome).outcome, Failure.processingReason_of_ne hne]
  · have hb : b.phase = .cleaning t e := by
      cases steps_of_step ho.step_eq with
      | wake hw =>
        cases hw with
        | cleanUp hp' =>
          rw [hp'] at hp
          cases hp
          exact phase_notify ..
    obtain ⟨after, hafter, hlater⟩ := ho.exists_after
    rcases exists_cleaned hafter hb with hp' | ⟨c, failure, d, hoccurs, hpc⟩
    · exact .inl hp'
    · have hoccurs := hlater c _ d hoccurs
      have houtcome := Faulty.outcome_run hoccurs (.start hpc)
      rw [Failure.processingReason_of_ne hne] at houtcome
      exact .inr ⟨c, failure, d, hoccurs, hpc, houtcome⟩
  · rw [Faulty.outcome_run ho (.stop hp), Failure.processingReason_of_ne hne]

theorem failure_reasons_truthful_sampleRun : ∃ s, (ofSettings .standard).run sampleRun = some s ∧
    0 ∈ s.admitted ∧ Truthful .standard sampleRun s 0 ∧
    .captureFailed .internalError (.instrumentation "not installed") ∈ s.messages 0 :=
  ⟨_, rfl, by decide, failure_reasons_truthful .standard sampleRun _ rfl 0 (by decide), by decide⟩

/-- The probe manager fails for the first request as if it had looked for methods, and then fails to
remove the probes. It fails again for the second request, when the session is cancelled. -/
def blamingRun : List Event :=
  [.submit (fun _ _ => true) (sampleSubmission 1),
    .wake (.poll fun _ _ => .ok [sampleMethod]),
    .wake (.started (some (.unresolvedMethods (sampleSubmission 1).methods))),
    .wake (.stopped (some (.instrumentation "not removed"))),
    .submit (fun _ _ => true) (sampleSubmission 2),
    .wake (.poll fun _ _ => .ok [sampleMethod]),
    .wake (.started none),
    .cancel,
    .wake .cancelled,
    .wake (.stopped (some (.instrumentation "not removed")))]

/-- A failure to remove probes is not reported after a failed start or a cancellation, and a failed
start is reported under the reason that goes with what it returned. -/
theorem failures_unreported_or_misnamed : ∃ s, (ofSettings .standard).run blamingRun = some s ∧
    (s.messages 0).drop 2 =
      [.startedProbes [Plan.ofMethod Settings.standard.nestingLimit sampleMethod] false,
        .stoppedProbes false,
        .captureFailed .unresolvedMethods (.unresolvedMethods (sampleSubmission 1).methods)] ∧
    (s.messages 1).drop 2 =
      [.startedProbes [Plan.ofMethod Settings.standard.nestingLimit sampleMethod] false,
        .captureStarted .active [Plan.ofMethod Settings.standard.nestingLimit sampleMethod],
        .stoppedProbes true, .captureStopped] :=
  ⟨_, rfl, rfl, rfl⟩

end Session

end MethodCapture
