import MethodCapture.Proofs.Session.Faults
import MethodCapture.Proofs.Session.Instrumentation
import MethodCapture.Proofs.Session.Permits

/-!
When probe faults are heard. A request keeps the plans that the host was given to install probes by.
While installing is pending, every fault is dropped; once it has succeeded and until removing has
ended, each fault of a planned method is told, whatever else happens to the session.
-/

namespace MethodCapture

theorem Request.plans_applyAll_of_not_equip {r : Request} {cs : List Change}
    (h : ∀ plans, .equip plans ∉ cs) : (r.applyAll cs).plans = r.plans := by
  induction cs generalizing r with
  | nil => rfl
  | cons c cs ih =>
    rw [applyAll_cons, ih fun plans hmem => h plans (List.mem_cons_of_mem c hmem)]
    cases c with
    | equip plans => exact absurd List.mem_cons_self (h plans)
    | count =>
      rw [apply, count]
      split <;> rfl
    | enter | resolve => rfl

namespace Session

variable {s s' b : Session} {t : Ticket} {r : Request} {e : Event} {es : List Event} {m : MethodId}
  {plans : List Plan} {plan : Plan} {cancelled : Bool} {settings : Settings}

/-! The plans that the host was given. -/

theorem plans_of_launched (ho : s.Orderly) (h : s.step e = some s')
    (htells : s.Tells e t (.startedProbes plans cancelled)) :
    s'.Holds t (·.plans = some plans) := by
  cases htells with
  | @launched _ r resolver methods ht hmethods =>
    have hchanges : s.changes t (.wake (.poll resolver)) =
        [.enter .resolving, .equip (methods.map (Plan.ofMethod s.settings.nestingLimit))] := by
      show s.pollChanges t resolver = _
      rw [pollChanges, if_neg (by simp [ht.cancelled]), ht.waiting]
      simp [takeChanges, ht.request, ht.unresolved, hmethods]
    have hr := request?_step (t := t) ho h
    rw [ht.request, hchanges] at hr
    exact ⟨_, hr, rfl⟩

/-- The host has been given the plans of the requests themselves. -/
def PlansTold (s : Session) : Prop :=
  ∀ t plans cancelled, .startedProbes plans cancelled ∈ s.messages t →
    s.Holds t (·.plans = some plans)

theorem PlansTold.step (hn : s.PlansTold) (ho : s.Orderly) (h : s.step e = some s') :
    s'.PlansTold := by
  intro t plans cancelled hm
  obtain ⟨ns, hlog, hns⟩ := (evolves_step h).log
  obtain ⟨n, hmem, rfl, hmessage⟩ := mem_messages.1 hm
  rw [hlog, List.mem_append] at hmem
  cases hmem with
  | inr hnew =>
    have htells := (hns n hnew).2
    rw [hmessage] at htells
    exact plans_of_launched ho h htells
  | inl hold =>
    have hold := mem_messages.2 ⟨n, hold, rfl, hmessage⟩
    obtain ⟨r, hr, hplans⟩ := hn _ _ _ hold
    have hkept : ∀ plans', .equip plans' ∉ s.changes n.ticket e := by
      -- a request that waits has not been started
      intro plans' hequip
      obtain ⟨done, hc⟩ := ho.consistent
      have hnone := hc.milestones_waiting (taken_of_equip hequip).1
      rw [milestones, List.filterMap_eq_nil_iff] at hnone
      cases hnone _ hold
    have hr' := request?_step (t := n.ticket) ho h
    rw [hr] at hr'
    exact ⟨_, hr', (Request.plans_applyAll_of_not_equip hkept).trans hplans⟩

theorem plansTold_run (h : (ofSettings settings).run es = some s) : s.PlansTold := by
  have hboth : s.Orderly ∧ s.PlansTold :=
    invariant_run (I := fun a => a.Orderly ∧ a.PlansTold)
      (fun _ _ _ ⟨hoa, hna⟩ hstep => ⟨hoa.step hstep, hna.step hoa hstep⟩)
      ⟨orderly_ofSettings settings, nofun⟩ h
  exact hboth.2

/-! The time between installing and removing. -/

/-- Installing the probes of `t` has succeeded, and removing them has not ended. -/
def InPlace (s : Session) (t : Ticket) : Prop :=
  (∃ deadline, s.phase = .active t deadline) ∨ s.phase = .stopping t

theorem InPlace.current?_eq (hin : s.InPlace t) : s.phase.current? = some t := by
  cases hin with
  | inl hactive =>
    obtain ⟨deadline, hp⟩ := hactive
    rw [hp]
    rfl
  | inr hp =>
    rw [hp]
    rfl

theorem inPlace_of_started (ho : s.Orderly) (hp : s.phase = .starting t)
    (h : s.step (.wake (.started none)) = some b) : b.InPlace t := by
  cases steps_of_step h with
  | wake hw =>
    cases hw with
    | @activate u hu =>
      obtain rfl : t = u := by
        rw [hp] at hu
        exact Phase.starting.inj hu
      obtain ⟨r, hr, -⟩ := ho.stage_of_current? (t := t) (by rw [hp]; rfl)
      left
      refine ⟨Timer.deadline s.clock r.duration, ?_⟩
      rw [activate, hr]
      exact phase_notify ..

theorem InPlace.step (hin : s.InPlace t) (h : s.step e = some s')
    (he : ∀ failure, e ≠ .wake (.stopped failure)) : s'.InPlace t := by
  cases hwake : e.isWake with
  | false =>
    rw [InPlace, phase_step h hwake]
    exact hin
  | true =>
    cases steps_of_step h with
    | wake hw =>
      cases hw with
      | exit hp | take hp | activate hp | cleanUp hp => simp [InPlace, hp] at hin
      | abandon | finish => exact absurd rfl (he _)
      | signalled hp | timedOut hp | cancelled hp =>
        right
        simp only [InPlace, hp, Phase.active.injEq, reduceCtorEq, or_false] at hin
        obtain ⟨deadline, rfl, -⟩ := hin
        simp [wind]
    | _ => cases hwake

theorem InPlace.run (hin : s.InPlace t) (h : s.run es = some s')
    (hes : ∀ failure, .wake (.stopped failure) ∉ es) : s'.InPlace t := by
  induction es generalizing s with
  | nil =>
    rw [← Option.some.inj h]
    exact hin
  | cons e es ih =>
    obtain ⟨s₁, hstep, hrun⟩ := Option.bind_eq_some_iff.1 h
    have he : ∀ failure, e ≠ .wake (.stopped failure) := by
      intro failure heq
      exact hes failure (heq ▸ List.mem_cons_self)
    have hrest : ∀ failure, .wake (.stopped failure) ∉ es := by
      intro failure hmem
      exact hes failure (List.mem_cons_of_mem e hmem)
    exact ih (hin.step hstep he) hrun hrest

namespace Orderly

theorem stage_of_inPlace (ho : s.Orderly) (hin : s.InPlace t) :
    s.Holds t fun r => r.stage = .active ∨ r.stage = .stopping := by
  cases hin with
  | inl hactive =>
    obtain ⟨deadline, hp⟩ := hactive
    exact (ho.stage_of_active hp).imp fun _ => .inl
  | inr hp =>
    have hstage := ho.stage_of_hand? (t := t) (p := .removing) (by rw [hp]; rfl)
    exact hstage.imp fun _ => .inr

theorem tracks_of_inPlace (ho : s.Orderly) (hin : s.InPlace t) : s.Tracks t := by
  apply ho.tracks_iff.2
  apply mem_inFlight_of_current
  exact hin.current?_eq

/-- With probes in place, a fault of a planned method is told once. -/
theorem log_reportFault (ho : s.Orderly) (hn : s.PlansDistinct) (hin : s.InPlace t)
    (hr : s.request? t = some r) (hplans : r.plans = some plans) (hmem : plan ∈ plans) :
    (s.reportFault plan.method.id).log = s.log ++ [⟨t, r.id, .probeFault plan.method⟩] := by
  have howns : s.Owns plan.method.id t plan.method :=
    { tracked := ho.tracks_of_inPlace hin
      probed := ⟨r, hr, (ho.stage_of_inPlace hin).of_request? hr, plans, hplans,
        List.mem_map_of_mem hmem⟩
      id := rfl }
  rw [Session.reportFault, (ho.faulty?_eq_some_iff hn).2 howns]
  exact log_notifyAll hr _

/-- A request whose probes are being installed is not yet active. -/
theorem reportFault_of_starting (ho : s.Orderly) (hn : s.PlansDistinct) (hp : s.phase = .starting t)
    (m : MethodId) : s.reportFault m = s := by
  cases hf : s.faulty? m with
  | none => rw [Session.reportFault, hf]
  | some owner =>
    obtain ⟨u, x⟩ := owner
    have hcurrent := ho.current?_of_faulty? hf
    obtain rfl : t = u := by
      rw [hp] at hcurrent
      exact Option.some.inj hcurrent
    obtain ⟨r, hr, hstage, -⟩ := ((ho.faulty?_eq_some_iff hn).1 hf).probed
    have hresolving :=
      (ho.stage_of_hand? (t := t) (p := .installing) (by rw [hp]; rfl)).of_request? hr
    cases hstage with
    | inl hactive => cases hactive.symm.trans hresolving
    | inr hstopping => cases hstopping.symm.trans hresolving

end Orderly

/-- While the host is installing the probes of `t` no fault is told, of whatever method. From the
success of installing until removing has ended, however many steps that takes, a fault of each
method that the host was given is told once, of this request and method. -/
theorem faults_told_while_in_place (settings : Settings) (es : List Event) (s : Session)
    (h : (ofSettings settings).run es = some s) (t : Ticket) (plans : List Plan) (cancelled : Bool)
    (hp : s.phase = .starting t) (hstarted : .startedProbes plans cancelled ∈ s.messages t) :
    (∀ m, s.reportFault m = s) ∧
    ∀ b, s.step (.wake (.started none)) = some b → ∀ es' s', b.run es' = some s' →
      (∀ failure, .wake (.stopped failure) ∉ es') → ∀ plan ∈ plans, s'.Holds t fun r =>
        (s'.reportFault plan.method.id).log = s'.log ++ [⟨t, r.id, .probeFault plan.method⟩] := by
  have ho := orderly_run h
  refine ⟨ho.reportFault_of_starting (plansDistinct_run h) hp, ?_⟩
  intro b hb es' s' hrun hes plan hmem
  have hlater : s.run (.wake (.started none) :: es') = some s' := by
    rw [run_cons, hb]
    exact hrun
  have hwhole : (ofSettings settings).run (es ++ .wake (.started none) :: es') = some s' :=
    run_trans h hlater
  have hin := (inPlace_of_started ho hp hb).run hrun hes
  -- the host was given the plans before, and what it was told stays
  have htold : .startedProbes plans cancelled ∈ s'.messages t := by
    have hgrown := messages_prefix (extends_run hlater) t
    exact hgrown.subset hstarted
  obtain ⟨r, hr, hplans⟩ := plansTold_run hwhole t plans cancelled htold
  exact ⟨r, hr, (orderly_run hwhole).log_reportFault (plansDistinct_run hwhole) hin hr hplans hmem⟩

theorem faults_told_while_in_place_sampleRun :
    ∃ s b s', (ofSettings .standard).run (sampleRun.take 6) = some s ∧ s.phase = .starting 1 ∧
      s.step (.wake (.started none)) = some b ∧ b.run [.cancel, .wake .cancelled] = some s' ∧
      s'.phase = .stopping 1 ∧ (∀ m, s.reportFault m = s) ∧
      ∀ plan ∈ [Plan.ofMethod Settings.standard.nestingLimit sampleMethod], s'.Holds 1 fun r =>
        (s'.reportFault plan.method.id).log = s'.log ++ [⟨1, r.id, .probeFault plan.method⟩] := by
  have hquiet : ∀ failure, Event.wake (.stopped failure) ∉ [.cancel, .wake .cancelled] := by simp
  obtain ⟨hpending, htold⟩ := faults_told_while_in_place .standard (sampleRun.take 6) _ rfl 1
    [Plan.ofMethod Settings.standard.nestingLimit sampleMethod] false rfl (by decide)
  exact ⟨_, _, _, rfl, rfl, rfl, rfl, rfl, hpending,
    htold _ rfl [.cancel, .wake .cancelled] _ rfl hquiet⟩

/-- A fault is dropped while the host is installing probes, and while it removes what an
installation that failed may have left. -/
theorem faults_dropped_before_activity :
    ∃ s s' cause, (ofSettings .standard).run (sampleRun.take 2) = some s ∧
      (ofSettings .standard).run (sampleRun.take 4) = some s' ∧
      s.phase = .starting 0 ∧ s'.phase = .cleaning 0 cause ∧
      .startedProbes [Plan.ofMethod Settings.standard.nestingLimit sampleMethod] false ∈
        s.messages 0 ∧
      s.reportFault sampleMethod.id = s ∧ s'.reportFault sampleMethod.id = s' :=
  ⟨_, _, _, rfl, rfl, rfl, rfl, by decide, rfl, rfl⟩

end Session

end MethodCapture
