import MethodCapture.Proofs.Session.Changes

/-!
What may be done to a request. No check guards the stage of a request where it is set, but every
step finds the request in a stage that fits. So what holds of a request when it is made, and
outlives offers and every permitted list of changes, holds of all requests at all times.
-/

namespace MethodCapture

/-- The lists of changes that one step may make to a request, apart from an offer. -/
inductive Request.Permits (r : Request) : List Change → Prop
  | nothing : Permits r []
  | submitted (h : r.stage = .pending) : Permits r [.enter .validating]
  | refused (h : r.stage = .pending) : Permits r (.enter .validating :: Change.denied)
  | stopped : Permits r [.resolve .explicit]
  | concluded (h : r.stage = .validating ∨ r.stage = .stopping) (hs : r.signal.isResolved = true) :
    Permits r [.enter .completed]
  | drained (h : r.stage = .validating ∨ r.stage = .resolving) : Permits r Change.drained
  | unresolved (h : r.stage = .validating) : Permits r (.enter .resolving :: Change.failed)
  | launched (h : r.stage = .validating) (plans : List Plan) :
    Permits r [.enter .resolving, .equip plans]
  | activated (h : r.stage = .resolving) : Permits r [.enter .active]
  | failed (h : r.stage = .resolving ∨ r.stage = .stopping) : Permits r Change.failed
  | wound (h : r.stage = .active) (hs : r.signal.isResolved = true) : Permits r [.enter .stopping]
  | timedOut (h : r.stage = .active) : Permits r [.resolve .durationElapsed, .enter .stopping]
  | cutShort (h : r.stage = .active) : Permits r [.resolve .shutdown, .enter .stopping]

namespace Session

variable {s s' : Session} {t u : Ticket} {cs : List Change} {r : Request} {es : List Event}
  {e : Event}

/-! What a step does to a request is permitted. -/

theorem permits_upon {u t : Ticket} (h : u = t → r.Permits cs) :
    r.Permits (Change.upon u t cs) := by
  unfold Change.upon
  split
  · next hu => exact h hu
  · exact .nothing

namespace Orderly

theorem stage_of_hand? (h : s.Orderly) {p : Progress} (hp : s.phase.hand? = some ⟨t, p⟩) :
    s.Holds t (·.stage = p.stage) := by
  obtain ⟨done, hc⟩ := h.consistent
  rw [hp] at hc
  exact hc.holds_held

theorem stage_of_active (h : s.Orderly) {deadline : Nat} (hp : s.phase = .active t deadline) :
    s.Holds t (·.stage = .active) :=
  h.stage_of_hand? (p := .capturing) (by rw [hp]; rfl)

theorem resolved_of_stopping (h : s.Orderly) (hp : s.phase = .stopping t) :
    s.Holds t (·.signal.isResolved = true) := by
  obtain ⟨done, hc⟩ := h.consistent
  rw [hp] at hc
  exact (hc.held _ rfl).imp fun _ hr => hr.2 rfl

variable (h : s.Orderly) (hr : s.request? t = some r)
include h hr

theorem permits_exit : r.Permits (s.exitChanges t) := by
  unfold exitChanges
  cases hw : s.waiting with
  | none => exact .nothing
  | some u =>
    refine permits_upon fun hu => .drained (.inl ?_)
    exact (h.stage_of_waiting (hu ▸ hw)).of_request? hr

/-- The request in hand does not wait. -/
theorem permits_retire {p : Progress} (hp : s.phase.hand? = some ⟨u, p⟩)
    (hcs : u = t → r.Permits cs) : r.Permits (Change.upon u t cs ++ s.retireChanges t) := by
  by_cases hu : u = t
  · have hnone : s.retireChanges t = [] := by
      obtain ⟨done, hc⟩ := h.consistent
      rw [hp] at hc
      unfold retireChanges exitChanges
      cases hw : s.waiting with
      | none => simp
      | some v => simp [Change.upon_of_ne (hu ▸ (hc.ticket_ne_waiting hw).symm)]
    rw [hnone, List.append_nil]
    exact permits_upon hcs
  · rw [Change.upon_of_ne hu, List.nil_append]
    unfold retireChanges
    split
    · exact h.permits_exit hr
    · exact .nothing

theorem permits_poll (resolver : Resolver) : r.Permits (s.pollChanges t resolver) := by
  unfold pollChanges
  split
  · exact h.permits_exit hr
  cases hw : s.waiting with
  | none => exact .nothing
  | some u =>
    refine permits_upon fun hu => ?_
    subst hu
    have hstage := (h.stage_of_waiting hw).of_request? hr
    rw [hr, Option.toList_some, List.flatMap_singleton, takeChanges]
    by_cases hs : r.signal.isResolved = true
    · rw [if_pos hs]
      exact .concluded (.inl hstage) hs
    rw [if_neg hs]
    split
    · exact .unresolved hstage
    · exact .launched hstage _

theorem permits_wake {w : Wake} (hw : s.Wakes w s') : r.Permits (s.wakeChanges t w) := by
  cases hw with
  | exit | take => exact h.permits_poll hr _
  | @activate u hp =>
    rw [wakeChanges]
    split
    · next hp =>
      exact .activated ((h.stage_of_hand? (p := .installing) (by rw [hp]; rfl)).of_request? hr)
    · exact .nothing
  | cleanUp => exact .nothing
  | @abandon u cause failure hp =>
    have hhand : s.phase.hand? = some ⟨u, .cleaning⟩ := by rw [hp]; rfl
    rw [wakeChanges, stoppedChanges, hp]
    refine h.permits_retire hr hhand fun hu => ?_
    have hstage := (h.stage_of_hand? (hu ▸ hhand)).of_request? hr
    split
    · exact .drained (.inr hstage)
    · exact .failed (.inl hstage)
  | @finish u failure hp =>
    have hhand : s.phase.hand? = some ⟨u, .removing⟩ := by rw [hp]; rfl
    rw [wakeChanges, stoppedChanges, hp]
    refine h.permits_retire hr hhand fun hu => ?_
    have hstage := (h.stage_of_hand? (hu ▸ hhand)).of_request? hr
    split
    · exact .failed (.inr hstage)
    · exact .concluded (.inr hstage) ((h.resolved_of_stopping (hu ▸ hp)).of_request? hr)
  | @signalled u deadline hp hs =>
    rw [wakeChanges, windChanges, hp]
    refine permits_upon fun hu => .wound ((h.stage_of_active (hu ▸ hp)).of_request? hr) ?_
    simpa [isSignalled, hu, hr] using hs
  | timedOut hp _ =>
    rw [wakeChanges, windChanges, hp]
    exact permits_upon fun hu => .timedOut ((h.stage_of_active (hu ▸ hp)).of_request? hr)
  | cancelled hp _ =>
    rw [wakeChanges, windChanges, hp]
    exact permits_upon fun hu => .cutShort ((h.stage_of_active (hu ▸ hp)).of_request? hr)

end Orderly

theorem permits_admission {policy : Policy} {p : Submission} (h : p.toRequest s.settings = .ok r) :
    r.Permits (s.admissionChanges policy p) := by
  have hstage : r.stage = .pending := by rw [(eq_of_toRequest h).1]; rfl
  unfold admissionChanges
  split
  · exact .refused hstage
  split
  · exact .submitted hstage
  split
  · exact .refused hstage
  · exact .submitted hstage

theorem permits_step (ho : s.Orderly) (h : s.step e = some s')
    (he : ∀ offer accepts, e ≠ .capture t offer accepts)
    (hr : (s.request? t).or (s.made? t e) = some r) : r.Permits (s.changes t e) := by
  cases steps_of_step h with
  | @submit policy p _ =>
    rw [changes]
    split
    · next ht =>
      subst ht
      rw [request?_eq_none (Nat.le_refl _), Option.none_or] at hr
      obtain ⟨_, _, hsubmit, -, hp⟩ := eq_submit_of_made? hr
      cases hsubmit
      exact permits_admission hp
    · exact .nothing
  | stop =>
    rw [changes]
    split
    · exact .stopped
    · exact .nothing
  | @capture u offer accepts _ =>
    have hu : u ≠ t := fun hu => he offer accepts (by rw [hu])
    rw [changes, Change.upon_of_ne hu]
    exact .nothing
  | fault | elapse | cancel | disconnect => exact .nothing
  | wake hw =>
    have hr : s.request? t = some r := by rwa [made?.eq_def, Option.or_none] at hr
    exact ho.permits_wake hr hw

/-- Offers come through a surface that was handed out. -/
theorem surface_of_capture {offer : Offer} {accepts : Bool}
    (h : s.step (.capture t offer accepts) = some s') :
    (s.request? t).any (·.surface.isSome) = true := by
  cases steps_of_step h with
  | capture hs => exact hs

/-- An offer through the surface of `t` does to `t` what it does to any request. -/
theorem request?_offered (ho : s.Orderly) {offer : Offer} {accepts : Bool}
    (h : s.step (.capture t offer accepts) = some s') (hr : s.request? t = some r) :
    s'.request? t = some (r.offer accepts) := by
  rw [request?_step ho h, hr, changes, Change.upon_self, hr, Option.toList_some,
    List.flatMap_singleton, r.offer_eq_applyAll]
  rfl

/-! Invariants of requests. -/

section Invariant

variable {P : Request → Prop}
  (made : ∀ (p : Submission) settings r, p.toRequest settings = .ok r → P r)
  (offer : ∀ r accepts, P r → P (r.offer accepts))
  (change : ∀ r cs, P r → r.Permits cs → P (r.applyAll cs))
include made offer change

theorem request_step (ho : s.Orderly) (hP : ∀ t r, s.request? t = some r → P r)
    (h : s.step e = some s') (hr : s'.request? t = some r) : P r := by
  by_cases he : ∃ o accepts, e = .capture t o accepts
  · obtain ⟨o, accepts, rfl⟩ := he
    obtain ⟨r₀, hr₀, -⟩ := (Option.any_eq_true ..).1 (surface_of_capture h)
    rw [request?_offered ho h hr₀, Option.some.injEq] at hr
    exact hr ▸ offer r₀ accepts (hP t r₀ hr₀)
  · rw [request?_step ho h, Option.map_eq_some_iff] at hr
    obtain ⟨r₀, hr₀, rfl⟩ := hr
    refine change r₀ _ ?_ (permits_step ho h (fun o accepts he' => he ⟨o, accepts, he'⟩) hr₀)
    rcases Option.or_eq_some_iff.1 hr₀ with hold | ⟨-, hnew⟩
    · exact hP t r₀ hold
    · obtain ⟨_, p, -, -, hp⟩ := eq_submit_of_made? hnew
      exact made p _ r₀ hp

theorem request_run (ho : s.Orderly) (hP : ∀ t r, s.request? t = some r → P r)
    (h : s.run es = some s') (hr : s'.request? t = some r) : P r := by
  have hboth : s'.Orderly ∧ ∀ t r, s'.request? t = some r → P r :=
    invariant_run (I := fun a => a.Orderly ∧ ∀ t r, a.request? t = some r → P r)
      (fun _ _ _ ⟨hoa, hPa⟩ hstep =>
        ⟨hoa.step hstep, fun _ _ => request_step made offer change hoa hPa hstep⟩) ⟨ho, hP⟩ h
  exact hboth.2 t r hr

/-- What permitted changes preserve holds of every request that a run makes. -/
theorem request_invariant {settings : Settings} (h : (ofSettings settings).run es = some s)
    (hr : s.request? t = some r) : P r :=
  request_run made offer change (orderly_ofSettings settings) (fun _ _ hr => nomatch hr) h hr

end Invariant

end Session

end MethodCapture
