import MethodCapture.Proofs.Session.Evolution

/-!
What a session never takes back. Every run appends to the log and to the list of admitted requests;
a request keeps what it was asked for, and a resolved stop signal its reason.
-/

namespace MethodCapture.Session

structure Extends (s s' : Session) : Prop where
  log : s.log <+: s'.log
  admitted : s.admitted <+: s'.admitted

variable {s s' a b : Session} {t : Ticket} {E : Effects} {es : List Event} {e : Event}

theorem Evolves.extends (h : s.Evolves E s') : s.Extends s' := by
  obtain ⟨ns, hlog, -⟩ := h.log
  obtain ⟨ts, hadmitted, -⟩ := h.admitted
  exact ⟨⟨ns, hlog.symm⟩, ⟨ts, hadmitted.symm⟩⟩

theorem extends_run (h : s.run es = some s') : s.Extends s' := (evolves_run h).extends

theorem enqueue_of_ok {id : RequestId} (h : (s.enqueue t id).2 = .ok ()) :
    (s.enqueue t id).1 = { s with
      registry := ⟨s.registry.entries ++ [(id, t)]⟩
      waiting := some t
      admitted := s.admitted ++ [t] } := by
  obtain ⟨hid, hexited, hwaiting⟩ := enqueue_ok_iff.1 h
  simp [enqueue_eq, hid, hasExited, hexited, hwaiting]

/-- A submission that succeeds registers its request, tracks it and puts it in the queue. -/
theorem exists_submit_of_ok {policy : Policy} {p : Submission}
    (h : (s.submit policy p).2 = .ok ()) :
    ∃ r, p.toRequest s.settings = .ok r ∧ policy.refused r.methods = [] ∧
      (s.submit policy p).1 = { s.register r with
        registry := ⟨s.registry.entries ++ [(r.id, s.requests.length)]⟩
        waiting := some s.requests.length
        admitted := s.admitted ++ [s.requests.length] } := by
  cases hp : p.toRequest s.settings with
  | error e =>
    rw [submit, hp] at h
    cases h
  | ok r =>
    by_cases hallowed : policy.refused r.methods = []
    · rw [submit_of_allowed hp hallowed] at h ⊢
      refine ⟨r, rfl, hallowed, ?_⟩
      rw [enqueue_of_ok h, registry_register, admitted_register]
    · rw [submit_of_refused hp hallowed] at h
      cases h

/-- The admitted requests are those whose submission succeeded. -/
theorem admitted_submit_of_ok {policy : Policy} {p : Submission}
    (h : (s.submit policy p).2 = .ok ()) :
    (s.submit policy p).1.admitted = s.admitted ++ [s.requests.length] := by
  obtain ⟨r, -, -, hsubmit⟩ := exists_submit_of_ok h
  rw [hsubmit]

/-! The steps of a run. -/

namespace Occurs

variable (h : s.Occurs es s' a e b)
include h

theorem evolves_before : ∃ before, s.run before = some a ∧ s.Evolves (s.runEffects before a) a := by
  obtain ⟨before, after, -, hbefore, -, -⟩ := h
  exact ⟨before, hbefore, evolves_run hbefore⟩

theorem evolves_after : ∃ after, b.run after = some s' ∧ b.Evolves (b.runEffects after s') s' := by
  obtain ⟨before, after, -, -, -, hafter⟩ := h
  exact ⟨after, hafter, evolves_run hafter⟩

theorem evolves : a.Evolves (a.effects e) b := evolves_step h.step_eq

theorem orderly (hs : s.Orderly) : a.Orderly ∧ b.Orderly := by
  obtain ⟨before, after, -, hbefore, hstep, -⟩ := h
  have ha := hs.run hbefore
  exact ⟨ha, ha.step hstep⟩

theorem length_le : s.requests.length ≤ a.requests.length := by
  obtain ⟨_, -, hevolves⟩ := h.evolves_before
  exact hevolves.length_le

/-- A step of the beginning of a run is a step of the run. -/
theorem of_append {es' : List Event} {s'' : Session} (hrun : s'.run es' = some s'') :
    s.Occurs (es ++ es') s'' a e b := by
  obtain ⟨before, after, rfl, hbefore, hstep, hafter⟩ := h
  exact ⟨before, after ++ es', by simp, hbefore, hstep, run_trans hafter hrun⟩

/-- A step of the end of a run is a step of the run. -/
theorem of_prepend {es₀ : List Event} {s₀ : Session} (hrun : s₀.run es₀ = some s) :
    s₀.Occurs (es₀ ++ es) s' a e b := by
  obtain ⟨before, after, rfl, hbefore, hstep, hafter⟩ := h
  exact ⟨es₀ ++ before, after, by simp, run_trans hrun hbefore, hstep, hafter⟩

/-- What comes before a step of a run is a run, and its steps are steps of the whole. -/
theorem exists_before : ∃ before, s.run before = some a ∧
    ∀ a' e' b', s.Occurs before a a' e' b' → s.Occurs es s' a' e' b' := by
  obtain ⟨before, after, rfl, hbefore, hstep, hafter⟩ := h
  have hrest : a.run (e :: after) = some s' := by
    rw [run_cons, hstep]
    exact hafter
  exact ⟨before, hbefore, fun a' e' b' h' => h'.of_append hrest⟩

/-- What follows a step of a run is a run, and its steps are steps of the whole. -/
theorem exists_after : ∃ after, b.run after = some s' ∧
    ∀ a' e' b', b.Occurs after s' a' e' b' → s.Occurs es s' a' e' b' := by
  obtain ⟨before, after, rfl, hbefore, hstep, hafter⟩ := h
  refine ⟨after, hafter, fun a' e' b' h' => ?_⟩
  have hwhole : s.run (before ++ [e]) = some b := run_concat hbefore hstep
  have hlater := h'.of_prepend hwhole
  rwa [List.append_assoc] at hlater

end Occurs

/-- Requests that are admitted later have later tickets. -/
theorem exists_admitted_append (h : s.run es = some s') :
    ∃ ts, s'.admitted = s.admitted ++ ts ∧ ∀ t ∈ ts, s.requests.length ≤ t := by
  obtain ⟨ts, hadmitted, hts⟩ := (evolves_run h).admitted
  refine ⟨ts, hadmitted, fun t ht => ?_⟩
  obtain ⟨a, e, b, ho, hadmits⟩ := hts t ht
  cases hadmits with
  | submitted _ => exact ho.length_le

/-- What is told of a request from here on, some step of the run tells. -/
theorem exists_notices_append (h : s.run es = some s') (t : Ticket) :
    ∃ ns, s'.log.filter (·.ticket == t) = s.log.filter (·.ticket == t) ++ ns ∧
      ∀ n ∈ ns, ∃ a e b, s.Occurs es s' a e b ∧ t < b.requests.length ∧ a.Tells e t n.message := by
  obtain ⟨ns, hlog, hns⟩ := (evolves_run h).log
  refine ⟨ns.filter (·.ticket == t), by rw [hlog, List.filter_append], fun n hn => ?_⟩
  rw [List.mem_filter, beq_iff_eq] at hn
  obtain ⟨hmem, rfl⟩ := hn
  exact (hns n hmem).2

end MethodCapture.Session
