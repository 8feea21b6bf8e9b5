import MethodCapture.Proofs.Method.Resolution
import MethodCapture.Proofs.Session.Changes
import MethodCapture.Proofs.Session.Outcome

/-!
Probe faults. Only one tracked request can have probes in place, and it has a method planned at most
once, so a fault belongs to one method of one request or to none, in whichever order the tracked
requests are gone through.
-/

namespace MethodCapture

/-! Looking for the only one. -/

/-- If only one element satisfies `p`, looking for the first finds it. -/
theorem find?_eq_some_iff_of_unique {α : Type} {l : List α} {p : α → Bool} {a : α}
    (hu : ∀ a ∈ l, ∀ b ∈ l, p a = true → p b = true → a = b) :
    l.find? p = some a ↔ a ∈ l ∧ p a = true := by
  constructor
  · intro h
    exact ⟨List.mem_of_find?_eq_some h, List.find?_some h⟩
  · rintro ⟨hmem, ha⟩
    cases hfind : l.find? p with
    | none => exact absurd ha (List.find?_eq_none.1 hfind a hmem)
    | some b => rw [hu b (List.mem_of_find?_eq_some hfind) a hmem (List.find?_some hfind) ha]

namespace Registry

variable {α : Type} {g g' : Registry α} {p : α → Bool}

theorem find?_eq (g : Registry α) (p : α → Bool) : g.find? p = (g.entries.map (·.2)).find? p := by
  rw [List.find?_map]
  rfl

/-- The only entry is found in any order. -/
theorem find?_perm (h : g'.entries.Perm g.entries) (hu : ∀ a ∈ g.entries.map (·.2),
    ∀ b ∈ g.entries.map (·.2), p a = true → p b = true → a = b) : g'.find? p = g.find? p := by
  have hmem : ∀ a, a ∈ g'.entries.map (·.2) ↔ a ∈ g.entries.map (·.2) := fun a => (h.map _).mem_iff
  have hu' : ∀ a ∈ g'.entries.map (·.2), ∀ b ∈ g'.entries.map (·.2),
      p a = true → p b = true → a = b :=
    fun a ha b hb => hu a ((hmem a).1 ha) b ((hmem b).1 hb)
  ext a
  rw [find?_eq, find?_eq, find?_eq_some_iff_of_unique hu', find?_eq_some_iff_of_unique hu, hmem]

end Registry

/-- Among plans for different methods, looking for a method finds the plan for it. -/
theorem find?_plan_eq_some_iff {plans : List Plan} (hn : (plans.map (·.method.id)).Nodup)
    {m : MethodId} {plan : Plan} :
    plans.find? (·.method.id == m) = some plan ↔ plan ∈ plans ∧ plan.method.id = m := by
  rw [find?_eq_some_iff_of_unique, beq_iff_eq]
  intro a ha b hb ham hbm
  rw [beq_iff_eq] at ham hbm
  exact List.inj_on_of_nodup_map hn ha hb (ham.trans hbm.symm)

/-! A request has a method planned at most once. -/

theorem Change.mem_upon {u t : Nat} {c : Change} {cs : List Change} :
    c ∈ upon u t cs ↔ u = t ∧ c ∈ cs := by
  unfold upon
  split
  · next hu => simp [hu]
  · next hu => simp [hu]

theorem Request.plans_applyAll {r : Request} {cs : List Change} {plans : List Plan}
    (h : (r.applyAll cs).plans = some plans) : r.plans = some plans ∨ .equip plans ∈ cs := by
  induction cs generalizing r with
  | nil => exact .inl h
  | cons c cs ih =>
    rcases ih h with hr | hmem
    · cases c with
      | enter stage => exact .inl hr
      | resolve reason => exact .inl hr
      | equip plans' =>
        rw [← Option.some.inj hr]
        exact .inr List.mem_cons_self
      | count =>
        refine .inl ?_
        rw [apply, count] at hr
        split at hr <;> exact hr
    · exact .inr (List.mem_cons_of_mem _ hmem)

namespace Session

variable {s s' : Session} {t : Ticket} {r : Request} {m : MethodId} {x : Method} {plans : List Plan}
  {e : Event} {es : List Event} {settings : Settings}

theorem nodup_of_equip_takeChanges {resolver : Resolver}
    (h : .equip plans ∈ s.takeChanges resolver r) : (plans.map (·.method.id)).Nodup := by
  unfold takeChanges at h
  split at h
  · simp at h
  split at h
  · simp [Change.failed] at h
  · next methods hmethods =>
    obtain ⟨lists, -, -, rfl⟩ := Resolution.outcome_eq_ok_iff.1 hmethods
    have hplans : plans = (Resolution.distinct lists.flatten).map
        (Plan.ofMethod s.settings.nestingLimit) := by simpa using h
    rw [hplans, List.map_map]
    exact Resolution.nodup_distinctFrom [] lists.flatten

/-- Only taking a request up equips it. -/
theorem not_equip_mem_exitChanges : .equip plans ∉ s.exitChanges t := by
  intro h
  unfold exitChanges at h
  split at h
  · cases h
  · have h := (Change.mem_upon.1 h).2
    simp [Change.drained] at h

theorem not_equip_mem_stoppedChanges {failure : Option Failure} :
    .equip plans ∉ s.stoppedChanges t failure := by
  have hretire : .equip plans ∉ s.retireChanges t := by
    intro h
    unfold retireChanges at h
    split at h
    · exact not_equip_mem_exitChanges h
    · cases h
  intro h
  unfold stoppedChanges at h
  split at h
  · rcases List.mem_append.1 h with h | h
    · have h := (Change.mem_upon.1 h).2
      split at h <;> simp [Change.drained, Change.failed] at h
    · exact hretire h
  · rcases List.mem_append.1 h with h | h
    · have h := (Change.mem_upon.1 h).2
      split at h <;> simp [Change.failed] at h
    · exact hretire h
  · cases h

theorem not_equip_mem_windChanges {cs : List Change} (hcs : .equip plans ∉ cs) :
    .equip plans ∉ s.windChanges t cs := by
  intro h
  unfold windChanges at h
  split at h
  · have h := (Change.mem_upon.1 h).2
    simp [hcs] at h
  · cases h

theorem taken_of_equip_wakeChanges {w : Wake} (h : .equip plans ∈ s.wakeChanges t w) :
    s.waiting = some t ∧ ∃ resolver r, .equip plans ∈ s.takeChanges resolver r := by
  cases w with
  | poll resolver =>
    have h : .equip plans ∈ s.pollChanges t resolver := h
    unfold pollChanges at h
    split at h
    · exact absurd h not_equip_mem_exitChanges
    split at h
    · cases h
    · next u hw =>
      obtain ⟨rfl, hmem⟩ := Change.mem_upon.1 h
      obtain ⟨r, -, htake⟩ := List.mem_flatMap.1 hmem
      exact ⟨hw, resolver, r, htake⟩
  | started failure =>
    cases failure with
    | none =>
      rw [wakeChanges] at h
      split at h <;> simp at h
    | some e => cases h
  | stopped failure => exact absurd h not_equip_mem_stoppedChanges
  | signalled => exact absurd h (not_equip_mem_windChanges List.not_mem_nil)
  | timedOut => exact absurd h (not_equip_mem_windChanges (by simp))
  | cancelled => exact absurd h (not_equip_mem_windChanges (by simp))

/-- A request waits when it is equipped. -/
theorem taken_of_equip (h : .equip plans ∈ s.changes t e) :
    s.waiting = some t ∧ ∃ resolver r, .equip plans ∈ s.takeChanges resolver r := by
  cases e with
  | submit policy p =>
    rw [changes] at h
    split at h
    · rcases s.admissionChanges_cases policy p with hcs | hcs <;> simp [hcs, Change.denied] at h
    · cases h
  | stop id =>
    rw [changes] at h
    split at h <;> simp at h
  | capture u offer accepts =>
    obtain ⟨r, -, h⟩ := List.mem_flatMap.1 (Change.mem_upon.1 h).2
    unfold Request.offerChanges at h
    split at h
    · split at h
      · split at h <;> simp at h
      · cases h
    · cases h
  | wake w => exact taken_of_equip_wakeChanges h
  | fault | elapse | cancel | disconnect => cases h

/-- No request has a method planned twice. -/
def PlansDistinct (s : Session) : Prop :=
  ∀ t r plans, s.request? t = some r → r.plans = some plans → (plans.map (·.method.id)).Nodup

theorem PlansDistinct.step (hn : s.PlansDistinct) (ho : s.Orderly) (h : s.step e = some s') :
    s'.PlansDistinct := by
  intro t r plans hr hp
  rw [request?_step ho h, Option.map_eq_some_iff] at hr
  obtain ⟨r₀, hr₀, rfl⟩ := hr
  rcases Request.plans_applyAll hp with hold | hmem
  · rcases Option.or_eq_some_iff.1 hr₀ with hr₀ | ⟨-, hmade⟩
    · exact hn t r₀ plans hr₀ hold
    · -- A request is made without plans.
      obtain ⟨_, _, -, -, hmade⟩ := eq_submit_of_made? hmade
      rw [(eq_of_toRequest hmade).1] at hold
      cases hold
  · obtain ⟨-, resolver, r, htaken⟩ := taken_of_equip hmem
    exact nodup_of_equip_takeChanges htaken

theorem PlansDistinct.run (hn : s.PlansDistinct) (ho : s.Orderly) (h : s.run es = some s') :
    s'.PlansDistinct := by
  have hboth : s'.Orderly ∧ s'.PlansDistinct :=
    invariant_run (I := fun a => a.Orderly ∧ a.PlansDistinct)
      (fun _ _ _ ⟨hoa, hna⟩ hstep => ⟨hoa.step hstep, hna.step hoa hstep⟩) ⟨ho, hn⟩ h
  exact hboth.2

theorem plansDistinct_run (h : (ofSettings settings).run es = some s) : s.PlansDistinct :=
  PlansDistinct.run (by simp [PlansDistinct, ofSettings, request?]) (orderly_ofSettings settings) h

/-! The owner of a fault. -/

/-- A fault of the method `m` concerns the instrumented method `x` of the tracked request `t`, whose
probes are in place. -/
structure Owns (s : Session) (m : MethodId) (t : Ticket) (x : Method) : Prop where
  tracked : s.Tracks t
  probed : s.Holds t fun r => (r.stage = .active ∨ r.stage = .stopping) ∧
    ∃ plans, r.plans = some plans ∧ x ∈ plans.map (·.method)
  id : x.id = m

theorem any_isProbed_iff : (s.request? t).any (·.stage.isProbed) = true ↔
    s.Holds t fun r => r.stage = .active ∨ r.stage = .stopping := by
  have hstage (stage : Stage) : stage.isProbed = true ↔ stage = .active ∨ stage = .stopping := by
    cases stage <;> simp [Stage.isProbed]
  simp [Holds, Option.any_eq_true, hstage]

/-- A tracked request with probes in place is in the worker's hand. -/
theorem Orderly.current?_of_probed (ho : s.Orderly) (ht : s.Tracks t)
    (hp : s.Holds t fun r => r.stage = .active ∨ r.stage = .stopping) :
    s.phase.current? = some t := by
  refine ho.current?_of_stage (ho.tracks_iff.1 ht) (hp.imp fun r hr hstage => ?_)
  rcases hr with hr | hr <;> exact nomatch hr.symm.trans hstage

theorem Orderly.mem_entries_iff (ho : s.Orderly) :
    t ∈ s.registry.entries.map (·.2) ↔ s.Tracks t := by
  obtain ⟨done, hc⟩ := ho.consistent
  rw [hc.tracked, hc.tracks_iff]

theorem Orderly.probed_unique (ho : s.Orderly) : ∀ t ∈ s.registry.entries.map (·.2),
    ∀ u ∈ s.registry.entries.map (·.2), (s.request? t).any (·.stage.isProbed) = true →
      (s.request? u).any (·.stage.isProbed) = true → t = u := by
  intro t ht u hu htp hup
  have ht := ho.current?_of_probed (ho.mem_entries_iff.1 ht) (any_isProbed_iff.1 htp)
  rw [ho.current?_of_probed (ho.mem_entries_iff.1 hu) (any_isProbed_iff.1 hup)] at ht
  exact (Option.some.inj ht).symm

theorem Orderly.probed?_eq_some_iff (ho : s.Orderly) : s.probed? = some t ↔
    s.Tracks t ∧ s.Holds t fun r => r.stage = .active ∨ r.stage = .stopping := by
  rw [probed?, Registry.find?_eq, find?_eq_some_iff_of_unique ho.probed_unique, any_isProbed_iff,
    ho.mem_entries_iff]

theorem Orderly.current?_of_faulty? (ho : s.Orderly) (h : s.faulty? m = some (t, x)) :
    s.phase.current? = some t := by
  simp only [faulty?, Option.bind_eq_bind, Option.bind_eq_some_iff, Option.pure_def,
    Option.some.injEq, Prod.mk.injEq] at h
  obtain ⟨u, hu, r, hr, plans, hplans, plan, hplan, rfl, -⟩ := h
  obtain ⟨htracked, hstage⟩ := ho.probed?_eq_some_iff.1 hu
  exact ho.current?_of_probed htracked hstage

theorem Orderly.faulty?_eq_some_iff (ho : s.Orderly) (hn : s.PlansDistinct) :
    s.faulty? m = some (t, x) ↔ s.Owns m t x := by
  simp only [faulty?, Option.bind_eq_bind, Option.bind_eq_some_iff, Option.pure_def,
    Option.some.injEq, Prod.mk.injEq]
  constructor
  · rintro ⟨u, hu, r, hr, plans, hplans, plan, hplan, rfl, rfl⟩
    obtain ⟨htracked, hstage⟩ := ho.probed?_eq_some_iff.1 hu
    obtain ⟨hmem, hid⟩ := (find?_plan_eq_some_iff (hn _ r plans hr hplans)).1 hplan
    exact ⟨htracked, ⟨r, hr, hstage.of_request? hr, plans, hplans, List.mem_map_of_mem hmem⟩, hid⟩
  · rintro ⟨htracked, ⟨r, hr, hstage, plans, hplans, hx⟩, hid⟩
    obtain ⟨plan, hmem, rfl⟩ := List.mem_map.1 hx
    exact ⟨t, ho.probed?_eq_some_iff.2 ⟨htracked, r, hr, hstage⟩, r, hr, plans, hplans, plan,
      (find?_plan_eq_some_iff (hn t r plans hr hplans)).2 ⟨hmem, hid⟩, rfl, rfl⟩

/-! The order of the registry. -/

theorem Orderly.faulty?_perm (ho : s.Orderly) {g : Registry Ticket}
    (hg : g.entries.Perm s.registry.entries) (m : MethodId) :
    { s with registry := g }.faulty? m = s.faulty? m := by
  have hprobed : { s with registry := g }.probed? = s.probed? :=
    Registry.find?_perm hg ho.probed_unique
  rw [faulty?, hprobed]
  rfl

theorem notify_registry (s : Session) (g : Registry Ticket) (t : Ticket) (message : Message) :
    { s with registry := g }.notify t message = { s.notify t message with registry := g } := by
  cases hr : s.requests[t]? <;> simp [notify, notifyAll, request?, hr]

theorem Orderly.reportFault_perm (ho : s.Orderly) {g : Registry Ticket}
    (hg : g.entries.Perm s.registry.entries) (m : MethodId) :
    { s with registry := g }.reportFault m = { s.reportFault m with registry := g } := by
  rw [Session.reportFault, Session.reportFault, ho.faulty?_perm hg]
  cases s.faulty? m with
  | none => rfl
  | some owner => exact notify_registry s g owner.1 _

/-- How a session answers a fault of the method `m`. -/
structure Attributed (s : Session) (m : MethodId) : Prop where
  /-- The host is told at most once, and of the owner alone. -/
  told : ∃ ns, (s.reportFault m).log = s.log ++ ns ∧ ns.length ≤ 1 ∧
    ∀ n, n ∈ ns ↔
      ∃ x, s.Owns m n.ticket x ∧ s.idOf? n.ticket = some n.id ∧ n.message = .probeFault x
  unique : ∀ t u x y, s.Owns m t x → s.Owns m u y → t = u ∧ x = y
  /-- No second tracked request has probes in place, whatever they belong to. -/
  probed : ∀ t u, s.Tracks t → s.Tracks u →
    (s.Holds t fun r => r.stage = .active ∨ r.stage = .stopping) →
    (s.Holds u fun r => r.stage = .active ∨ r.stage = .stopping) → t = u
  /-- Tracked requests may be gone through in any order. -/
  order : ∀ g : Registry Ticket, g.entries.Perm s.registry.entries →
    { s with registry := g }.reportFault m = { s.reportFault m with registry := g }
  rest : { s.reportFault m with history := s.history } = s

theorem rest_reportFault (s : Session) (m : MethodId) :
    { s.reportFault m with history := s.history } = s := by
  unfold reportFault notify notifyAll
  split
  · rfl
  · split <;> rfl

/-- A probe fault is reported of the one method it belongs to, under the request whose probes are in
place, or not at all; besides, nothing changes. -/
theorem faults_attributed (settings : Settings) (es : List Event) (s : Session)
    (h : (ofSettings settings).run es = some s) (m : MethodId) : s.Attributed m := by
  have ho := orderly_run h
  have howner (t : Ticket) (x : Method) : s.faulty? m = some (t, x) ↔ s.Owns m t x :=
    ho.faulty?_eq_some_iff (plansDistinct_run h)
  refine ⟨?_, fun t u x y ht hu => ?_, fun t u ht hu htp hup => ?_,
    fun g hg => ho.reportFault_perm hg m, rest_reportFault s m⟩
  · unfold reportFault
    cases hfaulty : s.faulty? m with
    | none =>
      refine ⟨[], by simp, by simp, fun n => ⟨nofun, ?_⟩⟩
      rintro ⟨x, hx, -⟩
      rw [← howner, hfaulty] at hx
      cases hx
    | some owner =>
      obtain ⟨t, x⟩ := owner
      obtain ⟨-, ⟨r, hr, -⟩, -⟩ := (howner t x).1 hfaulty
      refine ⟨[⟨t, r.id, .probeFault x⟩], log_notifyAll hr _, by simp, fun n => ?_⟩
      rw [List.mem_singleton]
      constructor
      · rintro rfl
        exact ⟨x, (howner t x).1 hfaulty, by simp [idOf?, hr], rfl⟩
      · rintro ⟨y, hy, hid, hmessage⟩
        obtain ⟨u, id, message⟩ := n
        rw [← howner, hfaulty, Option.some.injEq, Prod.mk.injEq] at hy
        obtain ⟨rfl, rfl⟩ := hy
        rw [idOf?, hr, Option.map_some, Option.some.injEq] at hid
        simp [hid, ← hmessage]
  · rw [← howner] at ht hu
    rw [ht, Option.some.injEq, Prod.mk.injEq] at hu
    exact hu
  · have ht := ho.current?_of_probed ht htp
    rw [ho.current?_of_probed hu hup] at ht
    exact (Option.some.inj ht).symm

theorem faults_attributed_sampleRun :
    ∃ s, (ofSettings .standard).run (sampleRun.take 7) = some s ∧
      s.Attributed sampleMethod.id ∧ s.faulty? sampleMethod.id = some (1, sampleMethod) :=
  ⟨_, rfl, faults_attributed .standard (sampleRun.take 7) _ rfl _, by decide⟩

end Session

end MethodCapture
