import MethodCapture.Proofs.Session.LateAdmission
import MethodCapture.Proofs.Session.Rejections

/-!
Denied requests. A submission that is in order but cannot be admitted leaves a request behind that
is cancelled and denied, and nothing happens to this request any more. The host hears of it at once
if the policy denies it or the queue is full. That the worker has exited, only the client is told.
-/

namespace MethodCapture

/-- The failures of submissions that leave a denied request behind. -/
def Failure.denies : Failure → Bool
  | deniedMethods _ | tooManyRequests | shuttingDown => true
  | _ => false

namespace Session

variable {s s' : Session} {t : Ticket} {r : Request} {policy : Policy} {p : Submission} {e : Event}
  {es es' : List Event} {settings : Settings}

/-! Which submissions are denied. -/

theorem denies_of_toRequest {failure : Failure} (h : p.toRequest settings = .error failure) :
    failure.denies = false := by
  unfold Submission.toRequest at h
  dsimp only at h
  split at h
  · cases h
    rfl
  split at h
  · cases h
    rfl
  split at h
  · cases h
    rfl
  · cases h

/-- A request that is not denied on the spot is left in validation. -/
theorem admission_cases (hp : p.toRequest s.settings = .ok r) (policy : Policy) :
    (s.admissionChanges policy p = .enter .validating :: Change.denied ∧
      ∃ failure, (s.submit policy p).2 = .error failure ∧ failure.denies = true) ∨
    (s.admissionChanges policy p = [.enter .validating] ∧
      ∀ failure, (s.submit policy p).2 = .error failure → failure.denies = false) := by
  have hid := id_of_toRequest hp
  have hmethods := methods_of_toRequest hp
  unfold admissionChanges
  by_cases hallowed : policy.refused p.methods = []
  · rw [if_neg (not_not.2 hallowed), submit_of_allowed hp (hmethods ▸ hallowed), enqueue_eq,
      registry_register, waiting_register, hid]
    have hexited : (s.register r).hasExited = s.hasExited := by simp [hasExited]
    rw [hexited]
    by_cases htaken : s.registry.contains p.id = true
    · right
      rw [if_pos htaken, if_pos htaken]
      refine ⟨rfl, fun failure h => ?_⟩
      cases h
      rfl
    rw [if_neg htaken, if_neg htaken]
    by_cases hexit : s.hasExited = true
    · left
      simp [hexit, Failure.denies]
    by_cases hwaiting : s.waiting.isSome = true
    · left
      simp [hexit, hwaiting, Failure.denies]
    · right
      simp [hexit, hwaiting]
  · left
    rw [if_pos hallowed, submit_of_refused hp (hmethods ▸ hallowed)]
    exact ⟨rfl, _, rfl, rfl⟩

theorem denied_iff (s : Session) (policy : Policy) (p : Submission) :
    (s.submit policy p).1.Holds s.requests.length (·.stage = .denied) ↔
      ∃ failure, (s.submit policy p).2 = .error failure ∧ failure.denies = true := by
  have hrequest := request?_submit s policy p
  cases hp : p.toRequest s.settings with
  | error failure =>
    rw [hp] at hrequest
    constructor
    · intro hdenied
      obtain ⟨r, hr, -⟩ := hdenied
      rw [hrequest] at hr
      cases hr
    · intro hdenied
      obtain ⟨other, hanswer, hdenies⟩ := hdenied
      rw [submit, hp] at hanswer
      cases hanswer
      rw [denies_of_toRequest hp] at hdenies
      cases hdenies
  | ok r =>
    rw [hp] at hrequest
    cases admission_cases hp policy with
    | inl hcase =>
      rw [hcase.1] at hrequest
      exact iff_of_true ⟨_, hrequest, rfl⟩ hcase.2
    | inr hcase =>
      obtain ⟨hchanges, hanswer⟩ := hcase
      rw [hchanges] at hrequest
      apply iff_of_false
      · intro hdenied
        have hstage := hdenied.of_request? hrequest
        cases hstage
      · intro hdenied
        obtain ⟨failure, herror, hdenies⟩ := hdenied
        rw [hanswer failure herror] at hdenies
        cases hdenies

/-- A denied request was in order, and it is cancelled. -/
theorem exists_denied (h : (s.submit policy p).1.Holds s.requests.length (·.stage = .denied)) :
    ∃ r, p.toRequest s.settings = .ok r ∧ (s.submit policy p).1.Holds s.requests.length fun r =>
      r.id = p.id ∧ r.stage = .denied ∧ r.signal.reason = some .cancelled := by
  obtain ⟨r', hr', hstage⟩ := h
  have hrequest := request?_submit s policy p
  cases hp : p.toRequest s.settings with
  | error failure =>
    rw [hp, hr'] at hrequest
    cases hrequest
  | ok r =>
    refine ⟨r, rfl, ?_⟩
    rw [hp] at hrequest
    rcases s.admissionChanges_cases policy p with hchanges | hchanges
    · rw [hchanges] at hrequest
      have hvalidating := hrequest ▸ hr'
      cases hvalidating
      cases hstage
    · rw [hchanges, (eq_of_toRequest hp).1] at hrequest
      exact ⟨_, hrequest, rfl, rfl, rfl⟩

/-! What is told of a denied request. -/

/-- Anything told of a request that is there concerns the request in flight, or an offer to it. -/
theorem Tells.inFlight_or_reaches {m : Message} (ho : s.Orderly) (hlt : t < s.requests.length)
    (h : s.Tells e t m) : t ∈ s.inFlight ∨ s.reachesHost t = true := by
  cases h with
  | asked | denied | crowded => exact absurd hlt (Nat.lt_irrefl _)
  | offered hr => exact .inr hr
  | faulty hf => exact .inl (mem_inFlight_of_current (ho.current?_of_faulty? hf))
  | resolving ht | unresolved ht | launched ht => exact .inl (mem_inFlight_of_waiting ht.waiting)
  | activated hp | cleaning hp | abandoned hp | stopping hp | unfinished hp =>
    exact .inl (mem_inFlight_of_current (by rw [hp]; rfl))
  | completed ht => exact .inl ht

theorem quiet_of_denied (h : (ofSettings settings).run es = some s)
    (hd : s.Holds t (·.stage = .denied)) : t ∉ s.inFlight ∧ s.reachesHost t = false := by
  obtain ⟨r, hr, hstage⟩ := hd
  constructor
  · intro ht
    have hopen := ((orderly_run h).not_final_of_inFlight ht).of_request? hr
    rw [hstage] at hopen
    cases hopen
  · have hpaths : ∀ path ∈ Stage.paths, path.getLast? = some .denied → .resolving ∉ path := by
      decide
    have hbare := hpaths r.path (path_mem h hr) (hstage ▸ r.getLast?_path)
    have hsurface : r.surface = none := bare_of_run h hr hbare
    simp [reachesHost, hr, Request.passes, hsurface]

/-- Nothing more is told of a denied request. -/
theorem log_of_denied (h : (ofSettings settings).run es = some s)
    (hd : s.Holds t (·.stage = .denied)) (hrun : s.run es' = some s') :
    s'.log.filter (·.ticket == t) = s.log.filter (·.ticket == t) := by
  obtain ⟨ns, hlog, hns⟩ := exists_notices_append hrun t
  have hnone : ns = [] := by
    apply List.eq_nil_iff_forall_not_mem.2
    intro n hn
    obtain ⟨a, e, b, hoccurs, -, htells⟩ := hns n hn
    obtain ⟨before, hbefore, -⟩ := hoccurs.evolves_before
    have hwhole : (ofSettings settings).run (es ++ before) = some a := run_trans h hbefore
    obtain ⟨r, hr, hstage⟩ := hd
    have hkept := final_run h hr (by rw [hstage]; rfl) hbefore
    have hquiet := quiet_of_denied hwhole (hkept.imp fun r' hr' => hr'.1.trans hstage)
    cases htells.inFlight_or_reaches (orderly_run hwhole) hkept.lt_length with
    | inl hflight => exact hquiet.1 hflight
    | inr hreaches =>
      rw [hquiet.2] at hreaches
      cases hreaches
  rw [hlog, hnone, List.append_nil]

/-- What has become, in the session `a`, of the request that a denied submission to `s` left
behind. -/
structure TurnedAway (s : Session) (policy : Policy) (p : Submission) (a : Session) : Prop where
  request : a.Holds s.requests.length fun r =>
    r.id = p.id ∧ r.stage = .denied ∧ r.signal.reason = some .cancelled
  told : a.log.filter (·.ticket == s.requests.length) =
    (p.methods.map Message.askedPolicy ++ (verdict? (s.submit policy p).2).toList).map
      (⟨s.requests.length, p.id, ·⟩)
  reported : (s.submit policy p).2 ≠ .error .shuttingDown →
    (a.messages s.requests.length).countP (·.isOutcome) = 1
  unreported : (s.submit policy p).2 = .error .shuttingDown →
    (a.messages s.requests.length).countP (·.isOutcome) = 0

theorem verdict?_of_denies {failure : Failure} (h : failure.denies = true) :
    (verdict? (.error failure)).isSome = true ↔ failure ≠ .shuttingDown := by
  cases failure <;> simp_all [Failure.denies, verdict?]

/-- The verdict is the one outcome that a submission may tell. -/
theorem countP_told (ds : List Description) (answer : Except Failure Unit) :
    (ds.map Message.askedPolicy ++ (verdict? answer).toList).countP (·.isOutcome) =
      if (verdict? answer).isSome then 1 else 0 := by
  have hasked := filter_isOutcome_askedPolicy ds
  have hverdict : (verdict? answer).toList.countP (·.isOutcome) =
      if (verdict? answer).isSome then 1 else 0 := by
    unfold verdict?
    split <;> rfl
  rw [List.countP_append, hverdict, List.countP_eq_length_filter, hasked, List.length_nil,
    Nat.zero_add]

section TurnedAway

variable (h : (ofSettings settings).run es = some s)
  (hstep : s.step (.submit policy p) = some (s.submit policy p).1)
  (hd : (s.submit policy p).1.Holds s.requests.length (·.stage = .denied))
  (hrun : (s.submit policy p).1.run es' = some s')
include h hstep hd hrun

/-- All that is ever told of a denied request is told at its submission. -/
theorem told_of_denied : s'.log.filter (·.ticket == s.requests.length) =
    (p.methods.map Message.askedPolicy ++ (verdict? (s.submit policy p).2).toList).map
      (⟨s.requests.length, p.id, ·⟩) := by
  obtain ⟨r, hp, -⟩ := exists_denied hd
  have hwhole : (ofSettings settings).run (es ++ [.submit policy p]) = some (s.submit policy p).1 :=
    run_concat h hstep
  rw [log_of_denied hwhole hd hrun, log_submit_of_request hp policy, List.filter_append,
    filter_ticket_log (orderly_run h) (Nat.le_refl _), List.nil_append, List.filter_eq_self]
  intro n hn
  obtain ⟨m, -, rfl⟩ := List.mem_map.1 hn
  exact beq_self_eq_true _

theorem request_of_denied : s'.Holds s.requests.length fun r =>
    r.id = p.id ∧ r.stage = .denied ∧ r.signal.reason = some .cancelled := by
  obtain ⟨-, -, r, hr, hid, hstage, hreason⟩ := exists_denied hd
  have hwhole : (ofSettings settings).run (es ++ [.submit policy p]) = some (s.submit policy p).1 :=
    run_concat h hstep
  obtain ⟨r', hr', hevolves⟩ := (evolves_run hrun).request _ r hr
  have hkept := (final_run hwhole hr (by rw [hstage]; rfl) hrun).of_request? hr'
  exact ⟨r', hr', hevolves.id.trans hid, hkept.1.trans hstage, hevolves.kept _ hreason⟩

theorem turnedAway_of_denied : s.TurnedAway policy p s' := by
  have htold := told_of_denied h hstep hd hrun
  obtain ⟨failure, hanswer, hdenies⟩ := (denied_iff s policy p).1 hd
  have hsome := verdict?_of_denies hdenies
  have hcount : (s'.messages s.requests.length).countP (·.isOutcome) =
      if (verdict? (s.submit policy p).2).isSome then 1 else 0 := by
    have hmessages : s'.messages s.requests.length =
        p.methods.map Message.askedPolicy ++ (verdict? (s.submit policy p).2).toList := by
      rw [messages, htold, List.map_map]
      exact List.map_id'' (fun _ => rfl) _
    rw [hmessages, countP_told]
  rw [hanswer] at hcount
  refine { request := request_of_denied h hstep hd hrun, told := htold, reported := ?_,
           unreported := ?_ }
  · intro hopen
    have hother : failure ≠ .shuttingDown := fun he => hopen (he ▸ hanswer)
    rw [hcount, if_pos (hsome.2 hother)]
  · intro hexited
    rw [hanswer, Except.error.injEq] at hexited
    rw [hcount, if_neg fun hreported => hsome.1 hreported hexited]

end TurnedAway

/-- Exactly the submissions that are refused by the policy, find the queue full or find the worker
gone leave a denied request behind. It is cancelled and keeps to its stage, and over the whole run
the host hears of its failure once, unless the worker was gone: then it never does. -/
theorem denials_told_unless_exited (settings : Settings) (es : List Event) (s : Session)
    (h : (ofSettings settings).run es = some s) (policy : Policy) (p : Submission) (b : Session)
    (hb : s.step (.submit policy p) = some b) :
    (b.Holds s.requests.length (·.stage = .denied) ↔
      ∃ failure, (s.submit policy p).2 = .error failure ∧ failure.denies = true) ∧
    (b.Holds s.requests.length (·.stage = .denied) →
      ∀ es' a, b.run es' = some a → s.TurnedAway policy p a) := by
  obtain rfl : b = (s.submit policy p).1 := by
    cases steps_of_step hb
    rfl
  constructor
  · exact denied_iff s policy p
  · intro hd es' a hrun
    exact turnedAway_of_denied h hb hd hrun

/-- While one request has probes and one waits, a third is submitted. -/
theorem denials_told_unless_exited_sampleRun :
    ∃ s b a, (ofSettings .standard).run (sampleRun.take 3) = some s ∧
      s.step (.submit (fun _ _ => true) (sampleSubmission 3)) = some b ∧
      b.run (sampleRun.drop 3) = some a ∧ b.Holds 2 (·.stage = .denied) ∧
      s.TurnedAway (fun _ _ => true) (sampleSubmission 3) a := by
  have hdenials := denials_told_unless_exited .standard (sampleRun.take 3) _ rfl (fun _ _ => true)
    (sampleSubmission 3) _ rfl
  exact ⟨_, _, _, rfl, rfl, rfl, ⟨_, rfl, rfl⟩, hdenials.2 ⟨_, rfl, rfl⟩ (sampleRun.drop 3) _ rfl⟩

/-- The worker ends before anything is submitted. -/
def exitRun : List Event := [.cancel, .wake (.poll fun _ _ => .ok [])]

/-- A denial that the host is not told. -/
theorem denial_untold_after_exit :
    ∃ s b, (ofSettings .standard).run exitRun = some s ∧
      s.step (.submit (fun _ _ => true) (sampleSubmission 1)) = some b ∧
      (s.submit (fun _ _ => true) (sampleSubmission 1)).2 = .error .shuttingDown ∧
      b.Holds 0 (fun r => r.stage = .denied ∧ r.signal.reason = some .cancelled) ∧
      (b.messages 0).countP (·.isOutcome) = 0 :=
  ⟨_, _, rfl, rfl, rfl, ⟨_, rfl, rfl, rfl⟩, by decide⟩

end Session

end MethodCapture
