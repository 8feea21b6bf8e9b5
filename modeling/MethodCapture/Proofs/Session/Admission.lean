import MethodCapture.Proofs.Session.Changes

/-!
Which submissions are admitted. The conditions are looked at one after the other, and the first that
a submission does not meet is what it fails with. An admitted request is tracked and waits; a
rejected one leaves no trace in what the session works with.
-/

namespace MethodCapture

/-- A condition on a submission, and what a submission that does not meet it fails with. -/
structure Condition where
  holds : Bool
  failure : Failure

namespace Condition

variable {c : Condition} {cs before : List Condition} {e : Failure}

/-- The first condition that is not met decides. -/
def answer : List Condition → Except Failure Unit
  | [] => .ok ()
  | c :: cs => if c.holds then answer cs else .error c.failure

theorem answer_of_holds (h : c.holds = true) (cs : List Condition) : answer (c :: cs) = answer cs :=
  if_pos h

theorem answer_of_not_holds (h : c.holds = false) (cs : List Condition) :
    answer (c :: cs) = .error c.failure := by
  rw [answer, if_neg (by simp [h])]

theorem answer_append (h : ∀ b ∈ before, b.holds = true) (cs : List Condition) :
    answer (before ++ cs) = answer cs := by
  induction before with
  | nil => rfl
  | cons b before ih =>
    rw [List.forall_mem_cons] at h
    rw [List.cons_append, answer_of_holds h.1, ih h.2]

/-- Either all conditions are met, or there is a first that is not. -/
theorem all_or_first (cs : List Condition) : (∀ c ∈ cs, c.holds = true) ∨
    ∃ before c after, cs = before ++ c :: after ∧ (∀ b ∈ before, b.holds = true) ∧
      c.holds = false := by
  induction cs with
  | nil => exact .inl nofun
  | cons c cs ih =>
    cases hc : c.holds with
    | false => exact .inr ⟨[], c, cs, rfl, nofun, hc⟩
    | true =>
      rcases ih with hall | ⟨before, d, after, rfl, hbefore, hd⟩
      · exact .inl (List.forall_mem_cons.2 ⟨hc, hall⟩)
      · exact .inr ⟨c :: before, d, after, rfl, List.forall_mem_cons.2 ⟨hc, hbefore⟩, hd⟩

theorem answer_eq_ok_iff : answer cs = .ok () ↔ ∀ c ∈ cs, c.holds = true := by
  constructor
  · intro h
    rcases all_or_first cs with hall | ⟨before, c, after, rfl, hbefore, hc⟩
    · exact hall
    · rw [answer_append hbefore, answer_of_not_holds hc] at h
      cases h
  · intro h
    have hanswer := answer_append h []
    rwa [List.append_nil] at hanswer

theorem answer_eq_error_iff : answer cs = .error e ↔ ∃ before c after, cs = before ++ c :: after ∧
    (∀ b ∈ before, b.holds = true) ∧ c.holds = false ∧ c.failure = e := by
  constructor
  · intro h
    rcases all_or_first cs with hall | ⟨before, c, after, rfl, hbefore, hc⟩
    · rw [answer_eq_ok_iff.2 hall] at h
      cases h
    · rw [answer_append hbefore, answer_of_not_holds hc, Except.error.injEq] at h
      exact ⟨before, c, after, rfl, hbefore, hc, h⟩
  · rintro ⟨before, c, after, rfl, hbefore, hc, rfl⟩
    rw [answer_append hbefore, answer_of_not_holds hc]

end Condition

namespace Session

variable {s : Session} {t : Ticket} {id : RequestId} {policy : Policy} {p : Submission}
  {e : Failure} {ds : List Description}

/-- The conditions on a submission, in the order in which they are looked at. -/
def conditions (s : Session) (policy : Policy) (p : Submission) : List Condition :=
  [⟨p.methods ≠ [], .emptyRequest⟩,
    ⟨p.limit.or s.settings.defaultLimit ≠ some 0, .invalidLimit⟩,
    ⟨0 < p.duration.nanoseconds ∧ p.duration.nanoseconds ≤ s.settings.maxDuration.nanoseconds,
      .invalidDuration p.duration⟩,
    ⟨p.methods.zipIdx.all fun x => policy x.2 x.1, .deniedMethods (policy.refused p.methods)⟩,
    ⟨p.id ∉ s.registry.ids, .duplicateRequest p.id⟩,
    ⟨s.waiting = none, .tooManyRequests⟩,
    ⟨s.phase ≠ .exited, .shuttingDown⟩]

theorem all_allowed_iff :
    (ds.zipIdx.all fun x => policy x.2 x.1) = true ↔ policy.refused ds = [] := by
  rw [Policy.refused, List.map_eq_nil_iff, List.filter_eq_nil_iff, List.all_eq_true]
  simp

/-- A policy that says the same of a description wherever it stands refuses those that it does not
allow, in their order. -/
theorem refused_eq_filter {allowed : Description → Bool} (h : ∀ n d, policy n d = allowed d)
    (ds : List Description) : policy.refused ds = ds.filter (!allowed ·) := by
  have hpolicy : (fun x : Description × Nat => !policy x.2 x.1) = (!allowed ·) ∘ Prod.fst := by
    funext x
    simp [h]
  rw [Policy.refused, hpolicy, ← List.filter_map, List.zipIdx_map_fst]

/-! The answer. -/

theorem toRequest_of_fits {settings : Settings} (hmethods : p.methods ≠ [])
    (hlimit : p.limit.or settings.defaultLimit ≠ some 0) (hduration : 0 < p.duration.nanoseconds ∧
      p.duration.nanoseconds ≤ settings.maxDuration.nanoseconds) : p.toRequest settings =
      .ok (.ofSubmission { p with limit := p.limit.or settings.defaultLimit }) := by
  have hfits : ¬ (p.duration.nanoseconds = 0 ∨
      settings.maxDuration.nanoseconds < p.duration.nanoseconds) := by omega
  simp [Submission.toRequest, hmethods, hlimit, hfits]

/-- An exited worker leaves the queue empty, so the order of the last two conditions does not
matter. -/
theorem enqueue_answer (h : s.phase = .exited → s.waiting = none) (t : Ticket) (id : RequestId) :
    (s.enqueue t id).2 = Condition.answer [⟨id ∉ s.registry.ids, .duplicateRequest id⟩,
      ⟨s.waiting = none, .tooManyRequests⟩, ⟨s.phase ≠ .exited, .shuttingDown⟩] := by
  by_cases hid : s.registry.contains id = true
  · simp [enqueue_eq, hid, Registry.contains_iff_mem_ids.1 hid, Condition.answer]
  have hids := mt Registry.contains_iff_mem_ids.2 hid
  by_cases hexited : s.phase = .exited
  · simp [enqueue_eq, hid, hids, hasExited, hexited, h hexited, Condition.answer]
  by_cases hwaiting : s.waiting = none
  · simp [enqueue_eq, hid, hids, hasExited, hexited, hwaiting, Condition.answer]
  · simp [enqueue_eq, hid, hids, hasExited, hexited, hwaiting,
      Option.isSome_iff_ne_none, Condition.answer]

theorem submit_answer (h : s.phase = .exited → s.waiting = none) (policy : Policy)
    (p : Submission) :
    (s.submit policy p).2 = Condition.answer (s.conditions policy p) := by
  unfold conditions
  by_cases hmethods : p.methods = []
  · simp [submit, Submission.toRequest, hmethods, Condition.answer]
  by_cases hlimit : p.limit.or s.settings.defaultLimit = some 0
  · simp [submit, Submission.toRequest, hmethods, hlimit, Condition.answer]
  by_cases hduration : 0 < p.duration.nanoseconds ∧
    p.duration.nanoseconds ≤ s.settings.maxDuration.nanoseconds
  · have hp := toRequest_of_fits hmethods hlimit hduration
    rw [Condition.answer_of_holds (decide_eq_true hmethods),
      Condition.answer_of_holds (decide_eq_true hlimit),
      Condition.answer_of_holds (decide_eq_true hduration)]
    by_cases hrefused : policy.refused p.methods = []
    · rw [Condition.answer_of_holds (all_allowed_iff.2 hrefused), submit_of_allowed hp hrefused]
      have henqueue := enqueue_answer (s := s.register
        (.ofSubmission { p with limit := p.limit.or s.settings.defaultLimit })) (by simpa using h)
        s.requests.length p.id
      rwa [registry_register, waiting_register, phase_register] at henqueue
    · have hdenied := (Bool.not_eq_true _).mp (mt all_allowed_iff.1 hrefused)
      rw [Condition.answer_of_not_holds hdenied, submit_of_refused hp hrefused]
      rfl
  · have hlong : p.duration.nanoseconds = 0 ∨
        s.settings.maxDuration.nanoseconds < p.duration.nanoseconds := by omega
    simp [submit, Submission.toRequest, hmethods, hlimit, hduration, hlong, Condition.answer]

/-! What a submission leaves alone. -/

theorem rest_register (s : Session) (r : Request) :
    { s.register r with requests := s.requests, history := s.history } = s := by
  unfold register notifyAll
  dsimp only
  split <;> rfl

theorem rest_refuse (s : Session) (t : Ticket) (reason : FailureReason) (e : Failure)
    (requests : List Request) (history : List Notice) :
    { s.refuse t reason e with requests := requests, history := history } =
      { s with requests := requests, history := history } := by
  unfold refuse notify notifyAll
  split <;> rfl

theorem rest_enqueue_of_error (h : (s.enqueue t id).2 = .error e) (requests : List Request)
    (history : List Notice) : { (s.enqueue t id).1 with requests := requests, history := history } =
      { s with requests := requests, history := history } := by
  rw [enqueue_eq] at h ⊢
  split at h
  · next htaken =>
    rw [if_pos htaken]
  next hfree =>
  rw [if_neg hfree]
  split at h
  · next hexited =>
    rw [if_pos hexited]
    rfl
  split at h
  · next hexited hwaiting =>
    rw [if_neg hexited, if_pos hwaiting]
    exact rest_refuse ..
  · cases h

/-- Registry, queue and worker are as they were before a submission that was rejected. -/
theorem rest_submit_of_error (h : (s.submit policy p).2 = .error e) :
    { (s.submit policy p).1 with requests := s.requests, history := s.history } = s := by
  cases hp : p.toRequest s.settings with
  | error e => rw [submit, hp]
  | ok r =>
    by_cases hallowed : policy.refused r.methods = []
    · rw [submit_of_allowed hp hallowed] at h ⊢
      rw [rest_enqueue_of_error h, rest_register]
    · rw [submit_of_refused hp hallowed, rest_refuse, rest_register]

theorem rest_submit_of_ok (h : (s.submit policy p).2 = .ok ()) :
    { (s.submit policy p).1 with requests := s.requests, history := s.history } =
      { s with
        registry := ⟨s.registry.entries ++ [(p.id, s.requests.length)]⟩
        waiting := some s.requests.length
        admitted := s.admitted ++ [s.requests.length] } := by
  obtain ⟨r, hp, -, hsubmit⟩ := exists_submit_of_ok h
  rw [hsubmit, id_of_toRequest hp]
  exact congrArg (fun u : Session => { u with
    registry := ⟨s.registry.entries ++ [(p.id, s.requests.length)]⟩
    waiting := some s.requests.length
    admitted := s.admitted ++ [s.requests.length] }) (rest_register s r)

theorem request?_submit_of_ok (h : (s.submit policy p).2 = .ok ()) :
    (s.submit policy p).1.request? s.requests.length = some
      ((Request.ofSubmission { p with limit := p.limit.or s.settings.defaultLimit }).enter
        .validating) := by
  obtain ⟨r, hp, -, hsubmit⟩ := exists_submit_of_ok h
  rw [hsubmit, ← (eq_of_toRequest hp).1]
  exact request?_register r

theorem request?_submit_of_some {r : Request} (hr : s.request? t = some r) (policy : Policy)
    (p : Submission) : (s.submit policy p).1.request? t = some r :=
  (changed_submit (Nat.ne_of_lt (List.getElem?_eq_some_iff.1 hr).1) policy p).request? hr

/-- What a submission comes to. -/
structure Decided (s : Session) (policy : Policy) (p : Submission) : Prop where
  ok_iff : (s.submit policy p).2 = .ok () ↔ ∀ c ∈ s.conditions policy p, c.holds = true
  error_iff : ∀ e, (s.submit policy p).2 = .error e ↔
    ∃ before c after, s.conditions policy p = before ++ c :: after ∧
      (∀ b ∈ before, b.holds = true) ∧ c.holds = false ∧ c.failure = e
  refused : ∀ allowed : Description → Bool, (∀ n d, policy n d = allowed d) →
    policy.refused p.methods = p.methods.filter (!allowed ·)
  /-- The new request is the one new entry of the registry, and it takes the free place in the
  queue. -/
  entered : (s.submit policy p).2 = .ok () → s.waiting = none ∧
    (s.submit policy p).1.request? s.requests.length = some
      ((Request.ofSubmission { p with limit := p.limit.or s.settings.defaultLimit }).enter
        .validating) ∧
    { (s.submit policy p).1 with requests := s.requests, history := s.history } =
      { s with
        registry := ⟨s.registry.entries ++ [(p.id, s.requests.length)]⟩
        waiting := some s.requests.length
        admitted := s.admitted ++ [s.requests.length] }
  rejected : ∀ e, (s.submit policy p).2 = .error e →
    { (s.submit policy p).1 with requests := s.requests, history := s.history } = s
  /-- All other requests stay as they are. -/
  others : ∀ t r, s.request? t = some r → (s.submit policy p).1.request? t = some r

/-- A submission succeeds exactly if it meets all conditions, and fails with the first that it does
not meet. Success adds the one request; failure changes neither the registry nor the queue nor any
request that was there. -/
theorem submissions_decided (settings : Settings) (es : List Event) (s : Session)
    (h : (ofSettings settings).run es = some s) (policy : Policy) (p : Submission) :
    s.Decided policy p := by
  have hanswer := submit_answer (orderly_run h).exited policy p
  have hok : (s.submit policy p).2 = .ok () ↔ ∀ c ∈ s.conditions policy p, c.holds = true := by
    rw [hanswer, Condition.answer_eq_ok_iff]
  refine {
    ok_iff := hok
    error_iff := fun e => by rw [hanswer, Condition.answer_eq_error_iff]
    refused := fun allowed hallowed => refused_eq_filter hallowed _
    entered := fun hadmitted => ⟨?_, request?_submit_of_ok hadmitted, rest_submit_of_ok hadmitted⟩
    rejected := fun e => rest_submit_of_error
    others := fun t r hr => request?_submit_of_some hr policy p }
  · have hfree := hok.1 hadmitted ⟨s.waiting = none, .tooManyRequests⟩ (by simp [conditions])
    simpa using hfree

theorem submissions_decided_sampleRun :
    ∃ s s', (ofSettings .standard).run (sampleRun.take 2) = some s ∧
      (ofSettings .standard).run (sampleRun.take 3) = some s' ∧
      s.Decided (fun _ _ => true) (sampleSubmission 2) ∧
      (s.submit (fun _ _ => true) (sampleSubmission 2)).2 = .ok () ∧
      s'.Decided (fun _ _ => true) (sampleSubmission 3) ∧
      (s'.submit (fun _ _ => true) (sampleSubmission 3)).2 = .error .tooManyRequests :=
  ⟨_, _, rfl, rfl, submissions_decided .standard (sampleRun.take 2) _ rfl _ _, rfl,
    submissions_decided .standard (sampleRun.take 3) _ rfl _ _, rfl⟩

end Session

end MethodCapture
