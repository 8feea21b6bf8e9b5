import MethodCapture.Proofs.Session.Admission
import MethodCapture.Proofs.Session.Naming
import MethodCapture.Proofs.Session.Outcome

/-!
Submissions under the id of a tracked request. They fail and leave the session as it is, but the
policy is asked before the id is looked up: if it denies the submission, the host hears so under the
id. While a request is tracked, it hears nothing else under its id, and then the outcome of the
request.
-/

namespace MethodCapture

/-- The denial that the host hears of, if the policy denies the submission. -/
def Submission.denial? (p : Submission) (settings : Settings) (policy : Policy) : Option Message :=
  match p.toRequest settings with
  | .error _ => none
  | .ok r =>
    let refused := policy.refused r.methods
    if refused.isEmpty then none else some (.captureFailed .deniedMethods (.deniedMethods refused))

/-- The denial of what the event submits under the id. -/
def Event.denial? (settings : Settings) (id : RequestId) : Event → Option Message
  | .submit policy p => if p.id = id then p.denial? settings policy else none
  | _ => none

namespace Session

variable {s s' s'' : Session} {t u : Ticket} {r : Request} {id : RequestId} {policy : Policy}
  {p : Submission} {e : Event} {es : List Event} {own : List Notice}

/-- The outcomes that the host hears under an id, whichever requests they are about. -/
def outcomesUnder (s : Session) (id : RequestId) : List Notice :=
  s.log.filter fun n => n.id == id && n.message.isOutcome

theorem outcomesUnder_of_log {ns : List Notice} (h : s'.log = s.log ++ ns) (id : RequestId) :
    s'.outcomesUnder id =
      s.outcomesUnder id ++ ns.filter fun n => n.id == id && n.message.isOutcome := by
  rw [outcomesUnder, h, List.filter_append]
  rfl

/-! What a submission adds to the log. -/

theorem log_register (s : Session) (r : Request) : (s.register r).log =
    s.log ++ (r.methods.map .askedPolicy).map (⟨s.requests.length, r.id, ·⟩) := by
  have hr := request?_register (s := s) r
  rw [register, request?_notifyAll] at hr
  rw [register, log_notifyAll hr]
  rfl

theorem log_refuse (hid : s.idOf? t = some id) (reason : FailureReason) (e : Failure) :
    (s.refuse t reason e).log = s.log ++ [⟨t, id, .captureFailed reason e⟩] := by
  obtain ⟨r, hr, rfl⟩ := Option.map_eq_some_iff.1 hid
  have hdenied : (s.deny t).request? t = some ((r.resolve .cancelled).enter .denied) := by
    simp [deny, hr]
  rw [refuse, notify, log_notifyAll hdenied]
  rfl

/-- What the host is told of the answer to a submission. -/
def verdict? : Except Failure Unit → Option Message
  | .error (.deniedMethods ds) => some (.captureFailed .deniedMethods (.deniedMethods ds))
  | .error .tooManyRequests => some (.captureFailed .tooManyRequests .tooManyRequests)
  | _ => none

theorem log_enqueue (hid : s.idOf? t = some id) : (s.enqueue t id).1.log =
    s.log ++ (verdict? (s.enqueue t id).2).toList.map (⟨t, id, ·⟩) := by
  rw [enqueue_eq]
  by_cases htaken : s.registry.contains id = true
  · simp [htaken, verdict?]
  rw [if_neg htaken]
  split
  · simp [deny, verdict?]
  split
  · exact log_refuse hid _ _
  · simp [log, verdict?]

theorem log_submit_of_request (hp : p.toRequest s.settings = .ok r) (policy : Policy) :
    (s.submit policy p).1.log = s.log ++
      (p.methods.map Message.askedPolicy ++ (verdict? (s.submit policy p).2).toList).map
        (⟨s.requests.length, p.id, ·⟩) := by
  have hnew : (s.register r).idOf? s.requests.length = some r.id := by
    rw [idOf?, request?_register]
    rfl
  rw [← id_of_toRequest hp, ← methods_of_toRequest hp, List.map_append, ← List.append_assoc,
    ← log_register]
  by_cases hallowed : policy.refused r.methods = []
  · rw [submit_of_allowed hp hallowed]
    exact log_enqueue hnew
  · rw [submit_of_refused hp hallowed]
    exact log_refuse hnew _ _

theorem filter_isOutcome_askedPolicy (ds : List Description) :
    (ds.map Message.askedPolicy).filter (·.isOutcome) = [] := by
  rw [List.filter_eq_nil_iff]
  intro m hm
  obtain ⟨d, -, rfl⟩ := List.mem_map.1 hm
  simp [Message.isOutcome]

/-- Under a taken id, a denial is all that the host may be told of the answer. -/
theorem verdict?_of_taken (hp : p.toRequest s.settings = .ok r)
    (htaken : s.registry.contains p.id = true) (policy : Policy) :
    verdict? (s.submit policy p).2 = p.denial? s.settings policy := by
  by_cases hallowed : policy.refused r.methods = []
  · rw [← id_of_toRequest hp, ← registry_register (s := s) r] at htaken
    rw [submit_of_allowed hp hallowed, enqueue_eq, if_pos htaken]
    simp [verdict?, Submission.denial?, hp, hallowed]
  · rw [submit_of_refused hp hallowed]
    simp [verdict?, Submission.denial?, hp, hallowed]

/-- The host hears of a submission under its id. If the id is taken, it hears no outcome but a
denial. -/
theorem log_submit (s : Session) (policy : Policy) (p : Submission) : ∃ ms : List Message,
    (s.submit policy p).1.log = s.log ++ ms.map (⟨s.requests.length, p.id, ·⟩) ∧
    (s.registry.contains p.id = true →
      ms.filter (·.isOutcome) = (p.denial? s.settings policy).toList) := by
  cases hp : p.toRequest s.settings with
  | error e =>
    refine ⟨[], ?_, fun _ => ?_⟩
    · simp [submit, hp]
    · simp [Submission.denial?, hp]
  | ok r =>
    refine ⟨_, log_submit_of_request hp policy, fun htaken => ?_⟩
    rw [List.filter_append, filter_isOutcome_askedPolicy, List.nil_append,
      verdict?_of_taken hp htaken]
    have hdenial : ∀ m ∈ p.denial? s.settings policy, m.isOutcome = true := by
      intro m hm
      simp only [Submission.denial?, hp] at hm
      split at hm
      · cases hm
      · cases hm
        rfl
    rw [List.filter_eq_self]
    simpa using hdenial

/-! A submission under a taken id. -/

/-- What a submission under the id of a tracked request comes to. -/
structure Rebuffed (s : Session) (policy : Policy) (p : Submission) : Prop where
  failed : ∃ e, (s.submit policy p).2 = .error e
  rest : { (s.submit policy p).1 with requests := s.requests, history := s.history } = s
  requests : ∀ t r, s.request? t = some r → (s.submit policy p).1.request? t = some r
  told : (s.submit policy p).1.outcomesUnder p.id = s.outcomesUnder p.id ++
    (p.denial? s.settings policy).toList.map (⟨s.requests.length, p.id, ·⟩)

theorem exists_error_of_taken (h : s.phase = .exited → s.waiting = none)
    (hid : s.registry.contains p.id = true) (policy : Policy) :
    ∃ e, (s.submit policy p).2 = .error e := by
  cases hsubmit : (s.submit policy p).2 with
  | error e => exact ⟨e, rfl⟩
  | ok =>
    rw [submit_answer h, Condition.answer_eq_ok_iff] at hsubmit
    have hfree := hsubmit ⟨p.id ∉ s.registry.ids, .duplicateRequest p.id⟩ (by simp [conditions])
    exact absurd (Registry.contains_iff_mem_ids.1 hid) (of_decide_eq_true hfree)

theorem rebuffed_of_occupied (h : s.Orderly) (hid : s.Occupied p.id) : s.Rebuffed policy p := by
  have htaken := h.contains_iff.2 hid
  obtain ⟨e, he⟩ := exists_error_of_taken h.exited htaken policy
  refine ⟨⟨e, he⟩, rest_submit_of_error he, fun t r hr => request?_submit_of_some hr policy p, ?_⟩
  obtain ⟨ms, hlog, hms⟩ := log_submit s policy p
  rw [outcomesUnder_of_log hlog, List.filter_map, ← hms htaken]
  congr 2
  apply List.filter_congr
  intro m _
  simp

theorem outcomesUnder_submit_of_ne (hid : p.id ≠ id) :
    (s.submit policy p).1.outcomesUnder id = s.outcomesUnder id := by
  obtain ⟨ms, hlog, -⟩ := log_submit s policy p
  rw [outcomesUnder_of_log hlog, List.filter_map]
  simp [Function.comp_def, hid]

/-! What is heard while a request is tracked. -/

/-- From `s` to `s'`, by the events `es`, the host hears under the id the denials of what they
submit, none of them about the request `t`, and after them `own`. -/
def Hears (s : Session) (t : Ticket) (id : RequestId) (es : List Event) (s' : Session)
    (own : List Notice) : Prop :=
  ∃ ds, s'.outcomesUnder id = s.outcomesUnder id ++ ds ++ own ∧
    ds.map (·.message) = es.filterMap (·.denial? s.settings id) ∧ ∀ d ∈ ds, d.ticket ≠ t

theorem Hears.trans {a : Session} {es' : List Event} (h : Hears s t id es a [])
    (hs : a.settings = s.settings) (h' : Hears a t id es' s' own) :
    Hears s t id (es ++ es') s' own := by
  obtain ⟨ds, heard, hdenials, hds⟩ := h
  obtain ⟨ds', heard', hdenials', hds'⟩ := h'
  refine ⟨ds ++ ds', ?_, ?_, ?_⟩
  · rw [heard', heard, List.append_nil, List.append_assoc (s.outcomesUnder id)]
  · rw [List.map_append, hdenials, hdenials', hs, List.filterMap_append]
  · rintro d hd
    exact (List.mem_append.1 hd).elim (hds d) (hds' d)

theorem outcomesUnder_of_tells (h : s.step e = some s')
    (hquiet : ∀ t m, s.Tells e t m → m.isOutcome = false) (id : RequestId) :
    s'.outcomesUnder id = s.outcomesUnder id := by
  obtain ⟨ns, hlog, hns⟩ := (evolves_step h).log
  have hnone : (ns.filter fun n => n.id == id && n.message.isOutcome) = [] := by
    rw [List.filter_eq_nil_iff]
    intro n hn
    simp [hquiet _ _ (hns n hn).2]
  rw [outcomesUnder_of_log hlog, hnone, List.append_nil]

/-- Clients and probes cause no outcome but denials. -/
theorem hears_of_not_wake (ho : s.Orderly) (ht : t < s.requests.length) (hid : s.Occupied id)
    (he : e.isWake = false) (h : s.step e = some s') : Hears s t id [e] s' [] := by
  have quiet (hnone : e.denial? s.settings id = none)
      (hheard : s'.outcomesUnder id = s.outcomesUnder id) : Hears s t id [e] s' [] :=
    ⟨[], by simp [hheard], by simp [hnone], nofun⟩
  cases steps_of_step h with
  | @submit policy p _ =>
    by_cases hp : p.id = id
    · subst hp
      refine ⟨_, by rw [(rebuffed_of_occupied ho hid).told, List.append_nil], ?_, fun d hd => ?_⟩
      · cases hd : p.denial? s.settings policy <;> simp [Event.denial?, hd]
      · obtain ⟨m, -, rfl⟩ := List.mem_map.1 hd
        exact Nat.ne_of_gt ht
    · exact quiet (by simp [Event.denial?, hp]) (outcomesUnder_submit_of_ne hp)
  | stop | fault | capture | elapse | cancel | disconnect =>
    refine quiet rfl (outcomesUnder_of_tells h (fun _ _ hm => ?_) id)
    cases hm <;> rfl
  | wake => cases he

/-- An outcome that the worker tells of is that of a request in flight. -/
theorem Tells.mem_inFlight {w : Wake} {m : Message} (h : s.Tells (.wake w) t m)
    (hm : m.isOutcome = true) : t ∈ s.inFlight := by
  cases h with
  | unresolved ht => exact mem_inFlight_of_waiting ht.waiting
  | abandoned hp | unfinished hp => exact mem_inFlight_of_current (by rw [hp]; rfl)
  | completed ht => exact ht
  | _ => cases hm

theorem hears_wake {w : Wake} (ho : s.Orderly) (hn : s.Named) (ht : t ∈ s.inFlight)
    (hid : s.idOf? t = some id) (h : s.step (.wake w) = some s') :
    ∃ own, Hears s t id [.wake w] s' own ∧ ∀ n ∈ own, n.ticket = t := by
  obtain ⟨ns, hlog, hns⟩ := (evolves_step h).log
  refine ⟨ns.filter fun n => n.id == id && n.message.isOutcome,
    ⟨[], by rw [outcomesUnder_of_log hlog, List.append_nil], rfl, nofun⟩, fun n hmem => ?_⟩
  obtain ⟨hmem, hnid, hm⟩ : n ∈ ns ∧ n.id = id ∧ n.message.isOutcome = true := by
    simpa using hmem
  have hflight := (hns n hmem).2.mem_inFlight hm
  refine ho.eq_of_idOf? hflight ht ?_ hid
  -- the request of the notice has its id before the step already
  obtain ⟨r, hr, hrid⟩ := hn.step h n (by rw [hlog]; exact List.mem_append_right _ hmem)
  obtain ⟨done, hc⟩ := ho.consistent
  have hlt := hc.lt_of_mem_admitted (ho.mem_admitted_of_inFlight hflight)
  obtain ⟨r', hr', hevolves⟩ := (evolves_step h).request _ _ (List.getElem?_eq_getElem hlt)
  rw [hr, Option.some.injEq] at hr'
  rw [idOf?, request?, List.getElem?_eq_getElem hlt, Option.map_some, ← hevolves.id, ← hr', hrid,
    hnid]

/-- The outcomes of a request are heard under its id. -/
theorem countP_outcomesUnder (hn : s.Named) (hid : s.idOf? t = some id) :
    (s.outcomesUnder id).countP (·.ticket == t) = (s.messages t).countP (·.isOutcome) := by
  rw [outcomesUnder, messages, List.countP_map, List.countP_filter, List.countP_filter]
  apply List.countP_congr
  intro n hmem
  have hnid : n.ticket = t → n.id = id := by
    rintro rfl
    rw [(hn n hmem).idOf?, Option.some.injEq] at hid
    exact hid
  by_cases ht : n.ticket = t
  · simp [ht, hnid ht]
  · simp [ht]

/-- After a step the host has heard of a tracked request if it is not tracked any longer. -/
theorem hears_step (ho : s.Orderly) (hn : s.Named) (ht : s.Tracks t) (hr : s.request? t = some r)
    (h : s.step e = some s') : (s'.Tracks t → Hears s t r.id [e] s' []) ∧
      (¬ s'.Tracks t → ∃ n, n.ticket = t ∧ Hears s t r.id [e] s' [n]) := by
  have hflight := ho.tracks_iff.1 ht
  have hid : s.idOf? t = some r.id := by simp [idOf?, hr]
  obtain ⟨own, hears, hown⟩ : ∃ own, Hears s t r.id [e] s' own ∧ ∀ n ∈ own, n.ticket = t := by
    cases he : e.isWake with
    | false =>
      have hlt := (List.getElem?_eq_some_iff.1 hr).1
      exact ⟨[], hears_of_not_wake ho hlt ⟨t, hflight, hid⟩ he h, by simp⟩
    | true =>
      cases e with
      | wake w => exact hears_wake ho hn hflight hid h
      | _ => cases he
  -- what is heard of the request itself is what it has been told
  have hcount : own.length = (s'.messages t).countP (·.isOutcome) := by
    obtain ⟨r', hr', hevolves⟩ := (evolves_step h).request t r hr
    have hid' : s'.idOf? t = some r.id := by simp [idOf?, hr', hevolves.id]
    obtain ⟨ds, heard, -, hds⟩ := hears
    have hothers : ds.countP (·.ticket == t) = 0 := by
      rw [List.countP_eq_zero]
      intro d hd
      simpa using hds d hd
    have hall : own.countP (·.ticket == t) = own.length := by
      rw [List.countP_eq_length]
      intro n hmem
      simpa using hown n hmem
    have hafter := countP_outcomesUnder (hn.step h) hid'
    rw [heard, List.countP_append, List.countP_append, countP_outcomesUnder hn hid, hothers, hall,
      ho.countP_isOutcome_of_tracks ht] at hafter
    omega
  constructor
  · intro ht'
    rw [(ho.step h).countP_isOutcome_of_tracks ht', List.length_eq_zero_iff] at hcount
    rwa [hcount] at hears
  · intro ht'
    have hadmitted := (evolves_step h).extends.admitted.subset (ho.mem_admitted_of_inFlight hflight)
    rw [(ho.step h).countP_isOutcome hadmitted ht', List.length_eq_one_iff] at hcount
    obtain ⟨n, rfl⟩ := hcount
    exact ⟨n, hown n (List.mem_singleton_self n), hears⟩

theorem hears_run (ho : s.Orderly) (hn : s.Named) (ht : s.Tracks t) (hr : s.request? t = some r)
    (h : s.run es = some s') (ht' : s'.Tracks t) : Hears s t r.id es s' [] := by
  induction es generalizing s r with
  | nil =>
    rw [← Option.some.inj h]
    exact ⟨[], by simp, rfl, nofun⟩
  | cons e es ih =>
    obtain ⟨s₁, hstep, hrun⟩ := Option.bind_eq_some_iff.1 h
    have hevolves := evolves_step hstep
    obtain ⟨r₁, hr₁, hrevolves⟩ := hevolves.request t r hr
    have ht₁ : s₁.Tracks t := by
      by_contra hgone
      have hadmitted := ho.mem_admitted_of_inFlight (ho.tracks_iff.1 ht)
      have hkept := hevolves.extends.admitted.subset hadmitted
      exact ((ho.step hstep).outcome_final hkept hgone hrun).1 ht'
    have hrest := ih (ho.step hstep) (hn.step hstep) ht₁ hr₁ hrun
    rw [hrevolves.id] at hrest
    exact ((hears_step ho hn ht hr hstep).1 ht₁).trans hevolves.settings hrest

/-- A submission under the id of a tracked request fails and touches nothing. From then on until the
request is untracked, the host hears under the id the denials of such submissions and, at last, the
one outcome of the request. -/
theorem tracked_ids_hear_denials (settings : Settings) (es : List Event) (s : Session)
    (h : (ofSettings settings).run es = some s) :
    (∀ policy p, s.Occupied p.id → s.Rebuffed policy p) ∧
    ∀ t r, s.Tracks t → s.request? t = some r → ∀ es' a, s.run es' = some a → a.Tracks t →
      Hears s t r.id es' a [] ∧
      ∀ e s', a.step e = some s' → ¬ s'.Tracks t →
        ∃ n, n.ticket = t ∧ Hears s t r.id (es' ++ [e]) s' [n] := by
  have ho := orderly_run h
  have hn := named_run h
  refine ⟨fun policy p hid => rebuffed_of_occupied ho hid, fun t r ht hr es' a hrun ht' => ?_⟩
  have hears := hears_run ho hn ht hr hrun ht'
  refine ⟨hears, fun e s' hstep hgone => ?_⟩
  obtain ⟨r', hr', hevolves⟩ := (evolves_run hrun).request t r hr
  obtain ⟨n, hnt, hlast⟩ := (hears_step (ho.run hrun) (hn.run hrun) ht' hr' hstep).2 hgone
  rw [hevolves.id] at hlast
  exact ⟨n, hnt, hears.trans (evolves_run hrun).settings hlast⟩

/-- Another submission takes the id of a waiting request and is denied; then the request is
stopped. -/
def reusingRun : List Event :=
  [.submit (fun _ _ => false) (sampleSubmission 1),
    .stop (.ofNat 1)]

theorem tracked_ids_hear_denials_reusingRun :
    ∃ s a s', (ofSettings .standard).run (sampleRun.take 1) = some s ∧ s.run reusingRun = some a ∧
      a.step (.wake (.poll fun _ _ => .ok [])) = some s' ∧
      s.Rebuffed (fun _ _ => false) (sampleSubmission 1) ∧ Hears s 0 (.ofNat 1) reusingRun a [] ∧
      ∃ n, n.ticket = 0 ∧
        Hears s 0 (.ofNat 1) (reusingRun ++ [.wake (.poll fun _ _ => .ok [])]) s' [n] := by
  obtain ⟨hsubmit, hhears⟩ := tracked_ids_hear_denials .standard (sampleRun.take 1) _ rfl
  obtain ⟨hbefore, hlast⟩ :=
    hhears 0 _ ⟨.ofNat 1, by decide⟩ rfl reusingRun _ rfl ⟨.ofNat 1, by decide⟩
  refine ⟨_, _, _, rfl, rfl, rfl, hsubmit _ _ ⟨0, by decide, by decide⟩, hbefore, hlast _ _ rfl ?_⟩
  rintro ⟨id, hid⟩
  cases hid

/-- A denial is heard under the id of a request that it is not about. -/
theorem denial_heard_under_tracked_id :
    ∃ s, (ofSettings .standard).run (sampleRun.take 1) = some s ∧ s.Tracks 0 ∧
      s.Holds 0 (·.id = .ofNat 1) ∧ s.outcomesUnder (.ofNat 1) = [] ∧
      (s.submit (fun _ _ => false) (sampleSubmission 1)).1.outcomesUnder (.ofNat 1) =
        [⟨1, .ofNat 1,
          .captureFailed .deniedMethods (.deniedMethods (sampleSubmission 1).methods)⟩] :=
  ⟨_, rfl, ⟨.ofNat 1, by decide⟩, ⟨_, rfl, rfl⟩, by decide, by decide⟩

end Session

end MethodCapture
