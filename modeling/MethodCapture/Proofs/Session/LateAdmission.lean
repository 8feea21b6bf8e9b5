import MethodCapture.Proofs.Session.Admission
import MethodCapture.Proofs.Session.Faults
import MethodCapture.Proofs.Session.Instrumentation
import MethodCapture.Proofs.Session.Lifecycle
import MethodCapture.Proofs.Session.Shutdown

/-!
Submissions to a cancelled session. The queue is closed only when the worker ends, so until then a
submission may still succeed. But a cancelled worker takes nothing up any more: the one place in the
queue can be filled only once, and the request that fills it waits for the worker's end and for
nothing else.
-/

namespace MethodCapture

namespace Request

variable {r : Request} {cs : List Change}

/-- The surface is handed out to a request that has been taken up. -/
def Bare (r : Request) : Prop := .resolving ∉ r.path → r.surface = none

theorem Permits.bare (h : r.Permits cs) (hr : r.Bare) : (r.applyAll cs).Bare := by
  intro hn
  rw [path_applyAll, List.mem_append, not_or] at hn
  have hsurface := hr hn.1
  cases h with
  | launched hs plans => exact absurd (by simp [Change.stage?]) hn.2
  | _ => exact hsurface

theorem bare_offer (hr : r.Bare) (accepts : Bool) : (r.offer accepts).Bare := by
  intro hn
  rw [path_offer] at hn
  have hsurface := hr hn
  simp [offer, hsurface]

end Request

namespace Session

variable {s s' a b : Session} {t : Ticket} {r : Request} {es es' : List Event} {e : Event}
  {w : Wake} {settings : Settings} {policy : Policy} {p : Submission}

theorem bare_of_run (h : (ofSettings settings).run es = some s) (hr : s.request? t = some r) :
    r.Bare := by
  refine request_invariant (P := Request.Bare) (fun p settings r hp => ?_)
    (fun r accepts hr => Request.bare_offer hr accepts) (fun r cs hr h => h.bare hr) h hr
  intro _
  rw [(eq_of_toRequest hp).1]
  rfl

/-! The place in the queue. -/

/-- The places left in the queue; a worker that has ended leaves none. -/
def room (s : Session) : Nat := if s.phase = .exited ∨ s.waiting.isSome then 0 else 1

theorem room_eq_zero_iff : s.room = 0 ↔ s.phase = .exited ∨ s.waiting.isSome = true := by
  unfold room
  split <;> simp_all

theorem room_eq_one_iff : s.room = 1 ↔ s.phase ≠ .exited ∧ s.waiting = none := by
  unfold room
  split
  · next h => cases hw : s.waiting <;> simp_all
  · next h => simpa using h

theorem room_le_one (s : Session) : s.room ≤ 1 := by
  unfold room
  split <;> decide

theorem room_of_exited (hp : s.phase = .exited) : s.room = 0 := room_eq_zero_iff.2 (.inl hp)

/-- A submission that is in order succeeds exactly if there is room. -/
theorem submit_ok_iff_room (hp : p.toRequest s.settings = .ok r)
    (hallowed : policy.refused p.methods = []) (hid : s.registry.contains p.id = false) :
    (s.submit policy p).2 = .ok () ↔ s.room = 1 := by
  rw [← methods_of_toRequest hp] at hallowed
  rw [submit_of_allowed hp hallowed, enqueue_ok_iff, room_eq_one_iff, registry_register,
    phase_register, waiting_register, id_of_toRequest hp, hid]
  simp

theorem room_le (hp : s.phase = .exited → s'.phase = .exited)
    (hw : s'.phase = .exited ∨ s'.waiting = s.waiting) : s'.room ≤ s.room := by
  rcases Nat.eq_zero_or_pos s.room with hnone | hroom
  · rcases hw with hw | hw
    · rw [room_of_exited hw]
      exact Nat.zero_le _
    · rw [hnone, Nat.le_zero, room_eq_zero_iff, hw]
      exact (room_eq_zero_iff.1 hnone).imp_left hp
  · exact Nat.le_trans (room_le_one s') hroom

/-- The submissions alone admit requests. -/
theorem admitted_step (he : ∀ policy p, e ≠ .submit policy p) (h : s.step e = some s') :
    s'.admitted = s.admitted := by
  obtain ⟨ts, hadmitted, hts⟩ := (evolves_step h).admitted
  cases ts with
  | nil => rw [hadmitted, List.append_nil]
  | cons t ts =>
    cases hts t List.mem_cons_self with
    | submitted => exact absurd rfl (he _ _)

/-- The worker of a cancelled session takes nothing from the queue before its end. -/
theorem waiting_wake (hc : s.cancelled = true) (h : s.wake w = some s') :
    s'.phase = .exited ∨ s'.waiting = s.waiting := by
  cases wakes_of_wake h with
  | exit => exact .inl (phase_exit s)
  | take _ hn _ => simp [hn] at hc
  | activate =>
    unfold activate
    split
    · exact .inl (phase_retire hc _)
    · simp [notify]
  | cleanUp => simp [cleanUp, notify]
  | @abandon t cause failure _ =>
    rw [abandon, if_pos hc]
    exact .inl (phase_retire (by simp [conclude, notify, hc]) t)
  | @finish t failure _ =>
    have hconclude : (s.conclude t).cancelled = true := by simp [conclude, notify, hc]
    unfold finish
    split
    · exact .inl (phase_retire hconclude t)
    · rw [if_pos hc]
      exact .inl (phase_retire hconclude t)
  | signalled | timedOut | cancelled => simp [wind, notify]

theorem waiting_step (hc : s.cancelled = true) (he : ∀ policy p, e ≠ .submit policy p)
    (h : s.step e = some s') : s'.phase = .exited ∨ s'.waiting = s.waiting := by
  cases steps_of_step h with
  | submit => exact absurd rfl (he _ _)
  | stop =>
    unfold stop
    split <;> exact .inr rfl
  | @fault m => exact .inr (congrArg waiting (rest_reportFault s m) :)
  | capture =>
    unfold capture
    split <;> simp [notify]
  | elapse | cancel | disconnect => exact .inr rfl
  | wake => exact waiting_wake hc h

/-- Every submission that succeeds takes the room there is. -/
theorem room_submit (policy : Policy) (p : Submission) :
    (s.submit policy p).1.admitted.length + (s.submit policy p).1.room ≤
      s.admitted.length + s.room := by
  cases h : (s.submit policy p).2 with
  | error e =>
    have hrest := rest_submit_of_error h
    have hadmitted : (s.submit policy p).1.admitted = s.admitted := (congrArg admitted hrest :)
    have hroom : (s.submit policy p).1.room = s.room := (congrArg room hrest :)
    rw [hadmitted, hroom]
  | ok u =>
    obtain ⟨r, hp, hallowed, hsubmit⟩ := exists_submit_of_ok h
    rw [submit_of_allowed hp hallowed, enqueue_ok_iff, phase_register, waiting_register] at h
    rw [room_eq_one_iff.2 h.2, hsubmit, room_eq_zero_iff.2 (.inr rfl), List.length_append]
    exact Nat.le_refl _

theorem room_step (hc : s.cancelled = true) (h : s.step e = some s') :
    s'.admitted.length + s'.room ≤ s.admitted.length + s.room := by
  by_cases he : ∃ policy p, e = .submit policy p
  · obtain ⟨policy, p, rfl⟩ := he
    cases steps_of_step h
    exact room_submit policy p
  · have he : ∀ policy p, e ≠ .submit policy p := fun policy p heq => he ⟨policy, p, heq⟩
    have hroom := room_le (fun hp => exited_of_step hp h) (waiting_step hc he h)
    rw [admitted_step he h]
    omega

theorem room_run (hc : s.cancelled = true) (h : s.run es = some s') :
    s'.admitted.length + s'.room ≤ s.admitted.length + s.room := by
  have hboth : s'.cancelled = true ∧
      s'.admitted.length + s'.room ≤ s.admitted.length + s.room :=
    invariant_run (I := fun a => a.cancelled = true ∧
        a.admitted.length + a.room ≤ s.admitted.length + s.room)
      (fun _ _ _ ⟨hca, hle⟩ hstep => ⟨cancelled_step hca hstep, (room_step hca hstep).trans hle⟩)
      ⟨hc, Nat.le_refl _⟩ h
  exact hboth.2

/-! A request that waits for the end of a cancelled worker. -/

/-- Nothing but its completion is told of a request that was not taken up. -/
theorem Tells.of_late {m : Message} (ho : s.Orderly) (hc : s.cancelled = true)
    (hlt : t < s.requests.length) (hcurrent : s.phase.current? ≠ some t)
    (hreaches : s.reachesHost t = false) (h : s.Tells e t m) : m = .captureStopped := by
  cases h with
  | asked | denied | crowded => exact absurd hlt (Nat.lt_irrefl _)
  | faulty hf => exact absurd (ho.current?_of_faulty? hf) hcurrent
  | offered hr => simp [hreaches] at hr
  | resolving ht | unresolved ht | launched ht => simp [ht.cancelled] at hc
  | activated hp | cleaning hp | stopping hp => simp [hp, Phase.current?] at hcurrent
  | abandoned _ hn | unfinished _ hn => simp [hn] at hc
  | completed => rfl

theorem path_of_waiting (h : (ofSettings settings).run es = some s) (hw : s.waiting = some t)
    (hr : s.request? t = some r) : r.path = [.pending, .validating] := by
  have hpaths : ∀ path ∈ Stage.paths, path.getLast? = some .validating →
      path = [.pending, .validating] := by decide
  have hstage := ((orderly_run h).stage_of_waiting hw).of_request? hr
  exact hpaths r.path (path_mem h hr) (hstage ▸ r.getLast?_path)

theorem path_of_completed (h : (ofSettings settings).run es = some s) (hr : s.request? t = some r)
    (hstage : r.stage = .completed) (hn : .resolving ∉ r.path) :
    r.path = [.pending, .validating, .completed] := by
  have hpaths : ∀ path ∈ Stage.paths, path.getLast? = some .completed → .resolving ∉ path →
      path = [.pending, .validating, .completed] := by decide
  exact hpaths r.path (path_mem h hr) (hstage ▸ r.getLast?_path) hn

section Waiting

variable (h : (ofSettings settings).run es = some s) (hc : s.cancelled = true)
  (hw : s.waiting = some t) (hr : s.request? t = some r) (hrun : s.run es' = some s')
include h hc hw hr hrun

theorem not_taken_up {r' : Request} (hr' : s'.request? t = some r') :
    .resolving ∉ r'.path ∧ r'.surface = none := by
  obtain ⟨r'', stages, hr'', hpath, hstages⟩ := shutdown_queued (orderly_run h) hc hrun hw hr
  rw [hr', Option.some.injEq] at hr''
  have hn : .resolving ∉ r'.path := by
    rw [hr'', hpath, path_of_waiting h hw hr]
    intro hmem
    rcases List.mem_append.1 hmem with hmem | hmem
    · simp at hmem
    · cases hstages _ hmem
  exact ⟨hn, bare_of_run (run_trans h hrun) hr' hn⟩

/-- The host is told of the completion and of nothing else. -/
theorem messages_waiting : ∃ ms, s'.messages t = s.messages t ++ ms ∧
    ∀ m ∈ ms, m = .captureStopped := by
  have ho := orderly_run h
  obtain ⟨ns, hlog, hns⟩ := exists_notices_append hrun t
  refine ⟨ns.map (·.message), by rw [messages, messages, hlog, List.map_append], fun m hm => ?_⟩
  obtain ⟨n, hn, rfl⟩ := List.mem_map.1 hm
  obtain ⟨a, e, b, hoccurs, -, htells⟩ := hns n hn
  obtain ⟨before, hbefore, hevolves⟩ := hoccurs.evolves_before
  obtain ⟨r', hr', -⟩ := hevolves.request t r hr
  refine htells.of_late (hoccurs.orderly ho).1 (hoccurs.cancelled hc)
    (List.getElem?_eq_some_iff.1 hr').1 (current?_ne_of_waiting ho hc hbefore hw) ?_
  simp [reachesHost, hr', Request.passes, (not_taken_up h hc hw hr hbefore hr').2]

/-- Only a client or the end of the worker stops it. -/
theorem reason_waiting (hopen : r.signal.reason = none) (hu : ¬ s'.Tracks t) :
    s'.Holds t fun r => r.signal.reason = some .shutdown ∨ r.signal.reason = some .explicit := by
  have ho := orderly_run h
  rcases shutdown_reason ho hc hrun (mem_inFlight_of_waiting hw) ⟨r, hr, hopen⟩ hu with
    hshutdown | ⟨a, e, b, reason, hoccurs, -, hstops, hreason⟩
  · exact hshutdown.imp fun _ => .inl
  obtain ⟨before, hbefore, hevolves⟩ := hoccurs.evolves_before
  cases hstops with
  | explicit => exact hreason.imp fun _ => .inr
  | limitReached hr' hg =>
    have hbare := (not_taken_up h hc hw hr hbefore hr').2
    rw [hg] at hbare
    cases hbare
  | durationElapsed hp =>
    exact absurd (by rw [hp]; rfl) (current?_ne_of_waiting ho hc hbefore hw)

end Waiting

/-- How a request stands that was admitted to a cancelled session: it waits, or it has ended without
being taken up. -/
structure Late (s : Session) (t : Ticket) : Prop where
  waiting : s.Tracks t → s.waiting = some t ∧ s.Holds t fun r => r.path = [.pending, .validating] ∧
    s.messages t = r.methods.map .askedPolicy
  ended : ¬ s.Tracks t → s.Holds t fun r => r.path = [.pending, .validating, .completed] ∧
    (r.signal.reason = some .shutdown ∨ r.signal.reason = some .explicit) ∧
    s.messages t = r.methods.map .askedPolicy ++ [.captureStopped]

theorem late_of_waiting (h : (ofSettings settings).run es = some s) (hc : s.cancelled = true)
    (hw : s.waiting = some t) (hr : s.request? t = some r) (hopen : r.signal.reason = none)
    (hasked : s.messages t = r.methods.map .askedPolicy) (hrun : s.run es' = some s') :
    s'.Late t := by
  have ho := orderly_run h
  have h' : (ofSettings settings).run (es ++ es') = some s' := run_trans h hrun
  have ho' := orderly_run h'
  have hmem := mem_inFlight_of_waiting hw
  obtain ⟨r', hr', hevolves⟩ := (evolves_run hrun).request t r hr
  obtain ⟨ms, hmessages, hms⟩ := messages_waiting h hc hw hr hrun
  rw [hasked, ← hevolves.methods] at hmessages
  have hcount : ms.countP (·.isOutcome) = ms.length :=
    List.countP_eq_length.2 fun m hm => by rw [hms m hm]; rfl
  have hbefore : (r'.methods.map Message.askedPolicy).countP (·.isOutcome) = 0 :=
    List.countP_eq_zero.2 (by simp [Message.isOutcome])
  constructor
  · intro ht
    have hwaits : s'.waiting = some t := by
      have hflight := ho'.tracks_iff.1 ht
      rw [inFlight, List.mem_append, Option.mem_toList, Option.mem_toList] at hflight
      exact hflight.resolve_left (current?_ne_of_waiting ho hc hrun hw)
    have hnone := ho'.countP_isOutcome_of_tracks ht
    rw [hmessages, List.countP_append, hbefore, hcount, Nat.zero_add, List.length_eq_zero_iff]
      at hnone
    rw [hnone, List.append_nil] at hmessages
    exact ⟨hwaits, r', hr', path_of_waiting h' hwaits hr', hmessages⟩
  · intro hu
    have hadmitted := (extends_run hrun).admitted.subset (ho.mem_admitted_of_inFlight hmem)
    have hone := ho'.countP_isOutcome hadmitted hu
    rw [hmessages, List.countP_append, hbefore, hcount, Nat.zero_add, List.length_eq_one_iff]
      at hone
    obtain ⟨m, rfl⟩ := hone
    rw [hms m (List.mem_singleton_self m)] at hmessages
    have hstage : r'.stage = .completed := by
      refine (((ho'.accounted hadmitted).stage hu).of_request? hr').2.1.1 ?_
      rw [hmessages]
      exact List.mem_append_right _ (List.mem_singleton_self _)
    exact ⟨r', hr', path_of_completed h' hr' hstage (not_taken_up h hc hw hr hrun hr').1,
      (reason_waiting h hc hw hr hrun hopen hu).of_request? hr', hmessages⟩

theorem messages_register (s : Session) (r : Request) : (s.register r).messages s.requests.length =
    s.messages s.requests.length ++ r.methods.map .askedPolicy := by
  have hnew :
      { s with requests := s.requests ++ [r.enter .validating] }.request? s.requests.length =
        some (r.enter .validating) := by simp [request?]
  exact messages_notifyAll hnew _

/-- Of a request just admitted the host has only been asked. -/
theorem messages_submit_of_ok (ho : s.Orderly) (h : (s.submit policy p).2 = .ok ()) :
    (s.submit policy p).1.messages s.requests.length = p.methods.map .askedPolicy := by
  obtain ⟨r, hp, -, hsubmit⟩ := exists_submit_of_ok h
  have hnew : s.messages s.requests.length = [] := by
    rw [messages, filter_ticket_log ho (Nat.le_refl _), List.map_nil]
  have hmessages : (s.submit policy p).1.messages s.requests.length =
      (s.register r).messages s.requests.length := by
    rw [hsubmit]
    rfl
  rw [hmessages, messages_register, hnew, List.nil_append, methods_of_toRequest hp]

/-- A request that is admitted to a cancelled session is late for good. -/
theorem late_of_admits (h : (ofSettings settings).run es = some s) (hc : s.cancelled = true)
    (hoccurs : s.Occurs es' s' a e b) (hadmits : a.Admits e t) : s'.Late t := by
  cases hadmits with
  | @submitted policy p hok =>
    obtain ⟨before, after, -, hbefore, hstep, hafter⟩ := id hoccurs
    have hb : b = (a.submit policy p).1 := by
      cases steps_of_step hstep
      rfl
    have hwhole : (ofSettings settings).run (es ++ (before ++ [.submit policy p])) = some b :=
      run_trans h (run_concat hbefore hstep)
    have hcb : b.cancelled = true := cancelled_step (hoccurs.cancelled hc) hstep
    have hw : b.waiting = some a.requests.length := by
      obtain ⟨r, -, -, hsubmit⟩ := exists_submit_of_ok hok
      rw [hb, hsubmit]
    subst hb
    exact late_of_waiting hwhole hcb hw (request?_submit_of_ok hok) rfl
      (messages_submit_of_ok (hoccurs.orderly (orderly_run h)).1 hok) hafter

/-- What becomes of submissions to the session `s`, cancelled, in a run that comes to `s'`. -/
structure StaysOpen (s s' : Session) : Prop where
  /-- Cancellation rejects nothing: a submission that is in order succeeds if there is room for
  it. -/
  admits : ∀ policy p r, p.toRequest s'.settings = .ok r → policy.refused p.methods = [] →
    s'.registry.contains p.id = false → ((s'.submit policy p).2 = .ok () ↔ s'.room = 1)
  /-- There is room for one request at most, and that one only waits for the worker's end. -/
  late : ∃ ts, s'.admitted = s.admitted ++ ts ∧ ts.length + s'.room ≤ s.room ∧
    (∀ t, s'.Tracks t → s.Tracks t ∨ t ∈ ts) ∧ ∀ t ∈ ts, s'.Late t
  exited : s'.phase = .exited →
    s'.registry.entries = [] ∧ ∀ policy p, (s'.submit policy p).2 ≠ .ok ()

/-- Cancellation leaves the queue as it is. Until the worker ends, a free place in it can be taken,
though only once; the request that takes it is not taken up and ends with the worker. Afterwards no
submission succeeds. -/
theorem late_requests_only_wait (settings : Settings) (es : List Event) (s : Session)
    (h : (ofSettings settings).run es = some s) (hc : s.cancelled = true) (es' : List Event)
    (s' : Session) (hrun : s.run es' = some s') : s.StaysOpen s' := by
  have ho := orderly_run h
  have ho' := ho.run hrun
  obtain ⟨ts, hadmitted, hts⟩ := (evolves_run hrun).admitted
  refine {
    admits := fun policy p r hp hallowed hid => submit_ok_iff_room hp hallowed hid
    late := ⟨ts, hadmitted, ?_, fun t ht => ?_, fun t ht => ?_⟩
    exited := fun hp => ⟨ho'.registry_of_exited hp, fun policy p hok => ?_⟩ }
  · have hroom := room_run hc hrun
    rw [hadmitted, List.length_append] at hroom
    omega
  · have hmem := ho'.mem_admitted_of_inFlight (ho'.tracks_iff.1 ht)
    rw [hadmitted, List.mem_append] at hmem
    refine hmem.imp_left fun hold => ?_
    by_contra hu
    exact (ho.outcome_final hold hu hrun).1 ht
  · obtain ⟨a, e, b, hoccurs, hadmits⟩ := hts t ht
    exact late_of_admits h hc hoccurs hadmits
  · have hroom := room_submit (s := s') policy p
    rw [admitted_submit_of_ok hok, List.length_append, List.length_singleton, room_of_exited hp]
      at hroom
    omega

/-- While the probes of the last request are removed, another request is submitted. -/
def drainingRun : List Event :=
  [.wake .cancelled,
    .submit (fun _ _ => true) (sampleSubmission 3),
    .wake (.stopped none)]

theorem late_requests_only_wait_drainingRun : ∃ s s',
    (ofSettings .standard).run (sampleRun.take 8) = some s ∧ s.cancelled = true ∧
    s.run drainingRun = some s' ∧ s.StaysOpen s' ∧ s.admitted = [0, 1] ∧ s'.admitted = [0, 1, 2] :=
  ⟨_, _, rfl, rfl, rfl,
    late_requests_only_wait .standard (sampleRun.take 8) _ rfl rfl drainingRun _ rfl, rfl, rfl⟩

/-- A submission succeeds although the session is cancelled. -/
theorem submission_succeeds_after_cancellation : ∃ s,
    (ofSettings .standard).run (sampleRun.take 9) = some s ∧ s.cancelled = true ∧
    s.phase = .stopping 1 ∧ ¬ s.Tracks 2 ∧
    (s.submit (fun _ _ => true) (sampleSubmission 3)).2 = .ok () ∧
    (s.submit (fun _ _ => true) (sampleSubmission 3)).1.Tracks 2 := by
  refine ⟨_, rfl, rfl, rfl, ?_, rfl, .ofNat 3, by decide⟩
  have hrun : (ofSettings .standard).run (sampleRun.take 9) = some _ := rfl
  rw [(orderly_run hrun).tracks_iff]
  decide

end Session

end MethodCapture
