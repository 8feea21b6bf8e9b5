import MethodCapture.Proofs.Session.Steps
import MethodCapture.Session.Work

/-!
What the operations of a session leave alone. Facts about one request survive whatever is done to
another, notices change no request, and the worker's phase matters to none of them.
-/

namespace MethodCapture.Session

variable {s : Session} {t u : Ticket} {P Q : Request → Prop} {f : Request → Request}

/-- There is a request with the ticket `t`, and it satisfies `P`. -/
def Holds (s : Session) (t : Ticket) (P : Request → Prop) : Prop :=
  ∃ r, s.request? t = some r ∧ P r

theorem Holds.imp (h : s.Holds t P) (hPQ : ∀ r, P r → Q r) : s.Holds t Q := by
  obtain ⟨r, hr, hP⟩ := h
  exact ⟨r, hr, hPQ r hP⟩

theorem Holds.of_request? {r : Request} (h : s.Holds t P) (hr : s.request? t = some r) : P r := by
  obtain ⟨r', hr', hP⟩ := h
  cases hr.symm.trans hr'
  exact hP

theorem Holds.lt_length (h : s.Holds t P) : t < s.requests.length := by
  obtain ⟨r, hr, -⟩ := h
  exact (List.getElem?_eq_some_iff.1 hr).1

/-- A fact about `u` after `t` was updated. -/
theorem Holds.update (h : s.Holds u P) (hs : t = u → ∀ r, s.request? u = some r → P r → Q (f r))
    (hn : t ≠ u → ∀ r, P r → Q r) : (s.update t f).Holds u Q := by
  obtain ⟨r, hr, hP⟩ := h
  by_cases htu : t = u
  · exact ⟨f r, by simp [htu, hr], hs htu r hr hP⟩
  · exact ⟨r, by simp [htu, hr], hn htu r hP⟩

theorem Holds.update_of_ne (h : s.Holds u P) (htu : t ≠ u) : (s.update t f).Holds u P :=
  h.update (fun e => absurd e htu) fun _ _ hP => hP

theorem Holds.resolve (h : s.Holds t P) (reason : StopReason) :
    (s.update t (·.resolve reason)).Holds t (·.signal.isResolved = true) :=
  h.update (fun _ _ _ _ => rfl) fun htt => absurd rfl htt

@[simp] theorem holds_notifyAll {messages : List Message} :
    (s.notifyAll t messages).Holds u P ↔ s.Holds u P := by
  simp [Holds]

@[simp] theorem request?_enter (phase : Phase) : (s.enter phase).request? u = s.request? u := rfl

@[simp] theorem request?_untrack : (s.untrack t).request? u = s.request? u := by
  unfold untrack
  split <;> rfl

@[simp] theorem holds_untrack : (s.untrack t).Holds u P ↔ s.Holds u P := by
  simp [Holds]

@[simp] theorem length_requests_update : (s.update t f).requests.length = s.requests.length := by
  simp [update]

@[simp] theorem update_id : s.update t id = s := by
  simp [update]

theorem update_eq_set {r : Request} (h : s.request? t = some r) :
    s.update t f = { s with requests := s.requests.set t (f r) } := by
  have hset : s.requests.modify t f = s.requests.set t (f r) := by
    apply List.ext_getElem?
    intro i
    rw [List.getElem?_modify, List.getElem?_set]
    by_cases hi : t = i
    · subst hi
      have hlt := (List.getElem?_eq_some_iff.1 h).1
      simp [hlt, show s.requests[t] = r from (List.getElem?_eq_some_iff.1 h).2]
    · simp [hi]
  rw [update, hset]

@[simp] theorem registry_update : (s.update t f).registry = s.registry := rfl

@[simp] theorem admitted_update : (s.update t f).admitted = s.admitted := rfl

@[simp] theorem waiting_update : (s.update t f).waiting = s.waiting := rfl

@[simp] theorem waiting_enter (phase : Phase) : (s.enter phase).waiting = s.waiting := rfl

@[simp] theorem cancelled_update : (s.update t f).cancelled = s.cancelled := rfl

@[simp] theorem settings_update : (s.update t f).settings = s.settings := rfl

@[simp] theorem cancelled_enter (phase : Phase) : (s.enter phase).cancelled = s.cancelled := rfl

section NotifyAll

variable {messages : List Message}

@[simp] theorem requests_notifyAll : (s.notifyAll t messages).requests = s.requests := by
  unfold notifyAll
  split <;> rfl

@[simp] theorem registry_notifyAll : (s.notifyAll t messages).registry = s.registry := by
  unfold notifyAll
  split <;> rfl

@[simp] theorem admitted_notifyAll : (s.notifyAll t messages).admitted = s.admitted := by
  unfold notifyAll
  split <;> rfl

@[simp] theorem waiting_notifyAll : (s.notifyAll t messages).waiting = s.waiting := by
  unfold notifyAll
  split <;> rfl

@[simp] theorem cancelled_notifyAll : (s.notifyAll t messages).cancelled = s.cancelled := by
  unfold notifyAll
  split <;> rfl

@[simp] theorem settings_notifyAll : (s.notifyAll t messages).settings = s.settings := by
  unfold notifyAll
  split <;> rfl

/-- A notice is about the request it was sent for. -/
theorem mem_log_notifyAll {n : Notice} (h : n ∈ (s.notifyAll t messages).log) :
    n ∈ s.log ∨ (n.ticket = t ∧ n.message ∈ messages ∧ t < s.requests.length) := by
  cases hr : s.request? t with
  | none => exact .inl (by simpa [notifyAll, hr] using h)
  | some r =>
    rw [log_notifyAll hr, List.mem_append, List.mem_map] at h
    rcases h with h | ⟨m, hm, rfl⟩
    · exact .inl h
    · exact .inr ⟨rfl, hm, (List.getElem?_eq_some_iff.1 hr).1⟩

end NotifyAll

/-! Calls of clients leave the worker alone. -/

@[simp] theorem phase_update : (s.update t f).phase = s.phase := rfl

@[simp] theorem phase_refuse (reason : FailureReason) (e : Failure) :
    (s.refuse t reason e).phase = s.phase := by
  simp [refuse, deny]

@[simp] theorem waiting_refuse (reason : FailureReason) (e : Failure) :
    (s.refuse t reason e).waiting = s.waiting := by
  simp [refuse, deny, notify]

@[simp] theorem phase_register (r : Request) : (s.register r).phase = s.phase := by
  simp [register]

@[simp] theorem waiting_register (r : Request) : (s.register r).waiting = s.waiting := by
  simp [register]

@[simp] theorem registry_register (r : Request) : (s.register r).registry = s.registry := by
  simp [register]

@[simp] theorem admitted_register (r : Request) : (s.register r).admitted = s.admitted := by
  simp [register]

theorem request?_register (r : Request) :
    (s.register r).request? s.requests.length = some (r.enter .validating) := by
  simp [register, request?]

@[simp] theorem phase_enqueue (id : RequestId) : (s.enqueue t id).1.phase = s.phase := by
  rw [enqueue_eq]
  split
  · rfl
  split
  · rfl
  split
  · exact phase_refuse ..
  · rfl

@[simp] theorem phase_submit (policy : Policy) (p : Submission) :
    (s.submit policy p).1.phase = s.phase := by
  unfold submit
  split
  · rfl
  dsimp only
  split <;> simp

@[simp] theorem phase_stop (id : RequestId) : (s.stop id).1.phase = s.phase := by
  unfold stop
  split <;> rfl

@[simp] theorem phase_reportFault (m : MethodId) : (s.reportFault m).phase = s.phase := by
  unfold reportFault
  split
  · rfl
  · exact phase_notify ..

@[simp] theorem phase_capture (offer : Offer) (accepts : Bool) :
    (s.capture t offer accepts).1.phase = s.phase := by
  unfold capture
  split
  · exact phase_notify ..
  · rfl

theorem phase_step {s' : Session} {e : Event} (h : s.step e = some s') (he : e.isWake = false) :
    s'.phase = s.phase := by
  cases steps_of_step h with
  | submit => exact phase_submit ..
  | stop => exact phase_stop ..
  | fault => exact phase_reportFault ..
  | capture => exact phase_capture ..
  | elapse | cancel | disconnect => rfl
  | wake => cases he

/-- A worker that has exited does not come back. -/
theorem exited_of_step {s' : Session} {e : Event} (hp : s.phase = .exited)
    (h : s.step e = some s') : s'.phase = .exited := by
  cases he : e.isWake with
  | false => rw [phase_step h he, hp]
  | true =>
    cases steps_of_step h with
    | wake hw => cases hw <;> simp_all
    | _ => cases he

/-- What every step preserves, a run preserves. -/
theorem invariant_run {I : Session → Prop} (hI : ∀ a e b, I a → a.step e = some b → I b)
    {s' : Session} {es : List Event} (hs : I s) (h : s.run es = some s') : I s' := by
  induction es generalizing s with
  | nil =>
    rw [← Option.some.inj h]
    exact hs
  | cons e es ih =>
    obtain ⟨s₁, hstep, hrun⟩ := Option.bind_eq_some_iff.1 h
    exact ih (hI s e s₁ hs hstep) hrun

theorem exited_of_run {s' : Session} {es : List Event} (hp : s.phase = .exited)
    (h : s.run es = some s') : s'.phase = .exited :=
  invariant_run (fun _ _ _ hp hstep => exited_of_step hp hstep) hp h

section Untrack

@[simp] theorem requests_untrack : (s.untrack t).requests = s.requests := by
  unfold untrack
  split <;> rfl

@[simp] theorem admitted_untrack : (s.untrack t).admitted = s.admitted := by
  unfold untrack
  split <;> rfl

@[simp] theorem waiting_untrack : (s.untrack t).waiting = s.waiting := by
  unfold untrack
  split <;> rfl

@[simp] theorem cancelled_untrack : (s.untrack t).cancelled = s.cancelled := by
  unfold untrack
  split <;> rfl

@[simp] theorem log_untrack : (s.untrack t).log = s.log := by
  unfold untrack
  split <;> rfl

theorem registry_untrack {r : Request} (h : s.request? t = some r) :
    (s.untrack t).registry = s.registry.erase r.id := by
  simp [untrack, h]

end Untrack

end MethodCapture.Session
