import MethodCapture.Session.Run

/-!
The steps of a session, case by case: what an event asks of the session before it, and the session
after it.
-/

namespace MethodCapture

def Event.isWake : Event → Bool
  | .wake _ => true
  | _ => false

namespace Session

/-- The wakes of the worker. -/
inductive Wakes (s : Session) : Wake → Session → Prop
  | exit {resolver : Resolver} (hp : s.phase = .idle)
    (h : s.cancelled = true ∨ (s.waiting = none ∧ s.connected = false)) :
    Wakes s (.poll resolver) s.exit
  | take {resolver : Resolver} {t : Ticket} (hp : s.phase = .idle) (hc : s.cancelled = false)
    (hw : s.waiting = some t) :
    Wakes s (.poll resolver) ({ s with waiting := none }.take resolver t)
  | activate {t : Ticket} (hp : s.phase = .starting t) : Wakes s (.started none) (s.activate t)
  | cleanUp {t : Ticket} {cause : Failure} (hp : s.phase = .starting t) :
    Wakes s (.started (some cause)) (s.cleanUp t cause)
  | abandon {t : Ticket} {cause : Failure} {failure : Option Failure}
    (hp : s.phase = .cleaning t cause) : Wakes s (.stopped failure) (s.abandon t cause)
  | finish {t : Ticket} {failure : Option Failure} (hp : s.phase = .stopping t) :
    Wakes s (.stopped failure) (s.finish t failure)
  | signalled {t : Ticket} {deadline : Nat} (hp : s.phase = .active t deadline)
    (hs : s.isSignalled t = true) : Wakes s .signalled (s.wind t)
  | timedOut {t : Ticket} {deadline : Nat} (hp : s.phase = .active t deadline)
    (hd : deadline ≤ s.clock) :
    Wakes s .timedOut ((s.update t (·.resolve .durationElapsed)).wind t)
  | cancelled {t : Ticket} {deadline : Nat} (hp : s.phase = .active t deadline)
    (hc : s.cancelled = true) : Wakes s .cancelled ((s.update t (·.resolve .shutdown)).wind t)

/-- The steps of a session. -/
inductive Steps (s : Session) : Event → Session → Prop
  | submit {policy : Policy} {p : Submission} (hc : s.connected = true) :
    Steps s (.submit policy p) (s.submit policy p).1
  | stop {id : RequestId} (hc : s.connected = true) : Steps s (.stop id) (s.stop id).1
  | fault {m : MethodId} (hc : s.connected = true) : Steps s (.fault m) (s.reportFault m)
  | capture {t : Ticket} {offer : Offer} {accepts : Bool}
    (hs : (s.request? t).any (·.surface.isSome) = true) :
    Steps s (.capture t offer accepts) (s.capture t offer accepts).1
  | elapse {d : Duration} : Steps s (.elapse d) (s.elapse d)
  | cancel : Steps s .cancel s.cancel
  | disconnect : Steps s .disconnect s.disconnect
  | wake {w : Wake} {s' : Session} (h : s.Wakes w s') : Steps s (.wake w) s'

variable {s s' : Session} {w : Wake} {e : Event}

theorem wakes_of_wake (h : s.wake w = some s') : s.Wakes w s' := by
  unfold wake at h
  split at h
  · split at h
    · next hp =>
      unfold poll at h
      split at h
      · next hc =>
        cases h
        exact .exit hp (.inl hc)
      next hc =>
      split at h
      · next hw =>
        cases h
        exact .take hp (by simpa using hc) hw
      · next hw =>
        split at h <;> cases h
        next hn => exact .exit hp (.inr ⟨hw, by simpa using hn⟩)
    · cases h
  · split at h <;> cases h
    · next hp => exact .activate hp
    · next hp => exact .cleanUp hp
  · split at h <;> cases h
    · next hp => exact .abandon hp
    · next hp => exact .finish hp
  · split at h
    · next hp =>
      split at h <;> cases h
      next hs => exact .signalled hp hs
    · cases h
  · split at h
    · next hp =>
      split at h <;> cases h
      next hd => exact .timedOut hp hd
    · cases h
  · split at h
    · next hp =>
      split at h <;> cases h
      next hc => exact .cancelled hp hc
    · cases h

theorem steps_of_step (h : s.step e = some s') : s.Steps e s' := by
  unfold step at h
  split at h
  · split at h <;> cases h
    next hc => exact .submit hc
  · split at h <;> cases h
    next hc => exact .stop hc
  · split at h <;> cases h
    next hc => exact .fault hc
  · split at h <;> cases h
    next hs => exact .capture hs
  · cases h
    exact .elapse
  · cases h
    exact .cancel
  · cases h
    exact .disconnect
  · exact .wake (wakes_of_wake h)

theorem wake_of_wakes (h : s.Wakes w s') : s.wake w = some s' := by
  cases h with
  | exit hp hend =>
    rw [wake, if_pos hp, poll]
    rcases hend with hc | ⟨hw, hn⟩
    · rw [if_pos hc]
    · simp [hw, hn]
  | take hp hc hw => simp [wake, hp, poll, hc, hw]
  | activate hp | cleanUp hp | abandon hp | finish hp => simp [wake, hp]
  | signalled hp hs => simp [wake, hp, hs]
  | timedOut hp hd => simp [wake, hp, hd]
  | cancelled hp hc => simp [wake, hp, hc]

theorem step_of_steps (h : s.Steps e s') : s.step e = some s' := by
  cases h with
  | submit hc | stop hc | fault hc => exact if_pos hc
  | capture hs => exact if_pos hs
  | elapse | cancel | disconnect => rfl
  | wake hw => exact wake_of_wakes hw

end Session

end MethodCapture
