import MethodCapture.Session.Worker

/-!
The worker comes to rest: every wake lowers a bound on the wakes that can follow it without another
event.
-/

namespace MethodCapture

/-- The wakes still to come in a phase. -/
def Phase.work : Phase → Nat
  | exited => 0
  | idle => 1
  | cleaning .. | stopping _ => 2
  | active .. => 3
  | starting _ => 4

namespace Session

/-- The wakes a waiting request can take. -/
def backlog (s : Session) : Nat := if s.waiting.isSome then 5 else 0

def work (s : Session) : Nat := s.phase.work + s.backlog

@[simp] theorem backlog_update (s : Session) (t : Ticket) (f : Request → Request) :
    (s.update t f).backlog = s.backlog := rfl

@[simp] theorem backlog_enter (s : Session) (phase : Phase) :
    (s.enter phase).backlog = s.backlog :=
  rfl

@[simp] theorem phase_enter (s : Session) (phase : Phase) : (s.enter phase).phase = phase := rfl

@[simp] theorem backlog_notifyAll (s : Session) (t : Ticket) (messages : List Message) :
    (s.notifyAll t messages).backlog = s.backlog := by
  unfold notifyAll
  split <;> rfl

@[simp] theorem phase_notifyAll (s : Session) (t : Ticket) (messages : List Message) :
    (s.notifyAll t messages).phase = s.phase := by
  unfold notifyAll
  split <;> rfl

@[simp] theorem backlog_notify (s : Session) (t : Ticket) (message : Message) :
    (s.notify t message).backlog = s.backlog := s.backlog_notifyAll t _

@[simp] theorem phase_notify (s : Session) (t : Ticket) (message : Message) :
    (s.notify t message).phase = s.phase := s.phase_notifyAll t _

@[simp] theorem backlog_conclude (s : Session) (t : Ticket) :
    (s.conclude t).backlog = s.backlog := by
  simp [conclude]

@[simp] theorem backlog_fail (s : Session) (t : Ticket) (e : Failure) :
    (s.fail t e).backlog = s.backlog := by
  simp [fail]

@[simp] theorem backlog_untrack (s : Session) (t : Ticket) :
    (s.untrack t).backlog = s.backlog := by
  unfold untrack
  split <;> rfl

@[simp] theorem work_exit (s : Session) : s.exit.work = 0 := by
  unfold exit
  split
  · next h => simp [work, Phase.work, backlog, enter, h]
  · rfl

theorem work_retire_le (s : Session) (t : Ticket) : (s.retire t).work ≤ 1 + s.backlog := by
  unfold retire
  by_cases h : (s.untrack t).cancelled
  · simp [h]
  · simp [h, work, Phase.work]

theorem work_take_le (s : Session) (resolver : Resolver) (t : Ticket) :
    (s.take resolver t).work ≤ 4 + s.backlog := by
  have retire (s' : Session) (h : s'.backlog = s.backlog) : (s'.retire t).work ≤ 4 + s.backlog := by
    have := s'.work_retire_le t
    omega
  unfold take
  split
  · exact retire s rfl
  split
  · exact retire _ (by simp)
  dsimp only
  split
  · exact retire _ (by simp)
  · simp [launch, work, Phase.work]

theorem work_poll_lt {s s' : Session} {resolver : Resolver} (hi : s.phase = .idle)
    (h : s.poll resolver = some s') : s'.work < s.work := by
  have hs : s.work = 1 + s.backlog := by simp [work, hi, Phase.work]
  unfold poll at h
  split at h
  · cases h
    simp only [work_exit]
    omega
  split at h
  · next t hw =>
    cases h
    have := work_take_le { s with waiting := none } resolver t
    have hb : s.backlog = 5 := by simp [backlog, hw]
    simp only [backlog] at this
    simp at this
    omega
  · split at h <;> cases h
    simp only [work_exit]
    omega

theorem work_wake_lt {s s' : Session} {w : Wake} (h : s.wake w = some s') : s'.work < s.work := by
  have retire (t : Ticket) (u : Session) (hb : u.backlog = s.backlog) (hp : 1 < s.phase.work) :
      (u.retire t).work < s.work := by
    have := u.work_retire_le t
    simp only [work] at this ⊢
    omega
  unfold wake at h
  split at h
  · split at h
    · next hi => exact work_poll_lt hi h
    · cases h
  · split at h
    · next hp =>
      cases h
      unfold activate
      split
      · exact retire _ _ rfl (by simp [hp, Phase.work])
      · simp [work, hp, Phase.work]
    · next hp =>
      cases h
      simp [cleanUp, work, hp, Phase.work]
    · cases h
  · split at h
    · next hp =>
      cases h
      unfold abandon
      split <;> exact retire _ _ (by simp) (by simp [hp, Phase.work])
    · next hp =>
      cases h
      unfold finish
      split
      · exact retire _ _ (by simp) (by simp [hp, Phase.work])
      · split <;> exact retire _ _ (by simp) (by simp [hp, Phase.work])
    · cases h
  all_goals
    split at h
    · next hp =>
      split at h <;> cases h
      simp [wind, work, hp, Phase.work]
    · cases h

end Session

end MethodCapture
