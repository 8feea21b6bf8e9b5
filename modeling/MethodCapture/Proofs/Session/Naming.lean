import MethodCapture.Proofs.Session.Tracking

/-!
Clients and the host know requests by their ids. Every notice bears the id of the request it is
about, and of the requests in flight no two have the same.
-/

namespace MethodCapture.Session

variable {s s' : Session} {t u : Ticket} {f : Request → Request} {es : List Event} {e : Event}
  {w : Wake}

def Named (s : Session) : Prop := ∀ n ∈ s.log, s.Holds n.ticket (·.id = n.id)

namespace Named

/-! The parts of a step. -/

theorem of_eq (h : s.Named) (hlog : s'.log = s.log) (hrequests : s'.requests = s.requests) :
    s'.Named := by
  intro n hn
  obtain ⟨r, hr, hid⟩ := h n (hlog ▸ hn)
  exact ⟨r, by rw [request?, hrequests]; exact hr, hid⟩

theorem update (h : s.Named) (t : Ticket) (hf : ∀ r, (f r).id = r.id) : (s.update t f).Named := by
  intro n hn
  refine (h n hn).update (fun _ r _ hid => ?_) fun _ _ hid => hid
  rw [hf, hid]

theorem notifyAll (h : s.Named) (t : Ticket) (messages : List Message) :
    (s.notifyAll t messages).Named := by
  cases hr : s.request? t with
  | none => simpa [Session.notifyAll, hr] using h
  | some r =>
    intro n hn
    rw [log_notifyAll hr, List.mem_append] at hn
    rw [holds_notifyAll]
    rcases hn with hn | hn
    · exact h n hn
    · obtain ⟨m, -, rfl⟩ := List.mem_map.1 hn
      exact ⟨r, hr, rfl⟩

theorem notify (h : s.Named) (t : Ticket) (message : Message) : (s.notify t message).Named :=
  h.notifyAll t _

theorem enter (h : s.Named) (phase : Phase) : (s.enter phase).Named := h.of_eq rfl rfl

theorem leave (h : s.Named) : { s with waiting := none }.Named := h.of_eq rfl rfl

theorem untrack (h : s.Named) (t : Ticket) : (s.untrack t).Named := by
  unfold Session.untrack
  split
  · exact h
  · exact h.of_eq rfl rfl

theorem resolve (h : s.Named) (t : Ticket) (reason : StopReason) :
    (s.update t (·.resolve reason)).Named :=
  h.update t fun _ => rfl

theorem enterStage (h : s.Named) (t : Ticket) (stage : Stage) :
    (s.update t (·.enter stage)).Named :=
  h.update t fun _ => rfl

theorem conclude (h : s.Named) (t : Ticket) : (s.conclude t).Named :=
  (h.enterStage t .completed).notify t _

theorem fail (h : s.Named) (t : Ticket) (e : Failure) : (s.fail t e).Named := by
  refine notify (h.update t ?_) t _
  exact fun _ => rfl

theorem deny (h : s.Named) (t : Ticket) : (s.deny t).Named := h.update t fun _ => rfl

theorem refuse (h : s.Named) (t : Ticket) (reason : FailureReason) (e : Failure) :
    (s.refuse t reason e).Named :=
  (h.deny t).notify t _

/-! What the worker does. -/

theorem exit (h : s.Named) : s.exit.Named := by
  unfold Session.exit
  split
  · exact h.enter _
  · next t _ => exact ((((h.resolve t .shutdown).conclude t).untrack t).leave).enter _

theorem retire (h : s.Named) (t : Ticket) : (s.retire t).Named := by
  unfold Session.retire
  dsimp only
  split
  · exact (h.untrack t).exit
  · exact (h.untrack t).enter _

theorem launch (h : s.Named) (t : Ticket) (methods : List Method) : (s.launch t methods).Named := by
  refine notify (enter (h.update t ?_) _) t _
  exact fun _ => rfl

theorem take (h : s.Named) (resolver : Resolver) (t : Ticket) : (s.take resolver t).Named := by
  unfold Session.take
  split
  · exact h.retire t
  split
  · exact (h.conclude t).retire t
  have hasked := (h.enterStage t .resolving).notifyAll t
  dsimp only
  split
  · exact ((hasked _).fail t _).retire t
  · exact (hasked _).launch t _

theorem activate (h : s.Named) (t : Ticket) : (s.activate t).Named := by
  unfold Session.activate
  split
  · exact h.retire t
  · exact ((h.enterStage t .active).enter _).notify t _

theorem cleanUp (h : s.Named) (t : Ticket) (cause : Failure) : (s.cleanUp t cause).Named :=
  (h.enter _).notify t _

theorem abandon (h : s.Named) (t : Ticket) (cause : Failure) : (s.abandon t cause).Named := by
  unfold Session.abandon
  split
  · exact ((h.resolve t .shutdown).conclude t).retire t
  · exact (h.fail t cause).retire t

theorem wind (h : s.Named) (t : Ticket) : (s.wind t).Named :=
  ((h.enterStage t .stopping).enter _).notify t _

theorem finish (h : s.Named) (t : Ticket) (failure : Option Failure) :
    (s.finish t failure).Named := by
  unfold Session.finish
  split
  · exact (h.conclude t).retire t
  split
  · exact (h.conclude t).retire t
  · exact (h.fail t _).retire t

theorem wakes (h : s.Named) (hw : s.Wakes w s') : s'.Named := by
  cases hw with
  | exit => exact h.exit
  | take => exact h.leave.take _ _
  | activate => exact h.activate _
  | cleanUp => exact h.cleanUp _ _
  | abandon => exact h.abandon _ _
  | finish => exact h.finish _ _
  | signalled => exact h.wind _
  | timedOut | cancelled => exact (h.resolve _ _).wind _

/-! What clients and probes do. -/

theorem register (h : s.Named) (r : Request) : (s.register r).Named := by
  refine notifyAll (fun n hn => ?_) _ _
  obtain ⟨r', hr', hid⟩ := h n hn
  have hlt := (List.getElem?_eq_some_iff.1 hr').1
  exact ⟨r', by rw [request?, List.getElem?_append_left hlt]; exact hr', hid⟩

theorem enqueue (h : s.Named) (t : Ticket) (id : RequestId) : (s.enqueue t id).1.Named := by
  rw [enqueue_eq]
  split
  · exact h
  split
  · exact h.deny t
  split
  · exact h.refuse t _ _
  · exact h.of_eq rfl rfl

theorem submit (h : s.Named) (policy : Policy) (p : Submission) : (s.submit policy p).1.Named := by
  unfold Session.submit
  split
  · exact h
  dsimp only
  split
  · exact (h.register _).enqueue _ _
  · exact (h.register _).refuse _ _ _

theorem stop (h : s.Named) (id : RequestId) : (s.stop id).1.Named := by
  unfold Session.stop
  split
  · exact h
  · exact h.resolve _ _

theorem reportFault (h : s.Named) (m : MethodId) : (s.reportFault m).Named := by
  unfold Session.reportFault
  split
  · exact h
  · exact h.notify _ _

theorem capture (h : s.Named) (t : Ticket) (offer : Offer) (accepts : Bool) :
    (s.capture t offer accepts).1.Named := by
  unfold Session.capture
  split
  · exact (h.notify t _).update t fun r => (r.steady_offer accepts).id
  · exact h

theorem step (h : s.Named) (hs : s.step e = some s') : s'.Named := by
  cases steps_of_step hs with
  | submit => exact h.submit _ _
  | stop => exact h.stop _
  | fault => exact h.reportFault _
  | capture => exact h.capture _ _ _
  | elapse | cancel | disconnect => exact h.of_eq rfl rfl
  | wake hw => exact h.wakes hw

theorem run (h : s.Named) (hr : s.run es = some s') : s'.Named :=
  invariant_run (fun _ _ _ ha hstep => ha.step hstep) h hr

end Named

theorem named_ofSettings (settings : Settings) : (ofSettings settings).Named := by
  simp [Named, ofSettings, log]

theorem named_run {settings : Settings} (h : (ofSettings settings).run es = some s) : s.Named :=
  (named_ofSettings settings).run h

theorem Orderly.eq_of_idOf? (h : s.Orderly) (ht : t ∈ s.inFlight) (hu : u ∈ s.inFlight)
    {id : RequestId} (htid : s.idOf? t = some id) (huid : s.idOf? u = some id) : t = u := by
  have hget := h.get?_eq_some_iff.2 ⟨ht, htid⟩
  rw [h.get?_eq_some_iff.2 ⟨hu, huid⟩, Option.some.injEq] at hget
  exact hget.symm

end MethodCapture.Session
