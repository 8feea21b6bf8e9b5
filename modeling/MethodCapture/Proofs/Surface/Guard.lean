import MethodCapture.Surface.Limit

/-!
Capture limits from outside. An onlooker who knows the limit of the guard in place and what the
surface has said since can tell the guard's counter, whether it has tripped, and why the signal was
resolved, whatever order offers, calls on the signal and new guards come in.
-/

namespace MethodCapture

/-- A guard has tripped if and only if it has counted up to its limit. -/
structure LimitGuard.Sound (g : LimitGuard) : Prop where
  captured_le : g.captured ≤ g.limit
  tripped_iff : g.tripped = true ↔ g.captured = g.limit

namespace LimitGuard

variable {g : LimitGuard}

theorem sound_ofLimit {limit : Nat} (h : limit ≠ 0) : (ofLimit limit).Sound where
  captured_le := Nat.zero_le _
  tripped_iff := by simp [ofLimit, h.symm]

theorem Sound.captured_lt (h : g.Sound) (ho : g.tripped = false) : g.captured < g.limit := by
  refine Nat.lt_of_le_of_ne h.captured_le fun he => ?_
  rw [h.tripped_iff.2 he] at ho
  cases ho

theorem Sound.count (h : g.Sound) (ho : g.tripped = false) : g.count.Sound where
  captured_le := h.captured_lt ho
  tripped_iff := by simp [LimitGuard.count, ho]

end LimitGuard

namespace Watch

/-- An offer that is taken counts at the guard, and it resolves the signal if the guard trips. -/
theorem offer_of_takes {w : Watch} {accepts : Bool} (h : w.takes accepts = true) :
    w.offer accepts = ⟨w.guard.count,
      if w.guard.count.tripped then w.signal.resolve .limitReached else w.signal⟩ := by
  rw [takes] at h
  rw [offer, if_pos h]

theorem offer_of_not_takes {w : Watch} {accepts : Bool} (h : w.takes accepts = false) :
    w.offer accepts = w := by
  rw [takes] at h
  rw [offer, if_neg (by simp [h])]

theorem takes_iff {w : Watch} {accepts : Bool} :
    w.takes accepts = true ↔ w.guard.tripped = false ∧ accepts = true := by
  simp [takes, passes]

/-- Only the acceptance that trips the guard resolves the signal. -/
theorem signal_offer (w : Watch) (accepts : Bool) : (w.offer accepts).signal = w.signal ∨
    (accepts = true ∧ w.guard.tripped = false ∧ w.guard.captured + 1 = w.guard.limit ∧
      (w.offer accepts).signal = w.signal.resolve .limitReached) := by
  cases htaken : w.takes accepts with
  | false =>
    left
    rw [offer_of_not_takes htaken]
  | true =>
    obtain ⟨hopen, rfl⟩ := takes_iff.1 htaken
    rw [offer_of_takes htaken]
    by_cases hlast : w.guard.captured + 1 = w.guard.limit
    · right
      exact ⟨rfl, hopen, hlast, by simp [LimitGuard.count, hlast]⟩
    · left
      simp [LimitGuard.count, hopen, hlast]

/-- What may resolve the signal. -/
inductive Cause where
  /-- The acceptance that reaches the limit of its guard. -/
  | limit
  | call (reason : StopReason)
  deriving DecidableEq

def Cause.reason : Cause → StopReason
  | limit => .limitReached
  | call reason => reason

/-- A watch together with what an onlooker has seen of it. -/
structure Observed where
  watch : Watch
  /-- The limit that was given to the guard in place. -/
  limit : Nat
  /-- What the surface had to say to the offers made to this guard. -/
  ready : List Bool
  /-- What it did say to those that reached it. -/
  answers : List Bool
  /-- Everything that may have resolved the signal so far, over all guards. -/
  causes : List Cause
  deriving DecidableEq

namespace Observed

def ofLimit (limit : Nat) : Observed := ⟨⟨.ofLimit limit, .unresolved⟩, limit, [], [], []⟩

/-- An acceptance is the last of its guard if with it the surface has accepted as many as the
limit. -/
def cause? (o : Observed) : Action → Option Cause
  | .offer accepts =>
    if o.watch.takes accepts = true ∧ o.answers.count true + 1 = o.limit then some .limit else none
  | .resolve reason => some (.call reason)
  | .replace _ => none

def step (o : Observed) (a : Action) : Observed where
  watch := o.watch.step a
  limit := match a with
    | .replace limit => limit
    | _ => o.limit
  ready := match a with
    | .offer accepts => o.ready ++ [accepts]
    | .resolve _ => o.ready
    | .replace _ => []
  answers := match a with
    | .offer accepts => if o.watch.passes then o.answers ++ [accepts] else o.answers
    | .resolve _ => o.answers
    | .replace _ => []
  causes := o.causes ++ (o.cause? a).toList

def run (o : Observed) (actions : List Action) : Observed := actions.foldl step o

/-- What is seen determines the guard and the reason. -/
structure Lawful (o : Observed) : Prop where
  limit : o.watch.guard.limit = o.limit
  captured : o.watch.guard.captured = min o.limit (o.answers.count true)
  captured_ready : o.watch.guard.captured = min o.limit (o.ready.count true)
  tripped_iff : o.watch.guard.tripped = true ↔ o.watch.guard.captured = o.limit
  /-- The first cause is the one that counts. -/
  reason : o.watch.signal.reason = o.causes.head?.map Cause.reason

variable {o : Observed} {limit : Nat}

theorem watch_run (o : Observed) (actions : List Action) :
    (o.run actions).watch = o.watch.run actions := by
  induction actions generalizing o with
  | nil => rfl
  | cons a actions ih => exact ih (o.step a)

theorem ofLimit_lawful (h : 1 ≤ limit) : (ofLimit limit).Lawful where
  limit := rfl
  captured := by simp [ofLimit, LimitGuard.ofLimit]
  captured_ready := by simp [ofLimit, LimitGuard.ofLimit]
  tripped_iff := by
    simp only [ofLimit, LimitGuard.ofLimit, Bool.false_eq_true, false_iff]
    omega
  reason := rfl

namespace Lawful

theorem sound (h : o.Lawful) : o.watch.guard.Sound where
  captured_le := by
    rw [h.limit, h.captured]
    exact Nat.min_le_left ..
  tripped_iff := by
    rw [h.limit]
    exact h.tripped_iff

/-- As long as the guard is open it has counted everything the surface has accepted or would
have. -/
theorem counts_of_open (h : o.Lawful) (ho : o.watch.guard.tripped = false) :
    o.watch.guard.captured < o.limit ∧ o.answers.count true = o.watch.guard.captured ∧
      o.ready.count true = o.watch.guard.captured := by
  have hlt : o.watch.guard.captured < o.limit := by
    rw [← h.limit]
    exact h.sound.captured_lt ho
  have hanswers := h.captured
  have hready := h.captured_ready
  omega

theorem reason_resolve (h : o.Lawful) (cause : Cause) :
    (o.watch.signal.resolve cause.reason).reason =
      (o.causes ++ [cause]).head?.map Cause.reason := by
  rw [StopSignal.reason_resolve, h.reason]
  cases o.causes <;> rfl

theorem resolve (h : o.Lawful) (reason : StopReason) : (o.step (.resolve reason)).Lawful where
  limit := h.limit
  captured := h.captured
  captured_ready := h.captured_ready
  tripped_iff := h.tripped_iff
  reason := h.reason_resolve (.call reason)

theorem reason_replace (h : o.Lawful) (limit : Nat) :
    (o.step (.replace limit)).watch.signal.reason =
      (o.step (.replace limit)).causes.head?.map Cause.reason := by
  show o.watch.signal.reason = (o.causes ++ []).head?.map Cause.reason
  rw [List.append_nil]
  exact h.reason

theorem replace (h : o.Lawful) (hlimit : 1 ≤ limit) : (o.step (.replace limit)).Lawful where
  limit := rfl
  captured := (ofLimit_lawful hlimit).captured
  captured_ready := (ofLimit_lawful hlimit).captured_ready
  tripped_iff := (ofLimit_lawful hlimit).tripped_iff
  reason := h.reason_replace limit

theorem accept (h : o.Lawful) (ho : o.watch.guard.tripped = false) :
    (o.step (.offer true)).Lawful := by
  have htakes : o.watch.takes true = true := takes_iff.2 ⟨ho, rfl⟩
  have hpasses : o.watch.passes = true := by simp [passes, ho]
  have hsound := h.sound.count ho
  have hstep : (o.step (.offer true)).watch = ⟨o.watch.guard.count,
      if o.watch.guard.count.tripped then o.watch.signal.resolve .limitReached
      else o.watch.signal⟩ := offer_of_takes htakes
  have hanswers : (o.step (.offer true)).answers = o.answers ++ [true] := if_pos hpasses
  have hready : (o.step (.offer true)).ready = o.ready ++ [true] := rfl
  obtain ⟨hlt, hanswered, hwaiting⟩ := h.counts_of_open ho
  have hcount : o.watch.guard.count.captured = o.watch.guard.captured + 1 := rfl
  have hlast : o.watch.guard.count.tripped = true ↔ o.answers.count true + 1 = o.limit := by
    rw [hsound.tripped_iff, hanswered, hcount, ← h.limit]
    rfl
  refine {
    limit := ?_
    captured := ?_
    captured_ready := ?_
    tripped_iff := ?_
    reason := ?_ }
  · rw [hstep]
    exact h.limit
  · rw [hstep, hanswers, List.count_append, hanswered]
    show o.watch.guard.captured + 1 = min o.limit (o.watch.guard.captured + 1)
    omega
  · rw [hstep, hready, List.count_append, hwaiting]
    show o.watch.guard.captured + 1 = min o.limit (o.watch.guard.captured + 1)
    omega
  · rw [hstep]
    show o.watch.guard.count.tripped = true ↔ o.watch.guard.count.captured = o.limit
    rw [hsound.tripped_iff, ← h.limit]
    rfl
  · have hcause : o.cause? (.offer true) =
        if o.watch.guard.count.tripped = true then some .limit else none := by
      simp only [cause?, htakes, true_and, hlast]
    rw [hstep]
    show _ = (o.causes ++ (o.cause? (.offer true)).toList).head?.map Cause.reason
    rw [hcause]
    cases o.watch.guard.count.tripped with
    | true => exact h.reason_resolve .limit
    | false =>
      rw [if_neg (by decide), if_neg (by decide), Option.toList_none, List.append_nil]
      exact h.reason

/-- An offer that is not taken, by the guard or by the surface. -/
theorem decline (h : o.Lawful) {accepts : Bool} (hn : o.watch.takes accepts = false) :
    (o.step (.offer accepts)).Lawful := by
  have hstep : (o.step (.offer accepts)).watch = o.watch := offer_of_not_takes hn
  have hcauses : (o.step (.offer accepts)).causes = o.causes := by
    show o.causes ++ (o.cause? (.offer accepts)).toList = o.causes
    simp [cause?, hn]
  have hcaptured := h.captured
  have hready := h.captured_ready
  refine {
    limit := by rw [hstep]; exact h.limit
    captured := ?_
    captured_ready := ?_
    tripped_iff := by rw [hstep]; exact h.tripped_iff
    reason := by rw [hstep, hcauses]; exact h.reason }
  · rw [hstep]
    show _ = min o.limit
      (List.count true (if o.watch.passes then o.answers ++ [accepts] else o.answers))
    cases hpasses : o.watch.passes with
    | false => exact h.captured
    | true =>
      obtain rfl : accepts = false := by simpa [takes, hpasses] using hn
      simpa using h.captured
  · rw [hstep]
    show _ = min o.limit ((o.ready ++ [accepts]).count true)
    cases ho : o.watch.guard.tripped with
    | true =>
      have hfull := h.tripped_iff.1 ho
      rw [List.count_append]
      omega
    | false =>
      obtain rfl : accepts = false := by simpa [takes, passes, ho] using hn
      simpa using h.captured_ready

theorem step (h : o.Lawful) {a : Action} (ha : ∀ limit, a = .replace limit → 1 ≤ limit) :
    (o.step a).Lawful := by
  cases a with
  | offer accepts =>
    cases htakes : o.watch.takes accepts with
    | false => exact h.decline htakes
    | true =>
      obtain ⟨ho, rfl⟩ := takes_iff.1 htakes
      exact h.accept ho
  | resolve reason => exact h.resolve reason
  | replace limit => exact h.replace (ha limit rfl)

theorem run (h : o.Lawful) {actions : List Action}
    (ha : ∀ limit, .replace limit ∈ actions → 1 ≤ limit) :
    (o.run actions).Lawful := by
  induction actions generalizing o with
  | nil => exact h
  | cons a actions ih =>
    have hstep := h.step fun limit (he : a = .replace limit) => ha limit (he ▸ List.mem_cons_self)
    exact ih hstep fun limit hm => ha limit (List.mem_cons_of_mem a hm)

theorem reason_step (h : o.Lawful) (a : Action) :
    (o.step a).watch.signal.reason = (o.step a).causes.head?.map Cause.reason := by
  cases a with
  | replace limit => exact h.reason_replace limit
  | offer accepts =>
    have hstep : (o.step (.offer accepts)).Lawful := h.step fun _ he => by cases he
    exact hstep.reason
  | resolve reason => exact (h.resolve reason).reason

/-- The signal is resolved by what comes first and by nothing after it. -/
theorem signal_changes_iff (h : o.Lawful) (a : Action) :
    (o.watch.step a).signal ≠ o.watch.signal ↔ o.causes = [] ∧ o.cause? a ≠ none := by
  have hbefore := h.reason
  have hafter : (o.watch.step a).signal.reason =
      (o.causes ++ (o.cause? a).toList).head?.map Cause.reason := h.reason_step a
  rw [ne_eq, StopSignal.mk.injEq, hbefore, hafter]
  cases o.causes with
  | nil => cases o.cause? a <;> simp
  | cons => simp

theorem limitReached_iff (h : o.Lawful) : o.watch.signal.reason = some .limitReached ↔
    o.causes.head? = some .limit ∨ o.causes.head? = some (.call .limitReached) := by
  rw [h.reason]
  cases o.causes.head? with
  | none => simp
  | some cause => cases cause <;> simp [Cause.reason]

end Lawful

end Observed

/-- The law of capture limits. -/
theorem limit_guards_lawful {limit : Nat} (hlimit : 1 ≤ limit) {actions : List Action}
    (hactions : ∀ other, .replace other ∈ actions → 1 ≤ other) :
    let o := (Observed.ofLimit limit).run actions
    o.watch = (⟨.ofLimit limit, .unresolved⟩ : Watch).run actions ∧ o.Lawful ∧
      (o.watch.passes = true ↔ o.watch.guard.tripped = false) ∧
      (∀ accepts, o.watch.takes accepts = true ↔ o.watch.passes = true ∧ accepts = true) ∧
      (o.watch.signal.reason = some .limitReached ↔
        o.causes.head? = some .limit ∨ o.causes.head? = some (.call .limitReached)) ∧
      ∀ a, (o.watch.step a).signal ≠ o.watch.signal ↔ o.causes = [] ∧ o.cause? a ≠ none := by
  intro o
  have hlawful : o.Lawful := (Observed.ofLimit_lawful hlimit).run hactions
  have hpasses : o.watch.passes = true ↔ o.watch.guard.tripped = false := by simp [passes]
  have htakes (accepts : Bool) :
      o.watch.takes accepts = true ↔ o.watch.passes = true ∧ accepts = true := by
    rw [takes_iff, hpasses]
  exact ⟨(Observed.ofLimit limit).watch_run actions, hlawful, hpasses, htakes,
    hlawful.limitReached_iff, hlawful.signal_changes_iff⟩

/-- Two guards in turn: the first is replaced one acceptance short of its limit. -/
theorem limit_guards_lawful_in_turn :
    let actions : List Action := [.offer true, .offer false, .replace 1, .offer true,
      .resolve .explicit, .offer true]
    let o := (Observed.ofLimit 2).run actions
    o.Lawful ∧ o.answers = [true] ∧ o.ready = [true, true] ∧ o.watch.guard.tripped = true ∧
      o.causes = [.limit, .call .explicit] ∧ o.watch.signal.reason = some .limitReached := by
  intro actions o
  have hactions : ∀ other, .replace other ∈ actions → 1 ≤ other := by simp [actions]
  have hlimit : 1 ≤ 2 := by decide
  have hlaw := limit_guards_lawful hlimit hactions
  exact ⟨hlaw.2.1, by decide, by decide, by decide, by decide, hlaw.2.2.2.2.1.2 (.inl (by decide))⟩

/-- The reason of the limit may also be given from outside, before anything has been accepted. -/
theorem limit_reason_without_acceptance :
    let o := (Observed.ofLimit 1).run [.resolve .limitReached]
    o.answers = [] ∧ o.causes.head? ≠ some .limit ∧
      o.watch.signal.reason = some .limitReached := by
  decide

end Watch

end MethodCapture
