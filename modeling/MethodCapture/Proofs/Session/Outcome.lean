import MethodCapture.Proofs.Session.Growth
import MethodCapture.Proofs.Session.Reachable

/-!
Every admitted request comes to exactly one outcome. The invariant fixes the milestones of each
admitted request by where it stands: in the queue, in the worker's hand, or at its end. What the
host is told about one request is read off its milestones, and the order of the outcomes off those
of all.
-/

namespace MethodCapture

def Milestone.isEnd : Milestone → Bool
  | ended _ => true
  | _ => false

@[simp] theorem Milestone.isEnd_ended (e : Ending) : (ended e).isEnd = true := rfl

theorem Progress.filter_isEnd (p : Progress) : p.milestones.filter (·.isEnd) = [] := by
  cases p <;> rfl

namespace Message

/-- Tells that capturing has begun. -/
def isStart : Message → Bool
  | captureStarted .. => true
  | _ => false

/-- Tells that a request has ended, well or not. -/
def isOutcome : Message → Bool
  | captureStopped | captureFailed .. => true
  | _ => false

theorem isStart_iff {m : Message} : m.isStart = true ↔ m.milestone? = some .capturing := by
  cases m <;> simp [isStart, milestone?]

theorem isOutcome_eq (m : Message) : m.isOutcome = m.milestone?.any (·.isEnd) := by
  cases m <;> rfl

theorem isOutcome_iff {m : Message} : m.isOutcome = true ↔ ∃ e, m.milestone? = some (.ended e) := by
  cases m <;> simp [isOutcome, milestone?]

end Message

namespace Session

/-- Whether the registry holds this request. -/
def Tracks (s : Session) (t : Ticket) : Prop := ∃ id, s.registry.get? id = some t

variable {s s' : Session} {done : List Course} {hand : Option Held} {t : Ticket} {p : Progress}

namespace Consistent

theorem tracks_iff (h : Consistent s done hand) : s.Tracks t ↔ t ∈ openTickets hand s.waiting := by
  rw [← h.tracked, List.mem_map]
  constructor
  · rintro ⟨id, hid⟩
    exact ⟨(id, t), (Registry.get?_eq_some_iff h.ids).1 hid, rfl⟩
  · rintro ⟨⟨id, u⟩, hmem, rfl⟩
    exact ⟨id, (Registry.get?_eq_some_iff h.ids).2 hmem⟩

/-- An admitted request that is not tracked any longer has ended. -/
theorem exists_course (h : Consistent s done hand) (ht : t ∈ s.admitted) (hu : ¬ s.Tracks t) :
    ∃ c ∈ done, c.ticket = t := by
  rw [h.admitted, List.mem_append] at ht
  rcases ht with ht | ht
  · exact List.mem_map.1 ht
  · exact absurd (h.tracks_iff.2 ht) hu

theorem nodup_done (h : Consistent s done hand) : (done.map (·.ticket)).Nodup := by
  have hn := h.distinct
  rw [h.admitted, List.nodup_append] at hn
  exact hn.1

theorem milestones_course (h : Consistent s done hand) {c : Course} (hc : c ∈ done) :
    s.milestones c.ticket = c.milestones := by
  have hhand : (hand.toList.flatMap (·.marks)).filter (·.1 == c.ticket) = [] := by
    rw [List.filter_eq_nil_iff]
    intro m hm
    obtain ⟨k, hk, hm⟩ := List.mem_flatMap.1 hm
    obtain ⟨j, -, rfl⟩ := List.mem_map.1 hm
    have hk : hand = some k := Option.mem_toList.1 hk
    have := h.ticket_ne_of_done (t := k.ticket) (by simp [hk]) hc
    simpa using this
  rw [milestones_eq (h.mem_admitted_of_done hc), h.marks, List.filter_append, hhand,
    List.append_nil, Course.filter_flatMap h.nodup_done hc, Course.marks]
  simp [Function.comp_def]

theorem milestones_held (h : Consistent s done (some ⟨t, p⟩)) : s.milestones t = p.milestones := by
  have hdone : t ∉ done.map (·.ticket) := by
    rw [List.mem_map]
    rintro ⟨c, hc, he⟩
    exact h.ticket_ne_of_done (by simp) hc he.symm
  rw [milestones_eq h.mem_admitted_of_held, h.marks, List.filter_append,
    Course.filter_flatMap_of_not_mem hdone]
  simp [Held.marks, List.filter_map, Function.comp_def]

theorem milestones_waiting (h : Consistent s done hand) (hw : s.waiting = some t) :
    s.milestones t = [] := by
  have hmem : t ∈ openTickets hand s.waiting := by simp [openTickets, hw]
  have hdone : t ∉ done.map (·.ticket) := by
    rw [List.mem_map]
    rintro ⟨c, hc, he⟩
    exact h.ticket_ne_of_done hmem hc he.symm
  rw [milestones_eq (h.mem_admitted_of_open hmem), h.marks, List.filter_append,
    Course.filter_flatMap_of_not_mem hdone]
  cases hand with
  | none => rfl
  | some k =>
    have hk : k.ticket ≠ t := h.ticket_ne_waiting (p := k.progress) hw
    simp [Held.marks, List.filter_map, Function.comp_def, hk]

theorem milestones_of_tracks (h : Consistent s done hand) (ht : s.Tracks t) :
    ∃ p : Progress, s.milestones t = p.milestones := by
  rw [h.tracks_iff, openTickets, List.mem_append] at ht
  rcases ht with ht | ht
  · obtain ⟨k, rfl, rfl⟩ := Option.map_eq_some_iff.1 (Option.mem_toList.1 ht)
    exact ⟨k.progress, h.milestones_held⟩
  · exact ⟨.taken, h.milestones_waiting (Option.mem_toList.1 ht)⟩

theorem milestones_of_not_tracks (h : Consistent s done hand) (ht : t ∈ s.admitted)
    (hu : ¬ s.Tracks t) : ∃ c ∈ done, c.ticket = t ∧ s.milestones t = c.milestones := by
  obtain ⟨c, hc, rfl⟩ := h.exists_course ht hu
  exact ⟨c, hc, rfl, h.milestones_course hc⟩

/-- An admitted request was in the worker's hand up to some progress, and then it may have ended. -/
theorem milestones_cases (h : Consistent s done hand) (ht : t ∈ s.admitted) :
    ∃ (p : Progress) (e : Option Ending), s.milestones t = p.milestones ++ e.toList.map .ended := by
  by_cases hu : s.Tracks t
  · obtain ⟨p, hp⟩ := h.milestones_of_tracks hu
    exact ⟨p, none, by simp [hp]⟩
  · obtain ⟨c, -, -, hc⟩ := h.milestones_of_not_tracks ht hu
    exact ⟨c.progress, some c.ending, hc⟩

theorem not_tracks_of_ended (h : Consistent s done hand) {e : Ending}
    (he : .ended e ∈ s.milestones t) : ¬ s.Tracks t := by
  intro ht
  obtain ⟨p, hp⟩ := h.milestones_of_tracks ht
  rw [hp] at he
  exact p.ended_not_mem_milestones e he

end Consistent

/-! From milestones to messages. -/

theorem countP_isStart (ms : List Message) :
    ms.countP (·.isStart) = (ms.filterMap (·.milestone?)).countP (· == .capturing) := by
  rw [List.countP_filterMap]
  apply List.countP_congr
  intro m _
  cases m <;> simp [Message.isStart, Message.milestone?]

theorem countP_isOutcome (ms : List Message) :
    ms.countP (·.isOutcome) = (ms.filterMap (·.milestone?)).countP (·.isEnd) := by
  rw [List.countP_filterMap]
  apply List.countP_congr
  intro m _
  rw [Message.isOutcome_eq]
  cases m.milestone? <;> rfl

theorem captureStopped_mem_messages :
    .captureStopped ∈ s.messages t ↔ .ended .completed ∈ s.milestones t := by
  rw [milestones, List.mem_filterMap]
  constructor
  · exact fun h => ⟨_, h, rfl⟩
  · rintro ⟨m, hm, he⟩
    cases m <;> simp_all [Message.milestone?]

theorem captureFailed_mem_messages :
    (∃ reason e, .captureFailed reason e ∈ s.messages t) ↔ .ended .faulted ∈ s.milestones t := by
  rw [milestones, List.mem_filterMap]
  constructor
  · rintro ⟨reason, e, h⟩
    exact ⟨_, h, rfl⟩
  · rintro ⟨m, hm, he⟩
    cases m <;> simp [Message.milestone?] at he
    exact ⟨_, _, hm⟩

theorem messages_prefix (h : s.Extends s') (t : Ticket) : s.messages t <+: s'.messages t :=
  (h.log.filter _).map _

theorem Orderly.tracks_iff (h : s.Orderly) : s.Tracks t ↔ t ∈ s.inFlight := by
  obtain ⟨done, hc⟩ := h.consistent
  rw [hc.tracks_iff, openTickets_hand?]

/-- No outcome is told of a tracked request. -/
theorem Orderly.isOutcome_eq_false (h : s.Orderly) (ht : s.Tracks t) {m : Message}
    (hm : m ∈ s.messages t) : m.isOutcome = false := by
  obtain ⟨done, hc⟩ := h.consistent
  by_contra ho
  obtain ⟨e, he⟩ := Message.isOutcome_iff.1 (by simpa using ho)
  exact hc.not_tracks_of_ended (List.mem_filterMap.2 ⟨m, hm, he⟩) ht

theorem Orderly.countP_isOutcome_of_tracks (h : s.Orderly) (ht : s.Tracks t) :
    (s.messages t).countP (·.isOutcome) = 0 := by
  rw [List.countP_eq_zero]
  intro m hm
  simp [h.isOutcome_eq_false ht hm]

/-- What the host hears of an admitted request. -/
structure Accounted (s : Session) (t : Ticket) : Prop where
  start_once : (s.messages t).countP (·.isStart) ≤ 1
  start_first : ∀ before m after, s.messages t = before ++ m :: after → m.isStart = true →
    before.countP (·.isOutcome) = 0
  outcome_once : ¬ s.Tracks t → (s.messages t).countP (·.isOutcome) = 1
  /-- Whatever happens later, no other outcome follows, and the request is not tracked again. -/
  outcome_final : ¬ s.Tracks t → ∀ es s', s.run es = some s' →
    ¬ s'.Tracks t ∧ (s'.messages t).filter (·.isOutcome) = (s.messages t).filter (·.isOutcome)
  stage : ¬ s.Tracks t → s.Holds t fun r => r.signal.isResolved = true ∧
    (.captureStopped ∈ s.messages t ↔ r.stage = .completed) ∧
    ((∃ reason e, .captureFailed reason e ∈ s.messages t) ↔ r.stage = .faulted)

theorem countP_capturing_le (p : Progress) (e : Option Ending) :
    (p.milestones ++ e.toList.map Milestone.ended).countP (· == Milestone.capturing) ≤ 1 := by
  cases p <;> cases e <;> simp [Progress.milestones]

theorem countP_isEnd_milestones (p : Progress) : p.milestones.countP (·.isEnd) = 0 := by
  rw [List.countP_eq_length_filter, p.filter_isEnd]
  rfl

theorem Course.countP_isEnd (c : Course) : c.milestones.countP (·.isEnd) = 1 := by
  rw [Course.milestones, List.countP_append, countP_isEnd_milestones]
  rfl

theorem Course.ended_mem_milestones {c : Course} {e : Ending} :
    .ended e ∈ c.milestones ↔ c.ending = e := by
  simp [Course.milestones, c.progress.ended_not_mem_milestones, eq_comm]

/-- What comes before the start of capturing is within the worker's progress. -/
theorem Consistent.countP_isEnd_before (h : Consistent s done hand) (ht : t ∈ s.admitted)
    {before after : List Milestone} (hm : s.milestones t = before ++ .capturing :: after) :
    before.countP (·.isEnd) = 0 := by
  obtain ⟨p, e, hp⟩ := h.milestones_cases ht
  rw [hp] at hm
  rcases List.append_eq_append_iff.1 hm with ⟨l, hl, he⟩ | ⟨l, hl, -⟩
  · cases e with
    | none => cases l <;> cases he
    | some e => cases l <;> simp at he
  · have := countP_isEnd_milestones p
    rw [hl, List.countP_append] at this
    omega

theorem Orderly.countP_isOutcome (h : s.Orderly) (ht : t ∈ s.admitted) (hu : ¬ s.Tracks t) :
    (s.messages t).countP (·.isOutcome) = 1 := by
  obtain ⟨done, hc⟩ := h.consistent
  obtain ⟨c, -, -, hm⟩ := hc.milestones_of_not_tracks ht hu
  rw [Session.countP_isOutcome, ← milestones, hm, Course.countP_isEnd]

/-- An outcome stays the only one, and the request stays untracked, in every continuation. -/
theorem Orderly.outcome_final (h : s.Orderly) (ht : t ∈ s.admitted) (hu : ¬ s.Tracks t)
    {es : List Event} (hr : s.run es = some s') :
    ¬ s'.Tracks t ∧ (s'.messages t).filter (·.isOutcome) = (s.messages t).filter (·.isOutcome) := by
  have hx := extends_run hr
  have hpre := messages_prefix hx t
  have hone := h.countP_isOutcome ht hu
  have hu' : ¬ s'.Tracks t := by
    obtain ⟨done', hc'⟩ := (h.run hr).consistent
    obtain ⟨m, hm, ho⟩ := List.countP_pos_iff.1 (by rw [hone]; decide)
    obtain ⟨e, he⟩ := Message.isOutcome_iff.1 ho
    exact hc'.not_tracks_of_ended (List.mem_filterMap.2 ⟨m, hpre.subset hm, he⟩)
  refine ⟨hu', ((hpre.filter _).eq_of_length ?_).symm⟩
  rw [← List.countP_eq_length_filter, ← List.countP_eq_length_filter, hone,
    (h.run hr).countP_isOutcome (hx.admitted.subset ht) hu']

theorem Orderly.accounted (h : s.Orderly) (ht : t ∈ s.admitted) : s.Accounted t := by
  obtain ⟨done, hc⟩ := h.consistent
  refine {
    start_once := ?_
    start_first := fun before m after hm hs => ?_
    outcome_once := h.countP_isOutcome ht
    outcome_final := fun hu es s' hr => h.outcome_final ht hu hr
    stage := fun hu => ?_ }
  · obtain ⟨p, e, hp⟩ := hc.milestones_cases ht
    rw [countP_isStart, ← milestones, hp]
    exact countP_capturing_le p e
  · have hsplit : s.milestones t = before.filterMap (·.milestone?) ++
        .capturing :: after.filterMap (·.milestone?) := by
      simp [milestones, hm, Message.isStart_iff.1 hs]
    rw [Session.countP_isOutcome]
    exact hc.countP_isEnd_before ht hsplit
  · obtain ⟨c, hmem, rfl, hm⟩ := hc.milestones_of_not_tracks ht hu
    refine (hc.finished c hmem).imp fun r hr => ⟨hr.2, ?_, ?_⟩
    · rw [captureStopped_mem_messages, hm, Course.ended_mem_milestones, hr.1]
      cases c.ending <;> simp [Ending.stage]
    · rw [captureFailed_mem_messages, hm, Course.ended_mem_milestones, hr.1]
      cases c.ending <;> simp [Ending.stage]

/-- The ends of all courses, one for each in their order. -/
theorem Course.filter_isEnd (cs : List Course) :
    ((cs.flatMap (·.marks)).filter (·.2.isEnd)).map (·.1) = cs.map (·.ticket) := by
  induction cs with
  | nil => rfl
  | cons c cs ih =>
    have hc : c.marks.filter (·.2.isEnd) = [(c.ticket, .ended c.ending)] := by
      rw [Course.marks, Course.milestones, List.filter_map]
      simp [Function.comp_def, Progress.filter_isEnd]
    rw [List.flatMap_cons, List.filter_append, List.map_append, ih, hc]
    rfl

/-- The outcomes of admitted requests, in the order of the log. -/
def outcomes (s : Session) : List Notice :=
  s.log.filter fun n => n.message.isOutcome && decide (n.ticket ∈ s.admitted)

theorem map_ticket_outcomes (s : Session) :
    s.outcomes.map (·.ticket) = (s.marks.filter (·.2.isEnd)).map (·.1) := by
  simp only [outcomes, marks, Message.isOutcome_eq]
  induction s.log with
  | nil => rfl
  | cons n ns ih =>
    by_cases ht : n.ticket ∈ s.admitted
    · cases hm : n.message.milestone? with
      | none => simp [ht, hm, ih]
      | some k => cases hk : k.isEnd <;> simp [ht, hm, hk, ih]
    · simp [ht, ih]

theorem Consistent.tickets_of_outcomes (h : Consistent s done hand) :
    s.outcomes.map (·.ticket) = done.map (·.ticket) := by
  have hhand : (hand.toList.flatMap (·.marks)).filter (·.2.isEnd) = [] := by
    cases hand with
    | none => rfl
    | some k =>
      obtain ⟨t, p⟩ := k
      cases p <;> rfl
  rw [map_ticket_outcomes, h.marks, List.filter_append, hhand, List.append_nil, Course.filter_isEnd]

theorem Orderly.outcomes_prefix (h : s.Orderly) : s.outcomes.map (·.ticket) <+: s.admitted := by
  obtain ⟨done, hc⟩ := h.consistent
  rw [hc.tickets_of_outcomes, hc.admitted]
  exact List.prefix_append ..

theorem Orderly.not_tracks_of_exited (h : s.Orderly) (hp : s.phase = .exited) (t : Ticket) :
    ¬ s.Tracks t := by
  obtain ⟨done, hc⟩ := h.consistent
  rw [hc.tracks_iff, hp, h.exited hp]
  simp [Phase.hand?]

/-- Every request whose submission succeeds is admitted, and stays so; every admitted request is
accounted for, with its one outcome once it is not tracked any longer; the outcomes come in the
order of admission; and when the worker has exited no request is left. -/
theorem one_outcome_per_request (settings : Settings) (es : List Event) (s : Session)
    (h : (ofSettings settings).run es = some s) :
    (∀ policy p, (s.submit policy p).2 = .ok () →
      (s.submit policy p).1.admitted = s.admitted ++ [s.requests.length]) ∧
    (∀ es' s', s.run es' = some s' → s.admitted <+: s'.admitted) ∧
    (∀ t ∈ s.admitted, s.Accounted t) ∧
    s.outcomes.map (·.ticket) <+: s.admitted ∧
    (s.phase = .exited → ∀ t ∈ s.admitted, ¬ s.Tracks t) := by
  have ho := orderly_run h
  refine ⟨fun _ _ => admitted_submit_of_ok, fun _ _ hr => (extends_run hr).admitted,
    fun t ht => ho.accounted ht, ho.outcomes_prefix, ?_⟩
  intro hp t _
  exact ho.not_tracks_of_exited hp t

theorem one_outcome_per_request_sampleRun :
    ∃ s, (ofSettings .standard).run sampleRun = some s ∧ s.admitted = [0, 1] ∧ s.phase = .exited ∧
      s.Accounted 0 ∧ s.Accounted 1 ∧ ¬ s.Tracks 0 ∧ ¬ s.Tracks 1 := by
  obtain ⟨-, -, hall, -, hexit⟩ := one_outcome_per_request .standard sampleRun _ rfl
  exact ⟨_, rfl, rfl, rfl, hall 0 (by decide), hall 1 (by decide), hexit rfl 0 (by decide),
    hexit rfl 1 (by decide)⟩

end Session

end MethodCapture
