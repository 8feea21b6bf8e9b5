import Mathlib.Data.List.Basic
import MethodCapture.Proofs.Session.Course

/-!
The invariant of a session, and what the parts of a step do to it. It accounts for every admitted
request: those that have ended, in the order of their admission, then the one in the worker's hand,
then the one that waits. The log holds the marks of just these, and the registry just the last two.
The invariant does not look at the worker's phase, so that it can also be stated between the parts
of a step.
-/

namespace MethodCapture

/-- `r'` is `r` with nothing changed that the invariant depends on. -/
structure Request.Steady (r r' : Request) : Prop where
  id : r'.id = r.id
  stage : r'.stage = r.stage
  signal : r.signal.isResolved = true → r'.signal.isResolved = true

theorem Request.steady_resolve (r : Request) (reason : StopReason) :
    r.Steady (r.resolve reason) where
  id := rfl
  stage := rfl
  signal := fun _ => rfl

theorem Request.steady_offer (r : Request) (accepts : Bool) : r.Steady (r.offer accepts) := by
  unfold offer
  split
  · refine ⟨rfl, rfl, fun h => ?_⟩
    simp only [Watch.offer]
    split
    · dsimp only
      split
      · rfl
      · exact h
    · exact h
  · exact ⟨rfl, rfl, fun h => h⟩

namespace Session

/-- The tickets in work: the one in the worker's hand and the one that waits. -/
def openTickets (hand : Option Held) (waiting : Option Ticket) : List Ticket :=
  (hand.map (·.ticket)).toList ++ waiting.toList

@[simp] theorem openTickets_none (waiting : Option Ticket) :
    openTickets none waiting = waiting.toList := rfl

@[simp] theorem openTickets_some (h : Held) (waiting : Option Ticket) :
    openTickets (some h) waiting = h.ticket :: waiting.toList := rfl

structure Consistent (s : Session) (done : List Course) (hand : Option Held) : Prop where
  heard : ∀ n ∈ s.log, n.ticket < s.requests.length
  /-- Nothing but a failure is reported of a request that is not admitted. -/
  strays : ∀ n ∈ s.log, n.ticket ∉ s.admitted →
    n.message.milestone? = none ∨ n.message.milestone? = some (.ended .faulted)
  distinct : s.admitted.Nodup
  admitted : s.admitted = done.map (·.ticket) ++ openTickets hand s.waiting
  marks : s.marks = done.flatMap (·.marks) ++ hand.toList.flatMap (·.marks)
  tracked : s.registry.entries.map (·.2) = openTickets hand s.waiting
  names : ∀ e ∈ s.registry.entries, s.Holds e.2 (·.id = e.1)
  ids : s.registry.ids.Nodup
  finished : ∀ c ∈ done, s.Holds c.ticket fun r =>
    r.stage = c.ending.stage ∧ r.signal.isResolved = true
  held : ∀ h ∈ hand, s.Holds h.ticket fun r =>
    r.stage = h.progress.stage ∧ (h.progress = .removing → r.signal.isResolved = true)
  queued : ∀ t ∈ s.waiting, s.Holds t (·.stage = .validating)

namespace Consistent

variable {s : Session} {done : List Course} {hand : Option Held} {t : Ticket} {p q : Progress}
  {f : Request → Request} {m : Message} {ms : List Message}

theorem mem_admitted_of_done (h : Consistent s done hand) {c : Course} (hc : c ∈ done) :
    c.ticket ∈ s.admitted := by
  rw [h.admitted]
  exact List.mem_append_left _ (List.mem_map_of_mem hc)

theorem mem_admitted_of_open (h : Consistent s done hand) (ht : t ∈ openTickets hand s.waiting) :
    t ∈ s.admitted := by
  rw [h.admitted]
  exact List.mem_append_right _ ht

theorem mem_admitted_of_held (h : Consistent s done (some ⟨t, p⟩)) : t ∈ s.admitted :=
  h.mem_admitted_of_open (by simp [openTickets])

theorem mem_admitted_of_waiting (h : Consistent s done hand) (hw : s.waiting = some t) :
    t ∈ s.admitted :=
  h.mem_admitted_of_open (by simp [openTickets, hw])

theorem mem_admitted_of_entry (h : Consistent s done hand) {e : RequestId × Ticket}
    (he : e ∈ s.registry.entries) : e.2 ∈ s.admitted :=
  h.mem_admitted_of_open (h.tracked ▸ List.mem_map_of_mem he)

theorem ticket_ne_of_done (h : Consistent s done hand) (ht : t ∈ openTickets hand s.waiting)
    {c : Course} (hc : c ∈ done) : t ≠ c.ticket := by
  have hn := h.distinct
  rw [h.admitted, List.nodup_append] at hn
  exact (hn.2.2 _ (List.mem_map_of_mem hc) _ ht).symm

theorem ticket_ne_waiting (h : Consistent s done (some ⟨t, p⟩)) {u : Ticket}
    (hu : s.waiting = some u) : t ≠ u := by
  have hn := h.distinct
  rw [h.admitted, List.nodup_append] at hn
  have := hn.2.1
  simp only [openTickets_some, hu, Option.toList_some, List.nodup_cons, List.mem_singleton] at this
  exact this.1

theorem lt_of_mem_admitted (h : Consistent s done hand) (ht : t ∈ s.admitted) :
    t < s.requests.length := by
  rw [h.admitted, List.mem_append] at ht
  rcases ht with ht | ht
  · obtain ⟨c, hc, rfl⟩ := List.mem_map.1 ht
    exact (h.finished c hc).lt_length
  · rw [openTickets, List.mem_append, Option.mem_toList, Option.mem_toList] at ht
    rcases ht with ht | ht
    · obtain ⟨k, hk, rfl⟩ := Option.map_eq_some_iff.1 ht
      exact (h.held k hk).lt_length
    · exact (h.queued t ht).lt_length

theorem holds_held (h : Consistent s done (some ⟨t, p⟩)) : s.Holds t (·.stage = p.stage) :=
  (h.held _ rfl).imp fun _ hr => hr.1

/-! Parts of a step that leave the account as it is. -/

theorem enter (h : Consistent s done hand) (phase : Phase) : Consistent (s.enter phase) done hand :=
  { h with }

theorem update_steady (h : Consistent s done hand) (hf : ∀ r : Request, r.Steady (f r)) :
    Consistent (s.update t f) done hand where
  heard := by simpa using h.heard
  strays := h.strays
  distinct := h.distinct
  admitted := h.admitted
  marks := h.marks
  tracked := h.tracked
  names e he := (h.names e he).update (fun _ r _ hr => (hf r).id.trans hr) fun _ _ hr => hr
  ids := h.ids
  finished c hc := (h.finished c hc).update
    (fun _ r _ hr => ⟨(hf r).stage.trans hr.1, (hf r).signal hr.2⟩) fun _ _ hr => hr
  held k hk := (h.held k hk).update
    (fun _ r _ hr => ⟨(hf r).stage.trans hr.1, fun e => (hf r).signal (hr.2 e)⟩) fun _ _ hr => hr
  queued u hu := (h.queued u hu).update (fun _ r _ hr => (hf r).stage.trans hr) fun _ _ hr => hr

/-- What happens to a request that is not admitted does not matter. -/
theorem update_of_not_mem (h : Consistent s done hand) (ht : t ∉ s.admitted) :
    Consistent (s.update t f) done hand := by
  have ne {u : Ticket} (hu : u ∈ s.admitted) : t ≠ u := fun e => ht (e ▸ hu)
  exact {
    heard := by simpa using h.heard
    strays := h.strays
    distinct := h.distinct
    admitted := h.admitted
    marks := h.marks
    tracked := h.tracked
    names := fun e he => (h.names e he).update_of_ne (ne (h.mem_admitted_of_entry he))
    ids := h.ids
    finished := fun c hc => (h.finished c hc).update_of_ne (ne (h.mem_admitted_of_done hc))
    held := fun k hk => (h.held k hk).update_of_ne (ne (h.mem_admitted_of_open (by
      rw [Option.mem_def.1 hk]
      simp [openTickets])))
    queued := fun u hu => (h.queued u hu).update_of_ne (ne (h.mem_admitted_of_waiting hu)) }

/-- Notices that leave the marks as they are. -/
theorem notifyAll (h : Consistent s done hand) (hm : (s.notifyAll t ms).marks = s.marks)
    (hs : t ∈ s.admitted ∨ ∀ m ∈ ms, m.milestone? = none ∨ m.milestone? = some (.ended .faulted)) :
    Consistent (s.notifyAll t ms) done hand where
  heard n hn := by
    rw [requests_notifyAll]
    rcases mem_log_notifyAll hn with hn | ⟨rfl, -, hlt⟩
    · exact h.heard n hn
    · exact hlt
  strays n hn ht := by
    rw [admitted_notifyAll] at ht
    rcases mem_log_notifyAll hn with hn | ⟨rfl, hmem, -⟩
    · exact h.strays n hn ht
    · rcases hs with hs | hs
      · exact absurd hs ht
      · exact hs _ hmem
  distinct := by simpa using h.distinct
  admitted := by simpa using h.admitted
  marks := hm.trans h.marks
  tracked := by simpa using h.tracked
  names e he := by
    rw [registry_notifyAll] at he
    simpa using h.names e he
  ids := by simpa using h.ids
  finished c hc := by simpa using h.finished c hc
  held k hk := by simpa using h.held k hk
  queued u hu := by
    rw [waiting_notifyAll] at hu
    simpa using h.queued u hu

theorem notifyAll_quiet (h : Consistent s done hand) (hq : ∀ m ∈ ms, m.milestone? = none) :
    Consistent (s.notifyAll t ms) done hand := by
  refine h.notifyAll ?_ (.inr fun m hm => .inl (hq m hm))
  by_cases ht : t ∈ s.admitted
  · have hlt := h.lt_of_mem_admitted ht
    have hr : s.request? t = some s.requests[t] := List.getElem?_eq_getElem hlt
    rw [marks_notifyAll hr ht, List.filterMap_eq_nil_iff.2 hq, List.map_nil, List.append_nil]
  · exact marks_notifyAll_of_not_mem ht

theorem notify_of_not_mem (h : Consistent s done hand) (ht : t ∉ s.admitted)
    (hm : m.milestone? = some (.ended .faulted)) : Consistent (s.notify t m) done hand :=
  h.notifyAll (marks_notifyAll_of_not_mem ht) (.inr (by simp [hm]))

/-! Parts of a step that carry a request on. -/

theorem heard_notified (h : Consistent s done hand) (ht : t ∈ s.admitted) {n : Notice}
    (hn : n ∈ ((s.update t f).notifyAll t ms).log) : n.ticket < s.requests.length := by
  rcases mem_log_notifyAll hn with hn | ⟨rfl, -, -⟩
  · exact h.heard n hn
  · exact h.lt_of_mem_admitted ht

theorem strays_notified (h : Consistent s done hand) (ht : t ∈ s.admitted) {n : Notice}
    (hn : n ∈ ((s.update t f).notifyAll t ms).log) (hna : n.ticket ∉ s.admitted) :
    n.message.milestone? = none ∨ n.message.milestone? = some (.ended .faulted) := by
  rcases mem_log_notifyAll hn with hn | ⟨rfl, -, -⟩
  · exact h.strays n hn hna
  · exact absurd ht hna

theorem names_update (h : Consistent s done hand)
    (hf : ∀ r, s.request? t = some r → (f r).id = r.id) {e : RequestId × Ticket}
    (he : e ∈ s.registry.entries) : (s.update t f).Holds e.2 (·.id = e.1) := by
  refine (h.names e he).update (fun htr r hr hid => ?_) fun _ _ hid => hid
  exact (hf r (htr ▸ hr)).trans hid

/-- The request in hand passes on to the next progress, and the notices tell its new milestones. -/
theorem advance (h : Consistent s done (some ⟨t, p⟩))
    (hf : ∀ r, s.request? t = some r → (f r).id = r.id ∧ (f r).stage = q.stage ∧
      (q = .removing → (f r).signal.isResolved = true))
    (hm : q.milestones = p.milestones ++ ms.filterMap (·.milestone?)) :
    Consistent ((s.update t f).notifyAll t ms) done (some ⟨t, q⟩) := by
  have ht := h.mem_admitted_of_held
  obtain ⟨r, hr, -⟩ := h.holds_held
  have hr' : (s.update t f).request? t = some (f r) := by simp [hr]
  have hne {c : Course} (hc : c ∈ done) : t ≠ c.ticket :=
    h.ticket_ne_of_done (by simp [openTickets]) hc
  refine {
    heard := fun n hn => ?_
    strays := fun n hn hna => ?_
    distinct := by simpa using h.distinct
    admitted := by simpa using h.admitted
    marks := ?_
    tracked := by simpa using h.tracked
    names := fun e he => ?_
    ids := by simpa using h.ids
    finished := fun c hc => holds_notifyAll.2 ((h.finished c hc).update_of_ne (hne hc))
    held := ?_
    queued := fun u hu => ?_ }
  · rw [requests_notifyAll, length_requests_update]
    exact h.heard_notified ht hn
  · rw [admitted_notifyAll, admitted_update] at hna
    exact h.strays_notified ht hn hna
  · rw [marks_notifyAll hr' ht, marks_update, h.marks]
    simp [Held.marks, hm]
  · rw [registry_notifyAll, registry_update] at he
    exact holds_notifyAll.2 (h.names_update (fun r hr => (hf r hr).1) he)
  · rintro k ⟨⟩
    exact holds_notifyAll.2 ⟨f r, hr', (hf r hr).2⟩
  · rw [waiting_notifyAll, waiting_update] at hu
    exact holds_notifyAll.2 ((h.queued u hu).update_of_ne (h.ticket_ne_waiting hu))

/-- The registry's entry for the request in hand comes first, and erasing its id erases just
that. -/
theorem registry_erase (h : Consistent s done (some ⟨t, p⟩)) {r : Request}
    (hr : s.request? t = some r) :
    s.registry.entries = (r.id, t) :: (s.registry.erase r.id).entries := by
  have htracked := h.tracked
  have hids := h.ids
  have hnames := h.names
  simp only [Registry.ids, Registry.erase, openTickets_some] at htracked hids ⊢
  cases hent : s.registry.entries with
  | nil => simp [hent] at htracked
  | cons e es =>
    obtain ⟨id, u⟩ := e
    rw [hent, List.map_cons, List.cons.injEq] at htracked
    obtain ⟨rfl, -⟩ := htracked
    have hid : r.id = id := (hnames (id, u) (by simp [hent])).of_request? hr
    rw [hent, List.map_cons, List.nodup_cons] at hids
    have hkeep : ∀ x ∈ es, (x.1 != r.id) = true := by
      intro x hx
      have : x.1 ∈ es.map (·.1) := List.mem_map_of_mem hx
      simp only [bne_iff_ne, ne_eq, hid]
      intro e
      exact hids.1 (e ▸ this)
    rw [List.filter_cons_of_neg (by simp [hid]), List.filter_eq_self.2 hkeep, hid]

/-- The request in hand ends, with no probes in place, and is not tracked any longer. -/
theorem close (h : Consistent s done (some ⟨t, p⟩)) (hp : p.isClear = true) {e : Ending}
    (hf : ∀ r, s.request? t = some r → (f r).id = r.id ∧ (f r).stage = e.stage ∧
      (f r).signal.isResolved = true)
    (hm : m.milestone? = some (.ended e)) :
    Consistent (((s.update t f).notify t m).untrack t) (done ++ [⟨t, p, e, hp⟩]) none := by
  have ht := h.mem_admitted_of_held
  obtain ⟨r, hr, -⟩ := h.holds_held
  have hr' : (s.update t f).request? t = some (f r) := by simp [hr]
  have hreg : (((s.update t f).notify t m).untrack t).registry = s.registry.erase r.id := by
    have hr'' : ((s.update t f).notify t m).request? t = some (f r) := by simp [notify, hr]
    rw [registry_untrack hr'', (hf r hr).1]
    simp [notify]
  have hent := h.registry_erase hr
  have hne {c : Course} (hc : c ∈ done) : t ≠ c.ticket :=
    h.ticket_ne_of_done (by simp [openTickets]) hc
  refine {
    heard := fun n hn => ?_
    strays := fun n hn hna => ?_
    distinct := by simpa [notify] using h.distinct
    admitted := by simpa [notify, openTickets] using h.admitted
    marks := ?_
    tracked := ?_
    names := fun x hx => ?_
    ids := ?_
    finished := fun c hc => ?_
    held := by simp
    queued := fun u hu => ?_ }
  · rw [log_untrack] at hn
    rw [requests_untrack, notify, requests_notifyAll, length_requests_update]
    exact h.heard_notified ht hn
  · rw [log_untrack] at hn
    rw [admitted_untrack, notify, admitted_notifyAll, admitted_update] at hna
    exact h.strays_notified ht hn hna
  · rw [marks_untrack, notify, marks_notifyAll hr' ht, marks_update, h.marks]
    simp [Held.marks, Course.marks, Course.milestones, hm]
  · rw [hreg]
    have htracked := h.tracked
    rw [hent] at htracked
    simpa [openTickets, notify] using htracked
  · rw [hreg] at hx
    have hx' : x ∈ s.registry.entries := hent ▸ List.mem_cons_of_mem _ hx
    rw [holds_untrack, notify, holds_notifyAll]
    exact h.names_update (fun r hr => (hf r hr).1) hx'
  · rw [hreg]
    have hids := h.ids
    rw [Registry.ids, hent, List.map_cons, List.nodup_cons] at hids
    exact hids.2
  · rw [holds_untrack, notify, holds_notifyAll]
    rcases List.mem_append.1 hc with hc | hc
    · exact (h.finished c hc).update_of_ne (hne hc)
    · rw [List.mem_singleton.1 hc]
      exact ⟨f r, hr', (hf r hr).2⟩
  · rw [waiting_untrack, notify, waiting_notifyAll, waiting_update] at hu
    rw [holds_untrack, notify, holds_notifyAll]
    exact (h.queued u hu).update_of_ne (h.ticket_ne_waiting hu)

/-- The worker takes the waiting request in its hand. -/
theorem take (h : Consistent s done none) (hw : s.waiting = some t) :
    Consistent { s with waiting := none } done (some ⟨t, .taken⟩) := by
  refine { h with admitted := ?_, marks := ?_, tracked := ?_, held := ?_, queued := by simp }
  · simpa [openTickets, hw] using h.admitted
  · exact h.marks.trans (by simp [Held.marks, Progress.milestones])
  · simpa [openTickets, hw] using h.tracked
  · rintro k ⟨⟩
    exact (h.queued t hw).imp fun r hr => ⟨hr, by simp⟩

/-! Admission. -/

theorem register (h : Consistent s done hand) (r : Request) :
    Consistent (s.register r) done hand := by
  refine notifyAll_quiet ?_ (by simp [Message.milestone?])
  have old {u : Ticket} {P : Request → Prop} (hu : s.Holds u P) :
      Holds { s with requests := s.requests ++ [r.enter .validating] } u P := by
    obtain ⟨r', hr', hP⟩ := hu
    refine ⟨r', ?_, hP⟩
    have hlt := (List.getElem?_eq_some_iff.1 hr').1
    simpa [request?, List.getElem?_append_left hlt] using hr'
  exact { h with
    heard := fun n hn => by
      rw [List.length_append]
      exact Nat.lt_add_right _ (h.heard n hn)
    names := fun e he => old (h.names e he)
    finished := fun c hc => old (h.finished c hc)
    held := fun k hk => old (h.held k hk)
    queued := fun u hu => old (h.queued u hu) }

/-- A registered request of which nothing is reported yet is admitted to the empty queue. -/
theorem enlist (h : Consistent s done hand) (hw : s.waiting = none) (ht : t ∉ s.admitted)
    {r : Request} (hr : s.request? t = some r) (hstage : r.stage = .validating)
    (hquiet : ∀ n ∈ s.log, n.ticket = t → n.message.milestone? = none) {registry : Registry Ticket}
    (hins : s.registry.insert r.id t = .ok registry) :
    Consistent { s with registry := registry, waiting := some t, admitted := s.admitted ++ [t] }
      done hand := by
  obtain ⟨hnew, hent⟩ := Registry.entries_of_insert hins
  refine {
    heard := h.heard
    strays := fun n hn hna => h.strays n hn fun hmem => hna (List.mem_append_left _ hmem)
    distinct := ?_
    admitted := ?_
    marks := Eq.trans ?_ h.marks
    tracked := ?_
    names := fun e he => ?_
    ids := ?_
    finished := h.finished
    held := h.held
    queued := ?_ }
  · rw [List.nodup_append]
    refine ⟨h.distinct, by simp, ?_⟩
    rintro u hu v hv rfl
    exact ht (List.mem_singleton.1 hv ▸ hu)
  · rw [h.admitted]
    simp [openTickets, hw]
  · apply List.filterMap_congr
    intro n hn
    by_cases hnt : n.ticket = t
    · simp [hquiet n hn hnt]
    · simp [hnt]
  · rw [hent, List.map_append, h.tracked]
    simp [openTickets, hw]
  · rw [hent, List.mem_append, List.mem_singleton] at he
    rcases he with he | rfl
    · exact h.names e he
    · exact ⟨r, hr, rfl⟩
  · rw [Registry.ids, hent, List.map_append, List.nodup_append]
    refine ⟨h.ids, by simp, ?_⟩
    intro id hid id' hid' he
    rw [List.map_singleton, List.mem_singleton] at hid'
    rw [he, hid'] at hid
    exact hnew hid
  · rintro u ⟨⟩
    exact ⟨r, hr, hstage⟩

end Consistent

end Session

end MethodCapture
