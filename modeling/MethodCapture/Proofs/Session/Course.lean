import MethodCapture.Proofs.Session.Frame

/-!
The course of an admitted request, as the host sees it. The worker marks it by a few notices: probes
are installed, capturing begins, probes are removed, the request ends. The marks of a session are
those of all its admitted requests in the order of the log, and the marks of one request can be read
off them.
-/

namespace MethodCapture

inductive Ending where
  | completed
  | faulted
  deriving DecidableEq

def Ending.stage : Ending → Stage
  | completed => .completed
  | faulted => .faulted

inductive Milestone where
  | installing
  | capturing
  | removing
  | ended (ending : Ending)
  deriving DecidableEq

/-- The milestone a notice stands for. A refused request has none; its failure notice is told apart
by the ticket. -/
def Message.milestone? : Message → Option Milestone
  | startedProbes .. => some .installing
  | captureStarted .. => some .capturing
  | stoppedProbes _ => some .removing
  | captureStopped => some (.ended .completed)
  | captureFailed .. => some (.ended .faulted)
  | askedPolicy _ | askedResolver _ | probeFault _ | offered .. => none

abbrev Mark := Ticket × Milestone

/-- How far the worker has come with the request in its hand. -/
inductive Progress where
  | taken
  | resolving
  | installing
  | cleaning
  | capturing
  | removing
  deriving DecidableEq

namespace Progress

def stage : Progress → Stage
  | taken => .validating
  | resolving | installing | cleaning => .resolving
  | capturing => .active
  | removing => .stopping

/-- The milestones passed so far. -/
def milestones : Progress → List Milestone
  | taken | resolving => []
  | installing => [.installing]
  | cleaning => [.installing, .removing]
  | capturing => [.installing, .capturing]
  | removing => [.installing, .capturing, .removing]

/-- Whether the request can end here: no probes are in place. -/
def isClear : Progress → Bool
  | installing | capturing => false
  | taken | resolving | cleaning | removing => true

theorem ended_not_mem_milestones (p : Progress) (e : Ending) : .ended e ∉ p.milestones := by
  cases p <;> simp [milestones]

end Progress

/-- The request in the worker's hand. -/
structure Held where
  ticket : Ticket
  progress : Progress
  deriving DecidableEq

def Held.marks (h : Held) : List Mark := h.progress.milestones.map (h.ticket, ·)

/-- A request that has ended, and how far the worker had come with it. -/
structure Course where
  ticket : Ticket
  progress : Progress
  ending : Ending
  isClear : progress.isClear = true

namespace Course

def milestones (c : Course) : List Milestone := c.progress.milestones ++ [.ended c.ending]

def marks (c : Course) : List Mark := c.milestones.map (c.ticket, ·)

theorem fst_of_mem_marks {c : Course} {m : Mark} (h : m ∈ c.marks) : m.1 = c.ticket := by
  obtain ⟨k, -, rfl⟩ := List.mem_map.1 h
  rfl

theorem filter_marks_self (c : Course) : c.marks.filter (·.1 == c.ticket) = c.marks := by
  rw [List.filter_eq_self]
  intro m hm
  simp [fst_of_mem_marks hm]

theorem filter_marks_of_ne {c : Course} {t : Ticket} (h : c.ticket ≠ t) :
    c.marks.filter (·.1 == t) = [] := by
  rw [List.filter_eq_nil_iff]
  intro m hm
  simp [fst_of_mem_marks hm, h]

theorem filter_flatMap_of_not_mem {cs : List Course} {t : Ticket} (h : t ∉ cs.map (·.ticket)) :
    (cs.flatMap marks).filter (·.1 == t) = [] := by
  induction cs with
  | nil => rfl
  | cons c cs ih =>
    rw [List.map_cons, List.mem_cons, not_or] at h
    rw [List.flatMap_cons, List.filter_append, filter_marks_of_ne (Ne.symm h.1), ih h.2]
    rfl

/-- Among the marks of courses with different tickets, those of one ticket are one whole course. -/
theorem filter_flatMap {cs : List Course} (hn : (cs.map (·.ticket)).Nodup) {c : Course}
    (hc : c ∈ cs) :
    (cs.flatMap marks).filter (·.1 == c.ticket) = c.marks := by
  induction cs with
  | nil => cases hc
  | cons d cs ih =>
    rw [List.map_cons, List.nodup_cons] at hn
    rw [List.flatMap_cons, List.filter_append]
    rcases List.mem_cons.1 hc with rfl | hc
    · rw [filter_marks_self, filter_flatMap_of_not_mem hn.1, List.append_nil]
    · have hd : d.ticket ≠ c.ticket := by
        intro e
        exact hn.1 (e ▸ List.mem_map_of_mem hc)
      rw [filter_marks_of_ne hd, ih hn.2 hc, List.nil_append]

end Course

namespace Session

/-- The milestones of the admitted requests, in the order of the log. -/
def marks (s : Session) : List Mark :=
  s.log.filterMap fun n =>
    if n.ticket ∈ s.admitted then n.message.milestone?.map (n.ticket, ·) else none

/-- What the host was told about one request. -/
def messages (s : Session) (t : Ticket) : List Message :=
  (s.log.filter (·.ticket == t)).map (·.message)

def milestones (s : Session) (t : Ticket) : List Milestone :=
  (s.messages t).filterMap (·.milestone?)

variable {s : Session} {t : Ticket}

@[simp] theorem marks_update (f : Request → Request) : (s.update t f).marks = s.marks := rfl

@[simp] theorem marks_untrack : (s.untrack t).marks = s.marks := by
  simp [marks]

theorem marks_notifyAll {r : Request} {ms : List Message} (hr : s.request? t = some r)
    (ht : t ∈ s.admitted) :
    (s.notifyAll t ms).marks = s.marks ++ (ms.filterMap (·.milestone?)).map (t, ·) := by
  simp only [marks, log_notifyAll hr, admitted_notifyAll, List.filterMap_append, List.filterMap_map,
    List.map_filterMap]
  congr 2
  funext m
  simp [ht]

theorem marks_notifyAll_of_not_mem {ms : List Message} (ht : t ∉ s.admitted) :
    (s.notifyAll t ms).marks = s.marks := by
  cases hr : s.request? t with
  | none => simp [notifyAll, hr]
  | some r => simp [marks, log_notifyAll hr, List.filterMap_append, List.filterMap_map, ht]

/-- The milestones of an admitted request are its part of the marks. -/
theorem milestones_eq (ht : t ∈ s.admitted) :
    s.milestones t = (s.marks.filter (·.1 == t)).map (·.2) := by
  simp only [milestones, messages, marks]
  induction s.log with
  | nil => rfl
  | cons n ns ih =>
    by_cases hn : n.ticket = t
    · cases hm : n.message.milestone? <;> simp [hn, ht, hm, ih]
    · rw [List.filter_cons_of_neg (by simp [hn]), ih, List.filterMap_cons]
      split
      · rfl
      · next m hm =>
        have : m.1 ≠ t := by
          intro e
          split at hm
          · obtain ⟨k, -, rfl⟩ := Option.map_eq_some_iff.1 hm
            exact hn e
          · cases hm
        simp [this]

end Session

end MethodCapture
