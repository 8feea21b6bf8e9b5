import MethodCapture.Proofs.Session.Outcome

/-!
Installing and removing probes go in pairs. The calls the worker makes are read off the marks of the
session: a request that has ended made no call or one of each, and only the request in the worker's
hand can have its probes in place.
-/

namespace MethodCapture

inductive ProbeCall where
  | install
  | remove
  deriving DecidableEq

def Milestone.call? : Milestone → Option ProbeCall
  | installing => some .install
  | removing => some .remove
  | capturing | ended _ => none

/-- The call on the probes that a message stands for. -/
def Message.probeCall? : Message → Option ProbeCall
  | startedProbes .. => some .install
  | stoppedProbes _ => some .remove
  | _ => none

theorem Message.probeCall?_eq (m : Message) : m.probeCall? = m.milestone?.bind (·.call?) := by
  cases m <;> rfl

def Mark.call? (m : Mark) : Option (Ticket × ProbeCall) := m.2.call?.map (m.1, ·)

/-- All calls on the probes, each with the request it is made for. -/
def probeCalls (ns : List Notice) : List (Ticket × ProbeCall) :=
  ns.filterMap fun n => n.message.probeCall?.map (n.ticket, ·)

/-- The calls made for one request. -/
def callsFor (t : Ticket) (ns : List Notice) : List ProbeCall :=
  (ns.filter (·.ticket == t)).filterMap (·.message.probeCall?)

theorem callsFor_eq (t : Ticket) (ns : List Notice) :
    callsFor t ns = (((ns.filter (·.ticket == t)).map (·.message)).filterMap
      (·.milestone?)).filterMap (·.call?) := by
  rw [callsFor, List.filterMap_filterMap, List.filterMap_map]
  apply List.filterMap_congr
  intro n _
  exact n.message.probeCall?_eq

/-- Probes are installed and removed for one request after the other. -/
def paired (ts : List Ticket) : List (Ticket × ProbeCall) :=
  ts.flatMap fun t => [(t, .install), (t, .remove)]

theorem paired_append (ts us : List Ticket) : paired (ts ++ us) = paired ts ++ paired us :=
  List.flatMap_append

/-- A request that is clear of probes made no call or one of each. -/
theorem Progress.calls_of_isClear {p : Progress} (h : p.isClear = true) :
    p.milestones.filterMap (·.call?) = [] ∨
      p.milestones.filterMap (·.call?) = [.install, .remove] := by
  cases p with
  | installing | capturing => cases h
  | taken | resolving => exact .inl rfl
  | cleaning | removing => exact .inr rfl

theorem filterMap_call?_map (t : Ticket) (ks : List Milestone) :
    (ks.map (t, ·)).filterMap Mark.call? = (ks.filterMap (·.call?)).map (t, ·) := by
  rw [List.filterMap_map, List.map_filterMap]
  rfl

theorem Course.calls (c : Course) : c.marks.filterMap Mark.call? = [] ∨
    c.marks.filterMap Mark.call? = [(c.ticket, .install), (c.ticket, .remove)] := by
  rw [Course.marks, filterMap_call?_map, Course.milestones, List.filterMap_append]
  rcases Progress.calls_of_isClear c.isClear with h | h
  · exact .inl (by rw [h]; rfl)
  · exact .inr (by rw [h]; rfl)

theorem Course.exists_paired (cs : List Course) :
    ∃ ts, ts.Sublist (cs.map (·.ticket)) ∧
      (cs.flatMap (·.marks)).filterMap Mark.call? = paired ts := by
  induction cs with
  | nil => exact ⟨[], .slnil, rfl⟩
  | cons c cs ih =>
    obtain ⟨ts, hsub, hts⟩ := ih
    rw [List.flatMap_cons, List.filterMap_append, hts, List.map_cons]
    rcases c.calls with h | h
    · exact ⟨ts, hsub.cons _, by rw [h, List.nil_append]⟩
    · exact ⟨c.ticket :: ts, hsub.cons_cons _, by rw [h]; rfl⟩

/-- The request in hand may have its probes in place. -/
theorem Held.calls (k : Held) : k.marks.filterMap Mark.call? = [] ∨
    k.marks.filterMap Mark.call? = [(k.ticket, .install)] ∨
    k.marks.filterMap Mark.call? = [(k.ticket, .install), (k.ticket, .remove)] := by
  rw [Held.marks, filterMap_call?_map]
  cases k.progress with
  | taken | resolving => exact .inl rfl
  | installing | capturing => exact .inr (.inl rfl)
  | cleaning | removing => exact .inr (.inr rfl)

namespace Session

variable {s : Session} {done : List Course} {hand : Option Held} {t : Ticket}

/-- Calls are made for admitted requests alone. -/
theorem Consistent.probeCalls_eq (h : Consistent s done hand) :
    probeCalls s.log = s.marks.filterMap Mark.call? := by
  rw [probeCalls, Session.marks, List.filterMap_filterMap]
  apply List.filterMap_congr
  intro n hn
  rw [Message.probeCall?_eq]
  by_cases ht : n.ticket ∈ s.admitted
  · cases hm : n.message.milestone? <;> simp [ht, Mark.call?]
  · rcases h.strays n hn ht with hm | hm <;> simp [ht, hm, Milestone.call?]

theorem Consistent.exists_paired (h : Consistent s done hand) : ∃ ts last,
    probeCalls s.log = paired ts ++ last.toList.map (·, .install) ∧
    (ts ++ last.toList).Sublist s.admitted ∧ (hand = none → last = none) := by
  obtain ⟨ts, hsub, hts⟩ := Course.exists_paired done
  rw [h.probeCalls_eq, h.marks, List.filterMap_append, hts, h.admitted]
  cases hand with
  | none =>
    refine ⟨ts, none, by simp, ?_, fun _ => rfl⟩
    simpa using hsub.trans (List.sublist_append_left ..)
  | some k =>
    have hk : [k.ticket].Sublist (openTickets (some k) s.waiting) := by
      rw [openTickets_some]
      exact (List.nil_sublist _).cons_cons _
    have hnil : ts.Sublist (done.map (·.ticket) ++ openTickets (some k) s.waiting) :=
      hsub.trans (List.sublist_append_left ..)
    rw [Option.toList_some, List.flatMap_singleton]
    rcases k.calls with hc | hc | hc
    · exact ⟨ts, none, by simp [hc], by simpa using hnil, nofun⟩
    · exact ⟨ts, some k.ticket, by simp [hc], hsub.append hk, nofun⟩
    · refine ⟨ts ++ [k.ticket], none, ?_, ?_, nofun⟩
      · rw [hc, paired_append]
        simp [paired]
      · simpa using hsub.append hk

/-- A request that is not admitted makes no call. -/
theorem Consistent.callsFor_of_not_mem (h : Consistent s done hand) (ht : t ∉ s.admitted)
    {ns : List Notice} (hns : ∀ n ∈ ns, n ∈ s.log) : callsFor t ns = [] := by
  rw [callsFor, List.filterMap_eq_nil_iff]
  intro n hn
  obtain ⟨hmem, rfl⟩ : n ∈ ns ∧ n.ticket = t := by simpa using hn
  rw [Message.probeCall?_eq]
  rcases h.strays n (hns n hmem) ht with hm | hm <;> rw [hm] <;> rfl

/-- The end of a course is its last milestone. -/
theorem Course.split_at_end {c : Course} {before after : List Milestone} {e : Ending}
    (h : c.milestones = before ++ .ended e :: after) :
    before = c.progress.milestones ∧ after = [] := by
  rw [Course.milestones] at h
  rcases List.append_eq_append_iff.1 h with ⟨l, hb, hl⟩ | ⟨l, hp, hl⟩
  · cases l with
    | nil =>
      rw [List.nil_append, List.cons.injEq] at hl
      exact ⟨by rw [hb, List.append_nil], hl.2.symm⟩
    | cons k l => simp at hl
  · cases l with
    | nil =>
      rw [List.append_nil] at hp
      rw [List.nil_append, List.cons.injEq] at hl
      exact ⟨hp.symm, hl.2⟩
    | cons k l =>
      rw [List.cons_append, List.cons.injEq] at hl
      exact absurd (by rw [hp, ← hl.1]; simp) (c.progress.ended_not_mem_milestones e)

/-- Once the outcome of a request is told, its probes are gone and stay so. -/
theorem Consistent.callsFor_outcome (h : Consistent s done hand) {before after : List Notice}
    {n : Notice} (hlog : s.log = before ++ n :: after) (ho : n.message.isOutcome = true) :
    (callsFor n.ticket before = [] ∨ callsFor n.ticket before = [.install, .remove]) ∧
      callsFor n.ticket after = [] := by
  by_cases ht : n.ticket ∈ s.admitted
  · obtain ⟨e, he⟩ := Message.isOutcome_iff.1 ho
    have hsplit : s.milestones n.ticket =
        ((before.filter (·.ticket == n.ticket)).map (·.message)).filterMap (·.milestone?) ++
          .ended e :: ((after.filter (·.ticket == n.ticket)).map (·.message)).filterMap
            (·.milestone?) := by
      simp [milestones, messages, hlog, he]
    have hu : ¬ s.Tracks n.ticket := h.not_tracks_of_ended (e := e) (by rw [hsplit]; simp)
    obtain ⟨c, -, -, hc⟩ := h.milestones_of_not_tracks ht hu
    obtain ⟨hb, ha⟩ := Course.split_at_end (hc.symm.trans hsplit)
    rw [callsFor_eq, hb, callsFor_eq, ha]
    exact ⟨Progress.calls_of_isClear c.isClear, rfl⟩
  · have hb : callsFor n.ticket before = [] :=
      h.callsFor_of_not_mem ht (by simp +contextual [hlog])
    have ha : callsFor n.ticket after = [] :=
      h.callsFor_of_not_mem ht (by simp +contextual [hlog])
    exact ⟨.inl hb, ha⟩

/-- The calls made on the probes so far. -/
structure ProbesPaired (s : Session) : Prop where
  alternate : ∃ ts last, probeCalls s.log = paired ts ++ last.toList.map (·, .install) ∧
    (ts ++ last.toList).Nodup ∧ (s.phase = .exited → last = none)
  before_outcome : ∀ before n after, s.log = before ++ n :: after → n.message.isOutcome = true →
    (callsFor n.ticket before = [] ∨ callsFor n.ticket before = [.install, .remove]) ∧
      callsFor n.ticket after = []

/-- Installing and removing probes alternate, always for the same request, and no request has its
probes installed twice. When a request ends, or the worker exits, what was installed has been
removed. -/
theorem probes_paired (settings : Settings) (es : List Event) (s : Session)
    (h : (ofSettings settings).run es = some s) : s.ProbesPaired where
  alternate := by
    obtain ⟨done, hc⟩ := (orderly_run h).consistent
    obtain ⟨ts, last, hcalls, hsub, hlast⟩ := hc.exists_paired
    refine ⟨ts, last, hcalls, hsub.nodup hc.distinct, ?_⟩
    intro hp
    apply hlast
    rw [hp]
    rfl
  before_outcome before n after hlog ho := by
    obtain ⟨done, hc⟩ := (orderly_run h).consistent
    exact hc.callsFor_outcome hlog ho

theorem probes_paired_sampleRun : ∃ s, (ofSettings .standard).run sampleRun = some s ∧
    s.ProbesPaired ∧ probeCalls s.log = paired [0, 1] :=
  ⟨_, rfl, probes_paired .standard sampleRun _ rfl, rfl⟩

end Session

end MethodCapture
