import MethodCapture.Proofs.Session.Draining
import MethodCapture.Proofs.Session.Outcome

/-!
Shutdown. Once a session is cancelled its worker only finishes what is in flight, and nothing that
goes wrong on the way masks that: the requests complete, in order, for the reason that came first.
-/

namespace MethodCapture.Session

variable {s s' a b : Session} {t : Ticket} {es : List Event}

/-- A rejected request is not admitted later either. -/
theorem Occurs.not_admitted_of_refused (hs : s.Orderly) {policy : Policy} {p : Submission}
    {failure : Failure} (ho : s.Occurs es s' a (.submit policy p) b)
    (hlt : a.requests.length < b.requests.length)
    (hf : (a.submit policy p).2 = .error failure) : a.requests.length ∉ s'.admitted := by
  obtain ⟨done, hc⟩ := (ho.orderly hs).1.consistent
  obtain ⟨ts, hadmitted, hts⟩ := ho.evolves.admitted
  obtain ⟨after, hafter, -⟩ := ho.evolves_after
  obtain ⟨ts', hadmitted', hts'⟩ := exists_admitted_append hafter
  rw [hadmitted', hadmitted, List.mem_append, List.mem_append]
  rintro ((hold | hnew) | hlater)
  · exact hc.length_not_mem hold
  · cases hts _ hnew with
    | submitted hok =>
      rw [hf] at hok
      cases hok
  · have := hts' _ hlater
    omega

theorem captureStopped_of_isOutcome {m : Message} (ho : m.isOutcome = true)
    (hn : ∀ reason failure, m ≠ .captureFailed reason failure) : m = .captureStopped := by
  cases m with
  | captureStopped => rfl
  | captureFailed reason failure => exact absurd rfl (hn reason failure)
  | _ => cases ho

/-- What becomes of the session `s`, cancelled, in the run of `es` to `s'`, which tells `ns`. -/
structure ShutsDown (s : Session) (es : List Event) (s' : Session) (ns : List Notice) : Prop where
  log : s'.log = s.log ++ ns
  unprobed : ∀ n ∈ ns, ∀ plans c, n.message ≠ .startedProbes plans c
  /-- The failures that are told are those of rejected submissions. -/
  failures : ∀ n ∈ ns, ∀ reason failure, n.message = .captureFailed reason failure →
    n.ticket ∉ s'.admitted ∧ ∃ a policy p b, s.Occurs es s' a (.submit policy p) b ∧
      n.ticket = a.requests.length ∧ (a.submit policy p).2 = .error failure
  completed : ∀ t ∈ s.inFlight, ¬ s'.Tracks t → s'.Holds t (·.stage = .completed) ∧
    (ns.filter (·.ticket == t)).countP (·.message == .captureStopped) = 1
  /-- Requests end in the order in which they are in flight, before those admitted later. -/
  order : ∃ ts, s'.admitted = s.admitted ++ ts ∧
    (ns.filter (·.message == .captureStopped)).map (·.ticket) <+: s.inFlight ++ ts ∧
    (s'.phase = .exited →
      (ns.filter (·.message == .captureStopped)).map (·.ticket) = s.inFlight ++ ts)
  kept : ∀ t reason, s.Holds t (·.signal.reason = some reason) →
    s'.Holds t (·.signal.reason = some reason)
  stopped : ∀ t a e b reason, s.Occurs es s' a e b → a.Holds t (·.signal.reason = none) →
    a.Stops t e reason → s'.Holds t (·.signal.reason = some reason)
  shutdown : ∀ t ∈ s.inFlight, s.Holds t (·.signal.reason = none) → ¬ s'.Tracks t →
    s'.Holds t (·.signal.reason = some .shutdown) ∨
    ∃ a e b reason, s.Occurs es s' a e b ∧ a.Holds t (·.signal.reason = none) ∧
      a.Stops t e reason ∧ s'.Holds t (·.signal.reason = some reason)
  /-- A request that waits does not become active any more. -/
  queued : ∀ t r, s.waiting = some t → s.request? t = some r → ∃ r' stages,
    s'.request? t = some r' ∧ r'.path = r.path ++ stages ∧ ∀ stage ∈ stages, stage = .completed
  wakes : es.countP (·.isWake) + s'.phase.drain ≤ s.phase.drain
  /-- However the pending calls on the probes end, the worker comes to its end. -/
  returns : ∀ resolver answer, ∃ n ≤ s'.phase.drain, ∃ s'',
    s'.follow resolver answer n = some s'' ∧ s''.phase = .exited ∧ s''.registry.entries = []
  exited : s'.phase = .exited → s'.registry.entries = [] ∧ ∀ t, ¬ s'.Tracks t

section Run

variable (hs : s.Orderly) (hc : s.cancelled = true) (hrun : s.run es = some s')
include hs hc hrun

theorem exists_shutdown_log : ∃ ns, s'.log = s.log ++ ns ∧
    (∀ n ∈ ns, ∀ plans c, n.message ≠ .startedProbes plans c) ∧
    ∀ n ∈ ns, ∀ reason failure, n.message = .captureFailed reason failure →
      n.ticket ∉ s'.admitted ∧ ∃ a policy p b, s.Occurs es s' a (.submit policy p) b ∧
        n.ticket = a.requests.length ∧ (a.submit policy p).2 = .error failure := by
  obtain ⟨ns, hlog, hns⟩ := (evolves_run hrun).log
  refine ⟨ns, hlog, fun n hn plans c hm => ?_, fun n hn reason failure hm => ?_⟩
  · obtain ⟨a, e, b, ho, -, htells⟩ := (hns n hn).2
    rw [hm] at htells
    exact not_startedProbes_of_cancelled (ho.cancelled hc) htells
  · obtain ⟨a, e, b, ho, hlt, htells⟩ := (hns n hn).2
    rw [hm] at htells
    obtain ⟨policy, p, rfl, ht, hf⟩ := htells.of_cancelled (ho.cancelled hc)
    rw [ht] at hlt ⊢
    exact ⟨ho.not_admitted_of_refused hs hlt hf, a, policy, p, b, ho, rfl, hf⟩

theorem shutdown_reason (ht : t ∈ s.inFlight) (hopen : s.Holds t (·.signal.reason = none))
    (hu : ¬ s'.Tracks t) : s'.Holds t (·.signal.reason = some .shutdown) ∨
    ∃ a e b reason, s.Occurs es s' a e b ∧ a.Holds t (·.signal.reason = none) ∧
      a.Stops t e reason ∧ s'.Holds t (·.signal.reason = some reason) := by
  have hmem := hs.mem_admitted_of_inFlight ht
  have hstage := ((hs.run hrun).accounted ((extends_run hrun).admitted.subset hmem)).stage hu
  obtain ⟨r, hr, hnone⟩ := hopen
  obtain ⟨r', hr', hevolves⟩ := (evolves_run hrun).request t r hr
  obtain ⟨reason, hreason⟩ := Option.isSome_iff_exists.1 (hstage.of_request? hr').1
  rcases hevolves.resolved reason hreason with hold | ⟨a, e, b, ho, hopen, hresolves⟩
  · rw [hnone] at hold
    cases hold
  · have hlt : t < a.requests.length := hopen.lt_length
    rcases hresolves.of_cancelled (ho.cancelled hc) hlt with rfl | hstops
    · exact .inl ⟨r', hr', hreason⟩
    · exact .inr ⟨a, e, b, reason, ho, hopen, hstops, r', hr', hreason⟩

/-- A cancelled worker takes up nothing new: what waited then is never in its hand. -/
theorem current?_ne_of_waiting (hw : s.waiting = some t) : s'.phase.current? ≠ some t :=
  fun hcurrent => hs.idOf?_ne (current?_run hc hrun hcurrent) hw rfl

theorem shutdown_queued {r : Request} (hw : s.waiting = some t) (hr : s.request? t = some r) :
    ∃ r' stages, s'.request? t = some r' ∧ r'.path = r.path ++ stages ∧
      ∀ stage ∈ stages, stage = .completed := by
  obtain ⟨r', hr', hevolves⟩ := (evolves_run hrun).request t r hr
  obtain ⟨stages, hpath, hstages⟩ := hevolves.path
  refine ⟨r', stages, hr', hpath, fun stage hstage => ?_⟩
  obtain ⟨a, e, b, ho, henters⟩ := hstages stage hstage
  have hlt : t < a.requests.length := by
    have := (List.getElem?_eq_some_iff.1 hr).1
    exact Nat.lt_of_lt_of_le this ho.length_le
  obtain ⟨before, hbefore, -⟩ := ho.evolves_before
  exact henters.of_cancelled (ho.cancelled hc) hlt (current?_ne_of_waiting hs hc hbefore hw)

end Run

/-- Notices that tell no failure of `t` tell its outcomes by its completions. -/
theorem countP_captureStopped {ns : List Notice}
    (hn : ∀ n ∈ ns, n.ticket = t → ∀ reason failure, n.message ≠ .captureFailed reason failure) :
    (ns.filter (·.ticket == t)).countP (·.message == .captureStopped) =
      ((ns.filter (·.ticket == t)).map (·.message)).countP (·.isOutcome) := by
  rw [List.countP_map]
  apply List.countP_congr
  intro n hmem
  obtain ⟨hn', ht⟩ : n ∈ ns ∧ n.ticket = t := by simpa using hmem
  constructor
  · intro h
    have h : n.message = .captureStopped := by simpa using h
    simp [h, Message.isOutcome]
  · intro h
    simpa using captureStopped_of_isOutcome h (hn n hn' ht)

section Ends

variable {ns : List Notice} (hs : s.Orderly) (hrun : s.run es = some s')
  (hlog : s'.log = s.log ++ ns)
  (hfailures : ∀ n ∈ ns, ∀ reason failure, n.message = .captureFailed reason failure →
    n.ticket ∉ s'.admitted)
include hs hrun hlog hfailures

theorem shutdown_completed (ht : t ∈ s.inFlight) (hu : ¬ s'.Tracks t) :
    s'.Holds t (·.stage = .completed) ∧
      (ns.filter (·.ticket == t)).countP (·.message == .captureStopped) = 1 := by
  have hs' := hs.run hrun
  have hmem : t ∈ s'.admitted :=
    (extends_run hrun).admitted.subset (hs.mem_admitted_of_inFlight ht)
  have hmessages : s'.messages t = s.messages t ++ (ns.filter (·.ticket == t)).map (·.message) := by
    simp [messages, hlog]
  have hbefore := hs.countP_isOutcome_of_tracks (hs.tracks_iff.2 ht)
  have hcount : (ns.filter (·.ticket == t)).countP (·.message == .captureStopped) = 1 := by
    have hone := (hs'.accounted hmem).outcome_once hu
    rw [hmessages, List.countP_append, hbefore, Nat.zero_add] at hone
    rw [countP_captureStopped fun n hn hnt reason failure hm => ?_]
    · exact hone
    · exact hfailures n hn reason failure hm (hnt ▸ hmem)
  refine ⟨((hs'.accounted hmem).stage hu).imp fun r hr => hr.2.1.1 ?_, hcount⟩
  obtain ⟨n, hn, hm⟩ := List.countP_pos_iff.1 (show 0 < _ by rw [hcount]; decide)
  have hm : n.message = .captureStopped := by simpa using hm
  rw [hmessages]
  exact List.mem_append_right _ (List.mem_map.2 ⟨n, hn, hm⟩)

/-- The new outcomes are the new completions. -/
theorem shutdown_outcomes :
    s'.outcomes = s.outcomes ++ ns.filter (·.message == .captureStopped) := by
  obtain ⟨ts, hadmitted, hts⟩ := exists_admitted_append hrun
  obtain ⟨done, hc⟩ := hs.consistent
  obtain ⟨done', hc'⟩ := (hs.run hrun).consistent
  rw [outcomes, hlog, List.filter_append, outcomes]
  congr 1
  · apply List.filter_congr
    intro n hn
    have hnew : n.ticket ∉ ts := fun hmem => Nat.not_lt.2 (hts _ hmem) (hc.heard n hn)
    simp [hadmitted, hnew]
  · apply List.filter_congr
    intro n hn
    rw [Bool.eq_iff_iff, Bool.and_eq_true, decide_eq_true_eq, beq_iff_eq]
    constructor
    · rintro ⟨ho, hmem⟩
      exact captureStopped_of_isOutcome ho fun reason failure hm =>
        hfailures n hn reason failure hm hmem
    · intro hm
      refine ⟨by simp [hm, Message.isOutcome], ?_⟩
      by_contra hmem
      -- a completion is a milestone, and none is told of a request that was not admitted
      have hstray := hc'.strays n (hlog ▸ List.mem_append_right _ hn) hmem
      simp [hm, Message.milestone?] at hstray

theorem shutdown_order : ∃ ts, s'.admitted = s.admitted ++ ts ∧
    (ns.filter (·.message == .captureStopped)).map (·.ticket) <+: s.inFlight ++ ts ∧
    (s'.phase = .exited →
      (ns.filter (·.message == .captureStopped)).map (·.ticket) = s.inFlight ++ ts) := by
  obtain ⟨ts, hadmitted, -⟩ := exists_admitted_append hrun
  have hs' := hs.run hrun
  obtain ⟨done, hc⟩ := hs.consistent
  obtain ⟨done', hc'⟩ := hs'.consistent
  -- the worker ends requests in the order of their admission, so its history tells the order
  have hdone : done'.map (·.ticket) =
      done.map (·.ticket) ++ (ns.filter (·.message == .captureStopped)).map (·.ticket) := by
    rw [← hc'.tickets_of_outcomes, shutdown_outcomes hs hrun hlog hfailures, List.map_append,
      hc.tickets_of_outcomes]
  have hall : s'.admitted = done.map (·.ticket) ++ (s.inFlight ++ ts) := by
    rw [hadmitted, hc.admitted, openTickets_hand?, List.append_assoc]
  refine ⟨ts, hadmitted, ?_, fun hp => ?_⟩
  · have hpre : done'.map (·.ticket) <+: s'.admitted := by
      rw [hc'.admitted]
      exact List.prefix_append ..
    rw [hdone, hall] at hpre
    exact (List.prefix_append_right_inj _).1 hpre
  · have hend := hc'.admitted
    rw [hp, hs'.exited hp] at hend
    have hend : s'.admitted = done'.map (·.ticket) := by simpa [Phase.hand?] using hend
    rw [hdone, hall] at hend
    exact (List.append_cancel_left hend).symm

end Ends

/-- From the cancellation on nothing is started and no failure masks it: what is in flight
completes, in order and for the reason that came first, and the worker is at most three wakes from
its end. -/
theorem shutdown_never_masked (settings : Settings) (es : List Event) (s : Session)
    (h : (ofSettings settings).run es = some s) (hc : s.cancelled = true) (es' : List Event)
    (s' : Session) (hrun : s.run es' = some s') : ∃ ns, s.ShutsDown es' s' ns := by
  have hs := orderly_run h
  have hs' := hs.run hrun
  obtain ⟨ns, hlog, hunprobed, hfailures⟩ := exists_shutdown_log hs hc hrun
  have hadmitted : ∀ n ∈ ns, ∀ reason failure, n.message = .captureFailed reason failure →
      n.ticket ∉ s'.admitted := fun n hn reason failure hm => (hfailures n hn reason failure hm).1
  exact ⟨ns, {
    log := hlog
    unprobed := hunprobed
    failures := hfailures
    completed := fun t ht hu => shutdown_completed hs hrun hlog hadmitted ht hu
    order := shutdown_order hs hrun hlog hadmitted
    kept := fun t reason ⟨r, hr, hreason⟩ => by
      obtain ⟨r', hr', hevolves⟩ := (evolves_run hrun).request t r hr
      exact ⟨r', hr', hevolves.kept reason hreason⟩
    stopped := fun t a e b reason ho hopen hstops => by
      obtain ⟨_, _, _, _, hstep, _⟩ := id ho
      exact ho.kept (hstops.reason_eq hopen hstep)
    shutdown := fun t ht hopen hu => shutdown_reason hs hc hrun ht hopen hu
    queued := fun t r hw hr => shutdown_queued hs hc hrun hw hr
    wakes := drain_run hc hrun
    returns := exists_follow_exited hs' ((evolves_run hrun).cancelled hc)
    exited := fun hp => ⟨hs'.registry_of_exited hp, hs'.not_tracks_of_exited hp⟩ }⟩

theorem shutdown_never_masked_sampleRun : ∃ s s' ns,
    (ofSettings .standard).run (sampleRun.take 8) = some s ∧ s.cancelled = true ∧
    s.run (sampleRun.drop 8) = some s' ∧ s.ShutsDown (sampleRun.drop 8) s' ns ∧ s.inFlight = [1] ∧
    s'.phase = .exited := by
  obtain ⟨ns, h⟩ :=
    shutdown_never_masked .standard (sampleRun.take 8) _ rfl rfl (sampleRun.drop 8) _ rfl
  exact ⟨_, _, ns, rfl, rfl, rfl, h, rfl, rfl⟩

end MethodCapture.Session
