import MethodCapture.Proofs.Method.Resolution
import MethodCapture.Proofs.Session.Probes

/-!
Probes are installed for all methods a request names, or for none. The worker asks about the
descriptions of a request when it takes it up; only if each of them names a method does it have
probes installed, each method with its instructions, and otherwise the request fails there and then.
-/

namespace MethodCapture.Session

variable {s s' a b : Session} {t : Ticket} {r : Request} {resolver : Resolver}

/-! What is told of one request. -/

@[simp] theorem messages_update (f : Request → Request) :
    (s.update t f).messages = s.messages :=
  rfl

@[simp] theorem messages_enter (phase : Phase) : (s.enter phase).messages = s.messages := rfl

@[simp] theorem messages_untrack (u : Ticket) : (s.untrack u).messages = s.messages := by
  funext t
  simp [messages]

theorem messages_notifyAll (hr : s.request? t = some r) (ms : List Message) :
    (s.notifyAll t ms).messages t = s.messages t ++ ms := by
  rw [messages, log_notifyAll hr, List.filter_append, List.map_append, messages]
  simp [List.filter_map, Function.comp_def]

/-- Nothing has been told of a request that is still to come. -/
theorem filter_ticket_log (ho : s.Orderly) (ht : s.requests.length ≤ t) :
    s.log.filter (·.ticket == t) = [] := by
  obtain ⟨done, hc⟩ := ho.consistent
  rw [List.filter_eq_nil_iff]
  intro n hn hnt
  have hlt := hc.heard n hn
  obtain rfl : n.ticket = t := by simpa using hnt
  exact absurd hlt (Nat.not_lt.2 ht)

theorem request?_asking (h : s.Takes t r) (resolver : Resolver) :
    (s.asking t r resolver).request? t = some (r.enter .resolving) := by
  have hr : { s with waiting := none }.request? t = some r := h.request
  simp [asking, hr]

theorem messages_asking (h : s.Takes t r) (resolver : Resolver) :
    (s.asking t r resolver).messages t = s.messages t ++
      (Resolution.asked (Resolution.answers resolver r.methods)).map .askedResolver := by
  have hr : { s with waiting := none }.request? t = some r := h.request
  rw [asking, messages_notifyAll (r := r.enter .resolving) (by simp [hr])]
  rfl

theorem Takes.wake_eq (h : s.Takes t r) (hw : s.wake (.poll resolver) = some s') :
    s' = { s with waiting := none }.take resolver t := by
  rw [wake] at hw
  split at hw
  · rw [poll, if_neg (by simp [h.cancelled]), h.waiting] at hw
    exact (Option.some.inj hw).symm
  · cases hw

theorem Takes.messages_launched (h : s.Takes t r) (hw : s.wake (.poll resolver) = some s')
    {methods : List Method}
    (hm : Resolution.outcome (Resolution.answers resolver r.methods) = .ok methods) :
    s'.messages t = s.messages t ++
      (Resolution.asked (Resolution.answers resolver r.methods)).map .askedResolver ++
        [.startedProbes (methods.map fun m => ⟨m, m.instructions s.settings.nestingLimit⟩)
          false] := by
  have hr := request?_asking h resolver
  have hsettings : (s.asking t r resolver).settings = s.settings := by simp [asking]
  have hcancelled : (s.asking t r resolver).cancelled = false := by simp [asking, h.cancelled]
  rw [h.wake_eq hw, h.take_eq, hm]
  dsimp only
  rw [launch, hsettings, hcancelled, notify, messages_notifyAll (r := (r.enter .resolving).equip
    (methods.map (Plan.ofMethod s.settings.nestingLimit))) (by simp [hr]), messages_enter,
    messages_update, messages_asking h]
  rfl

/-- A request that fails while the session is not cancelled is left with its failure as the last it
hears. -/
theorem messages_fail_retire (hr : s.request? t = some r) (hc : s.cancelled = false) (e : Failure) :
    ((s.fail t e).retire t).messages t = s.messages t ++ [.captureFailed e.processingReason e] := by
  have hcancelled : ¬ ((s.fail t e).untrack t).cancelled = true := by simp [fail, notify, hc]
  rw [retire, if_neg hcancelled, messages_enter, messages_untrack, fail, notify,
    messages_notifyAll (r := (r.resolve .cancelled).enter .faulted) (by simp [hr]), messages_update]

theorem Takes.messages_failed (h : s.Takes t r) (hw : s.wake (.poll resolver) = some s')
    {e : Failure} (he : Resolution.outcome (Resolution.answers resolver r.methods) = .error e) :
    s'.messages t = s.messages t ++
      (Resolution.asked (Resolution.answers resolver r.methods)).map .askedResolver ++
        [.captureFailed e.processingReason e] := by
  have hcancelled : (s.asking t r resolver).cancelled = false := by simp [asking, h.cancelled]
  rw [h.wake_eq hw, h.take_eq, he]
  dsimp only
  rw [messages_fail_retire (request?_asking h resolver) hcancelled, messages_asking h]

/-! Submissions. -/

theorem refused_eq_nil_iff {policy : Policy} {ds : List Description} :
    policy.refused ds = [] ↔ ∀ n d, ds[n]? = some d → policy n d = true := by
  rw [Policy.refused, List.map_eq_nil_iff, List.filter_eq_nil_iff]
  constructor
  · intro hall n d hd
    have := hall (d, n) (List.mem_zipIdx_iff_getElem?.2 hd)
    simpa using this
  · intro hall x hx
    simp [hall x.2 x.1 (List.mem_zipIdx_iff_getElem?.1 hx)]

/-- A submission that succeeds made a request for the methods it names, all of them allowed. -/
theorem methods_submit_of_ok {policy : Policy} {p : Submission}
    (h : (s.submit policy p).2 = .ok ()) :
    (s.submit policy p).1.Holds s.requests.length (·.methods = p.methods) ∧
      ∀ n d, p.methods[n]? = some d → policy n d = true := by
  obtain ⟨r, hp, hallowed, hsubmit⟩ := exists_submit_of_ok h
  have hmethods := methods_of_toRequest hp
  rw [hsubmit]
  exact ⟨⟨_, request?_register r, hmethods⟩, refused_eq_nil_iff.1 (hmethods ▸ hallowed)⟩

/-! Taking a request up. -/

/-- In the run of `es` to `s`, the worker takes the request `t` up, which is then `r`: it asks
`resolver`, and the session goes from `a` to `b`. -/
structure TakenUp (settings : Settings) (es : List Event) (s : Session) (t : Ticket) (r : Request)
    (resolver : Resolver) (a b : Session) : Prop where
  occurs : (ofSettings settings).Occurs es s a (.wake (.poll resolver)) b
  admitted : t ∈ a.admitted
  takes : a.Takes t r

variable {settings : Settings} {es : List Event}

theorem mem_messages {m : Message} :
    m ∈ s.messages t ↔ ∃ n ∈ s.log, n.ticket = t ∧ n.message = m := by
  simp [messages, and_assoc]

/-- Whatever the host is told of a request, some step of the run tells it, and the request is there
then. -/
theorem exists_told (h : (ofSettings settings).run es = some s) {m : Message}
    (hm : m ∈ s.messages t) : ∃ a e b, (ofSettings settings).Occurs es s a e b ∧
      t < b.requests.length ∧ a.Tells e t m := by
  obtain ⟨ns, hlog, hns⟩ := exists_notices_append h t
  have hempty : (ofSettings settings).log.filter (·.ticket == t) = [] := rfl
  rw [messages, hlog, hempty, List.nil_append, List.mem_map] at hm
  obtain ⟨n, hn, rfl⟩ := hm
  exact hns n hn

namespace TakenUp

variable (h : TakenUp settings es s t r resolver a b)
include h

theorem wake_eq : a.wake (.poll resolver) = some b := h.occurs.step_eq

theorem settings_eq : a.settings = settings := by
  obtain ⟨before, -, hevolves⟩ := h.occurs.evolves_before
  exact hevolves.settings

/-- The request was submitted in the run, and the policy allowed every method it names. -/
theorem submitted : ∃ policy p c d, (ofSettings settings).Occurs es s c (.submit policy p) d ∧
    (c.submit policy p).2 = .ok () ∧ t = c.requests.length ∧ r.methods = p.methods ∧
    ∀ n m, p.methods[n]? = some m → policy n m = true := by
  obtain ⟨before, hbefore, hearlier⟩ := h.occurs.exists_before
  obtain ⟨ts, hadmitted, hts⟩ := (evolves_run hbefore).admitted
  have ht : t ∈ ts := by simpa [hadmitted, ofSettings] using h.admitted
  obtain ⟨c, e, d, ho, hadmits⟩ := hts t ht
  cases hadmits with
  | submitted hok =>
    next policy p =>
    obtain ⟨⟨r₁, hr₁, hmethods⟩, hallowed⟩ := methods_submit_of_ok hok
    have hd : d = (c.submit policy p).1 := by
      obtain ⟨_, _, _, _, hsubmit, _⟩ := ho
      cases steps_of_step hsubmit
      rfl
    obtain ⟨_, _, hevolves⟩ := ho.evolves_after
    obtain ⟨r₂, hr₂, hkept⟩ := hevolves.request _ r₁ (hd ▸ hr₁)
    have hr : r₂ = r := Option.some.inj (hr₂.symm.trans h.takes.request)
    exact ⟨policy, p, c, d, hearlier c _ d ho, hok, rfl, hr ▸ hkept.methods.trans hmethods,
      hallowed⟩

/-- The host has heard of no milestone of the request yet. -/
theorem milestones_eq : a.milestones t = [] := by
  obtain ⟨done, hc⟩ := (h.occurs.orderly (orderly_ofSettings settings)).1.consistent
  exact hc.milestones_waiting h.takes.waiting

/-- The plans that go with the answers of the resolver, if every description names a method. -/
theorem launched {lists : List (List Method)} (hl : Resolution.Answered resolver r.methods lists)
    (hne : [] ∉ lists) : b.messages t = a.messages t ++ r.methods.map .askedResolver ++
      [.startedProbes ((Resolution.firsts lists.flatten).map fun m =>
        ⟨m, m.instructions settings.nestingLimit⟩) false] := by
  have hmessages := h.takes.messages_launched h.wake_eq (Resolution.outcome_of_named hl hne)
  rwa [Resolution.asked_of_answered hl, Resolution.distinct_eq_firsts, h.settings_eq] at hmessages

end TakenUp

/-- The request fails when it is taken up, after the resolver was asked about `ds`: the failure `e`
is its only outcome in the session `s`, and its probes are never installed. -/
structure FailsUnprobed (s a b : Session) (t : Ticket) (ds : List Description)
    (e : Failure) : Prop where
  told : b.messages t = a.messages t ++ ds.map .askedResolver ++
    [.captureFailed e.processingReason e]
  outcome : (s.messages t).filter (·.isOutcome) = [.captureFailed e.processingReason e]
  faulted : s.Holds t (·.stage = .faulted)
  unprobed : ∀ plans c, .startedProbes plans c ∉ s.messages t

theorem filter_isOutcome_of_milestones {t : Ticket} (h : s.milestones t = []) :
    (s.messages t).filter (·.isOutcome) = [] := by
  have hcount : (s.messages t).countP (·.isOutcome) = 0 := by
    rw [countP_isOutcome, ← milestones, h]
    rfl
  rw [List.countP_eq_length_filter] at hcount
  exact List.length_eq_zero_iff.1 hcount

/-- A request whose first milestone is its failure has no other. -/
theorem Orderly.milestones_of_failed (hs : s.Orderly) (hx : b.Extends s) (ht : t ∈ b.admitted)
    (hm : b.milestones t = [.ended .faulted]) :
    s.milestones t = [.ended .faulted] := by
  obtain ⟨rest, hrest⟩ := messages_prefix hx t
  have hsplit : s.milestones t = [] ++ .ended .faulted :: rest.filterMap (·.milestone?) := by
    rw [milestones, ← hrest, List.filterMap_append, ← milestones, hm]
    rfl
  obtain ⟨done, hc⟩ := hs.consistent
  have hu : ¬ s.Tracks t := hc.not_tracks_of_ended (e := .faulted) (by rw [hsplit]; simp)
  obtain ⟨c, -, -, hcourse⟩ := hc.milestones_of_not_tracks (hx.admitted.subset ht) hu
  obtain ⟨-, hafter⟩ := Course.split_at_end (hcourse.symm.trans hsplit)
  rw [hsplit, hafter]
  rfl

theorem TakenUp.failsUnprobed (hrun : (ofSettings settings).run es = some s)
    (h : TakenUp settings es s t r resolver a b) {ds : List Description} {e : Failure}
    (hasked : Resolution.asked (Resolution.answers resolver r.methods) = ds)
    (he : Resolution.outcome (Resolution.answers resolver r.methods) = .error e) :
    FailsUnprobed s a b t ds e := by
  have htold := h.takes.messages_failed h.wake_eq he
  rw [hasked] at htold
  have hb := (h.occurs.orderly (orderly_ofSettings settings)).2
  have hs := orderly_run hrun
  obtain ⟨after, hafter, hevolves⟩ := h.occurs.evolves_after
  have ht : t ∈ b.admitted := h.occurs.evolves.extends.admitted.subset h.admitted
  have hmilestones : b.milestones t = [.ended .faulted] := by
    have ha := h.milestones_eq
    rw [milestones] at ha ⊢
    rw [htold, List.filterMap_append, List.filterMap_append, ha, List.filterMap_map]
    have hnone : ds.filterMap ((·.milestone?) ∘ Message.askedResolver) = [] :=
      List.filterMap_eq_nil_iff.2 fun _ _ => rfl
    rw [hnone]
    rfl
  have hend := hs.milestones_of_failed hevolves.extends ht hmilestones
  have hu : ¬ b.Tracks t := by
    obtain ⟨done, hc⟩ := hb.consistent
    exact hc.not_tracks_of_ended (e := .faulted) (by simp [hmilestones])
  obtain ⟨hu', hfinal⟩ := hb.outcome_final ht hu hafter
  refine ⟨htold, ?_, ?_, fun plans c hmem => ?_⟩
  · rw [hfinal, htold, List.filter_append, List.filter_append,
      filter_isOutcome_of_milestones h.milestones_eq]
    simp [Message.isOutcome]
  · refine ((hs.accounted (hevolves.extends.admitted.subset ht)).stage hu').imp fun r hr => ?_
    exact hr.2.2.1 (captureFailed_mem_messages.2 (by simp [hend]))
  · have hinstalling : .installing ∈ s.milestones t := List.mem_filterMap.2 ⟨_, hmem, rfl⟩
    rw [hend] at hinstalling
    simp at hinstalling

/-- What is done in the run of `es` to `s` about the probes of the request `t`. -/
structure Instrumentation (settings : Settings) (es : List Event) (s : Session)
    (t : Ticket) : Prop where
  /-- Probes are installed exactly if the request is taken up and every description names a method,
  and then for those methods, each of them once and with the instructions for its slots. -/
  started : ∀ plans c, .startedProbes plans c ∈ s.messages t ↔ c = false ∧
    ∃ r resolver a b lists, TakenUp settings es s t r resolver a b ∧
      Resolution.Answered resolver r.methods lists ∧ [] ∉ lists ∧
      plans = (Resolution.firsts lists.flatten).map fun m =>
        ⟨m, m.instructions settings.nestingLimit⟩
  once : t ∈ s.admitted → (s.messages t).countP (·.probeCall? == some .install) ≤ 1
  distinct : ∀ plans c, .startedProbes plans c ∈ s.messages t → (plans.map (·.method.id)).Nodup
  submitted : ∀ r resolver a b, TakenUp settings es s t r resolver a b →
    ∃ policy p c d, (ofSettings settings).Occurs es s c (.submit policy p) d ∧
      (c.submit policy p).2 = .ok () ∧ t = c.requests.length ∧ r.methods = p.methods ∧
      ∀ n m, p.methods[n]? = some m → policy n m = true
  launched : ∀ r resolver a b lists, TakenUp settings es s t r resolver a b →
    Resolution.Answered resolver r.methods lists → [] ∉ lists →
    b.messages t = a.messages t ++ r.methods.map .askedResolver ++
      [.startedProbes ((Resolution.firsts lists.flatten).map fun m =>
        ⟨m, m.instructions settings.nestingLimit⟩) false]
  /-- Without a failure of the resolver, the descriptions that name nothing are reported. -/
  unnamed : ∀ r resolver a b lists, TakenUp settings es s t r resolver a b →
    Resolution.Answered resolver r.methods lists → [] ∈ lists →
    FailsUnprobed s a b t r.methods (.unresolvedMethods (Resolution.unnamed r.methods lists)) ∧
      (Failure.unresolvedMethods (Resolution.unnamed r.methods lists)).processingReason =
        .unresolvedMethods ∧
      (Failure.unresolvedMethods (Resolution.unnamed r.methods lists)).text =
        "Unresolved methods - " ++
          ", ".intercalate ((Resolution.unnamed r.methods lists).map Description.text)
  /-- The first failure of the resolver is reported, and it is not asked any further. -/
  failed : ∀ r resolver a b before d after lists e, TakenUp settings es s t r resolver a b →
    r.methods = before ++ d :: after → Resolution.Answered resolver before lists →
    resolver before.length d = .error e → FailsUnprobed s a b t (before ++ [d]) e

end MethodCapture.Session
