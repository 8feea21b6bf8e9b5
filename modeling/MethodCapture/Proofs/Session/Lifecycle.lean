import Mathlib.Data.List.Infix
import MethodCapture.Proofs.Session.Outcome
import MethodCapture.Proofs.Session.Permits

/-!
The ways of requests through the stages. There are six, and every request is on one of them; a
request that has come to the end of its way stays there.
-/

namespace MethodCapture

namespace Stage

def ways : List (List Stage) :=
  [[pending, validating, denied],
    [pending, validating, completed],
    [pending, validating, resolving, faulted],
    [pending, validating, resolving, completed],
    [pending, validating, resolving, active, stopping, completed],
    [pending, validating, resolving, active, stopping, faulted]]

/-- The beginnings of the ways. -/
def paths : List (List Stage) := ways.flatMap List.inits

theorem mem_paths {path : List Stage} : path ∈ paths ↔ ∃ way ∈ ways, path <+: way := by
  simp [paths]

/-- From any path that has come to `stage`, the ways go on through `stages`. -/
def Leads (stage : Stage) (stages : List Stage) : Prop :=
  ∀ path ∈ paths, path.getLast? = some stage → path ++ stages ∈ paths

instance (stage : Stage) (stages : List Stage) : Decidable (Leads stage stages) := by
  unfold Leads
  infer_instance

/-- A path that has come to a final stage is a whole way. -/
theorem mem_ways_of_final {path : List Stage} (h : path ∈ paths)
    (hf : path.getLast?.any (·.isFinal) = true) : path ∈ ways := by
  have hall : ∀ path ∈ paths, path.getLast?.any (·.isFinal) = true → path ∈ ways := by decide
  exact hall path h hf

theorem eq_of_prefix_of_final {path path' : List Stage} (h : path ∈ paths) (h' : path' ∈ paths)
    (hp : path <+: path') (hf : path.getLast?.any (·.isFinal) = true) : path' = path := by
  have hfree : ∀ way ∈ ways, ∀ way' ∈ ways, way <+: way' → way = way' := by decide
  obtain ⟨way, hway, hpre⟩ := mem_paths.1 h'
  have hwhole := hfree path (mem_ways_of_final h hf) way hway (hp.trans hpre)
  exact (hwhole ▸ hpre).eq_of_length_le hp.length_le

end Stage

namespace Request

variable {r : Request} {cs : List Change}

theorem getLast?_path (r : Request) : r.path.getLast? = some r.stage := by
  simp [path]

theorem path_offer (r : Request) (accepts : Bool) : (r.offer accepts).path = r.path := by
  unfold offer
  split <;> rfl

/-- A request on a way stays on a way. -/
theorem Permits.path_mem (h : r.Permits cs) (hr : r.path ∈ Stage.paths) :
    (r.applyAll cs).path ∈ Stage.paths := by
  have leads {stage : Stage} {stages : List Stage} (hs : r.stage = stage)
      (hl : stage.Leads stages) : r.path ++ stages ∈ Stage.paths :=
    hl r.path hr (hs ▸ r.getLast?_path)
  rw [path_applyAll]
  cases h with
  | nothing | stopped => simpa [Change.stage?] using hr
  | submitted hs => exact leads hs (by decide)
  | refused hs => exact leads hs (by decide)
  | concluded hs _ =>
    rcases hs with hs | hs
    · exact leads hs (by decide)
    · exact leads hs (by decide)
  | drained hs =>
    rcases hs with hs | hs
    · exact leads hs (by decide)
    · exact leads hs (by decide)
  | unresolved hs => exact leads hs (by decide)
  | launched hs plans => exact leads hs (show Stage.validating.Leads [.resolving] by decide)
  | activated hs => exact leads hs (by decide)
  | failed hs =>
    rcases hs with hs | hs
    · exact leads hs (by decide)
    · exact leads hs (by decide)
  | wound hs _ => exact leads hs (by decide)
  | timedOut hs => exact leads hs (by decide)
  | cutShort hs => exact leads hs (by decide)

end Request

namespace Session

variable {s s' : Session} {t : Ticket} {r : Request} {es : List Event} {settings : Settings}

theorem path_mem (h : (ofSettings settings).run es = some s) (hr : s.request? t = some r) :
    r.path ∈ Stage.paths := by
  refine request_invariant (fun p settings r hp => ?_) (fun r accepts hr => ?_)
    (fun r cs hr hcs => hcs.path_mem hr) h hr
  · rw [(eq_of_toRequest hp).1]
    show [Stage.pending] ∈ Stage.paths
    decide
  · rwa [r.path_offer]

theorem path_prefix (h : s.run es = some s') (hr : s.request? t = some r) :
    s'.Holds t fun r' => r.path <+: r'.path := by
  obtain ⟨r', hr', hevolves⟩ := (evolves_run h).request t r hr
  obtain ⟨stages, hpath, -⟩ := hevolves.path
  exact ⟨r', hr', stages, hpath.symm⟩

/-- A request in a final stage stays there. -/
theorem final_run {es' : List Event} (h : (ofSettings settings).run es = some s)
    (hr : s.request? t = some r) (hf : r.stage.isFinal = true) (hrun : s.run es' = some s') :
    s'.Holds t fun r' => r'.stage = r.stage ∧ r'.path = r.path := by
  obtain ⟨r', hr', hpre⟩ := path_prefix hrun hr
  have hwhole : (ofSettings settings).run (es ++ es') = some s' := run_trans h hrun
  have hpath : r'.path = r.path := by
    refine Stage.eq_of_prefix_of_final (path_mem h hr) (path_mem hwhole hr') hpre ?_
    rw [r.getLast?_path]
    exact hf
  have hlast := congrArg List.getLast? hpath
  rw [r'.getLast?_path, r.getLast?_path, Option.some.injEq] at hlast
  exact ⟨r', hr', hlast, hpath⟩

/-- What holds of the stages of all requests, at every point of a run. -/
structure Lifecycle (s : Session) : Prop where
  way : ∀ t r, s.request? t = some r → ∃ way ∈ Stage.ways, r.path <+: way
  grown : ∀ t r, s.request? t = some r → ∀ es s', s.run es = some s' →
    s'.Holds t fun r' => r.path <+: r'.path
  /-- A final stage is never left. -/
  final : ∀ t r, s.request? t = some r → r.stage.isFinal = true → ∀ es s', s.run es = some s' →
    s'.Holds t fun r' => r'.stage = r.stage ∧ r'.path = r.path
  /-- The stages with probes are those between the start of capturing and the outcome. -/
  probed : ∀ t, s.Tracks t → s.Holds t fun r => (r.stage.isProbed = true ↔
    (∃ m ∈ s.messages t, m.isStart = true) ∧ ∀ m ∈ s.messages t, m.isOutcome = false)
  unresolved : ∀ t ∈ s.admitted, s.Holds t fun r =>
    r.signal.isResolved = false → r.stage.isFinal = false

theorem exists_isStart_iff :
    (∃ m ∈ s.messages t, m.isStart = true) ↔ .capturing ∈ s.milestones t := by
  simp only [milestones, List.mem_filterMap, Message.isStart_iff]

/-- The worker's progress with a tracked request tells its milestones and its stage. -/
theorem Consistent.exists_progress {done : List Course} {hand : Option Held}
    (h : Consistent s done hand) (ht : s.Tracks t) :
    ∃ p : Progress, s.milestones t = p.milestones ∧ s.Holds t (·.stage = p.stage) := by
  rw [h.tracks_iff, openTickets, List.mem_append] at ht
  rcases ht with ht | ht
  · obtain ⟨k, rfl, rfl⟩ := Option.map_eq_some_iff.1 (Option.mem_toList.1 ht)
    exact ⟨k.progress, h.milestones_held, h.holds_held⟩
  · have hw := Option.mem_toList.1 ht
    exact ⟨.taken, h.milestones_waiting hw, h.queued t hw⟩

theorem Orderly.probed (h : s.Orderly) (ht : s.Tracks t) :
    s.Holds t fun r => (r.stage.isProbed = true ↔
      (∃ m ∈ s.messages t, m.isStart = true) ∧ ∀ m ∈ s.messages t, m.isOutcome = false) := by
  obtain ⟨done, hc⟩ := h.consistent
  obtain ⟨p, hp, hstage⟩ := hc.exists_progress ht
  have hopen := fun m (hm : m ∈ s.messages t) => h.isOutcome_eq_false ht hm
  refine hstage.imp fun r hr => ?_
  rw [exists_isStart_iff, hp, hr, and_iff_left hopen]
  cases p <;> decide

/-- Every request goes one of six ways through the stages and stops at its end; a tracked request
has probes from the start of capturing to its outcome; no request ends with its stop signal
unresolved. -/
theorem requests_go_their_ways (settings : Settings) (es : List Event) (s : Session)
    (h : (ofSettings settings).run es = some s) : s.Lifecycle := by
  have ho := orderly_run h
  refine {
    way := fun t r hr => Stage.mem_paths.1 (path_mem h hr)
    grown := fun t r hr es' s' hrun => path_prefix hrun hr
    final := fun t r hr hf es' s' hrun => final_run h hr hf hrun
    probed := fun t ht => ho.probed ht
    unresolved := fun t ht => ?_ }
  by_cases hu : s.Tracks t
  · exact (ho.not_final_of_inFlight (ho.tracks_iff.1 hu)).imp fun r hr _ => hr
  · refine ((ho.accounted ht).stage hu).imp fun r hr hopen => ?_
    rw [hr.1] at hopen
    cases hopen

theorem requests_go_their_ways_sampleRun :
    ∃ s, (ofSettings .standard).run (sampleRun.take 9) = some s ∧ s.Lifecycle ∧ s.Tracks 1 ∧
      s.Holds 0 (·.path = [.pending, .validating, .resolving, .faulted]) ∧
      s.Holds 1 (·.path = [.pending, .validating, .resolving, .active, .stopping]) :=
  ⟨_, rfl, requests_go_their_ways .standard (sampleRun.take 9) _ rfl, ⟨.ofNat 2, by decide⟩,
    ⟨_, rfl, by decide⟩, ⟨_, rfl, by decide⟩⟩

end Session

end MethodCapture
