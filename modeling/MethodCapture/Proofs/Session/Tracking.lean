import Mathlib.Data.List.Nodup
import Mathlib.Data.Option.Basic
import MethodCapture.Proofs.Session.Reachable

/-!
The registry tracks exactly the requests in flight: the one the worker has taken up and the one that
waits. So what a client is told about an id depends on these two alone, and a request that has ended
or was rejected leaves nothing behind.
-/

namespace MethodCapture.Session

/-- The request the worker has taken up, and the one that waits. -/
def inFlight (s : Session) : List Ticket := s.phase.current?.toList ++ s.waiting.toList

def idOf? (s : Session) (t : Ticket) : Option RequestId := (s.request? t).map (·.id)

/-- A request in flight has the id. -/
def Occupied (s : Session) (id : RequestId) : Prop := ∃ t ∈ s.inFlight, s.idOf? t = some id

variable {s s' : Session} {t : Ticket} {id : RequestId}

theorem openTickets_hand? (s : Session) : openTickets s.phase.hand? s.waiting = s.inFlight := by
  rw [openTickets, Phase.map_ticket_hand?, inFlight]

theorem Holds.idOf? (h : s.Holds t (·.id = id)) : s.idOf? t = some id := by
  obtain ⟨r, hr, rfl⟩ := h
  simp [Session.idOf?, hr]

/-! The slot of the queue is free once the worker has looked for a request. -/

@[simp] theorem waiting_exit (s : Session) : s.exit.waiting = none := by
  unfold exit
  split
  · next hw => exact hw
  · rfl

theorem waiting_retire (h : s.waiting = none) (t : Ticket) : (s.retire t).waiting = none := by
  unfold retire
  dsimp only
  split
  · exact waiting_exit _
  · rw [waiting_enter, waiting_untrack, h]

theorem waiting_take (h : s.waiting = none) (resolver : Resolver) (t : Ticket) :
    (s.take resolver t).waiting = none := by
  unfold take
  split
  · exact waiting_retire h t
  split
  · exact waiting_retire (by simp [conclude, notify, h]) t
  dsimp only
  split
  · exact waiting_retire (by simp [fail, notify, h]) t
  · simp [launch, notify, h]

theorem waiting_poll {resolver : Resolver} (h : s.poll resolver = some s') : s'.waiting = none := by
  unfold poll at h
  split at h
  · cases h
    exact waiting_exit s
  split at h
  · cases h
    exact waiting_take rfl resolver _
  · split at h <;> cases h
    exact waiting_exit s

/-! When a request is admitted. -/

theorem submit_of_allowed {policy : Policy} {p : Submission} {r : Request}
    (hp : p.toRequest s.settings = .ok r) (hr : policy.refused r.methods = []) :
    s.submit policy p = (s.register r).enqueue s.requests.length r.id := by
  rw [submit, hp]
  dsimp only
  rw [hr, if_pos List.isEmpty_nil]

theorem enqueue_ok_iff : (s.enqueue t id).2 = .ok () ↔
    ¬ s.registry.contains id = true ∧ s.phase ≠ .exited ∧ s.waiting = none := by
  have hw : s.waiting.isSome = true ↔ ¬ s.waiting = none := Option.isSome_iff_ne_none
  have he : s.hasExited = true ↔ s.phase = .exited := by simp [hasExited]
  by_cases hc : s.registry.contains id = true
  · simp [enqueue_eq, hc]
  by_cases hexited : s.phase = .exited
  · simp [enqueue_eq, hc, he.2 hexited, hexited]
  by_cases hwait : s.waiting = none
  · simp [enqueue_eq, hc, he, hexited, hwait]
  · simp [enqueue_eq, hc, he, hexited, hw, hwait]

namespace Orderly

theorem get?_eq_some_iff (h : s.Orderly) :
    s.registry.get? id = some t ↔ t ∈ s.inFlight ∧ s.idOf? t = some id := by
  obtain ⟨done, hc⟩ := h.consistent
  rw [Registry.get?_eq_some_iff hc.ids, ← openTickets_hand?, ← hc.tracked]
  constructor
  · intro hmem
    exact ⟨List.mem_map_of_mem hmem, (hc.names _ hmem).idOf?⟩
  · rintro ⟨hmem, hid⟩
    obtain ⟨⟨id', t'⟩, he, rfl⟩ := List.mem_map.1 hmem
    have hid' := (hc.names _ he).idOf?
    rw [hid, Option.some.injEq] at hid'
    exact hid' ▸ he

theorem ids_eq (h : s.Orderly) : s.registry.ids.map some = s.inFlight.map s.idOf? := by
  obtain ⟨done, hc⟩ := h.consistent
  rw [← openTickets_hand?, ← hc.tracked, Registry.ids, List.map_map, List.map_map]
  apply List.map_congr_left
  intro e he
  exact (hc.names e he).idOf?.symm

theorem contains_iff (h : s.Orderly) : s.registry.contains id = true ↔ s.Occupied id := by
  rw [Registry.contains, Option.isSome_iff_exists]
  constructor
  · rintro ⟨t, ht⟩
    exact ⟨t, h.get?_eq_some_iff.1 ht⟩
  · rintro ⟨t, ht⟩
    exact ⟨t, h.get?_eq_some_iff.2 ht⟩

theorem get?_eq_none_iff (h : s.Orderly) : s.registry.get? id = none ↔ ¬ s.Occupied id := by
  rw [← h.contains_iff, Registry.contains, Option.not_isSome_iff_eq_none]

/-- The worker has taken up exactly the tracked requests past validation. -/
theorem stage_of_current? (h : s.Orderly) (hp : s.phase.current? = some t) :
    s.Holds t fun r => r.stage = .resolving ∨ r.stage = .active ∨ r.stage = .stopping := by
  obtain ⟨done, hc⟩ := h.consistent
  cases hph : s.phase with
  | idle | exited => simp [hph, Phase.current?] at hp
  | starting u | cleaning u | active u | stopping u =>
    simp only [hph, Phase.current?, Option.some.injEq] at hp
    subst hp
    rw [hph] at hc
    exact hc.holds_held.imp fun r hr => by simp [hr, Progress.stage]

theorem stage_of_waiting (h : s.Orderly) (hw : s.waiting = some t) :
    s.Holds t (·.stage = .validating) := by
  obtain ⟨done, hc⟩ := h.consistent
  exact hc.queued t hw

theorem current?_of_stage (h : s.Orderly) (ht : t ∈ s.inFlight)
    (hs : s.Holds t (·.stage ≠ .validating)) : s.phase.current? = some t := by
  rw [inFlight, List.mem_append, Option.mem_toList, Option.mem_toList] at ht
  rcases ht with ht | ht
  · exact ht
  · obtain ⟨r, hr, hstage⟩ := h.stage_of_waiting ht
    exact absurd hstage (hs.of_request? hr)

theorem not_final_of_inFlight (h : s.Orderly) (ht : t ∈ s.inFlight) :
    s.Holds t (·.stage.isFinal = false) := by
  rw [inFlight, List.mem_append, Option.mem_toList, Option.mem_toList] at ht
  rcases ht with ht | ht
  · refine (h.stage_of_current? ht).imp fun r hr => ?_
    rcases hr with hr | hr | hr <;> rw [hr] <;> rfl
  · refine (h.stage_of_waiting ht).imp fun r hr => ?_
    rw [hr]
    rfl

theorem idOf?_ne (h : s.Orderly) {u : Ticket} (hp : s.phase.current? = some t)
    (hw : s.waiting = some u) : s.idOf? t ≠ s.idOf? u := by
  have hids := h.ids_eq
  obtain ⟨done, hc⟩ := h.consistent
  have hn := hc.ids.map (Option.some_injective RequestId)
  rw [hids, inFlight, hp, hw] at hn
  simpa using hn

theorem mem_admitted_of_inFlight (h : s.Orderly) (ht : t ∈ s.inFlight) : t ∈ s.admitted := by
  obtain ⟨done, hc⟩ := h.consistent
  rw [← openTickets_hand?] at ht
  exact hc.mem_admitted_of_open ht

theorem registry_of_exited (h : s.Orderly) (hp : s.phase = .exited) : s.registry.entries = [] := by
  obtain ⟨done, hc⟩ := h.consistent
  have ht := hc.tracked
  rw [hp, h.exited hp] at ht
  exact List.map_eq_nil_iff.1 ht

theorem tracked_eq (h : s.Orderly) : s.tracked = s.inFlight.length := by
  have := congrArg List.length h.ids_eq
  simpa [Registry.ids, tracked, Registry.size] using this

theorem query?_eq_some_iff (h : s.Orderly) {r : Request} :
    s.query? id = some r ↔ ∃ t ∈ s.inFlight, s.request? t = some r ∧ r.id = id := by
  rw [query?, Option.bind_eq_some_iff]
  constructor
  · rintro ⟨t, ht, hr⟩
    obtain ⟨hmem, hid⟩ := h.get?_eq_some_iff.1 ht
    exact ⟨t, hmem, hr, by simpa [Session.idOf?, hr] using hid⟩
  · rintro ⟨t, hmem, hr, rfl⟩
    exact ⟨t, h.get?_eq_some_iff.2 ⟨hmem, by simp [Session.idOf?, hr]⟩, hr⟩

theorem stop_of_not_occupied (h : s.Orderly) (hid : ¬ s.Occupied id) :
    s.stop id = (s, .error (.unknownRequest id)) := by
  rw [Session.stop, h.get?_eq_none_iff.2 hid]

/-- A stop resolves the signal of the one request it is for, and only if it is still open. -/
theorem stop_of_inFlight (h : s.Orderly) (ht : t ∈ s.inFlight) {r : Request}
    (hr : s.request? t = some r) :
    s.stop r.id = (if r.signal.isResolved then s
      else { s with requests := s.requests.set t { r with signal := ⟨some .explicit⟩ } },
      .ok ()) := by
  have hget : s.registry.get? r.id = some t :=
    h.get?_eq_some_iff.2 ⟨ht, by simp [Session.idOf?, hr]⟩
  obtain ⟨hlt, hr'⟩ := List.getElem?_eq_some_iff.1 hr
  rw [Session.stop, hget]
  dsimp only
  rw [update_eq_set hr]
  split
  · next hres =>
    rw [Request.resolve, StopSignal.resolve_of_isResolved hres, ← hr', List.set_getElem_self]
  · next hres =>
    have : r.signal.reason = none := by simpa [StopSignal.isResolved] using hres
    rw [Request.resolve, StopSignal.resolve, this]
    rfl

theorem submit_ok_iff (h : s.Orderly) {policy : Policy} {p : Submission} {r : Request}
    (hp : p.toRequest s.settings = .ok r) (hr : policy.refused r.methods = []) :
    (s.submit policy p).2 = .ok () ↔ ¬ s.Occupied r.id ∧ s.phase ≠ .exited ∧ s.waiting = none := by
  rw [submit_of_allowed hp hr, enqueue_ok_iff, registry_register, phase_register, waiting_register,
    h.contains_iff]

end Orderly

theorem length_inFlight_le (s : Session) : s.inFlight.length ≤ 2 := by
  rw [inFlight, List.length_append]
  cases s.phase.current? <;> cases s.waiting <;> simp

/-- Registry, queue and worker agree on the requests in flight. -/
structure SingleFlight (s : Session) : Prop where
  ids : s.registry.ids.map some = s.inFlight.map s.idOf?
  distinct : ∀ t u, s.phase.current? = some t → s.waiting = some u → s.idOf? t ≠ s.idOf? u
  tracked_le : s.tracked ≤ 2
  queued : ∀ t, s.waiting = some t → s.Holds t (·.stage = .validating)
  working : ∀ id t, s.registry.get? id = some t →
    s.Holds t (fun r => r.stage = .resolving ∨ r.stage = .active ∨ r.stage = .stopping) →
    s.phase.current? = some t

/-- Clients reach the requests in flight under their ids, and no other. -/
structure Reaches (s : Session) : Prop where
  query : ∀ id, (s.query? id).isSome = true ↔ s.Occupied id
  query_inFlight : ∀ id r, s.query? id = some r ↔
    ∃ t ∈ s.inFlight, s.request? t = some r ∧ r.id = id
  stop : ∀ id, (s.stop id).2 = .ok () ↔ s.Occupied id
  /-- A stop changes the signal of its request, and only if it is still open. -/
  stop_inFlight : ∀ t ∈ s.inFlight, ∀ r, s.request? t = some r →
    (s.stop r.id).1 = if r.signal.isResolved then s
      else { s with requests := s.requests.set t { r with signal := ⟨some .explicit⟩ } }
  stop_free : ∀ id, ¬ s.Occupied id → (s.stop id).1 = s

/-- Whether a request is admitted depends on the requests in flight alone: those that have ended or
were rejected are out of the registry, and the worker empties the queue whenever it looks for a
request. -/
structure NoResidue (s : Session) : Prop where
  submit : ∀ (policy : Policy) p r, p.toRequest s.settings = .ok r → policy.refused r.methods = [] →
    ((s.submit policy p).2 = .ok () ↔ ¬ s.Occupied r.id ∧ s.phase ≠ .exited ∧ s.waiting = none)
  finished : ∀ t, s.Holds t (·.stage.isFinal = true) → ∀ id, s.registry.get? id ≠ some t
  rejected : ∀ t, t ∉ s.admitted → ∀ id, s.registry.get? id ≠ some t
  slot : ∀ resolver s', s.wake (.poll resolver) = some s' → s'.waiting = none
  exited : s.phase = .exited → ∀ es s', s.run es = some s' → s'.registry.entries = []

theorem Orderly.singleFlight (h : s.Orderly) : s.SingleFlight where
  ids := h.ids_eq
  distinct _ _ hp hw := h.idOf?_ne hp hw
  tracked_le := h.tracked_eq ▸ s.length_inFlight_le
  queued _ hw := h.stage_of_waiting hw
  working id t ht hs := by
    refine h.current?_of_stage (h.get?_eq_some_iff.1 ht).1 (hs.imp fun r hr hv => ?_)
    simp [hv] at hr

theorem Orderly.reaches (h : s.Orderly) : s.Reaches where
  query id := by
    rw [Option.isSome_iff_exists]
    constructor
    · rintro ⟨r, hq⟩
      obtain ⟨t, ht, hr, rfl⟩ := h.query?_eq_some_iff.1 hq
      exact ⟨t, ht, by simp [Session.idOf?, hr]⟩
    · rintro ⟨t, ht, hid⟩
      obtain ⟨r, hr, rfl⟩ := Option.map_eq_some_iff.1 hid
      exact ⟨r, h.query?_eq_some_iff.2 ⟨t, ht, hr, rfl⟩⟩
  query_inFlight _ _ := h.query?_eq_some_iff
  stop id := by
    constructor
    · intro hok
      by_contra hid
      rw [h.stop_of_not_occupied hid] at hok
      cases hok
    · rintro ⟨t, ht, hid⟩
      obtain ⟨r, hr, rfl⟩ := Option.map_eq_some_iff.1 hid
      rw [h.stop_of_inFlight ht hr]
  stop_inFlight t ht r hr := by rw [h.stop_of_inFlight ht hr]
  stop_free id hid := by rw [h.stop_of_not_occupied hid]

theorem Orderly.noResidue (h : s.Orderly) : s.NoResidue where
  submit _ _ _ hp hr := h.submit_ok_iff hp hr
  finished t hs id hid := by
    obtain ⟨r, hr, hf⟩ := h.not_final_of_inFlight (h.get?_eq_some_iff.1 hid).1
    rw [hs.of_request? hr] at hf
    cases hf
  rejected t ht id hid := ht (h.mem_admitted_of_inFlight (h.get?_eq_some_iff.1 hid).1)
  slot resolver s' hw := by
    rw [Session.wake] at hw
    split at hw
    · exact waiting_poll hw
    · cases hw
  exited hp es s' hr := (h.run hr).registry_of_exited (exited_of_run hp hr)

/-- In every state that a run reaches, the registry holds the requests in flight and nothing
else. -/
theorem registry_consistent (settings : Settings) (es : List Event) (s : Session)
    (h : (ofSettings settings).run es = some s) : s.SingleFlight ∧ s.Reaches ∧ s.NoResidue :=
  ⟨(orderly_run h).singleFlight, (orderly_run h).reaches, (orderly_run h).noResidue⟩

theorem registry_consistent_sampleRun :
    ∃ s, (ofSettings .standard).run (sampleRun.take 3) = some s ∧ s.inFlight = [0, 1] ∧
      s.SingleFlight ∧ s.Reaches ∧ s.NoResidue :=
  ⟨_, rfl, rfl, registry_consistent .standard (sampleRun.take 3) _ rfl⟩

end MethodCapture.Session
