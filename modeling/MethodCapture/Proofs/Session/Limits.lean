import MethodCapture.Proofs.Session.Permits
import MethodCapture.Proofs.Surface.Guard

/-!
Capture limits. A request with a limit is given a guard of its own when it is equipped, and its
guard counts every offer that is taken through it, whenever that is. So no more offers are taken
than the limit allows, over the whole run, and the last one resolves the stop signal. A request
without a limit is given the host itself.
-/

namespace MethodCapture

namespace Request

variable {r : Request} {cs : List Change} {reason : StopReason} {accepts : Bool}

/-- What the guard of a request has counted. -/
def captured (r : Request) : Nat :=
  match r.surface with
  | some (.limited g) => g.captured
  | _ => 0

/-- The surface of a request goes with its limit. -/
structure Guarded (r : Request) : Prop where
  limit_ne_zero : r.limit ≠ some 0
  /-- The surface is handed out after validation. -/
  early : r.stage = .pending ∨ r.stage = .validating → r.surface = none
  host : r.surface = some .host → r.limit = none
  limited : ∀ g, r.surface = some (.limited g) → r.limit = some g.limit ∧ g.Sound ∧
    (g.tripped = true → r.signal.isResolved = true)
  reached : r.signal.reason = some .limitReached →
    ∃ g, r.surface = some (.limited g) ∧ g.tripped = true

theorem guarded_ofSubmission {p : Submission} (h : p.limit ≠ some 0) :
    (ofSubmission p).Guarded where
  limit_ne_zero := h
  early _ := rfl
  host := nofun
  limited := nofun
  reached := nofun

namespace Guarded

theorem enter (h : r.Guarded) {stage : Stage}
    (hs : stage = .pending ∨ stage = .validating → r.surface = none) : (r.enter stage).Guarded where
  limit_ne_zero := h.limit_ne_zero
  early := hs
  host := h.host
  limited := h.limited
  reached := h.reached

theorem enter_late (h : r.Guarded) {stage : Stage} (hs : stage ≠ .pending ∧ stage ≠ .validating) :
    (r.enter stage).Guarded :=
  h.enter fun he => (he.elim hs.1 hs.2).elim

theorem resolve (h : r.Guarded) (hr : reason ≠ .limitReached) : (r.resolve reason).Guarded where
  limit_ne_zero := h.limit_ne_zero
  early := h.early
  host := h.host
  limited g hg := ⟨(h.limited g hg).1, (h.limited g hg).2.1, fun _ => rfl⟩
  reached he := by
    cases hreason : r.signal.reason with
    | none =>
      rw [Request.resolve, StopSignal.reason_resolve, hreason] at he
      exact absurd (Option.some.inj he) hr
    | some first =>
      rw [Request.resolve, StopSignal.reason_resolve, hreason, Option.getD_some] at he
      exact h.reached (hreason.trans he)

theorem equip (h : r.Guarded) (hn : r.surface = none)
    (hs : ¬ (r.stage = .pending ∨ r.stage = .validating)) (plans : List Plan) :
    (r.equip plans).Guarded where
  limit_ne_zero := h.limit_ne_zero
  early hs' := absurd hs' hs
  host hh := by
    cases hl : r.limit with
    | none => exact hl
    | some limit =>
      simp [Request.equip, Surface.ofLimit, hl] at hh
  limited g hg := by
    cases hl : r.limit with
    | none => simp [Request.equip, Surface.ofLimit, hl] at hg
    | some limit =>
      have hg : LimitGuard.ofLimit limit = g := by
        simpa [Request.equip, Surface.ofLimit, hl] using hg
      have hpos : limit ≠ 0 := fun h0 => h.limit_ne_zero (by rw [hl, h0])
      rw [← hg]
      exact ⟨hl, LimitGuard.sound_ofLimit hpos, nofun⟩
  reached he := by
    obtain ⟨g, hg, -⟩ := h.reached he
    rw [hn] at hg
    cases hg

end Guarded

/-! Offers. -/

/-- An offer that is taken counts at the guard, and it resolves the signal if the guard trips. -/
theorem offer_of_open {g : LimitGuard} (hg : r.surface = some (.limited g))
    (ho : g.tripped = false) :
    r.offer true = { r with
      surface := some (.limited g.count)
      signal := if g.count.tripped then r.signal.resolve .limitReached else r.signal } := by
  simp [offer, hg, Watch.offer, Watch.passes, ho]

/-- Any other offer does nothing to the request. -/
theorem offer_cases (r : Request) (accepts : Bool) : r.offer accepts = r ∨
    ∃ g, r.surface = some (.limited g) ∧ g.tripped = false ∧ accepts = true := by
  obtain ⟨_, _, _, _, _, _, _, _, surface⟩ := r
  match surface with
  | none | some .host => exact .inl rfl
  | some (.limited g) =>
    by_cases htaken : g.tripped = false ∧ accepts = true
    · exact .inr ⟨g, rfl, htaken⟩
    · have hdeclined : (!g.tripped && accepts) = false := by simpa using htaken
      exact .inl (by simp [offer, Watch.offer, Watch.passes, hdeclined])

theorem Guarded.offer (h : r.Guarded) (accepts : Bool) : (r.offer accepts).Guarded := by
  rcases r.offer_cases accepts with hsame | ⟨g, hg, ho, rfl⟩
  · rwa [hsame]
  obtain ⟨hlimit, hsound, -⟩ := h.limited g hg
  rw [offer_of_open hg ho]
  refine {
    limit_ne_zero := h.limit_ne_zero
    early := fun hs => ?_
    host := nofun
    limited := ?_
    reached := fun he => ?_ }
  · have hnone := h.early hs
    rw [hg] at hnone
    cases hnone
  · rintro g' ⟨⟩
    refine ⟨hlimit, hsound.count ho, fun htripped => ?_⟩
    rw [if_pos htripped]
    rfl
  · refine ⟨g.count, rfl, ?_⟩
    by_contra hopen
    rw [if_neg hopen] at he
    obtain ⟨g', hg', htripped⟩ := h.reached he
    obtain rfl : g = g' := by simpa [hg] using hg'
    rw [ho] at htripped
    cases htripped

theorem Permits.guarded (h : r.Permits cs) (hr : r.Guarded) : (r.applyAll cs).Guarded := by
  cases h with
  | nothing => exact hr
  | submitted hs => exact hr.enter fun _ => hr.early (.inl hs)
  | refused hs =>
    have hentered : (r.enter .validating).Guarded := hr.enter fun _ => hr.early (.inl hs)
    exact (hentered.resolve (by decide)).enter_late (by decide)
  | stopped => exact hr.resolve (by decide)
  | concluded _ _ => exact hr.enter_late (by decide)
  | drained _ => exact (hr.resolve (by decide)).enter_late (by decide)
  | unresolved _ => exact ((hr.enter_late (by decide)).resolve (by decide)).enter_late (by decide)
  | launched hs plans =>
    have hentered : (r.enter .resolving).Guarded := hr.enter_late (by decide)
    exact hentered.equip (hr.early (.inr hs)) (by simp [enter]) plans
  | activated _ => exact hr.enter_late (by decide)
  | failed _ => exact (hr.resolve (by decide)).enter_late (by decide)
  | wound _ _ => exact hr.enter_late (by decide)
  | timedOut _ => exact (hr.resolve (by decide)).enter_late (by decide)
  | cutShort _ => exact (hr.resolve (by decide)).enter_late (by decide)

/-- Only offers count. -/
theorem Permits.captured_eq (h : r.Permits cs) (hr : r.Guarded) :
    (r.applyAll cs).captured = r.captured := by
  cases h with
  | launched hs plans =>
    have hnone := hr.early (.inr hs)
    cases hl : r.limit <;>
      simp [apply, captured, Request.enter, Request.equip, Surface.ofLimit, LimitGuard.ofLimit, hl,
        hnone]
  | _ => rfl

theorem takes_eq {g : LimitGuard} (hg : r.surface = some (.limited g)) (accepts : Bool) :
    r.takes accepts = (!g.tripped && accepts) := by
  simp [takes, passes, hg, Watch.passes]

theorem surface_of_takes (h : r.takes accepts = true) : r.surface.isSome = true := by
  cases hs : r.surface with
  | none => simp [takes, passes, hs] at h
  | some surface => rfl

theorem captured_offer {g : LimitGuard} (hg : r.surface = some (.limited g)) (accepts : Bool) :
    (r.offer accepts).captured = r.captured + [r.takes accepts].count true := by
  rw [takes_eq hg]
  cases ho : g.tripped <;> cases accepts <;>
    simp [offer, captured, hg, Watch.offer, Watch.passes, ho, LimitGuard.count]

/-- The surface of a request with a limit has a guard with that limit. -/
theorem Guarded.exists_guard (h : r.Guarded) {k : Nat} (hk : r.limit = some k) {surface : Surface}
    (hs : r.surface = some surface) :
    ∃ g, surface = .limited g ∧ g.limit = k ∧ g.captured = r.captured ∧ g.Sound := by
  cases surface with
  | host =>
    have hnone := h.host hs
    rw [hk] at hnone
    cases hnone
  | limited g =>
    obtain ⟨hlimit, hsound, -⟩ := h.limited g hs
    rw [hk, Option.some.injEq] at hlimit
    exact ⟨g, rfl, hlimit.symm, by rw [captured, hs], hsound⟩

theorem Guarded.captured_le (h : r.Guarded) {k : Nat} (hk : r.limit = some k) : r.captured ≤ k := by
  cases hs : r.surface with
  | none =>
    rw [captured, hs]
    exact Nat.zero_le k
  | some surface =>
    obtain ⟨g, -, hlimit, hcaptured, hsound⟩ := h.exists_guard hk hs
    rw [← hcaptured, ← hlimit]
    exact hsound.captured_le

/-- Nothing passes once the guard has counted up to the limit. -/
theorem Guarded.not_passes (h : r.Guarded) {k : Nat} (hk : r.limit = some k) (hc : k ≤ r.captured) :
    r.passes = false := by
  unfold passes
  cases hs : r.surface with
  | none => rfl
  | some surface =>
    obtain ⟨g, rfl, hlimit, hcaptured, hsound⟩ := h.exists_guard hk hs
    have htripped : g.tripped = true := by
      apply hsound.tripped_iff.2
      have := hsound.captured_le
      omega
    simp [Watch.passes, htripped]

/-- The acceptance that reaches the limit resolves the signal. -/
theorem reason_offer_last {g : LimitGuard} (hg : r.surface = some (.limited g))
    (ho : g.tripped = false) (hl : g.captured + 1 = g.limit) :
    (r.offer true).signal.reason = some (r.signal.reason.getD .limitReached) := by
  have htripped : g.count.tripped = true := by simp [LimitGuard.count, hl]
  rw [offer_of_open hg ho, if_pos htripped, StopSignal.reason_resolve]

end Request

namespace Session

variable {s s' : Session} {t : Ticket} {r : Request} {es : List Event} {e : Event}
  {settings : Settings}

theorem guarded_of_toRequest {p : Submission} (h : p.toRequest settings = .ok r) : r.Guarded := by
  obtain ⟨rfl, hlimit⟩ := eq_of_toRequest h
  exact Request.guarded_ofSubmission hlimit

theorem guarded_step (ho : s.Orderly) (hg : ∀ t r, s.request? t = some r → r.Guarded)
    (h : s.step e = some s') (hr : s'.request? t = some r) : r.Guarded :=
  request_step (fun _ _ _ => guarded_of_toRequest) (fun _ accepts hr => hr.offer accepts)
    (fun _ _ hr hcs => hcs.guarded hr) ho hg h hr

theorem guarded_of_run (h : (ofSettings settings).run es = some s) (hr : s.request? t = some r) :
    r.Guarded :=
  request_invariant (fun _ _ _ => guarded_of_toRequest) (fun _ accepts hr => hr.offer accepts)
    (fun _ _ hr hcs => hcs.guarded hr) h hr

/-- What is answered to an offer through the surface of the request `t`. -/
def reply (s : Session) (t : Ticket) : Event → List Bool
  | .capture u offer accepts => if u = t then [(s.capture u offer accepts).2] else []
  | _ => []

/-- The answers to all offers that a run makes through that surface. -/
def replies (s : Session) (t : Ticket) : List Event → List Bool
  | [] => []
  | e :: es => s.reply t e ++ ((s.step e).map (·.replies t es)).getD []

def captured (s : Session) (t : Ticket) : Nat := ((s.request? t).map (·.captured)).getD 0

theorem captured_eq (hr : s.request? t = some r) : s.captured t = r.captured := by
  rw [captured, hr]
  rfl

theorem reachesHost_eq (hr : s.request? t = some r) : s.reachesHost t = r.passes := by
  rw [reachesHost, hr, Option.any_some]

theorem capture_snd (hr : s.request? t = some r) (offer : Offer) (accepts : Bool) :
    (s.capture t offer accepts).2 = r.takes accepts := by
  unfold capture
  rw [reachesHost_eq hr, Request.takes]
  cases r.passes <;> rfl

theorem reply_eq_nil (he : ∀ offer accepts, e ≠ .capture t offer accepts) : s.reply t e = [] := by
  cases e with
  | capture u offer accepts => exact if_neg fun hu => he offer accepts (by rw [hu])
  | _ => rfl

/-- The guard of a request counts the offers that are taken. -/
theorem captured_step (ho : s.Orderly)
    (hg : ∀ r, s.request? t = some r → r.Guarded ∧ r.limit ≠ none) (h : s.step e = some s') :
    s'.captured t = s.captured t + (s.reply t e).count true := by
  by_cases he : ∃ offer accepts, e = .capture t offer accepts
  · obtain ⟨offer, accepts, rfl⟩ := he
    obtain ⟨r, hr, hsurface⟩ := (Option.any_eq_true ..).1 (surface_of_capture h)
    obtain ⟨hguarded, hlimit⟩ := hg r hr
    obtain ⟨g, hlimited⟩ : ∃ g, r.surface = some (.limited g) := by
      cases hs : r.surface with
      | none => simp [hs] at hsurface
      | some surface =>
        cases surface with
        | host => exact absurd (hguarded.host hs) hlimit
        | limited g => exact ⟨g, rfl⟩
    rw [captured_eq (request?_offered ho h hr), captured_eq hr, reply, if_pos rfl, capture_snd hr,
      Request.captured_offer hlimited]
  · have he' : ∀ offer accepts, e ≠ .capture t offer accepts := fun o a h => he ⟨o, a, h⟩
    rw [reply_eq_nil he', List.count_nil, Nat.add_zero, captured, request?_step ho h]
    cases hr : (s.request? t).or (s.made? t e) with
    | none =>
      have hnone : s.request? t = none := (Option.or_eq_none_iff.1 hr).1
      rw [captured, hnone]
      rfl
    | some r =>
      have hpermits := permits_step ho h he' hr
      rw [Option.map_some, Option.map_some, Option.getD_some]
      rcases Option.or_eq_some_iff.1 hr with hold | ⟨hnone, hnew⟩
      · rw [hpermits.captured_eq (hg r hold).1, captured_eq hold]
      · obtain ⟨_, p, -, -, hp⟩ := eq_submit_of_made? hnew
        rw [hpermits.captured_eq (guarded_of_toRequest hp), captured, hnone, (eq_of_toRequest hp).1]
        rfl

theorem replies_cons (h : s.step e = some s') :
    s.replies t (e :: es) = s.reply t e ++ s'.replies t es := by
  rw [replies, h, Option.map_some, Option.getD_some]

/-- A run counts for a request with a limit. -/
theorem captured_run (ho : s.Orderly) (hg : ∀ t r, s.request? t = some r → r.Guarded)
    (h : s.run es = some s') (hr : s'.request? t = some r) (hl : r.limit ≠ none) :
    r.captured = s.captured t + (s.replies t es).count true := by
  induction es generalizing s with
  | nil =>
    rw [← Option.some.inj h] at hr
    rw [captured_eq hr]
    rfl
  | cons e es ih =>
    obtain ⟨s₁, hstep, hrun⟩ := Option.bind_eq_some_iff.1 h
    have hlimit : ∀ r₀, s.request? t = some r₀ → r₀.Guarded ∧ r₀.limit ≠ none := by
      intro r₀ hr₀
      have hend := request?_run ho h hr₀
      rw [hr, Option.some.injEq] at hend
      rw [hend, Request.limit_applyAll] at hl
      exact ⟨hg t r₀ hr₀, hl⟩
    have hrest := ih (ho.step hstep) (fun _ _ => guarded_step ho hg hstep) hrun
    rw [hrest, captured_step ho hlimit hstep, replies_cons hstep, List.count_append, Nat.add_assoc]

/-- How many offers are taken through the surface of the request `t` in the run of `es`. -/
def taken (settings : Settings) (es : List Event) (t : Ticket) : Nat :=
  ((ofSettings settings).replies t es).count true

theorem captured_eq_taken (h : (ofSettings settings).run es = some s) (hr : s.request? t = some r)
    (hl : r.limit ≠ none) : r.captured = taken settings es t := by
  have hcount := captured_run (orderly_ofSettings settings) (fun _ _ hr => nomatch hr) h hr hl
  have hnothing : (ofSettings settings).captured t = 0 := rfl
  rw [hcount, hnothing, Nat.zero_add, taken]

/-- What holds of a request `r` with the limit `k` after the run of `es`, which leads to `s`. -/
structure Limited (settings : Settings) (es : List Event) (s : Session) (t : Ticket) (r : Request)
    (k : Nat) : Prop where
  pos : 0 < k
  /-- The surface that is handed out has a guard of its own, which counts what is taken. -/
  guard : ∀ surface, r.surface = some surface → ∃ g, surface = .limited g ∧ g.limit = k ∧
    g.captured = taken settings es t ∧ (g.tripped = true ↔ taken settings es t = k)
  taken_le : taken settings es t ≤ k
  /-- Once the limit is reached, the host sees no more offers, and none is taken. -/
  exhausted : taken settings es t = k → ∀ es' s', s.run es' = some s' → s'.reachesHost t = false ∧
    ∀ offer accepts, s'.capture t offer accepts = (s', false)
  /-- The offer that reaches the limit resolves the signal, unless it is resolved. -/
  last : taken settings es t + 1 = k → ∀ offer accepts s',
    s.step (.capture t offer accepts) = some s' → (s.capture t offer accepts).2 = true →
    s'.Holds t (·.signal.reason = some (r.signal.reason.getD .limitReached))

theorem limited_of_run (h : (ofSettings settings).run es = some s) (hr : s.request? t = some r)
    {k : Nat} (hk : r.limit = some k) : Limited settings es s t r k := by
  have hg := guarded_of_run h hr
  have hlimit : r.limit ≠ none := by simp [hk]
  have hpos : 0 < k := Nat.pos_of_ne_zero fun h0 => hg.limit_ne_zero (by rw [hk, h0])
  have hcount := captured_eq_taken h hr hlimit
  refine ⟨hpos, fun surface hs => ?_, hcount ▸ hg.captured_le hk, fun hk' es' s' hrun => ?_,
    fun hlast offer accepts s' hstep htaken => ?_⟩
  · obtain ⟨g, rfl, hgk, hgc, hsound⟩ := hg.exists_guard hk hs
    refine ⟨g, rfl, hgk, hgc.trans hcount, ?_⟩
    rw [hsound.tripped_iff, hgk, hgc, hcount]
  · have ho := orderly_run h
    have hr' := request?_run ho hrun hr
    have hwhole : (ofSettings settings).run (es ++ es') = some s' := run_trans h hrun
    have hk'' : (r.applyAll (s.changesOver t es')).limit = some k := by
      rw [Request.limit_applyAll, hk]
    have hmore := captured_run ho (fun _ _ => guarded_of_run h) hrun hr' (by simpa using hlimit)
    have hblocked : s'.reachesHost t = false := by
      rw [reachesHost_eq hr']
      refine (guarded_of_run hwhole hr').not_passes hk'' ?_
      rw [captured_eq hr] at hmore
      omega
    exact ⟨hblocked, fun offer accepts => by simp [capture, hblocked]⟩
  · rw [capture_snd hr] at htaken
    obtain ⟨surface, hs⟩ := Option.isSome_iff_exists.1 (Request.surface_of_takes htaken)
    obtain ⟨g, rfl, hgk, hgc, -⟩ := hg.exists_guard hk hs
    rw [Request.takes_eq hs] at htaken
    obtain ⟨hopen, rfl⟩ : g.tripped = false ∧ accepts = true := by simpa using htaken
    refine ⟨_, request?_offered (orderly_run h) hstep hr, ?_⟩
    exact Request.reason_offer_last hs hopen (by omega)

/-- What holds of the limit of a request. -/
structure KeepsLimit (settings : Settings) (es : List Event) (s : Session) (t : Ticket)
    (r : Request) : Prop where
  /-- The limit is that of the submission, or else that of the settings. -/
  effective : ∃ p r₀ cs, Arises settings es t p r₀ cs ∧ r = r₀.applyAll cs ∧
    r.limit = p.limit.or settings.defaultLimit
  limited : ∀ k, r.limit = some k → Limited settings es s t r k
  /-- Without a limit the host itself is handed out. -/
  unlimited : r.limit = none → (∀ surface, r.surface = some surface → surface = .host) ∧
    r.signal.reason ≠ some .limitReached

/-- In every run every admitted request keeps its limit, and no offer through the surface of one
request touches another. -/
theorem limits_kept (settings : Settings) (es : List Event) (s : Session)
    (h : (ofSettings settings).run es = some s) :
    (∀ t ∈ s.admitted, s.Holds t (KeepsLimit settings es s t)) ∧
    ∀ t u offer accepts, u ≠ t → (s.capture u offer accepts).1.request? t = s.request? t := by
  refine ⟨fun t ht => ?_, fun t u offer accepts hu => ?_⟩
  · obtain ⟨done, hc⟩ := (orderly_run h).consistent
    have hlt := hc.lt_of_mem_admitted ht
    have hr : s.request? t = some s.requests[t] := List.getElem?_eq_getElem hlt
    have hg := guarded_of_run h hr
    refine ⟨_, hr, ?_, fun k hk => limited_of_run h hr hk, fun hnone => ⟨fun surface hs => ?_, ?_⟩⟩
    · obtain ⟨p, r₀, cs, harises, heq⟩ := exists_arises h hr
      refine ⟨p, r₀, cs, harises, heq, ?_⟩
      rw [heq, Request.limit_applyAll, (eq_of_toRequest harises.asked).1]
      rfl
    · cases surface with
      | host => rfl
      | limited g =>
        have hlimit := (hg.limited g hs).1
        rw [hnone] at hlimit
        cases hlimit
    · intro hreached
      obtain ⟨g, hs, -⟩ := hg.reached hreached
      have hlimit := (hg.limited g hs).1
      rw [hnone] at hlimit
      cases hlimit
  · unfold capture
    split
    · rw [request?_update, if_neg hu, notify, request?_notifyAll]
    · rfl

/-- A request with a limit of one, and two offers while its probes are being installed. -/
def limitedRun : List Event :=
  [.submit (fun _ _ => true) { sampleSubmission 1 with limit := some 1 },
    .wake (.poll fun _ _ => .ok [sampleMethod]),
    .capture 0 ⟨sampleMethod.id, []⟩ true,
    .capture 0 ⟨sampleMethod.id, []⟩ true]

theorem limits_kept_limitedRun : ∃ s, (ofSettings .standard).run limitedRun = some s ∧
    s.Holds 0 (KeepsLimit .standard limitedRun s 0) ∧
    (ofSettings .standard).replies 0 limitedRun = [true, false] ∧
    s.Holds 0 (·.signal.reason = some .limitReached) :=
  ⟨_, rfl, (limits_kept .standard limitedRun _ rfl).1 0 (by decide), rfl, ⟨_, rfl, rfl⟩⟩

end Session

end MethodCapture
