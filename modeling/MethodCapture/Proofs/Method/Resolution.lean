import Mathlib.Data.List.Nodup
import MethodCapture.Method.Resolution

/-!
What resolution comes to. It depends on the answers in the order of the descriptions: on the first
failure if there is one, else on the descriptions without methods, and only then on the methods.
-/

namespace MethodCapture.Resolution

variable {resolver : Resolver} {ds before after : List Description} {lists : List (List Method)}
  {d : Description} {e : Failure}

/-- The resolver has an answer for each of the descriptions, in their order. -/
def Answered (resolver : Resolver) (ds : List Description) (lists : List (List Method)) : Prop :=
  ds.mapIdx resolver = lists.map .ok

theorem Answered.length_eq (h : Answered resolver ds lists) : ds.length = lists.length := by
  simpa using congrArg List.length h

/-- The answers to descriptions that all have one. -/
def allFound (fs : List (Description × List Method)) : List ResolverAnswer :=
  fs.map fun f => (f.1, .ok f.2)

theorem answers_of_answered (h : Answered resolver ds lists) :
    answers resolver ds = allFound (ds.zip lists) := by
  unfold Answered at h
  induction ds generalizing resolver lists with
  | nil => rfl
  | cons d ds ih =>
    cases lists with
    | nil => simp at h
    | cons ms lists =>
      rw [List.mapIdx_cons, List.map_cons, List.cons.injEq] at h
      have hrest := ih h.2
      rw [answers] at hrest ⊢
      rw [List.mapIdx_cons, hrest, h.1]
      rfl

theorem asked_allFound (fs : List (Description × List Method)) (as : List ResolverAnswer) :
    asked (allFound fs ++ as) = fs.map (·.1) ++ asked as := by
  induction fs with
  | nil => rfl
  | cons f fs ih => exact congrArg (f.1 :: ·) ih

theorem found_allFound (fs : List (Description × List Method)) (as : List ResolverAnswer) :
    found (allFound fs ++ as) = (found as).map (fs ++ ·) := by
  induction fs with
  | nil => cases hf : found as <;> simp [allFound, hf, Except.map]
  | cons f fs ih =>
    have hstep : found (allFound (f :: fs) ++ as) = (found (allFound fs ++ as)).map (f :: ·) := rfl
    rw [hstep, ih]
    cases found as <;> rfl

theorem asked_of_answered (h : Answered resolver ds lists) : asked (answers resolver ds) = ds := by
  have hasked := asked_allFound (ds.zip lists) []
  rw [List.append_nil] at hasked
  rw [answers_of_answered h, hasked, List.map_fst_zip (Nat.le_of_eq h.length_eq)]
  exact List.append_nil ds

theorem found_of_answered (h : Answered resolver ds lists) :
    found (answers resolver ds) = .ok (ds.zip lists) := by
  have hfound := found_allFound (ds.zip lists) []
  rw [List.append_nil] at hfound
  rw [answers_of_answered h, hfound]
  simp [found, Except.map]

/-! The first failure ends the asking. -/

theorem answers_of_failed (h : Answered resolver before lists)
    (he : resolver before.length d = .error e) (after : List Description) : ∃ rest,
    answers resolver (before ++ d :: after) =
      allFound (before.zip lists) ++ (d, .error e) :: rest := by
  refine ⟨after.mapIdx fun n d => (d, resolver (n + 1 + before.length) d), ?_⟩
  have hbefore := answers_of_answered h
  rw [answers] at hbefore ⊢
  rw [List.mapIdx_append, hbefore, List.mapIdx_cons, Nat.zero_add, he]

theorem outcome_of_failed (h : Answered resolver before lists)
    (he : resolver before.length d = .error e) :
    outcome (answers resolver (before ++ d :: after)) = .error e := by
  obtain ⟨rest, hanswers⟩ := answers_of_failed h he after
  have hfound : found (answers resolver (before ++ d :: after)) = .error e := by
    rw [hanswers, found_allFound]
    rfl
  rw [outcome, hfound]

/-! Without a failure all methods are taken or none is. -/

/-- The descriptions whose list is empty, in their order. -/
def unnamed (ds : List Description) (lists : List (List Method)) : List Description :=
  ((ds.zip lists).filter (·.2.isEmpty)).map (·.1)

theorem isEmpty_nameless (h : Answered resolver ds lists) :
    (nameless (ds.zip lists)).isEmpty = true ↔ [] ∉ lists := by
  have hlists : (ds.zip lists).map (·.2) = lists := List.map_snd_zip (Nat.le_of_eq h.length_eq.symm)
  have hmem : [] ∈ lists ↔ ∃ f ∈ ds.zip lists, f.2 = [] := by
    conv_lhs => rw [← hlists]
    exact List.mem_map
  rw [hmem, nameless, List.isEmpty_iff, List.map_eq_nil_iff, List.filter_eq_nil_iff, not_exists]
  apply forall_congr'
  intro f
  rw [List.isEmpty_iff, not_and]

theorem outcome_of_named (h : Answered resolver ds lists) (hne : [] ∉ lists) :
    outcome (answers resolver ds) = .ok (distinct lists.flatten) := by
  have hlists : (ds.zip lists).map (·.2) = lists := List.map_snd_zip (Nat.le_of_eq h.length_eq.symm)
  rw [outcome, found_of_answered h]
  dsimp only
  rw [if_pos ((isEmpty_nameless h).2 hne), List.flatMap_def, hlists]

theorem outcome_of_unnamed (h : Answered resolver ds lists) (he : [] ∈ lists) :
    outcome (answers resolver ds) = .error (.unresolvedMethods (unnamed ds lists)) := by
  have hempty : ¬ (nameless (ds.zip lists)).isEmpty = true := fun hn => (isEmpty_nameless h).1 hn he
  rw [outcome, found_of_answered h]
  dsimp only
  rw [if_neg hempty]
  rfl

/-- Every description has an answer, or there is a first that fails. -/
theorem answered_or_failed (resolver : Resolver) (ds : List Description) :
    (∃ lists, Answered resolver ds lists) ∨ ∃ before d after lists e,
      ds = before ++ d :: after ∧ Answered resolver before lists ∧
        resolver before.length d = .error e := by
  induction ds generalizing resolver with
  | nil => exact .inl ⟨[], rfl⟩
  | cons d ds ih =>
    cases hd : resolver 0 d with
    | error e => exact .inr ⟨[], d, ds, [], e, rfl, rfl, hd⟩
    | ok ms =>
      rcases ih fun n => resolver (n + 1) with ⟨lists, hlists⟩ |
        ⟨before, d', after, lists, e, rfl, hlists, he⟩
      · refine .inl ⟨ms :: lists, ?_⟩
        rw [Answered] at hlists ⊢
        rw [List.mapIdx_cons, hd, hlists]
        rfl
      · refine .inr ⟨d :: before, d', after, ms :: lists, e, rfl, ?_, he⟩
        rw [Answered] at hlists ⊢
        rw [List.mapIdx_cons, hd, hlists]
        rfl

/-- Methods are found exactly if every description names at least one. -/
theorem outcome_eq_ok_iff {methods : List Method} :
    outcome (answers resolver ds) = .ok methods ↔
      ∃ lists, Answered resolver ds lists ∧ [] ∉ lists ∧ methods = distinct lists.flatten := by
  constructor
  · intro hm
    rcases answered_or_failed resolver ds with ⟨lists, h⟩ | ⟨before, d, after, lists, e, rfl, h, he⟩
    · by_cases hne : [] ∈ lists
      · rw [outcome_of_unnamed h hne] at hm
        cases hm
      · rw [outcome_of_named h hne] at hm
        exact ⟨lists, h, hne, (Except.ok.inj hm).symm⟩
    · rw [outcome_of_failed h he] at hm
      cases hm
  · rintro ⟨lists, h, hne, rfl⟩
    exact outcome_of_named h hne

/-! Repeated methods. -/

/-- The methods whose id does not come up before them. -/
def firsts (ms : List Method) : List Method :=
  (ms.zipIdx.filter fun x => x.1.id ∉ (ms.take x.2).map (·.id)).map (·.1)

theorem distinctFrom_congr {seen seen' : List MethodId} (h : ∀ id, id ∈ seen ↔ id ∈ seen')
    (ms : List Method) : distinctFrom seen ms = distinctFrom seen' ms := by
  induction ms generalizing seen seen' with
  | nil => rfl
  | cons m ms ih =>
    have hcons : ∀ id, id ∈ m.id :: seen ↔ id ∈ m.id :: seen' := by
      intro id
      rw [List.mem_cons, List.mem_cons, h]
    rw [distinctFrom, distinctFrom, ih h, ih hcons]
    simp only [h]

theorem distinctFrom_eq (seen : List MethodId) (ms : List Method) : distinctFrom seen ms =
    (ms.zipIdx.filter fun x => x.1.id ∉ seen ∧ x.1.id ∉ (ms.take x.2).map (·.id)).map (·.1) := by
  induction ms generalizing seen with
  | nil => rfl
  | cons m ms ih =>
    -- behind the head a method is kept exactly when its name is neither seen nor that of the head
    have hrest : (((ms.zipIdx.map (Prod.map id (· + 1))).filter fun x =>
        x.1.id ∉ seen ∧ x.1.id ∉ ((m :: ms).take x.2).map (·.id)).map (·.1)) =
          distinctFrom (m.id :: seen) ms := by
      rw [ih, List.filter_map, List.map_map]
      congr 1
      apply List.filter_congr
      intro x _
      simp [Bool.and_assoc, Bool.and_left_comm]
    rw [List.zipIdx_cons', distinctFrom]
    split
    · next hm =>
      have hsame : ∀ id, id ∈ m.id :: seen ↔ id ∈ seen := by
        intro id
        constructor
        · intro hid
          exact (List.mem_cons.1 hid).elim (fun he => he ▸ hm) fun h => h
        · exact List.mem_cons_of_mem _
      rw [List.filter_cons_of_neg (by simp [hm]), hrest, distinctFrom_congr hsame]
    · next hm =>
      rw [List.filter_cons_of_pos (by simp [hm]), List.map_cons, hrest]

theorem distinct_eq_firsts (ms : List Method) : distinct ms = firsts ms := by
  rw [distinct, distinctFrom_eq, firsts]
  simp

theorem mem_of_mem_distinctFrom {seen : List MethodId} {ms : List Method} {m : Method}
    (h : m ∈ distinctFrom seen ms) : m.id ∉ seen := by
  rw [distinctFrom_eq, List.mem_map] at h
  obtain ⟨x, hx, rfl⟩ := h
  exact (of_decide_eq_true (List.mem_filter.1 hx).2).1

theorem nodup_distinctFrom (seen : List MethodId) (ms : List Method) :
    ((distinctFrom seen ms).map (·.id)).Nodup := by
  induction ms generalizing seen with
  | nil => exact List.nodup_nil
  | cons m ms ih =>
    rw [distinctFrom]
    split
    · exact ih seen
    · rw [List.map_cons, List.nodup_cons]
      refine ⟨fun hmem => ?_, ih _⟩
      obtain ⟨m', hm', he⟩ := List.mem_map.1 hmem
      exact mem_of_mem_distinctFrom hm' (he ▸ List.mem_cons_self)

end MethodCapture.Resolution
