import MethodCapture.Proofs.Signature.Progress

/-!
The nesting limit. A limit cuts off what is nested too deeply and changes nothing else. Reading with
a counter of the types that are open, which is counted up at the start of a type and down at its
end, comes to the same as handing down the number of levels that are left: what has been read leaves
the counter as it was, so that types side by side all find it alike.
-/

namespace MethodCapture.Signature

open Reader

/-! Two limits. -/

/-- The first reader meets its limit, or it meets none and does what the second does. -/
def Rejects {α : Type} (limit : Nat) (r s : Reader α) : Prop := ∀ c,
  (∃ c', r c = .error (.nestingLimit limit) c') ∨
    (r c = s c ∧ ∀ n c', r c ≠ .error (.nestingLimit n) c')

/-- Readers that do the same but for a limit of the first. -/
def rejecting (limit : Nat) : Simulation Reader where
  Rel := Rejects limit
  pure a c := .inr ⟨rfl, nofun⟩
  lift hr c := .inr ⟨rfl, fun n c' => hr.unlimited⟩
  bind {_ _ x r f g} hx hf c := by
    rcases hx c with ⟨c', h⟩ | ⟨heq, hne⟩
    · exact .inl ⟨c', bind_of_error h⟩
    · cases h : r c with
      | ok a c₁ =>
        rw [bind_of_ok (heq.trans h), bind_of_ok h]
        exact hf a c₁
      | error e c₁ =>
        rw [heq, h] at hne
        rw [bind_of_error (heq.trans h), bind_of_error h]
        refine .inr ⟨rfl, ?_⟩
        rintro n c' ⟨⟩
        exact hne n c₁ rfl

theorem typeAt_rejects {limit limit' levels levels' : Nat} (h : levels ≤ levels') :
    Rejects limit (typeAt limit levels) (typeAt limit' levels') := by
  induction levels generalizing levels' with
  | zero => exact fun c => .inl ⟨c, rfl⟩
  | succ levels ih =>
    obtain ⟨levels', rfl⟩ : ∃ k, levels' = k + 1 := ⟨levels' - 1, by omega⟩
    rw [typeAt_succ, typeAt_succ, ← typeM_reader]
    exact (rejecting limit).type (ih (by omega))

theorem method_rejects {limit limit' : Nat} (h : limit ≤ limit') :
    Rejects limit (method limit) (method limit') := by
  have htypes : Rejects limit (typeAt limit (limit - 1)) (typeAt limit' (limit' - 1)) :=
    typeAt_rejects (by omega)
  rw [method, method, ← methodM_reader]
  exact (rejecting limit).method htypes false

section

variable {limit limit' : Nat} {blob : List UInt8}

theorem parameters_rejects (h : limit ≤ limit') (blob : List UInt8) :
    parameters limit blob = .error (.nestingLimit limit) ∨
      (parameters limit blob = parameters limit' blob ∧
        ∀ n, parameters limit blob ≠ .error (.nestingLimit n)) := by
  rcases method_rejects h (.ofBytes blob) with ⟨c, hc⟩ | ⟨heq, hne⟩
  · exact .inl (parameters_error_iff_method.2 ⟨c, hc⟩)
  · refine .inr ⟨by rw [parameters, parameters, heq], ?_⟩
    intro n hn
    obtain ⟨c, hc⟩ := parameters_error_iff_method.1 hn
    exact hne n c hc

theorem nestingLimit_eq {n : Nat} (h : parameters limit blob = .error (.nestingLimit n)) :
    n = limit := by
  rcases parameters_rejects (Nat.le_refl limit) blob with hlimit | ⟨-, hne⟩
  · rw [hlimit] at h
    cases h
    rfl
  · exact absurd h (hne n)

/-- With a level for every byte, one level more would make no difference, but the fault would tell
it. -/
theorem parameters_ne_nestingLimit (h : blob.length ≤ limit) (n : Nat) :
    parameters limit blob ≠ .error (.nestingLimit n) := by
  intro hn
  have hnext : parameters (limit + 1) blob = .error (.nestingLimit n) := by
    rw [← hn, parameters, parameters, method_unlimited h, method_unlimited (Nat.le_succ_of_le h)]
  have hlimit := nestingLimit_eq hn
  have hlimit' := nestingLimit_eq hnext
  omega

end

/-! The counter of open types. -/

/-- A reader with a counter. -/
abbrev CountingReader := StateT Nat Reader

/-- Reads with one more type open. After a failure there is nothing left to count. -/
def nested {α : Type} (limit : Nat) (body : CountingReader α) : CountingReader α := do
  modify (· + 1)
  if limit ≤ (← get) then
    throw (.nestingLimit limit)
  let a ← body
  modify (· - 1)
  return a

/-- No more than `levels` types are opened. -/
def countedTypeAt (limit : Nat) : (levels : Nat) → CountingReader Instruction
  | 0 => throw (.nestingLimit limit)
  | levels + 1 => nested limit (typeM (countedTypeAt limit levels))

/-- Opens types until the counter meets the limit. -/
def countedType (limit : Nat) : CountingReader Instruction :=
  fun depth => countedTypeAt limit (limit - depth) depth

/-- Where the counter stands at `depth`, the first reads what the second reads and leaves the
counter there. -/
def Counts {α : Type} (depth : Nat) (x : CountingReader α) (r : Reader α) : Prop :=
  x.run depth = (fun a => (a, depth)) <$> r

/-- Readers put together leave the counter as it was if each of them does. -/
def counting (depth : Nat) : Simulation CountingReader where
  Rel := Counts depth
  pure a := by simp [Counts]
  lift {_ r} _ := by simp [Counts]
  bind {_ _ x r f g} hx hf := by
    unfold Counts at hx hf ⊢
    simp only [StateT.run_bind, hx, map_eq_pure_bind, bind_assoc, pure_bind]
    congr 1
    funext a
    rw [hf a, map_eq_pure_bind]

section

variable {α : Type} {limit depth : Nat} {x : CountingReader α} {r : Reader α}

theorem nested_of_le (h : limit ≤ depth + 1) (x : CountingReader α) :
    (nested limit x).run depth = throw (.nestingLimit limit) := by
  simp only [nested, StateT.run_bind, StateT.run_modify, StateT.run_get, pure_bind, if_pos h]
  rfl

theorem Counts.nested (hx : Counts (depth + 1) x r) (h : depth + 1 < limit) :
    Counts depth (nested limit x) r := by
  have hgo : ¬ limit ≤ depth + 1 := Nat.not_le.2 h
  unfold Counts at hx ⊢
  simp [Signature.nested, hgo, hx]

end

theorem counts_throw (depth : Nat) (e : Fault) :
    Counts depth (throw e : CountingReader Instruction) (throw e) := rfl

/-- With the counter at `depth`, one less than the limit and `depth` types are left to open. -/
theorem counts_typeAt {limit levels : Nat} (depth : Nat) (h : limit ≤ depth + levels) :
    Counts depth (countedTypeAt limit levels) (typeAt limit (limit - 1 - depth)) := by
  induction levels generalizing depth with
  | zero =>
    have hnone : limit - 1 - depth = 0 := by omega
    rw [hnone]
    exact counts_throw depth (.nestingLimit limit)
  | succ levels ih =>
    by_cases hlimit : limit ≤ depth + 1
    · have hnone : limit - 1 - depth = 0 := by omega
      rw [hnone]
      exact nested_of_le hlimit _
    · have hsome : limit - 1 - depth = limit - 1 - (depth + 1) + 1 := by omega
      rw [hsome]
      have hbody := (counting (depth + 1)).type (ih (depth + 1) (by omega))
      exact Counts.nested hbody (Nat.not_le.1 hlimit)

theorem counts_type (limit depth : Nat) :
    Counts depth (countedType limit) (typeAt limit (limit - 1 - depth)) :=
  counts_typeAt depth (by omega)

/-- A type opens another one just as it was opened itself. -/
theorem countedType_eq (limit : Nat) :
    countedType limit = nested limit (typeM (countedType limit)) := by
  funext depth
  refine (counts_type limit depth).trans ?_
  by_cases hlimit : limit ≤ depth + 1
  · have hnone : limit - 1 - depth = 0 := by omega
    rw [hnone]
    exact (nested_of_le hlimit _).symm
  · have hsome : limit - 1 - depth = limit - 1 - (depth + 1) + 1 := by omega
    have hbody := (counting (depth + 1)).type (counts_type limit (depth + 1))
    rw [hsome]
    exact (Counts.nested hbody (Nat.not_le.1 hlimit)).symm

/-- Every success leaves the counter where it was. -/
def Restores {α : Type} (x : CountingReader α) : Prop :=
  ∀ depth c a depth' c', x.run depth c = .ok (a, depth') c' → depth' = depth

theorem Restores.of_counts {α : Type} {x : CountingReader α} {r : Nat → Reader α}
    (h : ∀ depth, Counts depth x (r depth)) : Restores x := by
  intro depth c a depth' c' hok
  rw [h depth, map_eq_pure_bind, bind_eq_ok] at hok
  obtain ⟨b, c₁, -, hpure⟩ := hok
  cases hpure
  rfl

theorem counts_method (limit : Nat) : Counts 0 (methodM (countedType limit) false) (method limit) :=
  (counting 0).method (counts_type limit 0) false

/-- A limit only rejects, and only what is nested: what does not meet it is read as with any larger
limit, the fault tells the limit itself, and no signature meets a limit as large as its number of
bytes. The limit is met by a counter of open types that every type, parameter and nested method
leaves as it was, so that parts side by side are read with the same levels left. -/
theorem nesting_limit_only_rejects :
    (∀ limit limit' blob, limit ≤ limit' →
      (∀ n, parameters limit blob ≠ .error (.nestingLimit n)) →
      parameters limit' blob = parameters limit blob) ∧
    (∀ limit blob n, parameters limit blob = .error (.nestingLimit n) → n = limit) ∧
    (∀ limit blob n, blob.length ≤ limit → parameters limit blob ≠ .error (.nestingLimit n)) ∧
    (∀ limit, countedType limit = nested limit (typeM (countedType limit)) ∧
      Counts 0 (methodM (countedType limit) false) (method limit)) ∧
    (∀ limit, Restores (countedType limit) ∧ Restores (parameterM (countedType limit)) ∧
      Restores (methodM (countedType limit) true)) ∧
    ∀ limit depth,
      Counts depth (countedType limit) (typeAt limit (limit - 1 - depth)) ∧
      (∀ n, Counts depth (timesM (countedType limit) n)
        (times (typeAt limit (limit - 1 - depth)) n)) ∧
      ∀ n optional, Counts depth (parametersM (countedType limit) n optional)
        (parametersWith (typeAt limit (limit - 1 - depth)) n optional) := by
  refine ⟨?_, ?_, ?_, ?_, ?_, ?_⟩
  · intro limit limit' blob hle hne
    rcases parameters_rejects hle blob with h | ⟨heq, -⟩
    · exact absurd h (hne limit)
    · exact heq.symm
  · intro limit blob n h
    exact nestingLimit_eq h
  · intro limit blob n h
    exact parameters_ne_nestingLimit h n
  · intro limit
    exact ⟨countedType_eq limit, counts_method limit⟩
  · intro limit
    have htype := counts_type limit
    exact ⟨.of_counts htype, .of_counts fun depth => (counting depth).parameter (htype depth),
      .of_counts fun depth => (counting depth).method (htype depth) true⟩
  · intro limit depth
    have htype := counts_type limit depth
    exact ⟨htype, (counting depth).times htype, (counting depth).parameters htype⟩

theorem nested_vectors_rejected :
    parameters 50 [0x00, 0x01, 0x01, 0x1d, 0x1d, 0x08] =
      parameters 4 [0x00, 0x01, 0x01, 0x1d, 0x1d, 0x08] ∧
    parameters 3 [0x00, 0x01, 0x01, 0x1d, 0x1d, 0x08] = .error (.nestingLimit 3) ∧ 3 = 3 ∧
    parameters 6 [0x00, 0x01, 0x01, 0x1d, 0x1d, 0x08] ≠ .error (.nestingLimit 6) := by
  obtain ⟨hlarger, hown, hbytes, -⟩ := nesting_limit_only_rejects
  have hread : parameters 4 [0x00, 0x01, 0x01, 0x1d, 0x1d, 0x08] = .ok [.object] := by
    with_unfolding_all rfl
  have hmet : parameters 3 [0x00, 0x01, 0x01, 0x1d, 0x1d, 0x08] = .error (.nestingLimit 3) := by
    with_unfolding_all rfl
  refine ⟨hlarger 4 50 _ (by decide) ?_, hmet, hown 3 _ 3 hmet, hbytes 6 _ 6 (by decide)⟩
  intro n hn
  rw [hread] at hn
  cases hn

end MethodCapture.Signature
