import MethodCapture.Proofs.Signature.Progress

/-!
Queries put to a cursor, one after the other, whether they fail or not. Every query passes bytes
from the front of those that are left, a failed one too: all of them when it runs out of bytes, and
otherwise just those that it found to be malformed. So a cursor never leaves its data and never goes
back, and once a query has run out of bytes, none gets a byte again.
-/

namespace MethodCapture.Signature

open Reader

namespace Cursor.Passes

variable {bytes u : List UInt8} {c c' : Cursor}

theorem position_le (h : c.Passes u c') : c.position ≤ c'.position := by
  rw [h.position]
  exact Nat.le_add_right _ _

theorem position_lt (h : c.Passes u c') (hu : u ≠ []) : c.position < c'.position := by
  have hpos := List.length_pos_iff.2 hu
  rw [h.position]
  omega

theorem rest_eq_nil (h : c.Passes c.rest c') : c'.rest = [] :=
  List.append_right_eq_self.1 h.rest.symm

/-- What is passed from the start of the data is the data in front of the position. -/
theorem append_rest (h : (ofBytes bytes).Passes u c) :
    bytes = u ++ c.rest ∧ c.position = u.length :=
  ⟨h.rest, h.position.trans (Nat.zero_add _)⟩

theorem eq_inside (h : (ofBytes bytes).Passes u c) : c = .inside bytes c.position := by
  obtain ⟨hbytes, hpos⟩ := h.append_rest
  rw [hbytes, hpos, Cursor.inside_append, ← hpos]

theorem size_eq (h : (ofBytes bytes).Passes u c) : c.size = bytes.length := by
  obtain ⟨hbytes, hpos⟩ := h.append_rest
  rw [hbytes, Cursor.size, hpos, List.length_append]

theorem position_le_length (h : (ofBytes bytes).Passes u c) : c.position ≤ bytes.length := by
  rw [← h.size_eq]
  exact Nat.le_add_right _ _

end Cursor.Passes

theorem Cursor.position_eq_size_iff {c : Cursor} : c.position = c.size ↔ c.rest = [] := by
  rw [← List.length_eq_zero_iff, Cursor.size]
  omega

/-! Failures. -/

/-- Where a query that fails leaves the cursor. -/
inductive Breaks (c : Cursor) : Fault → Cursor → Prop
  | outOfBounds {c' : Cursor} (h : c.Passes c.rest c') : Breaks c .outOfBounds c'
  | integerLead {b : UInt8} {c' : Cursor} (hb : 0xe0 ≤ b) (h : c.Passes [b] c') :
      Breaks c (.malformed (.integerLead b)) c'
  | tokenTag {u : List UInt8} {v : Nat} {c' : Cursor} (hu : IsInteger u v) (hv : v % 4 = 3)
      (h : c.Passes u c') : Breaks c (.malformed (.tokenTag v)) c'

section

variable {c c' : Cursor} {e : Fault}

theorem Breaks.passes (h : Breaks c e c') : ∃ u, c.Passes u c' := by
  cases h with
  | outOfBounds h | integerLead _ h | tokenTag _ _ h => exact ⟨_, h⟩

theorem Breaks.passes_rest (h : Breaks c .outOfBounds c') : c.Passes c.rest c' := by
  cases h with
  | outOfBounds h => exact h

theorem Breaks.malformed_cases {flaw : Flaw} (h : Breaks c (.malformed flaw) c') :
    (∃ b, flaw = .integerLead b ∧ 0xe0 ≤ b ∧ c.Passes [b] c') ∨
      ∃ v u, flaw = .tokenTag v ∧ v % 4 = 3 ∧ IsInteger u v ∧ c.Passes u c' := by
  cases h with
  | integerLead hb h => exact .inl ⟨_, rfl, hb, h⟩
  | tokenTag hu hv h => exact .inr ⟨_, _, rfl, hv, hu, h⟩

theorem Breaks.position_lt {flaw : Flaw} (h : Breaks c (.malformed flaw) c') :
    c.position < c'.position := by
  cases h with
  | integerLead hb h => exact h.position_lt (List.cons_ne_nil _ _)
  | tokenTag hu hv h => exact h.position_lt hu.ne_nil

theorem breaks_byte (h : byte c = .error e c') : Breaks c e c' := by
  obtain ⟨p, _ | ⟨b, bs⟩⟩ := c
  · cases h
    exact .outOfBounds (.refl _)
  · cases h

theorem breaks_peek (h : peek c = .error e c') : Breaks c e c' := by
  obtain ⟨p, _ | ⟨b, bs⟩⟩ := c
  · cases h
    exact .outOfBounds (.refl _)
  · cases h

end

namespace Reader

variable {α β : Type} {n : Nat} {r s : Reader α} {c c' : Cursor}

/-- A reader that runs out of bytes has passed all that were left. -/
def Drains (r : Reader α) : Prop := ∀ c c', r c = .error .outOfBounds c' → c.Passes c.rest c'

namespace Drains

theorem pure (a : α) : Drains (Pure.pure a : Reader α) := by
  intro c c' h
  cases h

theorem malformed (flaw : Flaw) : Drains (malformed flaw : Reader α) := by
  intro c c' h
  cases h

theorem byte : Drains byte := fun _ _ h => (breaks_byte h).passes_rest

theorem bind {f : α → Reader β} (hr : Drains r) (ht : Takes n r) (hf : ∀ a, Drains (f a)) :
    Drains (r >>= f) := by
  intro c c' h
  cases bind_eq_error.1 h with
  | inl h => exact hr c c' h
  | inr h =>
    obtain ⟨a, c₁, h₁, h₂⟩ := h
    obtain ⟨u, -, hu⟩ := ht.passes h₁
    -- the second reader passes what the first one left of the same bytes
    rw [hu.rest]
    exact hu.trans (hf a c₁ c' h₂)

theorem ite {p : Prop} [Decidable p] (hr : Drains r) (hs : Drains s) :
    Drains (if p then r else s) := by
  split
  · exact hr
  · exact hs

theorem integer : Drains integer := by
  apply byte.bind takes_byte
  intro b
  have two := byte.bind takes_byte fun c => pure (b.toNat % 64 * 256 + c.toNat)
  have four := byte.bind takes_byte fun c => byte.bind takes_byte fun d =>
    byte.bind takes_byte fun e =>
    pure (b.toNat % 32 * 16777216 + c.toNat * 65536 + d.toNat * 256 + e.toNat)
  exact ite (pure _) (ite two (ite four (malformed _)))

end Drains

theorem map_eq_error {f : α → β} {e : Fault} :
    (do return f (← r) : Reader β) c = .error e c' ↔ r c = .error e c' := by
  rw [bind_eq_error]
  constructor
  · rintro (h | ⟨a, c₁, -, h⟩)
    · exact h
    · cases h
  · exact .inl

end Reader

section

variable {c c' : Cursor} {e : Fault}

theorem breaks_integer (h : integer c = .error e c') : Breaks c e c' := by
  rcases integer_trichotomy c with ⟨ho, -⟩ | ⟨-, -, c₁, h₁⟩ | ⟨-, -, v, c₁, h₁⟩
  · obtain ⟨p, _ | ⟨b, bs⟩⟩ := c
    · obtain ⟨b, hb, -⟩ := ho
      cases hb
    · have hb := opensNoForm_cons.1 ho
      rw [integer_of_opensNoForm hb] at h
      cases h
      exact .integerLead hb ⟨rfl, rfl⟩
  · rw [h₁] at h
    cases h
    -- where the form is cut off does not matter, since all its bytes are taken
    exact .outOfBounds (Drains.integer _ _ h₁)
  · rw [h₁] at h
    cases h

theorem breaks_token (h : token c = .error e c') : Breaks c e c' := by
  cases hv : integer c with
  | error e₁ c₁ =>
    have herror : token c = .error e₁ c₁ := bind_of_error hv
    rw [herror] at h
    cases h
    exact breaks_integer hv
  | ok v c₁ =>
    cases htable : tokenTable? v with
    | none =>
      rw [token_of_integer_none hv htable] at h
      cases h
      obtain ⟨u, rest, hrest, rfl, hu⟩ := reads_integer.sound hv
      exact .tokenTag hu (tokenTable?_eq_none_iff.1 htable) ⟨hrest, rfl⟩
    | some table =>
      rw [token_of_integer hv htable] at h
      cases h

end

namespace Query

variable {q : Query} {c c' : Cursor}

/-- Looks at the cursor and does not move it. -/
def isGlance : Query → Bool
  | peek | size | isEmpty | hasMore => true
  | byte | skip | integer | token => false

/-- Cannot be answered without another byte. -/
def wantsByte : Query → Bool
  | byte | peek | skip | integer | token => true
  | size | isEmpty | hasMore => false

theorem step_eq_ok_iff {a : Answer} : q.step c = (.ok a, c') ↔ q.read c = .ok a c' := by
  rw [step]
  cases q.read c <;> simp

theorem step_eq_error_iff {e : Fault} : q.step c = (.error e, c') ↔ q.read c = .error e c' := by
  rw [step]
  cases q.read c <;> simp

theorem breaks_step {e : Fault} (h : q.step c = (.error e, c')) : Breaks c e c' := by
  have hread := step_eq_error_iff.1 h
  cases q with
  | byte => exact breaks_byte (map_eq_error.1 hread)
  | peek => exact breaks_peek (map_eq_error.1 hread)
  | skip => exact breaks_byte (map_eq_error.1 (map_eq_error.1 hread))
  | integer => exact breaks_integer (map_eq_error.1 hread)
  | token => exact breaks_token (map_eq_error.1 hread)
  | size | isEmpty | hasMore => cases hread

theorem step_of_isGlance (hq : q.isGlance = true) (c : Cursor) : (q.step c).2 = c := by
  cases q with
  | peek => obtain ⟨p, _ | ⟨b, bs⟩⟩ := c <;> rfl
  | size | isEmpty | hasMore => rfl
  | byte | skip | integer | token => cases hq

theorem takes_read (hq : q.isGlance = false) : Takes 1 q.read := by
  cases q with
  | byte => exact takes_byte.bind fun b => .pure (Answer.number b.toNat)
  | skip => exact takes_skip.bind fun _ => .pure Answer.done
  | integer => exact takes_integer.bind fun n => .pure (Answer.number n)
  | token => exact takes_token.bind fun t => .pure (Answer.token t)
  | peek | size | isEmpty | hasMore => cases hq

/-- A query that is no glance moves the cursor on when it is answered. -/
theorem position_lt_step {a : Answer} (hq : q.isGlance = false) (h : q.step c = (.ok a, c')) :
    c.position < c'.position := by
  obtain ⟨u, hu, hpasses⟩ := (takes_read hq).passes (step_eq_ok_iff.1 h)
  exact hpasses.position_lt (List.length_pos_iff.1 hu)

theorem passes_step (q : Query) (c : Cursor) : ∃ u, c.Passes u (q.step c).2 := by
  cases h : q.step c with
  | mk answer c' =>
  cases answer with
  | error e => exact (breaks_step h).passes
  | ok a =>
    cases hq : q.isGlance with
    | true =>
      have hsame := step_of_isGlance hq c
      rw [h] at hsame
      exact ⟨[], hsame ▸ .refl c⟩
    | false =>
      obtain ⟨u, -, hu⟩ := (takes_read hq).passes (step_eq_ok_iff.1 h)
      exact ⟨u, hu⟩

/-! At the end of the data. -/

theorem step_of_rest_eq_nil (h : c.rest = []) (q : Query) : (q.step c).2 = c := by
  obtain ⟨p, bytes⟩ := c
  obtain rfl : bytes = [] := h
  cases q <;> rfl

theorem step_of_wantsByte (h : c.rest = []) (hq : q.wantsByte = true) :
    q.step c = (.error .outOfBounds, c) := by
  obtain ⟨p, bytes⟩ := c
  obtain rfl : bytes = [] := h
  cases q with
  | byte | peek | skip | integer | token => rfl
  | size | isEmpty | hasMore => cases hq

theorem step_size (c : Cursor) : size.step c = (.ok (.number c.size), c) := rfl

theorem step_hasMore (c : Cursor) :
    hasMore.step c = (.ok (.flag (decide (c.position < c.size))), c) := by
  have hstep : hasMore.step c = (.ok (.flag (!c.rest.isEmpty)), c) := rfl
  rw [hstep]
  obtain ⟨p, _ | ⟨b, bs⟩⟩ := c <;> simp [Cursor.size]

/-! Runs. -/

/-- The cursor at the end of a run. -/
def leave (qs : List Query) (c : Cursor) : Cursor := ((run qs c).map Prod.snd).getLastD c

@[simp] theorem leave_nil (c : Cursor) : leave [] c = c := rfl

@[simp] theorem leave_cons (q : Query) (qs : List Query) (c : Cursor) :
    leave (q :: qs) c = leave qs (q.step c).2 := by
  rw [leave, run, List.map_cons, List.getLastD_cons, leave]

theorem passes_leave (qs : List Query) (c : Cursor) : ∃ u, c.Passes u (leave qs c) := by
  induction qs generalizing c with
  | nil => exact ⟨[], .refl c⟩
  | cons q qs ih =>
    obtain ⟨u, hu⟩ := passes_step q c
    obtain ⟨v, hv⟩ := ih (q.step c).2
    rw [leave_cons]
    exact ⟨u ++ v, hu.trans hv⟩

theorem leave_of_rest_eq_nil (h : c.rest = []) (qs : List Query) : leave qs c = c := by
  induction qs with
  | nil => rfl
  | cons q qs ih => rw [leave_cons, step_of_rest_eq_nil h, ih]

end Query

/-- A cursor keeps to its data, whatever it is asked and however that goes. It stays between the
first byte and the end and never goes back, and what only looks at it does not move it. When bytes
run out it stands at the end, where it stays and nothing that wants a byte is answered; what is
malformed has been passed, which is one byte if that opens no number and the whole number if that
makes no token. -/
theorem cursor_keeps_to_data {bytes : List UInt8} {qs : List Query} {c : Cursor}
    (h : Query.leave qs (.ofBytes bytes) = c) :
    (Cursor.ofBytes bytes).position = 0 ∧
    (c = .inside bytes c.position ∧ c.position ≤ bytes.length) ∧
    (∀ rs, c.position ≤ (Query.leave rs c).position) ∧
    (∀ q : Query, q.isGlance = true → (q.step c).2 = c) ∧
    (Query.size.step c = (.ok (.number bytes.length), c) ∧
      Query.hasMore.step c = (.ok (.flag (decide (c.position < bytes.length))), c)) ∧
    (∀ (q : Query) a c', q.isGlance = false → q.step c = (.ok a, c') → c.position < c'.position) ∧
    (∀ (q : Query) c', q.step c = (.error .outOfBounds, c') →
      c'.position = bytes.length ∧ (∀ rs, Query.leave rs c' = c') ∧
      (∀ r : Query, r.wantsByte = true → r.step c' = (.error .outOfBounds, c')) ∧
      Query.hasMore.step c' = (.ok (.flag false), c')) ∧
    (∀ (q : Query) flaw c', q.step c = (.error (.malformed flaw), c') →
      (c.position < c'.position ∧ c'.position ≤ bytes.length) ∧
      ((∃ b, flaw = .integerLead b ∧ 0xe0 ≤ b ∧ c.Passes [b] c') ∨
        ∃ v u, flaw = .tokenTag v ∧ v % 4 = 3 ∧ IsInteger u v ∧ c.Passes u c')) ∧
    ∀ (q : Query) limit c', q.step c ≠ (.error (.nestingLimit limit), c') := by
  subst h
  obtain ⟨u, hu⟩ := Query.passes_leave qs (.ofBytes bytes)
  generalize Query.leave qs (.ofBytes bytes) = c at hu
  refine ⟨rfl, ⟨hu.eq_inside, hu.position_le_length⟩, ?_, ?_, ⟨?_, ?_⟩, ?_, ?_, ?_, ?_⟩
  · intro rs
    obtain ⟨v, hv⟩ := Query.passes_leave rs c
    exact hv.position_le
  · intro q hq
    exact Query.step_of_isGlance hq c
  · rw [Query.step_size, hu.size_eq]
  · rw [Query.step_hasMore, hu.size_eq]
  · intro q a c' hq hstep
    exact Query.position_lt_step hq hstep
  · intro q c' hstep
    have hbreaks := Query.breaks_step hstep
    have hend := hbreaks.passes_rest.rest_eq_nil
    obtain ⟨v, hv⟩ := hbreaks.passes
    refine ⟨?_, Query.leave_of_rest_eq_nil hend, fun r hr => Query.step_of_wantsByte hend hr, ?_⟩
    · rw [← (hu.trans hv).size_eq]
      exact Cursor.position_eq_size_iff.2 hend
    · rw [Query.step_hasMore, Cursor.position_eq_size_iff.2 hend, decide_eq_false (Nat.lt_irrefl _)]
  · intro q flaw c' hstep
    have hbreaks := Query.breaks_step hstep
    obtain ⟨v, hv⟩ := hbreaks.passes
    exact ⟨⟨hbreaks.position_lt, (hu.trans hv).position_le_length⟩, hbreaks.malformed_cases⟩
  · intro q limit c' hstep
    cases Query.breaks_step hstep

/-- A byte that opens no number, a number that makes no token, and a number that is cut off. -/
theorem cursor_keeps_to_data_after_failures :
    Query.leave [.integer] (.ofBytes [0xff, 0x0b, 0xc0, 0x01]) = ⟨1, [0x0b, 0xc0, 0x01]⟩ ∧
    (Query.peek.step ⟨1, [0x0b, 0xc0, 0x01]⟩).2 = ⟨1, [0x0b, 0xc0, 0x01]⟩ ∧
    (1 < 2 ∧ 2 ≤ 4) ∧
    Query.leave [.integer, .token] (.ofBytes [0xff, 0x0b, 0xc0, 0x01]) = ⟨2, [0xc0, 0x01]⟩ ∧
    Query.integer.step ⟨2, [0xc0, 0x01]⟩ = (.error .outOfBounds, ⟨4, []⟩) ∧
    4 = [0xff, 0x0b, 0xc0, 0x01].length ∧
    (∀ rs, Query.leave rs ⟨4, []⟩ = ⟨4, []⟩) ∧
    Query.token.step ⟨4, []⟩ = (.error .outOfBounds, ⟨4, []⟩) := by
  have hone :
      Query.leave [.integer] (.ofBytes [0xff, 0x0b, 0xc0, 0x01]) = ⟨1, [0x0b, 0xc0, 0x01]⟩ :=
    rfl
  have htwo :
      Query.leave [.integer, .token] (.ofBytes [0xff, 0x0b, 0xc0, 0x01]) = ⟨2, [0xc0, 0x01]⟩ :=
    rfl
  have htag : Query.token.step ⟨1, [0x0b, 0xc0, 0x01]⟩ =
      (.error (.malformed (.tokenTag 0x0b)), ⟨2, [0xc0, 0x01]⟩) := rfl
  have hcut : Query.integer.step ⟨2, [0xc0, 0x01]⟩ = (.error .outOfBounds, ⟨4, []⟩) := rfl
  obtain ⟨-, -, -, hglance, -, -, -, hmalformed, -⟩ := cursor_keeps_to_data hone
  obtain ⟨-, -, -, -, -, -, hends, -, -⟩ := cursor_keeps_to_data htwo
  obtain ⟨hend, hstays, hwants, -⟩ := hends _ _ hcut
  exact ⟨hone, hglance .peek rfl, (hmalformed _ _ _ htag).1, htwo, hcut, hend, hstays,
    hwants .token rfl⟩

end MethodCapture.Signature
