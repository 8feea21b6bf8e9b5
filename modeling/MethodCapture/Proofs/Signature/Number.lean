import MethodCapture.Proofs.Signature.Truncation

/-!
Numbers and tokens in a signature. A number is read in whichever of its forms it is written,
wherever it stands, and nothing else is read as a number. A token has room for 26 of the 29 bits of
a number: what is written in the other three is lost.
-/

namespace MethodCapture.Signature

open Reader

/-- The cursor at a position in the data. -/
def Cursor.inside (bytes : List UInt8) (position : Nat) : Cursor := ⟨position, bytes.drop position⟩

theorem Cursor.inside_append (p rest : List UInt8) :
    Cursor.inside (p ++ rest) p.length = ⟨p.length, rest⟩ := by
  rw [Cursor.inside, List.drop_left]

/-- A form that a reader reads is read inside any data. -/
theorem Reads.inside {α : Type} {r : Reader α} {F : Form α} (hr : Reads r F) {p e : List UInt8}
    {a : α} (h : F p.length e a) (s : List UInt8) : r (.inside (p ++ (e ++ s)) p.length) =
      .ok a (.inside (p ++ (e ++ s)) (p.length + e.length)) := by
  have hend : Cursor.inside (p ++ (e ++ s)) (p.length + e.length) = ⟨p.length + e.length, s⟩ := by
    rw [← List.length_append, ← List.append_assoc, Cursor.inside_append]
  rw [Cursor.inside_append, hend]
  exact hr.complete h s

/-! Numbers. -/

/-- The number of numbers that have a form. -/
def integerBound : Nat := 0x20000000

theorem IsInteger.lt {u : List UInt8} {v : Nat} (h : IsInteger u v) : v < integerBound := by
  unfold integerBound
  cases h <;> omega

theorem integer_lt {c c' : Cursor} {v : Nat} (h : integer c = .ok v c') : v < integerBound := by
  obtain ⟨u, rest, -, -, hu⟩ := reads_integer.sound h
  exact IsInteger.lt hu

/-- The length of a number whose first byte is `b`. -/
def formLength (b : UInt8) : Nat :=
  if b < 0x80 then 1 else if b < 0xc0 then 2 else 4

/-- The first byte announces no form. -/
def OpensNoForm (bytes : List UInt8) : Prop := ∃ b ∈ bytes.head?, 0xe0 ≤ b

/-- The form that the first byte announces, if there is a first byte, is cut off. -/
def IsCutOff (bytes : List UInt8) : Prop :=
  ∀ b ∈ bytes.head?, b < 0xe0 ∧ bytes.length < formLength b

section

variable {p : Nat} {b : UInt8} {bs : List UInt8}

theorem opensNoForm_cons : OpensNoForm (b :: bs) ↔ 0xe0 ≤ b := by simp [OpensNoForm]

theorem isCutOff_cons : IsCutOff (b :: bs) ↔ b < 0xe0 ∧ (b :: bs).length < formLength b := by
  simp [IsCutOff]

theorem integer_of_opensNoForm (hb : 0xe0 ≤ b) :
    integer ⟨p, b :: bs⟩ = .error (.malformed (.integerLead b)) ⟨p + 1, bs⟩ := by
  have h₃ : ¬ b < 0xe0 := UInt8.not_lt.2 hb
  have h₂ : ¬ b < 0xc0 := fun h => h₃ (UInt8.lt_trans h (by decide))
  have h₁ : ¬ b < 0x80 := fun h => h₂ (UInt8.lt_trans h (by decide))
  rw [integer, byte_bind]
  simp only [if_neg h₁, if_neg h₂, if_neg h₃]
  rfl

theorem integer_of_isCutOff (h₃ : b < 0xe0) (hlen : (b :: bs).length < formLength b) :
    ∃ c, integer ⟨p, b :: bs⟩ = .error .outOfBounds c := by
  rw [integer, byte_bind]
  unfold formLength at hlen
  split at hlen
  · simp at hlen
  next h₁ =>
  split at hlen
  · next h₂ =>
    simp only [if_neg h₁, if_pos h₂]
    obtain _ | ⟨c, bs⟩ := bs
    · exact ⟨_, rfl⟩
    · simp only [List.length_cons] at hlen
      omega
  · next h₂ =>
    simp only [if_neg h₁, if_neg h₂, if_pos h₃]
    obtain _ | ⟨c, _ | ⟨d, _ | ⟨e, bs⟩⟩⟩ := bs
    · exact ⟨_, rfl⟩
    · exact ⟨_, rfl⟩
    · exact ⟨_, rfl⟩
    · simp only [List.length_cons] at hlen
      omega

theorem integer_of_formLength_le (h₃ : b < 0xe0) (hlen : formLength b ≤ (b :: bs).length) :
    ∃ v c, integer ⟨p, b :: bs⟩ = .ok v c := by
  unfold formLength at hlen
  split at hlen
  · next h₁ => exact ⟨_, _, integer_of_one h₁⟩
  next h₁ =>
  split at hlen
  · next h₂ =>
    obtain _ | ⟨c, bs⟩ := bs
    · simp at hlen
    · exact ⟨_, _, integer_of_two h₁ h₂⟩
  · next h₂ =>
    obtain _ | ⟨c, _ | ⟨d, _ | ⟨e, bs⟩⟩⟩ := bs
    · simp at hlen
    · simp at hlen
    · simp at hlen
    · exact ⟨_, _, integer_of_four h₁ h₂ h₃⟩

end

/-- The first byte and the number of bytes decide how the read goes. -/
theorem integer_trichotomy (c : Cursor) :
    (OpensNoForm c.rest ∧ ¬ IsCutOff c.rest ∧
      ∃ flaw c', integer c = .error (.malformed flaw) c') ∨
    (¬ OpensNoForm c.rest ∧ IsCutOff c.rest ∧ ∃ c', integer c = .error .outOfBounds c') ∨
    (¬ OpensNoForm c.rest ∧ ¬ IsCutOff c.rest ∧ ∃ v c', integer c = .ok v c') := by
  obtain ⟨p, _ | ⟨b, bs⟩⟩ := c
  · right; left
    exact ⟨nofun, nofun, _, rfl⟩
  · rw [opensNoForm_cons, isCutOff_cons, UInt8.not_le]
    by_cases h₃ : b < 0xe0
    · by_cases hlen : (b :: bs).length < formLength b
      · right; left
        exact ⟨h₃, ⟨h₃, hlen⟩, integer_of_isCutOff h₃ hlen⟩
      · right; right
        exact ⟨h₃, fun h => hlen h.2, integer_of_formLength_le h₃ (Nat.not_lt.1 hlen)⟩
    · left
      have hb : 0xe0 ≤ b := UInt8.not_lt.1 h₃
      exact ⟨hb, fun h => h₃ h.1, _, _, integer_of_opensNoForm hb⟩

theorem integer_malformed_iff {c : Cursor} :
    (∃ flaw c', integer c = .error (.malformed flaw) c') ↔ OpensNoForm c.rest := by
  rcases integer_trichotomy c with ⟨ho, -, h⟩ | ⟨ho, -, c', h⟩ | ⟨ho, -, v, c', h⟩ <;>
    simp [h, ho]

theorem integer_outOfBounds_iff {c : Cursor} :
    (∃ c', integer c = .error .outOfBounds c') ↔ IsCutOff c.rest := by
  rcases integer_trichotomy c with ⟨-, hcut, flaw, c', h⟩ | ⟨-, hcut, h⟩ | ⟨-, hcut, v, c', h⟩ <;>
    simp [h, hcut]

/-! Tokens. -/

theorem tokenTable?_eq_none_iff {v : Nat} : tokenTable? v = none ↔ v % 4 = 3 := by
  have hv : v % 4 = 0 ∨ v % 4 = 1 ∨ v % 4 = 2 ∨ v % 4 = 3 := by omega
  rcases hv with h | h | h | h <;> simp [tokenTable?, h]

theorem tagged_eq {row tag : Nat} (h : tag < 4) : row <<< 2 ||| tag = row * 4 + tag := by
  rw [← Nat.shiftLeft_add_eq_or_of_lt h, Nat.shiftLeft_eq]

section

variable {c c' : Cursor} {v : Nat} (h : integer c = .ok v c')

include h

theorem token_of_integer {table : Nat} (ht : tokenTable? v = some table) :
    token c = .ok (.ofRow table (v / 4)) c' := by
  rw [token, bind_of_ok h, ht]
  rfl

theorem token_of_integer_none (ht : tokenTable? v = none) :
    token c = .error (.malformed (.tokenTag v)) c' := by
  rw [token, bind_of_ok h, ht]
  rfl

end

theorem exists_integer_of_token {c c' : Cursor} {t : Token} (h : token c = .ok t c') :
    ∃ v, integer c = .ok v c' := by
  obtain ⟨v, c₁, hv, -⟩ := bind_eq_ok.1 h
  cases htable : tokenTable? v with
  | none =>
    rw [token_of_integer_none hv htable] at h
    cases h
  | some table =>
    rw [token_of_integer hv htable] at h
    cases h
    exact ⟨v, hv⟩

/-- A row that fits is read as it is. -/
theorem token_of_tagged {c c' : Cursor} {table tag row : Nat} (ht : tableTag? table = some tag)
    (hr : row < Token.rowBound) (h : integer c = .ok (row <<< 2 ||| tag) c') :
    ∃ t, token c = .ok t c' ∧ t.table = table ∧ t.row = row := by
  obtain ⟨htable, htag⟩ := lt_of_tableTag? ht
  rw [tagged_eq htag] at h
  have hmod : (row * 4 + tag) % 4 = tag := by omega
  have hdiv : (row * 4 + tag) / 4 = row := by omega
  have hok := token_of_integer h (tokenTable?_eq_some_iff.2 (by rw [hmod]; exact ht))
  rw [hdiv] at hok
  refine ⟨_, hok, Token.table_ofRow htable row, ?_⟩
  rw [Token.row_ofRow, Nat.mod_eq_of_lt hr]

/-- Numbers are read in all their forms, wherever these stand, and nothing else is read as a number.
A token is read as the table and the row that its number was made of. -/
theorem numbers_read_exactly :
    (∀ (p e s : List UInt8) (v : Nat), IsInteger e v →
      integer (.inside (p ++ (e ++ s)) p.length) =
        .ok v (.inside (p ++ (e ++ s)) (p.length + e.length))) ∧
    (∀ c v c', integer c = .ok v c' → v < integerBound ∧
      ∃ e, IsInteger e v ∧ c.rest = e ++ c'.rest ∧ c'.position = c.position + e.length) ∧
    (∀ c, (∃ flaw c', integer c = .error (.malformed flaw) c') ↔ OpensNoForm c.rest) ∧
    (∀ c, (∃ c', integer c = .error .outOfBounds c') ↔ IsCutOff c.rest) ∧
    (∀ (p e s : List UInt8) (table tag row : Nat), tableTag? table = some tag →
      row < Token.rowBound → IsInteger e (row <<< 2 ||| tag) →
      ∃ t, token (.inside (p ++ (e ++ s)) p.length) =
          .ok t (.inside (p ++ (e ++ s)) (p.length + e.length)) ∧
        t.table = table ∧ t.row = row) ∧
    (∀ c v c', integer c = .ok v c' → v % 4 = 3 →
      token c = .error (.malformed (.tokenTag v)) c') := by
  refine ⟨?_, ?_, ?_, ?_, ?_, ?_⟩
  · intro p e s v he
    exact reads_integer.inside he s
  · intro c v c' h
    obtain ⟨e, rest, hrest, rfl, he⟩ := reads_integer.sound h
    exact ⟨integer_lt h, e, he, hrest, rfl⟩
  · intro c
    exact integer_malformed_iff
  · intro c
    exact integer_outOfBounds_iff
  · intro p e s table tag row ht hr he
    exact token_of_tagged ht hr (reads_integer.inside he s)
  · intro c v c' h hv
    exact token_of_integer_none h (tokenTable?_eq_none_iff.2 hv)

theorem long_forms_read_exactly :
    integer (.inside ([0x06] ++ ([0x80, 0x80] ++ [0xff])) 1) =
      .ok 0x80 (.inside ([0x06] ++ ([0x80, 0x80] ++ [0xff])) 3) ∧
    (∃ e, IsInteger e 0x80 ∧ [0x80, 0x80, 0xff] = e ++ [0xff] ∧ 3 = 1 + e.length) ∧
    (∃ flaw c', integer (.ofBytes [0xff, 0x00, 0x00, 0x00]) = .error (.malformed flaw) c') ∧
    (∃ c', integer (.ofBytes [0xc0, 0x01]) = .error .outOfBounds c') ∧
    (∃ t, token (.inside ([0x12] ++ ([0xc0, 0x00, 0x00, 0x41] ++ [])) 1) =
        .ok t (.inside ([0x12] ++ ([0xc0, 0x00, 0x00, 0x41] ++ [])) 5) ∧
      t.table = Table.typeRef ∧ t.row = 0x10) ∧
    token (.ofBytes [0x0b]) = .error (.malformed (.tokenTag 0x0b)) ⟨1, []⟩ := by
  obtain ⟨hforms, hread, hmalformed, hcut, htoken, htag⟩ := numbers_read_exactly
  have htwo : IsInteger [0x80, 0x80] 0x80 := .two (v := 0x80) (by decide)
  have hfour : IsInteger [0xc0, 0x00, 0x00, 0x41] (0x10 <<< 2 ||| 1) :=
    .four (v := 0x41) (by decide)
  refine ⟨hforms [0x06] _ [0xff] _ htwo, ?_, ?_, ?_, ?_, ?_⟩
  · exact (hread ⟨1, [0x80, 0x80, 0xff]⟩ 0x80 ⟨3, [0xff]⟩ rfl).2
  · exact (hmalformed _).2 (opensNoForm_cons.2 (by decide))
  · exact (hcut _).2 (isCutOff_cons.2 (by decide))
  · exact htoken [0x12] _ [] _ _ _ (by decide) (by decide) hfour
  · exact htag _ 0x0b _ rfl (by decide)

/-! Numbers without room in a token. -/

/-- The number that names the token in a signature, if tokens of its table can stand there. -/
def tokenNumber? (t : Token) : Option Nat := (tableTag? t.table).map fun tag => t.row <<< 2 ||| tag

/-- The number of numbers whose row fits. -/
def tokenNumberBound : Nat := 4 * Token.rowBound

theorem tokenNumber?_of_token {c c' : Cursor} {v : Nat} {t : Token} (h : integer c = .ok v c')
    (ht : token c = .ok t c') : tokenNumber? t = some (v % tokenNumberBound) := by
  cases htable : tokenTable? v with
  | none =>
    rw [token_of_integer_none h htable] at ht
    cases ht
  | some table =>
    rw [token_of_integer h htable] at ht
    cases ht
    have htag := tokenTable?_eq_some_iff.1 htable
    obtain ⟨hbound, hlt⟩ := lt_of_tableTag? htag
    rw [tokenNumber?, Token.table_ofRow hbound, Token.row_ofRow, htag, Option.map_some,
      tagged_eq hlt, tokenNumberBound, Token.rowBound]
    congr 1
    omega

/-- A number names one token. -/
theorem tokenNumber?_inj {t u : Token} {n : Nat} (ht : tokenNumber? t = some n)
    (hu : tokenNumber? u = some n) : t = u := by
  have parts {t : Token} (h : tokenNumber? t = some n) :
      tokenTable? n = some t.table ∧ t.row = n / 4 := by
    obtain ⟨tag, htag, rfl⟩ := Option.map_eq_some_iff.1 h
    obtain ⟨-, hlt⟩ := lt_of_tableTag? htag
    have hmod : (t.row * 4 + tag) % 4 = tag := by omega
    rw [tagged_eq hlt, tokenTable?_eq_some_iff, hmod]
    exact ⟨htag, by omega⟩
  obtain ⟨htable, hrow⟩ := parts ht
  obtain ⟨htable', hrow'⟩ := parts hu
  have hsame : t.table = u.table := Option.some.inj (htable.symm.trans htable')
  rw [← Token.ofRow_table_row t, ← Token.ofRow_table_row u, hsame, hrow, hrow']

/-- The number is kept just if its row fits. -/
theorem tokenNumber?_eq_integer_iff {c c' : Cursor} {v : Nat} {t : Token} (h : integer c = .ok v c')
    (ht : token c = .ok t c') : tokenNumber? t = some v ↔ v < tokenNumberBound := by
  have hbound : 0 < tokenNumberBound := by decide
  rw [tokenNumber?_of_token h ht, Option.some.injEq]
  constructor
  · intro hmod
    rw [← hmod]
    exact Nat.mod_lt v hbound
  · exact Nat.mod_eq_of_lt

/-- A token keeps the low 26 bits of its number, which are the whole number just if its row fits. No
row is too large to be read, and numbers that differ in the other bits alone are the same token. -/
theorem tokens_keep_low_bits (c : Cursor) :
    (∀ t c', token c = .ok t c' → ∃ v, integer c = .ok v c' ∧
      tokenNumber? t = some (v % tokenNumberBound) ∧
      (tokenNumber? t = some v ↔ v < tokenNumberBound)) ∧
    (∀ v c', integer c = .ok v c' → v % 4 ≠ 3 → ∃ t, token c = .ok t c') ∧
    ∀ v c' t d w d' u, integer c = .ok v c' → token c = .ok t c' → integer d = .ok w d' →
      token d = .ok u d' → (t = u ↔ v % tokenNumberBound = w % tokenNumberBound) := by
  refine ⟨?_, ?_, ?_⟩
  · intro t c' h
    obtain ⟨v, hv⟩ := exists_integer_of_token h
    exact ⟨v, hv, tokenNumber?_of_token hv h, tokenNumber?_eq_integer_iff hv h⟩
  · intro v c' h hv
    cases htable : tokenTable? v with
    | none => exact absurd (tokenTable?_eq_none_iff.1 htable) hv
    | some table => exact ⟨_, token_of_integer h htable⟩
  · intro v c' t d w d' u hv ht hw hu
    have htnumber := tokenNumber?_of_token hv ht
    have hunumber := tokenNumber?_of_token hw hu
    constructor
    · rintro rfl
      exact Option.some.inj (htnumber.symm.trans hunumber)
    · intro hmod
      rw [hmod] at htnumber
      exact tokenNumber?_inj htnumber hunumber

theorem wide_rows_keep_low_bits :
    (∃ v, integer (.ofBytes [0xdf, 0xff, 0xff, 0xfc]) = .ok v ⟨4, []⟩ ∧
      tokenNumber? ⟨0x02ffffff⟩ = some (v % tokenNumberBound) ∧
      (tokenNumber? ⟨0x02ffffff⟩ = some v ↔ v < tokenNumberBound)) ∧
    (∃ t, token (.ofBytes [0xdf, 0xff, 0xff, 0xfc]) = .ok t ⟨4, []⟩) ∧
    ((⟨0x02ffffff⟩ : Token) = ⟨0x02000001⟩ ↔
      0x1ffffffc % tokenNumberBound = 4 % tokenNumberBound) := by
  have hwide : integer (.ofBytes [0xdf, 0xff, 0xff, 0xfc]) = .ok 0x1ffffffc ⟨4, []⟩ := rfl
  have htoken : token (.ofBytes [0xdf, 0xff, 0xff, 0xfc]) = .ok ⟨0x02ffffff⟩ ⟨4, []⟩ := rfl
  have hsmall : integer (.ofBytes [0x04]) = .ok 4 ⟨1, []⟩ := rfl
  obtain ⟨hkept, hread, hsame⟩ := tokens_keep_low_bits (.ofBytes [0xdf, 0xff, 0xff, 0xfc])
  refine ⟨hkept _ _ htoken, hread _ _ hwide (by decide), ?_⟩
  exact hsame _ _ _ _ _ _ _ hwide htoken hsmall rfl

/-- Row 0x1000001 of a table is read as row 1. -/
theorem distinct_numbers_one_token :
    ¬ (∀ c v c' t, integer c = .ok v c' → token c = .ok t c' → tokenNumber? t = some v) ∧
    integer (.ofBytes [0xc4, 0x00, 0x00, 0x04]) = .ok 0x4000004 ⟨4, []⟩ ∧
    token (.ofBytes [0xc4, 0x00, 0x00, 0x04]) = .ok ⟨0x02000001⟩ ⟨4, []⟩ ∧
    integer (.ofBytes [0x04]) = .ok 4 ⟨1, []⟩ ∧
    token (.ofBytes [0x04]) = .ok ⟨0x02000001⟩ ⟨1, []⟩ ∧
    parameters 50 [0x00, 0x01, 0x01, 0x11, 0xc4, 0x00, 0x00, 0x04] =
      parameters 50 [0x00, 0x01, 0x01, 0x11, 0x04] := by
  have hwide : integer (.ofBytes [0xc4, 0x00, 0x00, 0x04]) = .ok 0x4000004 ⟨4, []⟩ := rfl
  have htoken : token (.ofBytes [0xc4, 0x00, 0x00, 0x04]) = .ok ⟨0x02000001⟩ ⟨4, []⟩ := rfl
  refine ⟨?_, hwide, htoken, rfl, rfl, ?_⟩
  · intro h
    have hnumber := h _ _ _ _ hwide htoken
    revert hnumber
    decide
  · have hwide : parameters 50 [0x00, 0x01, 0x01, 0x11, 0xc4, 0x00, 0x00, 0x04] =
      .ok [.typeToken ⟨0x02000001⟩] := by with_unfolding_all rfl
    have hsmall : parameters 50 [0x00, 0x01, 0x01, 0x11, 0x04] =
      .ok [.typeToken ⟨0x02000001⟩] := by with_unfolding_all rfl
    rw [hwide, hsmall]

end MethodCapture.Signature
