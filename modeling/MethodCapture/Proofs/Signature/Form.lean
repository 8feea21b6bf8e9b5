import MethodCapture.Signature.Parameters

/-!
Forms of byte strings. A form tells which bytes may stand somewhere and what they mean there. A
reader reads a form when it succeeds just on the byte strings that begin with bytes of this form,
takes these bytes and no others, and returns what they mean. Readers put together from smaller ones
read the forms put together in the same way.
-/

namespace MethodCapture.Signature

open Reader

/-- The position of the first byte, the bytes, and what they mean. -/
abbrev Form (α : Type) := Nat → List UInt8 → α → Prop

structure Reads {α : Type} (r : Reader α) (F : Form α) : Prop where
  sound : ∀ {p bytes a c}, r ⟨p, bytes⟩ = .ok a c →
    ∃ u rest, bytes = u ++ rest ∧ c = ⟨p + u.length, rest⟩ ∧ F p u a
  complete : ∀ {p u a}, F p u a → ∀ rest, r ⟨p, u ++ rest⟩ = .ok a ⟨p + u.length, rest⟩

namespace Form

variable {α β : Type}

/-- No bytes at all. -/
def pure (a : α) : Form α := fun _ u b => u = [] ∧ b = a

def bind (F : Form α) (G : α → Form β) : Form β := fun p w b =>
  ∃ a u v, w = u ++ v ∧ F p u a ∧ G a (p + u.length) v b

/-- A form that is the same wherever it stands. -/
def anywhere (F : List UInt8 → α → Prop) : Form α := fun _ => F

def Le (F G : Form α) : Prop := ∀ p u a, F p u a → G p u a

end Form

/-- A number of byte strings of one form, one after the other. -/
inductive Repeat {α : Type} (F : Form α) : Nat → Form (List α)
  | nil {p : Nat} : Repeat F 0 p [] []
  | cons {n p : Nat} {u v : List UInt8} {a : α} {as : List α} (h : F p u a)
      (hs : Repeat F n (p + u.length) v as) : Repeat F (n + 1) p (u ++ v) (a :: as)

theorem Repeat.mono {α : Type} {F G : Form α} (hle : F.Le G) {n p : Nat} {w : List UInt8}
    {as : List α} (h : Repeat F n p w as) : Repeat G n p w as := by
  induction h with
  | nil => exact .nil
  | cons h _ ih => exact .cons (hle _ _ _ h) ih

namespace Reads

variable {α β : Type} {r : Reader α} {F G : Form α}

theorem congr (hr : Reads r F) (h : ∀ p u a, F p u a ↔ G p u a) : Reads r G where
  sound hok := by
    obtain ⟨u, rest, hb, hc, hu⟩ := hr.sound hok
    exact ⟨u, rest, hb, hc, (h _ _ _).1 hu⟩
  complete hg rest := hr.complete ((h _ _ _).2 hg) rest

theorem pure (a : α) : Reads (Pure.pure a) (Form.pure a) where
  sound h := by
    cases h
    exact ⟨[], _, rfl, rfl, rfl, rfl⟩
  complete h rest := by
    obtain ⟨rfl, rfl⟩ := h
    rfl

theorem bind {s : α → Reader β} {S : α → Form β} (hr : Reads r F) (hs : ∀ a, Reads (s a) (S a)) :
    Reads (r >>= s) (F.bind S) where
  sound h := by
    obtain ⟨a, c₁, h₁, h₂⟩ := bind_eq_ok.1 h
    obtain ⟨u, rest, rfl, rfl, hu⟩ := hr.sound h₁
    obtain ⟨v, rest, rfl, rfl, hv⟩ := (hs a).sound h₂
    exact ⟨u ++ v, rest, by simp, by simp [Nat.add_assoc], a, u, v, rfl, hu, hv⟩
  complete {p w b} h rest := by
    obtain ⟨a, u, v, rfl, hu, hv⟩ := h
    rw [bind_eq_ok]
    refine ⟨a, ⟨p + u.length, v ++ rest⟩, ?_, ?_⟩
    · rw [List.append_assoc]
      exact hr.complete hu _
    · rw [List.length_append, ← Nat.add_assoc]
      exact (hs a).complete hv rest

theorem times (hr : Reads r F) (n : Nat) : Reads (times r n) (Repeat F n) := by
  induction n with
  | zero =>
    refine (pure []).congr fun p u as => ⟨?_, ?_⟩
    · rintro ⟨rfl, rfl⟩
      exact .nil
    · rintro ⟨⟩
      exact ⟨rfl, rfl⟩
  | succ n ih =>
    refine (hr.bind fun a => ih.bind fun as => pure (a :: as)).congr fun p w as => ⟨?_, ?_⟩
    · rintro ⟨a, u, _, rfl, hu, as, v, _, rfl, hv, rfl, rfl⟩
      rw [List.append_nil]
      exact .cons hu hv
    · rintro ⟨⟩
      next u v a as hu hv => exact ⟨a, u, v, rfl, hu, as, v, [], by simp, hv, rfl, rfl⟩

theorem ite {s : Reader α} {c : Prop} [Decidable c] (hr : Reads r F) (hs : Reads s G) :
    Reads (if c then r else s) (if c then F else G) := by
  split
  · exact hr
  · exact hs

theorem byte : Reads byte fun _ u b => u = [b] where
  sound {p bytes a c} h := by
    cases bytes with
    | nil => cases h
    | cons b bs =>
      cases h
      exact ⟨[a], bs, rfl, rfl, rfl⟩
  complete h rest := by
    rw [h]
    rfl

theorem skip : Reads skip fun _ u _ => ∃ b, u = [b] :=
  (byte.bind fun _ => pure ()).congr fun p u _ => ⟨
    fun ⟨b, _, _, hw, hu, hv, _⟩ => ⟨b, by rw [hw, hu, hv]; rfl⟩,
    fun ⟨b, hu⟩ => ⟨b, [b], [], hu, rfl, rfl, rfl⟩⟩

/-- A reader that looks at its first byte before it takes it. -/
theorem peek {s : UInt8 → Reader α} {S : UInt8 → Form α} (hs : ∀ b, Reads (s b) (S b))
    (hS : ∀ b p u a, S b p u a → u ≠ []) :
    Reads (peek >>= s) fun p u a => ∃ b, u.head? = some b ∧ S b p u a where
  sound {p bytes a c} h := by
    cases bytes with
    | nil => cases h
    | cons b bs =>
      obtain ⟨u, rest, he, hc, hu⟩ := (hs b).sound h
      cases u with
      | nil => exact absurd rfl (hS _ _ _ _ hu)
      | cons d ds =>
        obtain ⟨rfl, -⟩ := List.cons.inj he
        exact ⟨b :: ds, rest, he, hc, b, rfl, hu⟩
  complete {p u a} h rest := by
    obtain ⟨b, hb, hu⟩ := h
    cases u with
    | nil => cases hb
    | cons d ds =>
      cases hb
      exact (hs b).complete hu rest

end Reads

/-! Numbers and tokens. -/

/-- The three ways to write a number, by its size; the longer ones are open to smaller numbers
too. -/
inductive IsInteger : List UInt8 → Nat → Prop
  | one {v : Nat} (h : v < 0x80) : IsInteger [.ofNat v] v
  | two {v : Nat} (h : v < 0x4000) : IsInteger [.ofNat (0x80 + v / 0x100), .ofNat v] v
  | four {v : Nat} (h : v < 0x20000000) : IsInteger
      [.ofNat (0xc0 + v / 0x1000000), .ofNat (v / 0x10000), .ofNat (v / 0x100), .ofNat v] v

theorem ofNat_eq_of_mod {b : UInt8} {n : Nat} (h : n % 256 = b.toNat) : UInt8.ofNat n = b := by
  rw [← UInt8.toNat_inj, UInt8.toNat_ofNat', h]

namespace IsInteger

theorem of_one {b : UInt8} (h : b < 0x80) : IsInteger [b] b.toNat := by
  have hb : b.toNat < 0x80 := h
  have he : UInt8.ofNat b.toNat = b := ofNat_eq_of_mod (by omega)
  simpa [he] using one hb

theorem of_two {b c : UInt8} (h₁ : ¬ b < 0x80) (h₂ : b < 0xc0) :
    IsInteger [b, c] (b.toNat % 64 * 256 + c.toNat) := by
  have hlo : 0x80 ≤ b.toNat := UInt8.not_lt.1 h₁
  have hhi : b.toNat < 0xc0 := h₂
  have hc := c.toNat_lt
  have hv := two (v := b.toNat % 64 * 256 + c.toNat) (by omega)
  rwa [ofNat_eq_of_mod (b := b) (by omega), ofNat_eq_of_mod (b := c) (by omega)] at hv

theorem of_four {b c d e : UInt8} (h₁ : ¬ b < 0xc0) (h₂ : b < 0xe0) : IsInteger [b, c, d, e]
    (b.toNat % 32 * 16777216 + c.toNat * 65536 + d.toNat * 256 + e.toNat) := by
  have hlo : 0xc0 ≤ b.toNat := UInt8.not_lt.1 h₁
  have hhi : b.toNat < 0xe0 := h₂
  have hc := c.toNat_lt
  have hd := d.toNat_lt
  have he := e.toNat_lt
  have hv := four (v := b.toNat % 32 * 16777216 + c.toNat * 65536 + d.toNat * 256 + e.toNat)
    (by omega)
  rwa [ofNat_eq_of_mod (b := b) (by omega), ofNat_eq_of_mod (b := c) (by omega),
    ofNat_eq_of_mod (b := d) (by omega), ofNat_eq_of_mod (b := e) (by omega)] at hv

end IsInteger

theorem byte_eq_ok {p : Nat} {bytes : List UInt8} {b : UInt8} {c : Cursor}
    (h : byte ⟨p, bytes⟩ = .ok b c) : ∃ rest, bytes = b :: rest ∧ c = ⟨p + 1, rest⟩ := by
  obtain ⟨u, rest, rfl, rfl, rfl⟩ := Reads.byte.sound h
  exact ⟨rest, rfl, rfl⟩

theorem byte_bind {α : Type} (f : UInt8 → Reader α) (p : Nat) (b : UInt8) (bs : List UInt8) :
    (byte >>= f) ⟨p, b :: bs⟩ = f b ⟨p + 1, bs⟩ := rfl

section

variable {p : Nat} {b c d e : UInt8} {bs : List UInt8}

theorem integer_of_one (h : b < 0x80) : integer ⟨p, b :: bs⟩ = .ok b.toNat ⟨p + 1, bs⟩ := by
  rw [integer, byte_bind]
  simp only [if_pos h]
  rfl

theorem integer_of_two (h₁ : ¬ b < 0x80) (h₂ : b < 0xc0) : integer ⟨p, b :: c :: bs⟩ =
    .ok (b.toNat % 64 * 256 + c.toNat) ⟨p + 2, bs⟩ := by
  rw [integer, byte_bind]
  simp only [if_neg h₁, if_pos h₂]
  rfl

theorem integer_of_four (h₁ : ¬ b < 0x80) (h₂ : ¬ b < 0xc0) (h₃ : b < 0xe0) :
    integer ⟨p, b :: c :: d :: e :: bs⟩ =
      .ok (b.toNat % 32 * 16777216 + c.toNat * 65536 + d.toNat * 256 + e.toNat) ⟨p + 4, bs⟩ := by
  rw [integer, byte_bind]
  simp only [if_neg h₁, if_neg h₂, if_pos h₃]
  rfl

end

theorem ofNat_lt_ofNat_iff {m n : Nat} (hm : m < 256) (hn : n < 256) :
    UInt8.ofNat m < UInt8.ofNat n ↔ m < n := by
  rw [UInt8.lt_iff_toNat_lt, UInt8.toNat_ofNat', UInt8.toNat_ofNat']
  omega

/-- A number is read in whichever way it is written. -/
theorem reads_integer : Reads integer (.anywhere IsInteger) where
  sound {p bytes v c} h := by
    obtain ⟨b, _, hb, h⟩ := bind_eq_ok.1 h
    obtain ⟨bs, rfl, rfl⟩ := byte_eq_ok hb
    split at h
    · next h₁ =>
      cases h
      exact ⟨[b], bs, rfl, rfl, .of_one h₁⟩
    next h₁ =>
    split at h
    · next h₂ =>
      obtain ⟨c, _, hc, h⟩ := bind_eq_ok.1 h
      obtain ⟨bs, rfl, rfl⟩ := byte_eq_ok hc
      cases h
      exact ⟨[b, c], bs, rfl, rfl, .of_two h₁ h₂⟩
    next h₂ =>
    split at h
    · next h₃ =>
      obtain ⟨c, _, hc, h⟩ := bind_eq_ok.1 h
      obtain ⟨bs, rfl, rfl⟩ := byte_eq_ok hc
      obtain ⟨d, _, hd, h⟩ := bind_eq_ok.1 h
      obtain ⟨bs, rfl, rfl⟩ := byte_eq_ok hd
      obtain ⟨e, _, he, h⟩ := bind_eq_ok.1 h
      obtain ⟨bs, rfl, rfl⟩ := byte_eq_ok he
      cases h
      exact ⟨[b, c, d, e], bs, rfl, rfl, .of_four h₂ h₃⟩
    · cases h
  complete {p u v} h rest := by
    cases h with
    | one h =>
      have h₁ := (ofNat_lt_ofNat_iff (n := 0x80) (by omega) (by omega)).2 h
      refine (integer_of_one h₁).trans ?_
      rw [UInt8.toNat_ofNat', Nat.mod_eq_of_lt (by omega)]
      rfl
    | two h =>
      have lt (n : Nat) (hn : n < 256) :=
        ofNat_lt_ofNat_iff (m := 0x80 + v / 0x100) (n := n) (by omega) hn
      have h₁ := (not_congr (lt 0x80 (by omega))).2 (by omega)
      have h₂ := (lt 0xc0 (by omega)).2 (by omega)
      refine (integer_of_two h₁ h₂).trans ?_
      congr 1
      simp only [UInt8.toNat_ofNat']
      omega
    | four h =>
      have lt (n : Nat) (hn : n < 256) :=
        ofNat_lt_ofNat_iff (m := 0xc0 + v / 0x1000000) (n := n) (by omega) hn
      have h₁ := (not_congr (lt 0x80 (by omega))).2 (by omega)
      have h₂ := (not_congr (lt 0xc0 (by omega))).2 (by omega)
      have h₃ := (lt 0xe0 (by omega)).2 (by omega)
      refine (integer_of_four h₁ h₂ h₃).trans ?_
      congr 1
      simp only [UInt8.toNat_ofNat']
      omega

/-- The low two bits of a token of the table. -/
def tableTag? (table : Nat) : Option Nat :=
  if table = Table.typeDef then some 0
  else if table = Table.typeRef then some 1
  else if table = Table.typeSpec then some 2
  else none

theorem tokenTable?_eq_some_iff {v table : Nat} :
    tokenTable? v = some table ↔ tableTag? table = some (v % 4) := by
  have hv : v % 4 = 0 ∨ v % 4 = 1 ∨ v % 4 = 2 ∨ v % 4 = 3 := by omega
  simp only [tokenTable?, tableTag?, Table.typeDef, Table.typeRef, Table.typeSpec]
  rcases hv with h | h | h | h <;> rw [h] <;> grind

theorem lt_of_tableTag? {table tag : Nat} (h : tableTag? table = some tag) :
    table < 256 ∧ tag < 4 := by
  simp only [tableTag?, Table.typeDef, Table.typeRef, Table.typeSpec] at h
  grind

/-- A token is written as a number. The low two bits tell its table; of the others, which are its
row, it has room for 24. -/
def IsToken (u : List UInt8) (t : Token) : Prop :=
  ∃ v, IsInteger u v ∧ tableTag? t.table = some (v % 4) ∧ t.row = v / 4 % Token.rowBound

/-- The token that a number tells is the one with its table and its row. -/
theorem eq_ofRow_iff {v table : Nat} {t : Token} (h : tokenTable? v = some table) :
    t = .ofRow table (v / 4) ↔
      tableTag? t.table = some (v % 4) ∧ t.row = v / 4 % Token.rowBound := by
  have htag := tokenTable?_eq_some_iff.1 h
  constructor
  · rintro rfl
    rw [Token.table_ofRow (lt_of_tableTag? htag).1, Token.row_ofRow]
    exact ⟨htag, rfl⟩
  · rintro ⟨htable, hrow⟩
    have hsame := Option.some.inj (h.symm.trans (tokenTable?_eq_some_iff.2 htable))
    rw [← Token.ofRow_table_row t, ← hsame, hrow, Token.ofRow_mod]

theorem reads_token : Reads token (.anywhere IsToken) where
  sound {p bytes t c} h := by
    obtain ⟨v, _, hv, h⟩ := bind_eq_ok.1 h
    obtain ⟨u, rest, rfl, rfl, hu⟩ := reads_integer.sound hv
    cases ht : tokenTable? v with
    | none =>
      rw [ht] at h
      cases h
    | some table =>
      rw [ht] at h
      cases h
      exact ⟨u, rest, rfl, rfl, v, hu, (eq_ofRow_iff ht).1 rfl⟩
  complete {p u t} h rest := by
    obtain ⟨v, hu, htable, hrow⟩ := h
    obtain ⟨table, ht⟩ : ∃ table, tokenTable? v = some table :=
      ⟨t.table, tokenTable?_eq_some_iff.2 htable⟩
    obtain rfl := (eq_ofRow_iff ht).2 ⟨htable, hrow⟩
    rw [token, bind_eq_ok]
    refine ⟨v, _, reads_integer.complete hu rest, ?_⟩
    rw [ht]
    rfl

/-! Modifiers. They are read as long as there are any, so that what follows must not begin with
one. -/

/-- The element of a modifier and a token. -/
inductive IsModifier : List UInt8 → Prop
  | mk {e : Element} {u : List UInt8} {t : Token}
      (he : e = .requiredModifier ∨ e = .optionalModifier) (hu : IsToken u t) :
      IsModifier (e.code :: u)

inductive IsModifiers : List UInt8 → Prop
  | nil : IsModifiers []
  | cons {u v : List UInt8} (h : IsModifier u) (hs : IsModifiers v) : IsModifiers (u ++ v)

theorem IsModifiers.append {u v : List UInt8} (hu : IsModifiers u) (hv : IsModifiers v) :
    IsModifiers (u ++ v) := by
  induction hu with
  | nil => exact hv
  | cons h _ ih =>
    rw [List.append_assoc]
    exact .cons h ih

def opensModifier (bytes : List UInt8) : Bool := bytes.head?.any isModifier

theorem modifiers_of_not_opens {c : Cursor} (h : opensModifier c.rest = false) :
    modifiers c = .ok () c := by
  obtain ⟨p, _ | ⟨b, bs⟩⟩ := c
  · rw [modifiers]
  · have hb : isModifier b = false := h
    rw [modifiers]
    simp [hb]

theorem modifiers_of_token {p : Nat} {b : UInt8} {bs : List UInt8} {t : Token} {c : Cursor}
    (hb : isModifier b = true) (ht : token ⟨p + 1, bs⟩ = .ok t c) :
    modifiers ⟨p, b :: bs⟩ = modifiers c := by
  rw [modifiers]
  simp only [hb, if_true]
  split
  · next ht' =>
    rw [ht] at ht'
    cases ht'
    rfl
  · next ht' =>
    rw [ht] at ht'
    cases ht'

theorem modifiers_sound {c c' : Cursor} (h : modifiers c = .ok () c') : ∃ u rest,
    c.rest = u ++ rest ∧ c' = ⟨c.position + u.length, rest⟩ ∧ IsModifiers u ∧
      opensModifier rest = false := by
  fun_induction modifiers c with
  | case1 c hc =>
    have ho : opensModifier c.rest = false := by rw [hc]; rfl
    cases h
    exact ⟨[], _, rfl, rfl, .nil, ho⟩
  | case2 c b bs hc hb t c₁ ht _ ih =>
    obtain ⟨u, rest, rfl, rfl, hu⟩ := reads_token.sound ht
    obtain ⟨v, rest', hv, rfl, hvs, hrest⟩ := ih h
    obtain ⟨e, he, rfl⟩ := exists_code_of_isModifier hb
    have hw : IsModifiers (e.code :: u ++ v) := .cons (.mk he hu) hvs
    refine ⟨e.code :: u ++ v, rest', ?_, ?_, hw, hrest⟩
    · dsimp only at hv
      rw [hc, hv]
      simp
    · simp [Nat.add_assoc, Nat.add_comm, Nat.add_left_comm]
  | case3 => cases h
  | case4 c b bs hc hb =>
    have ho : opensModifier c.rest = false := by simpa [opensModifier, hc] using hb
    cases h
    exact ⟨[], _, rfl, rfl, .nil, ho⟩

theorem modifiers_complete {u rest : List UInt8} (h : IsModifiers u)
    (hr : opensModifier rest = false) (p : Nat) :
    modifiers ⟨p, u ++ rest⟩ = .ok () ⟨p + u.length, rest⟩ := by
  induction h generalizing p with
  | nil => exact modifiers_of_not_opens hr
  | cons h _ ih =>
    cases h with
    | mk he hu =>
      rw [List.append_assoc]
      refine (modifiers_of_token (isModifier_code_iff.2 he) (reads_token.complete hu _)).trans
        ((ih _).trans ?_)
      simp [Nat.add_assoc, Nat.add_comm, Nat.add_left_comm]

theorem opensModifier_append {u : List UInt8} (hu : u ≠ []) (rest : List UInt8) :
    opensModifier (u ++ rest) = opensModifier u := by
  cases u with
  | nil => exact absurd rfl hu
  | cons => rfl

/-- All modifiers that stand there, then the given form. -/
def Form.afterModifiers {α : Type} (F : Form α) : Form α := fun p w a =>
  ∃ u v, w = u ++ v ∧ IsModifiers u ∧ opensModifier v = false ∧ F (p + u.length) v a

theorem Reads.afterModifiers {α : Type} {r : Reader α} {F : Form α} (hr : Reads r F)
    (hF : ∀ p u a, F p u a → u ≠ []) : Reads (do modifiers; r) F.afterModifiers where
  sound h := by
    obtain ⟨_, _, hm, h⟩ := bind_eq_ok.1 h
    obtain ⟨u, _, rfl, rfl, hu, ho⟩ := modifiers_sound hm
    obtain ⟨v, rest, rfl, rfl, hv⟩ := hr.sound h
    rw [opensModifier_append (hF _ _ _ hv)] at ho
    exact ⟨u ++ v, rest, by simp, by simp [Nat.add_assoc], u, v, rfl, hu, ho, hv⟩
  complete {p w a} h rest := by
    obtain ⟨u, v, rfl, hu, ho, hv⟩ := h
    refine bind_eq_ok.2 ⟨(), ⟨p + u.length, v ++ rest⟩, ?_, ?_⟩
    · rw [← opensModifier_append (hF _ _ _ hv) rest] at ho
      rw [List.append_assoc]
      exact modifiers_complete hu ho p
    · rw [List.length_append, ← Nat.add_assoc]
      exact hr.complete hv rest

end MethodCapture.Signature
