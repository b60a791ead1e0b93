import Mathlib.Algebra.Order.Field.Basic
import Mathlib.Data.List.Induction
import Mathlib.Tactic.Ring
import MacroScript.Number
import MacroScript.Proofs.Number.Numeral
import MacroScript.Proofs.Text.Runs
/-
  Numerals are read as the decimals that they write. The sign, the digits on both sides of the
  point and the exponent are cut apart where they were put together, since no part begins with a
  character that could go on the part before it; so no numeral is refused (`read?_text`), and the
  decimal has the value of the numeral (`extended_decimal`).
-/

namespace MacroScript

open Numeral

/-! ## Digits -/

namespace Numeral

theorem digitText_append (ds es : List (Fin 10)) :
    digitText (ds ++ es) = digitText ds ++ digitText es := List.map_append

theorem isDigit_digitChar (d : Fin 10) : (Nat.digitChar d.val).isDigit = true := by
  decide +revert

theorem isDigit_of_mem_digitText {ds : List (Fin 10)} :
    ∀ c ∈ digitText ds, c.isDigit = true := by
  intro c h
  obtain ⟨d, -, rfl⟩ := List.mem_map.mp h
  exact isDigit_digitChar d

theorem exists_digitText {s : List Char} (h : ∀ c ∈ s, c.isDigit = true) :
    ∃ ds, digitText ds = s := by
  induction s with
  | nil => exact ⟨[], rfl⟩
  | cons c s ih =>
    rw [List.forall_mem_cons] at h
    have hrange : 48 ≤ c.toNat ∧ c.toNat ≤ 57 := Char.isDigit_iff_toNat.mp h.1
    have hc : Nat.digitChar (c.toNat - 48) = c := by
      apply Char.toNat_inj.mp
      rw [Nat.toNat_digitChar_of_lt_ten (by omega)]
      omega
    obtain ⟨ds, hds⟩ := ih h.2
    refine ⟨⟨c.toNat - 48, by omega⟩ :: ds, ?_⟩
    rw [← hds, digitText, List.map_cons, hc]
    rfl

theorem digitValue_append_singleton (ds : List (Fin 10)) (d : Fin 10) :
    digitValue (ds ++ [d]) = 10 * digitValue ds + d.val := by
  unfold digitValue
  rw [List.reverse_append, List.reverse_singleton, List.singleton_append, List.map_cons,
    Nat.ofDigits_cons]
  exact Nat.add_comm ..

theorem ofDigits_digitText (ds : List (Fin 10)) :
    Decimal.ofDigits (digitText ds) = digitValue ds := by
  induction ds using List.reverseRecOn with
  | nil => rfl
  | append_singleton ds d ih =>
    have hd : (Nat.digitChar d.val).toNat - '0'.toNat = d.val := by
      decide +revert
    rw [digitValue_append_singleton, ← ih, digitText_append]
    unfold Decimal.ofDigits
    rw [List.foldl_append]
    exact congrArg (_ + ·) hd

/-! ## First characters -/

theorem ne_sign_of_isDigit {c : Char} (h : c.isDigit = true) : c ≠ '+' ∧ c ≠ '-' := by
  constructor
  · rintro rfl
    exact absurd h (by decide)
  · rintro rfl
    exact absurd h (by decide)

theorem digitText_head?_ne_sign {ds : List (Fin 10)} (hne : ds ≠ []) (t : List Char) :
    ∀ c ∈ (digitText ds ++ t).head?, c ≠ '+' ∧ c ≠ '-' := by
  obtain ⟨d, ds, rfl⟩ := List.exists_cons_of_ne_nil hne
  intro c hc
  obtain rfl : Nat.digitChar d.val = c := Option.some.inj hc
  exact ne_sign_of_isDigit (isDigit_digitChar d)

theorem isDigit_head?_point (t : List Char) : ∀ c ∈ ('.' :: t).head?, c.isDigit = false := by
  intro c hc
  obtain rfl : '.' = c := Option.some.inj hc
  decide

theorem Mantissa.head?_text (x : Mantissa) (t : List Char) :
    ∀ c ∈ (x.text ++ t).head?, c.isDigit = true ∨ c = '.' := by
  obtain ⟨whole, fraction, hne⟩ := x
  intro c hc
  cases whole with
  | cons d ds =>
    obtain rfl : Nat.digitChar d.val = c := Option.some.inj hc
    exact Or.inl (isDigit_digitChar d)
  | nil =>
    cases fraction with
    | none => exact absurd rfl hne
    | some fs =>
      obtain rfl : '.' = c := Option.some.inj hc
      exact Or.inr rfl

theorem Exponent.head?_text (e : Exponent) (t : List Char) :
    ∀ c ∈ (e.text ++ t).head?, c.isDigit = false ∧ c ≠ '.' := by
  intro c hc
  obtain rfl : e.mark = c := Option.some.inj hc
  unfold Exponent.mark
  split
  · decide
  · decide

theorem Magnitude.head?_text (x : Magnitude) (t : List Char) :
    ∀ c ∈ (x.text ++ t).head?, isSpace c = false ∧ c ≠ '+' ∧ c ≠ '-' := by
  intro c hc
  cases x with
  | infinity =>
    obtain rfl : 'I' = c := Option.some.inj hc
    decide
  | finite x e =>
    rw [Magnitude.text, List.append_assoc] at hc
    rcases x.head?_text _ c hc with hdigit | rfl
    · exact ⟨isSpace_of_isDigit hdigit, ne_sign_of_isDigit hdigit⟩
    · decide

theorem isSpace_head?_text (n : Numeral) (t : List Char) :
    ∀ c ∈ (n.text ++ t).head?, isSpace c = false := by
  obtain ⟨sign, magnitude⟩ := n
  intro c hc
  cases sign with
  | unsigned => exact (magnitude.head?_text t c hc).1
  | plus =>
    obtain rfl : '+' = c := Option.some.inj hc
    decide
  | minus =>
    obtain rfl : '-' = c := Option.some.inj hc
    decide

/-! ## The decimal of a numeral -/

def decimal (n : Numeral) : Decimal :=
  match n.magnitude with
  | .infinity => .infinite n.sign.negative
  | .finite x e =>
    .finite n.sign.negative (digitValue x.digits) (e.elim 0 Exponent.value - x.places)

end Numeral

namespace Decimal

/-- The value of a decimal, or the infinity of its sign. -/
def extended (d : Decimal) : WithBotTop Rat :=
  match d.value? with
  | some v => v
  | none => if d = .infinite true then ⊥ else ⊤

theorem extended_decimal (n : Numeral) : n.decimal.extended = n.value := by
  obtain ⟨sign, magnitude⟩ := n
  cases magnitude with
  | infinity =>
    cases sign with
    | unsigned => rfl
    | plus => rfl
    | minus => rfl
  | finite x e =>
    have hscaled : scaled (digitValue x.digits) (e.elim 0 Exponent.value - x.places) =
        Numeral.scaled x e := by
      unfold scaled Numeral.scaled Mantissa.value
      rw [zpow_sub₀ (by norm_num), zpow_natCast]
      ring
    unfold extended Numeral.decimal value? Numeral.value
    dsimp only
    rw [hscaled]

/-! ## Reading -/

theorem splitSign_text (sign : Sign) {t : List Char} (ht : ∀ c ∈ t.head?, c ≠ '+' ∧ c ≠ '-') :
    splitSign (sign.text ++ t) = (sign.negative, t) := by
  cases sign with
  | plus => rfl
  | minus => rfl
  | unsigned =>
    rw [Sign.text, List.nil_append]
    unfold splitSign
    split
    · exact absurd rfl (ht '-' rfl).2
    · exact absurd rfl (ht '+' rfl).1
    · rfl

theorem splitPoint_text (x : Mantissa) {t : List Char}
    (ht : ∀ c ∈ t.head?, c.isDigit = false ∧ c ≠ '.') :
    splitPoint (x.text ++ t) = (digitText x.whole, digitText (x.fraction.getD []), t) := by
  obtain ⟨whole, fraction, hne⟩ := x
  have hdigit : ∀ c ∈ t.head?, c.isDigit = false := fun c hc => (ht c hc).1
  unfold splitPoint Mantissa.text
  cases fraction with
  | none =>
    rw [Option.elim_none, List.append_nil,
      takeWhile_append_of_stop isDigit_of_mem_digitText hdigit,
      dropWhile_append_of_stop isDigit_of_mem_digitText hdigit]
    split
    · exact absurd rfl (ht '.' rfl).2
    · rfl
  | some fs =>
    have hstop := isDigit_head?_point (digitText fs ++ t)
    rw [Option.elim_some, List.append_assoc, List.cons_append,
      takeWhile_append_of_stop isDigit_of_mem_digitText hstop,
      dropWhile_append_of_stop isDigit_of_mem_digitText hstop]
    show (digitText whole, (digitText fs ++ t).takeWhile Char.isDigit,
      (digitText fs ++ t).dropWhile Char.isDigit) = _
    rw [takeWhile_append_of_stop isDigit_of_mem_digitText hdigit,
      dropWhile_append_of_stop isDigit_of_mem_digitText hdigit]
    rfl

theorem readInteger?_text (sign : Sign) {ds : List (Fin 10)} (hne : ds ≠ []) :
    readInteger? (sign.text ++ digitText ds) =
      some (if sign.negative then -(digitValue ds : Int) else digitValue ds) := by
  have hall : (digitText ds).all Char.isDigit = true :=
    List.all_eq_true.mpr isDigit_of_mem_digitText
  unfold readInteger?
  rw [splitSign_text sign (by simpa using digitText_head?_ne_sign hne [])]
  dsimp only
  rw [hall, ofDigits_digitText]
  simp [digitText, hne]

theorem readExponent?_text (e : Option Exponent) :
    readExponent? (e.elim [] Exponent.text) = some (e.elim 0 Exponent.value) := by
  cases e with
  | none => rfl
  | some e =>
    obtain ⟨capital, sign, ds, hne⟩ := e
    cases capital with
    | true => exact readInteger?_text sign hne
    | false => exact readInteger?_text sign hne

theorem readFinite?_text (negative : Bool) (x : Mantissa) (e : Option Exponent) :
    readFinite? negative (x.text ++ e.elim [] Exponent.text) =
      some (.finite negative (digitValue x.digits) (e.elim 0 Exponent.value - x.places)) := by
  have hstop : ∀ c ∈ (e.elim [] Exponent.text).head?, c.isDigit = false ∧ c ≠ '.' := by
    cases e with
    | none => simp
    | some e => simpa using e.head?_text []
  have hne : ¬ ((digitText x.whole).isEmpty && (digitText (x.fraction.getD [])).isEmpty) := by
    simpa [digitText] using x.digits_ne_nil
  unfold readFinite?
  rw [splitPoint_text x hstop]
  dsimp only
  rw [if_neg hne, readExponent?_text, ← digitText_append, ofDigits_digitText]
  simp [Mantissa.digits, Mantissa.places, digitText]

/-- Every numeral is read. -/
theorem read?_text (n : Numeral) : read? n.text = some n.decimal := by
  obtain ⟨sign, magnitude⟩ := n
  have hsign : ∀ c ∈ magnitude.text.head?, c ≠ '+' ∧ c ≠ '-' := by
    simpa using fun c hc => (magnitude.head?_text [] c hc).2
  unfold read? Numeral.text
  rw [splitSign_text sign hsign]
  dsimp only
  cases magnitude with
  | infinity => rfl
  | finite x e =>
    have hword : (Magnitude.finite x e).text ≠ infinityWord := by
      intro h
      have hhead := x.head?_text (e.elim [] Exponent.text) 'I' (by rw [← Magnitude.text, h]; rfl)
      exact absurd hhead (by decide)
    rw [if_neg hword, Magnitude.text, readFinite?_text]
    rfl

end Decimal

end MacroScript
