import Mathlib.Logic.Relation
import MacroScript.Proofs.Number.Reading
/-
  Spellings of one number. Numerals that differ in a plus sign, in zeros before the first or after
  the last digit, or in where the point and the exponent put the same digits, have one value
  (`Numeral.SpellsAlike.value_eq`).
-/

namespace MacroScript.Numeral

/-! ## Respelling -/

/-- One way to write a number otherwise. -/
inductive Respells : Numeral → Numeral → Prop
  | plus (y : Magnitude) : Respells ⟨.plus, y⟩ ⟨.unsigned, y⟩
  | leadingZero (sign : Sign) (x x' : Mantissa) (e : Option Exponent)
      (hwhole : x.whole = 0 :: x'.whole) (hfraction : x.fraction = x'.fraction) :
      Respells ⟨sign, .finite x e⟩ ⟨sign, .finite x' e⟩
  | trailingZero (sign : Sign) (x x' : Mantissa) (e : Option Exponent)
      (hwhole : x.whole = x'.whole) (hfraction : x.fraction = some (x'.fraction.getD [] ++ [0])) :
      Respells ⟨sign, .finite x e⟩ ⟨sign, .finite x' e⟩
  /-- The same digits, with the point elsewhere or an exponent written otherwise. -/
  | moved (sign : Sign) (x x' : Mantissa) (e e' : Option Exponent) (hdigits : x.digits = x'.digits)
      (hexponent : e.elim 0 Exponent.value - x.places = e'.elim 0 Exponent.value - x'.places) :
      Respells ⟨sign, .finite x e⟩ ⟨sign, .finite x' e'⟩

/-- Any number of respellings, there and back. -/
def SpellsAlike : Numeral → Numeral → Prop := Relation.EqvGen Respells

/-! ## Values -/

theorem digitValue_zero_cons (ds : List (Fin 10)) : digitValue (0 :: ds) = digitValue ds := by
  unfold digitValue
  rw [List.reverse_cons, List.map_append, Nat.ofDigits_append]
  simp

/-- Digits, places and exponent say a value through one power of ten. -/
theorem scaled_eq (x : Mantissa) (e : Option Exponent) :
    scaled x e = digitValue x.digits * (10 : Rat) ^ (e.elim 0 Exponent.value - x.places) := by
  unfold scaled Mantissa.value
  rw [zpow_sub₀ (by norm_num), zpow_natCast]
  ring

theorem value_congr {sign : Sign} {x x' : Mantissa} {e e' : Option Exponent}
    (h : scaled x e = scaled x' e') :
    value ⟨sign, .finite x e⟩ = value ⟨sign, .finite x' e'⟩ := by
  unfold value
  dsimp only
  rw [h]

theorem Respells.value_eq {m n : Numeral} (h : Respells m n) : m.value = n.value := by
  cases h with
  | plus y => rfl
  | leadingZero sign x x' e hwhole hfraction =>
    have hplaces : x.places = x'.places := by rw [Mantissa.places, hfraction, Mantissa.places]
    have hdigits : x.digits = 0 :: x'.digits := by
      rw [Mantissa.digits, hwhole, hfraction, List.cons_append, Mantissa.digits]
    apply value_congr
    rw [scaled_eq, scaled_eq, hdigits, digitValue_zero_cons, hplaces]
  | trailingZero sign x x' e hwhole hfraction =>
    have hplaces : x.places = x'.places + 1 := by
      rw [Mantissa.places, hfraction, Option.getD_some, List.length_append]
      rfl
    have hdigits : x.digits = x'.digits ++ [0] := by
      rw [Mantissa.digits, hwhole, hfraction, Option.getD_some, ← List.append_assoc,
        Mantissa.digits]
    have hpower : e.elim 0 Exponent.value - (x'.places + 1 : Nat) =
        e.elim 0 Exponent.value - x'.places - 1 := by
      rw [Nat.cast_succ, sub_sub]
    apply value_congr
    rw [scaled_eq, scaled_eq, hdigits, digitValue_append_singleton, hplaces, hpower,
      zpow_sub_one₀ (by norm_num), Fin.val_zero, add_zero, Nat.cast_mul]
    ring
  | moved sign x x' e e' hdigits hexponent =>
    apply value_congr
    rw [scaled_eq, scaled_eq, hdigits, hexponent]

theorem SpellsAlike.value_eq {m n : Numeral} (h : m.SpellsAlike n) : m.value = n.value := by
  induction h with
  | rel _ _ h => exact h.value_eq
  | refl => rfl
  | symm _ _ _ ih => exact ih.symm
  | trans _ _ _ _ _ ih ih' => exact ih.trans ih'

end MacroScript.Numeral
