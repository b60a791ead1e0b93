import MacroScript.Grammar.Rules
/-
  Waits: the pause that a line asks for, a count of 32 bits. The argument of a wait asks for the
  decimal at its start, rounded half up in double precision and held to 32 bits. A text that
  starts with no decimal asks for no wait.
-/

namespace MacroScript

abbrev Wait := UInt32

namespace Wait

/-- The length of the longest wait. -/
def longest : Nat := 4294967295

/-- The wait nearest to a whole number: none below zero, the longest above it. -/
def saturate (n : Int) : Wait := UInt32.ofNat (min n.toNat longest)

theorem toNat_saturate (n : Int) : (saturate n).toNat = min n.toNat longest := by
  have h : min n.toNat longest < 2 ^ 32 := by unfold longest; omega
  simp only [saturate, UInt32.toNat_ofNat', Nat.mod_eq_of_lt h]

theorem saturate_mono {m n : Int} (h : m ≤ n) : saturate m ≤ saturate n := by
  rw [UInt32.le_iff_toNat_le, toNat_saturate, toNat_saturate]
  have := Int.toNat_le_toNat h
  omega

/-! ## Rounding -/

/-- One half added and rounded down, where the number and the sum are rounded to the 53 bits of a
double. The number next below one half goes up to one, since its sum with one half is rounded to
one. -/
def roundHalfUp (v : Rat) : Int := (Binary64.nearest (Binary64.nearest v + 1 / 2)).floor

/-- A lower bound of the binary logarithm of `digits` times ten to an `exponent` that is not
negative, and one less than an upper bound for a negative one: `8 ≤ 10`. -/
def bits (digits : Nat) (exponent : Int) : Int := (digits.log2 : Int) + 3 * exponent

/-- The wait of a decimal. A number below zero asks for none. Numbers that are plainly below one
quarter or above every wait are settled without their exact values, which may be huge. -/
def ofDecimal : Decimal → Wait
  | .infinite negative => if negative then 0 else saturate longest
  | .finite negative digits exponent =>
    if negative || digits == 0 then 0
    else if 0 ≤ exponent ∧ 32 ≤ bits digits exponent then saturate longest
    else if exponent < 0 ∧ bits digits exponent ≤ -3 then 0
    else saturate (roundHalfUp (Decimal.scaled digits exponent))

/-! ## Reading -/

/-- The text of the decimal at the start of an argument, after any spaces. -/
def numberText? (argument : List Char) : Option (List Char) := do
  let parts ← Grammar.waitArgument.parts? argument
  let whole ← parts.head?
  let number ← whole.inner.head?
  return number.text

def ofArgument (argument : List Char) : Wait :=
  match (numberText? argument).bind Decimal.read? with
  | some d => ofDecimal d
  | none => 0

end Wait

end MacroScript
