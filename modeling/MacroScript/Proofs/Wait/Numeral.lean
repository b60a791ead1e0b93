import MacroScript.Proofs.Wait.HalfUp
import MacroScript.Proofs.Wait.Prefix
/-
  The wait of a numeral is the wait of its value (`ofArgument_eq`), so the numeral of a wait asks
  for that wait (`ofArgument_toDigits`): a wait is a whole number of 32 bits at most; it is a
  double and so is one half more, so rounding changes neither.
-/

namespace MacroScript

/-! ## Numerals of natural numbers -/

theorem Decimal.ofDigits_toDigits (k : Nat) : ofDigits (Nat.toDigits 10 k) = k :=
  Nat.ofDigitChars_ten_toDigits

theorem Numeral.exists_text_eq_toDigits (k : Nat) :
    ∃ n : Numeral, n.text = Nat.toDigits 10 k ∧ n.value = (k : Rat) := by
  obtain ⟨ds, hds⟩ := exists_digitText (s := Nat.toDigits 10 k)
    fun c hc => Nat.isDigit_of_mem_toDigits (by decide) (by decide) hc
  have hne : ds ≠ [] := by
    rintro rfl
    exact Nat.toDigits_ne_nil hds.symm
  have hvalue : digitValue ds = k := by
    rw [← ofDigits_digitText, hds, Decimal.ofDigits_toDigits]
  refine ⟨⟨.unsigned, .finite ⟨ds, none, by simpa using hne⟩ none⟩, ?_, ?_⟩
  · simp [text, Sign.text, Magnitude.text, Mantissa.text, hds]
  · simp [value, Sign.negative, scaled, Mantissa.value, Mantissa.digits, Mantissa.places, hvalue]

/-! ## Waits of numerals -/

namespace Wait

variable {n : Numeral} {argument : List Char}

theorem ofArgument_eq (h : n.Leads (argument.dropWhile isSpace)) :
    ofArgument argument = halfUp n.value := by
  rw [ofArgument_of_leads h, ofDecimal_eq, Decimal.extended_decimal]

theorem saturate_toNat (w : Wait) : saturate w.toNat = w := by
  rw [← UInt32.toNat_inj, toNat_saturate, Int.toNat_natCast]
  have hlt := w.toNat_lt
  unfold longest
  omega

theorem ofArgument_toDigits (w : Wait) : ofArgument (Nat.toDigits 10 w.toNat) = w := by
  obtain ⟨n, htext, hvalue⟩ := Numeral.exists_text_eq_toDigits w.toNat
  have hlt : w.toNat < 2 ^ 32 := w.toNat_lt
  rw [← htext, ofArgument_text, ofDecimal_eq, Decimal.extended_decimal, hvalue,
    halfUp_natCast (by omega), saturate_toNat]

end Wait

end MacroScript
