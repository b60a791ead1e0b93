import Mathlib.Algebra.Order.Monoid.Unbundled.WithTop
import Mathlib.Data.Rat.Floor
import Mathlib.Tactic.FieldSimp
import Mathlib.Tactic.Ring
import MacroScript.Proofs.Number.Double
import MacroScript.Proofs.Number.Reading
import MacroScript.Wait
/-
  The wait of a number as doubles compute it: the number becomes the nearest double, one half is
  added to it as doubles are added, and the floor of the sum is held to 32 bits (`halfUp`). It is
  monotone, for each of its steps is. The wait of a decimal is the wait of its value
  (`ofDecimal_eq`): the sizes that are settled without rounding, and the rounding without a least
  and a greatest exponent, differ from doubles only where the wait is none or the longest.
-/

namespace MacroScript.Wait

open Binary64

variable {v w : Rat} {x y : WithBotTop Rat}

/-! ## Definitions -/

/-- The whole number below a double, held to 32 bits. -/
def floor : WithBotTop Rat → Wait
  | ⊥ => 0
  | (v : Rat) => saturate v.floor
  | ⊤ => saturate longest

/-- The floor of the double nearest to a number plus one half, where the sum is a double too. -/
def halfUp (x : WithBotTop Rat) : Wait := floor (toDouble (toDouble x + (1 / 2 : Rat)))

/-! ## Larger numbers -/

theorem le_saturate_longest (w : Wait) : w ≤ saturate longest := by
  rw [UInt32.le_iff_toNat_le, toNat_saturate]
  have hlt := w.toNat_lt
  unfold longest
  omega

theorem floor_mono (h : x ≤ y) : floor x ≤ floor y := by
  induction y using WithBotTop.rec with
  | top => exact le_saturate_longest _
  | bot =>
    rw [le_bot_iff.mp h]
    exact UInt32.le_refl _
  | coe w =>
    induction x using WithBotTop.rec with
    | top => exact absurd (top_le_iff.mp h) (WithBotTop.coe_ne_top w)
    | bot => exact UInt32.zero_le
    | coe v => exact saturate_mono (Rat.floor_monotone (WithBotTop.coe_le_coe.mp h))

theorem halfUp_mono (h : x ≤ y) : halfUp x ≤ halfUp y :=
  floor_mono (toDouble_mono (add_le_add_left (toDouble_mono h) _))

theorem halfUp_coe_mono (h : v ≤ w) : halfUp v ≤ halfUp w :=
  halfUp_mono (WithBotTop.coe_le_coe.mpr h)

/-! ## Numbers that are doubles -/

theorem floor_toDouble_dyadic {m j : Nat} (hm : m < 2 ^ 53) (hj : j ≤ 1022) :
    floor (toDouble ((m : Rat) / 2 ^ j : Rat)) = saturate (m / 2 ^ j : Nat) := by
  have hfloor := Rat.floor_natCast_div_natCast m (2 ^ j)
  rw [Nat.cast_pow, Nat.cast_ofNat] at hfloor
  rw [toDouble_dyadic hm hj]
  exact congrArg saturate hfloor

/-- Where neither the number nor its sum with one half has more than 53 bits, only the floor
rounds. -/
theorem halfUp_dyadic {m j k : Nat} (hm : m + 2 ^ j < 2 ^ 53) (hj : j < 1022)
    (hv : v = (m : Rat) / 2 ^ (j + 1)) (hk : (m + 2 ^ j) / 2 ^ (j + 1) = k) :
    halfUp v = saturate k := by
  have hsum : v + 1 / 2 = ((m + 2 ^ j : Nat) : Rat) / 2 ^ (j + 1) := by
    rw [hv]
    push_cast
    field_simp
    ring
  have hdouble : toDouble v = v := by
    rw [hv, toDouble_dyadic ((Nat.le_add_right ..).trans_lt hm) (by omega)]
  unfold halfUp
  rw [hdouble]
  show floor (toDouble (v + 1 / 2 : Rat)) = _
  rw [hsum, floor_toDouble_dyadic hm (by omega), hk]

theorem halfUp_natCast {k : Nat} (h : k < 2 ^ 52) : halfUp (k : Rat) = saturate k := by
  have hvalue : (k : Rat) = ((2 * k : Nat) : Rat) / 2 ^ (0 + 1) := by
    push_cast
    ring
  exact halfUp_dyadic (by omega) (by decide) hvalue (by omega)

theorem halfUp_quarter : halfUp (1 / 4 : Rat) = 0 :=
  halfUp_dyadic (m := 1) (j := 1) (k := 0) (by decide) (by decide) (by norm_num) rfl

theorem halfUp_two_pow : halfUp ((2 : Rat) ^ (32 : Int) : Rat) = saturate longest := by
  have h := halfUp_natCast (k := 2 ^ 32) (by decide)
  rwa [show ((2 ^ 32 : Nat) : Rat) = (2 : Rat) ^ (32 : Int) by norm_num] at h

/-! ## Small and large numbers -/

theorem eq_zero_of_le_zero {a : Wait} (h : a ≤ 0) : a = 0 := UInt32.le_antisymm h UInt32.zero_le

theorem halfUp_of_le_quarter (h : v ≤ 1 / 4) : halfUp v = 0 :=
  eq_zero_of_le_zero (halfUp_quarter ▸ halfUp_coe_mono h)

theorem halfUp_of_two_pow_le (h : (2 : Rat) ^ (32 : Int) ≤ v) : halfUp v = saturate longest :=
  UInt32.le_antisymm (le_saturate_longest _) (halfUp_two_pow ▸ halfUp_coe_mono h)

/-! ## Rounding without a least and a greatest exponent -/

theorem roundHalfUp_mono (hv : 0 ≤ v) (h : v ≤ w) : roundHalfUp v ≤ roundHalfUp w := by
  have hpos : 0 ≤ nearest v + 1 / 2 := add_nonneg (nearest_nonneg hv) (by norm_num)
  exact Rat.floor_monotone (nearest_mono hpos (add_le_add_left (nearest_mono hv h) _))

theorem leastNormal_le_quarter : leastNormal ≤ (2 : Rat) ^ (-2 : Int) :=
  zpow_le_zpow_right₀ one_le_two (by decide)

/-- From one quarter to twice the range of waits the sum has a double's precision. -/
theorem halfUp_of_normal (h : (2 : Rat) ^ (-2 : Int) ≤ v) (h' : v < (2 : Rat) ^ (33 : Int)) :
    halfUp v = saturate (roundHalfUp v) := by
  have hpos : 0 < v := (zpow_pos two_pos _).trans_le h
  have hlow : (2 : Rat) ^ (-2 : Int) ≤ nearest v := two_zpow_le_nearest h
  have hhigh : nearest v ≤ (2 : Rat) ^ (33 : Int) := nearest_le_two_zpow hpos h'
  have hsum : nearest v + 1 / 2 < (2 : Rat) ^ (1023 : Int) := by
    calc nearest v + 1 / 2
      _ ≤ (2 : Rat) ^ (33 : Int) + 1 / 2 := by linarith
      _ < (2 : Rat) ^ (34 : Int) := by norm_num
      _ ≤ (2 : Rat) ^ (1023 : Int) := zpow_le_zpow_right₀ one_le_two (by decide)
  have hfirst : toDouble v = nearest v :=
    toDouble_of_normal (leastNormal_le_quarter.trans h)
      (h'.trans (zpow_lt_zpow_right₀ one_lt_two (by decide)))
  have hsecond : toDouble (nearest v + 1 / 2 : Rat) = nearest (nearest v + 1 / 2) :=
    toDouble_of_normal (leastNormal_le_quarter.trans (hlow.trans (by linarith))) hsum
  unfold halfUp
  rw [hfirst]
  show floor (toDouble (nearest v + 1 / 2 : Rat)) = _
  rw [hsecond]
  rfl

theorem saturate_roundHalfUp (hv : 0 ≤ v) : saturate (roundHalfUp v) = halfUp v := by
  have hquarter : (2 : Rat) ^ (-2 : Int) = 1 / 4 := by norm_num
  rcases le_total v (1 / 4) with hlow | hlow
  · have hmono := saturate_mono (roundHalfUp_mono hv hlow)
    rw [← hquarter, ← halfUp_of_normal le_rfl (by norm_num), hquarter, halfUp_quarter] at hmono
    rw [eq_zero_of_le_zero hmono, halfUp_of_le_quarter hlow]
  rcases lt_or_ge v ((2 : Rat) ^ (33 : Int)) with hhigh | hhigh
  · exact (halfUp_of_normal (hquarter ▸ hlow) hhigh).symm
  · have hle : (2 : Rat) ^ (32 : Int) ≤ v :=
      (zpow_le_zpow_right₀ one_le_two (by decide)).trans hhigh
    have hmono := saturate_mono (roundHalfUp_mono (zpow_pos two_pos _).le hle)
    rw [← halfUp_of_normal (zpow_le_zpow_right₀ one_le_two (by decide))
      (zpow_lt_zpow_right₀ one_lt_two (by decide)), halfUp_two_pow] at hmono
    rw [halfUp_of_two_pow_le hle]
    exact UInt32.le_antisymm (le_saturate_longest _) hmono

/-! ## Sizes that are settled without rounding -/

theorem scaled_nonneg (digits : Nat) (exponent : Int) : 0 ≤ Decimal.scaled digits exponent :=
  mul_nonneg (Nat.cast_nonneg _) (zpow_pos (by norm_num) _).le

theorem two_zpow_bits_le {digits : Nat} {exponent : Int} (hdigits : digits ≠ 0)
    (h : 0 ≤ exponent) : (2 : Rat) ^ bits digits exponent ≤ Decimal.scaled digits exponent := by
  have hlog : (2 : Rat) ^ (digits.log2 : Int) ≤ digits := by
    rw [zpow_natCast]
    exact_mod_cast Nat.log2_self_le hdigits
  have hten : (2 : Rat) ^ (3 * exponent) ≤ 10 ^ exponent := by
    rw [zpow_mul]
    exact zpow_le_zpow_left₀ h (by norm_num) (by norm_num)
  unfold bits Decimal.scaled
  rw [zpow_add₀ two_ne_zero]
  exact mul_le_mul hlog hten (zpow_pos two_pos _).le (Nat.cast_nonneg _)

theorem scaled_lt_two_zpow_bits (digits : Nat) {exponent : Int} (h : exponent < 0) :
    Decimal.scaled digits exponent < (2 : Rat) ^ (bits digits exponent + 1) := by
  have hlog : (digits : Rat) < (2 : Rat) ^ (digits.log2 + 1 : Int) := by
    rw [← Nat.cast_succ, zpow_natCast]
    exact_mod_cast Nat.lt_log2_self
  have hten : (10 : Rat) ^ exponent ≤ 2 ^ (3 * exponent) := by
    have hinv : ((2 : Rat) ^ (3 : Int)) ^ (-exponent) ≤ 10 ^ (-exponent) :=
      zpow_le_zpow_left₀ (by omega) (by norm_num) (by norm_num)
    rw [zpow_neg, zpow_neg] at hinv
    rw [zpow_mul]
    exact (inv_le_inv₀ (zpow_pos (by norm_num) _) (zpow_pos (by norm_num) _)).mp hinv
  have hexp : bits digits exponent + 1 = (digits.log2 + 1 : Int) + 3 * exponent := by
    unfold bits
    omega
  unfold Decimal.scaled
  rw [hexp, zpow_add₀ two_ne_zero]
  exact mul_lt_mul hlog hten (zpow_pos (by norm_num) _) (zpow_pos two_pos _).le

/-- The wait of a decimal is the wait of its value. -/
theorem ofDecimal_eq (d : Decimal) : ofDecimal d = halfUp d.extended := by
  cases d with
  | infinite negative =>
    cases negative with
    | true => rfl
    | false => rfl
  | finite negative digits exponent =>
    have hnonneg := scaled_nonneg digits exponent
    cases negative with
    | true =>
      have hvalue : -Decimal.scaled digits exponent ≤ 1 / 4 := by linarith
      exact (halfUp_of_le_quarter hvalue).symm
    | false =>
      show _ = halfUp (Decimal.scaled digits exponent : Rat)
      unfold ofDecimal
      dsimp only
      rw [Bool.false_or]
      split_ifs with hzero hlarge hsmall
      · have hvalue : Decimal.scaled digits exponent ≤ 1 / 4 := by
          rw [beq_iff_eq.mp hzero, Decimal.scaled, Nat.cast_zero, zero_mul]
          norm_num
        exact (halfUp_of_le_quarter hvalue).symm
      · have hbits := two_zpow_bits_le (by simpa using hzero) hlarge.1
        have hpow : (2 : Rat) ^ (32 : Int) ≤ (2 : Rat) ^ bits digits exponent :=
          zpow_le_zpow_right₀ one_le_two hlarge.2
        exact (halfUp_of_two_pow_le (hpow.trans hbits)).symm
      · have hbits := scaled_lt_two_zpow_bits digits hsmall.1
        have hpow : (2 : Rat) ^ (bits digits exponent + 1) ≤ (2 : Rat) ^ (-2 : Int) :=
          zpow_le_zpow_right₀ one_le_two (by omega)
        refine (halfUp_of_le_quarter ?_).symm
        calc Decimal.scaled digits exponent
          _ ≤ (2 : Rat) ^ (-2 : Int) := hbits.le.trans hpow
          _ = 1 / 4 := by norm_num
      · exact saturate_roundHalfUp hnonneg

end MacroScript.Wait
