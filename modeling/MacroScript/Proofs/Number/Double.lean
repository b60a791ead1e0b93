import Mathlib.Algebra.Order.Field.Basic
import Mathlib.Order.WithBotTop
import MacroScript.Proofs.Number.Binary64
/-
  Doubles with their least and their greatest exponent, as values: rationals and the two
  infinities. Next to zero neighbouring doubles keep one distance, and a number that would be
  rounded to `2 ^ 1024` or beyond is infinite. Rounding is monotone over all sizes
  (`toDouble_mono`). Numbers of full precision that are far from overflow round as with an
  unbounded exponent (`toDouble_of_normal`), so a whole number of at most 53 bits over a power of
  two is a double (`toDouble_dyadic`).
-/

namespace MacroScript.Binary64

/-! ## Definitions -/

/-- The least double of full precision. -/
def leastNormal : Rat := (2 : Rat) ^ (-1022 : Int)

/-- The distance of neighbouring doubles below the least one of full precision. -/
def leastSpacing : Rat := (2 : Rat) ^ (-1074 : Int)

/-- The least power of two that is too large for a double. -/
def overflow : Rat := (2 : Rat) ^ (1024 : Int)

/-- The rounded value of a rational that is not negative, however large. -/
def nearestAbove (v : Rat) : Rat :=
  if v < leastNormal then (roundHalfEven (v / leastSpacing) : Rat) * leastSpacing else nearest v

/-- The rounded value of a rational, the same for both signs. -/
def nearestSigned (v : Rat) : Rat := if v < 0 then -nearestAbove (-v) else nearestAbove v

/-- A rounded value as a double. -/
def bounded (x : Rat) : WithBotTop Rat :=
  if overflow ≤ x then ⊤ else if x ≤ -overflow then ⊥ else (x : WithBotTop Rat)

/-- The double nearest to a number. Infinities stay. -/
def toDouble : WithBotTop Rat → WithBotTop Rat
  | ⊥ => ⊥
  | (v : Rat) => bounded (nearestSigned v)
  | ⊤ => ⊤

variable {v w : Rat}

/-! ## Rounded values -/

theorem leastNormal_pos : 0 < leastNormal := zpow_pos two_pos _

theorem leastSpacing_pos : 0 < leastSpacing := zpow_pos two_pos _

theorem leastNormal_eq : leastNormal = ((2 ^ 52 : Int) : Rat) * leastSpacing := by
  have hpow : ((2 ^ 52 : Int) : Rat) = (2 : Rat) ^ (52 : Int) := by norm_num
  rw [hpow, leastNormal, leastSpacing, ← zpow_add₀ two_ne_zero]
  congr 1

theorem nearestAbove_of_lt (h : v < leastNormal) :
    nearestAbove v = (roundHalfEven (v / leastSpacing) : Rat) * leastSpacing := if_pos h

theorem nearestAbove_of_le (h : leastNormal ≤ v) : nearestAbove v = nearest v := if_neg h.not_gt

theorem nearestAbove_nonneg (hv : 0 ≤ v) : 0 ≤ nearestAbove v := by
  rcases lt_or_ge v leastNormal with hlt | hge
  · rw [nearestAbove_of_lt hlt]
    have hround : 0 ≤ roundHalfEven (v / leastSpacing) :=
      le_roundHalfEven (by exact_mod_cast div_nonneg hv leastSpacing_pos.le)
    exact mul_nonneg (by exact_mod_cast hround) leastSpacing_pos.le
  · rw [nearestAbove_of_le hge]
    exact nearest_nonneg hv

theorem nearestAbove_le_leastNormal (h : v < leastNormal) : nearestAbove v ≤ leastNormal := by
  have hround : roundHalfEven (v / leastSpacing) ≤ 2 ^ 52 := by
    apply roundHalfEven_le
    rw [div_le_iff₀ leastSpacing_pos, ← leastNormal_eq]
    exact h.le
  rw [nearestAbove_of_lt h, leastNormal_eq]
  exact mul_le_mul_of_nonneg_right (by exact_mod_cast hround) leastSpacing_pos.le

theorem nearestAbove_mono (hv : 0 ≤ v) (h : v ≤ w) : nearestAbove v ≤ nearestAbove w := by
  rcases lt_or_ge w leastNormal with hw | hw
  · have hround : roundHalfEven (v / leastSpacing) ≤ roundHalfEven (w / leastSpacing) :=
      roundHalfEven_mono (div_le_div_of_nonneg_right h leastSpacing_pos.le)
    rw [nearestAbove_of_lt (h.trans_lt hw), nearestAbove_of_lt hw]
    exact mul_le_mul_of_nonneg_right (by exact_mod_cast hround) leastSpacing_pos.le
  rw [nearestAbove_of_le hw]
  rcases lt_or_ge v leastNormal with hlt | hge
  · exact (nearestAbove_le_leastNormal hlt).trans (two_zpow_le_nearest hw)
  · rw [nearestAbove_of_le hge]
    exact nearest_mono hv h

theorem nearestSigned_mono (h : v ≤ w) : nearestSigned v ≤ nearestSigned w := by
  unfold nearestSigned
  by_cases hw : w < 0
  · rw [if_pos (h.trans_lt hw), if_pos hw]
    exact neg_le_neg (nearestAbove_mono (by linarith) (neg_le_neg h))
  rw [if_neg hw]
  by_cases hv : v < 0
  · rw [if_pos hv]
    exact (neg_nonpos.mpr (nearestAbove_nonneg (by linarith))).trans
      (nearestAbove_nonneg (not_lt.mp hw))
  · rw [if_neg hv]
    exact nearestAbove_mono (not_lt.mp hv) h

/-! ## Doubles -/

theorem overflow_pos : 0 < overflow := zpow_pos two_pos _

theorem bounded_of_lt {x : Rat} (h : x < overflow) (h' : -overflow < x) :
    bounded x = (x : WithBotTop Rat) := by
  rw [bounded, if_neg h.not_ge, if_neg h'.not_ge]

theorem bounded_mono {x y : Rat} (h : x ≤ y) : bounded x ≤ bounded y := by
  have hpos := overflow_pos
  rcases lt_or_ge y overflow with hy | hy
  swap
  · rw [show bounded y = ⊤ from if_pos hy]
    exact le_top
  rcases lt_or_ge (-overflow) x with hx | hx
  · rw [bounded_of_lt (h.trans_lt hy) hx, bounded_of_lt hy (hx.trans_le h)]
    exact WithBotTop.coe_le_coe.mpr h
  · rw [bounded, if_neg (by linarith), if_pos hx]
    exact bot_le

/-- A larger number does not round to a smaller double. -/
theorem toDouble_mono : Monotone toDouble := by
  intro a b h
  induction a using WithBotTop.rec with
  | bot => exact bot_le
  | top =>
    rw [top_le_iff] at h
    rw [h]
  | coe v =>
    induction b using WithBotTop.rec with
    | bot => exact absurd (le_bot_iff.mp h) (WithBotTop.coe_ne_bot v)
    | top => exact le_top
    | coe w => exact bounded_mono (nearestSigned_mono (WithBotTop.coe_le_coe.mp h))

theorem toDouble_zero : toDouble (0 : Rat) = (0 : Rat) := by
  have hzero : nearestSigned 0 = 0 := by
    rw [nearestSigned, if_neg (lt_irrefl 0), nearestAbove_of_lt leastNormal_pos, zero_div]
    have hround : roundHalfEven 0 = 0 := roundHalfEven_intCast 0
    rw [hround, Int.cast_zero, zero_mul]
  show bounded (nearestSigned 0) = _
  rw [hzero, bounded_of_lt overflow_pos (neg_lt_zero.mpr overflow_pos)]

theorem toDouble_of_normal (h : leastNormal ≤ v) (h' : v < (2 : Rat) ^ (1023 : Int)) :
    toDouble v = nearest v := by
  have hpos : 0 < v := leastNormal_pos.trans_le h
  have hbelow : nearest v < overflow :=
    (nearest_le_two_zpow hpos h').trans_lt (zpow_lt_zpow_right₀ one_lt_two (by decide))
  have habove : -overflow < nearest v :=
    (neg_lt_zero.mpr overflow_pos).trans_le (nearest_nonneg hpos.le)
  show bounded (nearestSigned v) = _
  rw [nearestSigned, if_neg hpos.not_gt, nearestAbove_of_le h, bounded_of_lt hbelow habove]

theorem toDouble_dyadic {m j : Nat} (hm : m < 2 ^ 53) (hj : j ≤ 1022) :
    toDouble ((m : Rat) / 2 ^ j : Rat) = ((m : Rat) / 2 ^ j : Rat) := by
  rcases Nat.eq_zero_or_pos m with rfl | hpos
  · rw [Nat.cast_zero, zero_div, toDouble_zero]
  have hzpow : (m : Rat) / 2 ^ j = m * (2 : Rat) ^ (-(j : Int)) := by
    rw [zpow_neg, zpow_natCast, div_eq_mul_inv]
  have hone : (1 : Rat) ≤ m := by exact_mod_cast hpos
  have hlow : leastNormal ≤ (m : Rat) / 2 ^ j := by
    rw [hzpow]
    calc leastNormal
      _ ≤ (2 : Rat) ^ (-(j : Int)) := zpow_le_zpow_right₀ one_le_two (by omega)
      _ ≤ m * (2 : Rat) ^ (-(j : Int)) := le_mul_of_one_le_left (zpow_pos two_pos _).le hone
  have hhigh : (m : Rat) / 2 ^ j < (2 : Rat) ^ (1023 : Int) := by
    calc (m : Rat) / 2 ^ j
      _ ≤ m := div_le_self (Nat.cast_nonneg m) (one_le_pow₀ one_le_two)
      _ < (2 : Rat) ^ (53 : Nat) := by exact_mod_cast hm
      _ ≤ (2 : Rat) ^ (1023 : Int) := by
        rw [← zpow_natCast]
        exact zpow_le_zpow_right₀ one_le_two (by decide)
  rw [toDouble_of_normal hlow hhigh, hzpow, nearest_mul_zpow hm]

end MacroScript.Binary64
