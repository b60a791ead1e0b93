import Mathlib.Algebra.Order.Field.Power
import Mathlib.Data.Rat.Cast.Order
import Mathlib.Tactic.Linarith
import Mathlib.Tactic.NormNum
import MacroScript.Number
/-
  Rounding to 53 bits. A whole number of at most 53 bits, scaled by a power of two, stays as it is
  (`nearest_mul_zpow`): it is a multiple of the spacing of its size, because a number is at least
  two to its binade (`two_zpow_binade_le`). Rounding is monotone (`nearest_mono`): within a binade
  it rounds multiples of one spacing, and between two binades stands a power of two that no
  rounding crosses (`two_zpow_le_nearest`, `nearest_le_two_zpow`).
-/

namespace MacroScript.Binary64

variable {v w x y : Rat}

/-! ## Rounding to an integer -/

theorem floor_le_roundHalfEven (x : Rat) : x.floor ≤ roundHalfEven x := by
  unfold roundHalfEven
  dsimp only
  split_ifs <;> omega

theorem roundHalfEven_le_floor_succ (x : Rat) : roundHalfEven x ≤ x.floor + 1 := by
  unfold roundHalfEven
  dsimp only
  split_ifs <;> omega

theorem roundHalfEven_mono (h : x ≤ y) : roundHalfEven x ≤ roundHalfEven y := by
  have hx := roundHalfEven_le_floor_succ x
  have hy := floor_le_roundHalfEven y
  rcases (Rat.floor_monotone h).lt_or_eq with hlt | heq
  · omega
  by_cases hlow : x - x.floor < 1 / 2
  · have hround : roundHalfEven x = x.floor := if_pos hlow
    omega
  by_cases hhigh : 1 / 2 < y - y.floor
  · have hround : roundHalfEven y = y.floor + 1 := by
      unfold roundHalfEven
      dsimp only
      rw [if_neg hhigh.le.not_gt, if_pos hhigh]
    omega
  · -- both stand half way between the same two integers
    have hsame : x = y := by
      rw [heq] at hlow
      linarith
    rw [hsame]

theorem roundHalfEven_intCast (k : Int) : roundHalfEven (k : Rat) = k := by
  unfold roundHalfEven
  dsimp only
  rw [Rat.floor_intCast, sub_self, if_pos (by norm_num)]

theorem roundHalfEven_le {k : Int} (h : x ≤ k) : roundHalfEven x ≤ k := by
  rw [← roundHalfEven_intCast k]
  exact roundHalfEven_mono h

theorem le_roundHalfEven {k : Int} (h : k ≤ x) : k ≤ roundHalfEven x := by
  rw [← roundHalfEven_intCast k]
  exact roundHalfEven_mono h

theorem roundHalfEven_le_add_half (x : Rat) : (roundHalfEven x : Rat) ≤ x + 1 / 2 := by
  have hfloor := Rat.floor_le x
  unfold roundHalfEven
  dsimp only
  split_ifs <;> push_cast <;> linarith

/-! ## The size of a number -/

theorem two_zpow_binade_le (hv : 0 < v) : (2 : Rat) ^ binade v ≤ v := by
  unfold binade
  dsimp only
  split
  · -- two numbers of `a + 1` and `b + 1` bits have a quotient above two to the `a - b - 1`
    have hnum : v.num.natAbs ≠ 0 := by simpa using hv.ne'
    have habs : (v.num.natAbs : Int) = v.num := Int.natAbs_of_nonneg (Rat.num_nonneg.mpr hv.le)
    have htop : ((2 ^ v.num.natAbs.log2 : Nat) : Rat) ≤ v.num := by
      rw [← habs]
      exact_mod_cast Nat.log2_self_le hnum
    have hbottom : (v.den : Rat) ≤ ((2 ^ (v.den.log2 + 1) : Nat) : Rat) := by
      exact_mod_cast Nat.lt_log2_self.le
    have hden : (0 : Rat) < v.den := by exact_mod_cast v.den_pos
    calc (2 : Rat) ^ ((v.num.natAbs.log2 : Int) - (v.den.log2 : Int) - 1)
      _ = 2 ^ ((v.num.natAbs.log2 : Int) - ((v.den.log2 + 1 : Nat) : Int)) := by
        congr 1
        omega
      _ = ((2 ^ v.num.natAbs.log2 : Nat) : Rat) / ((2 ^ (v.den.log2 + 1) : Nat) : Rat) := by
        rw [zpow_sub₀ two_ne_zero, zpow_natCast, zpow_natCast]
        push_cast
        rfl
      _ ≤ v.num / v.den := div_le_div₀ (le_trans (Nat.cast_nonneg _) htop) htop hden hbottom
      _ = v := Rat.num_div_den v
  · next h => exact not_lt.mp h

theorem lt_two_zpow_binade_succ (hv : 0 < v) : v < (2 : Rat) ^ (binade v + 1) := by
  unfold binade
  dsimp only
  split
  · next h => rwa [sub_add_cancel]
  · -- two numbers of `a + 1` and `b + 1` bits have a quotient below two to the `a - b + 1`
    have habs : (v.num.natAbs : Int) = v.num := Int.natAbs_of_nonneg (Rat.num_nonneg.mpr hv.le)
    have htop : (v.num : Rat) < ((2 ^ (v.num.natAbs.log2 + 1) : Nat) : Rat) := by
      rw [← habs]
      exact_mod_cast Nat.lt_log2_self
    have hbottom : ((2 ^ v.den.log2 : Nat) : Rat) ≤ v.den := by
      exact_mod_cast Nat.log2_self_le v.den_nz
    have hpos : (0 : Rat) < ((2 ^ v.den.log2 : Nat) : Rat) := by positivity
    calc v
      _ = v.num / v.den := (Rat.num_div_den v).symm
      _ < ((2 ^ (v.num.natAbs.log2 + 1) : Nat) : Rat) / ((2 ^ v.den.log2 : Nat) : Rat) :=
        div_lt_div₀ htop hbottom (Nat.cast_nonneg _) hpos
      _ = 2 ^ (((v.num.natAbs.log2 + 1 : Nat) : Int) - (v.den.log2 : Int)) := by
        rw [zpow_sub₀ two_ne_zero, zpow_natCast, zpow_natCast]
        push_cast
        rfl
      _ = 2 ^ ((v.num.natAbs.log2 : Int) - (v.den.log2 : Int) + 1) := by
        congr 1
        omega

/-- A power of two above a number is above its binade. -/
theorem binade_lt {e : Int} (hv : 0 < v) (h : v < (2 : Rat) ^ e) : binade v < e :=
  (zpow_lt_zpow_iff_right₀ one_lt_two).mp ((two_zpow_binade_le hv).trans_lt h)

/-- A power of two up to a number is up to its binade. -/
theorem le_binade {e : Int} (hv : 0 < v) (h : (2 : Rat) ^ e ≤ v) : e ≤ binade v :=
  Int.lt_add_one_iff.mp
    ((zpow_lt_zpow_iff_right₀ one_lt_two).mp (h.trans_lt (lt_two_zpow_binade_succ hv)))

theorem spacing_pos (v : Rat) : 0 < spacing v := zpow_pos two_pos _

/-! ## Numbers that are doubles -/

/-- A multiple of the spacing is not changed. -/
theorem nearest_eq_self {k : Int} (h : v = k * spacing v) : nearest v = v := by
  unfold nearest
  split
  · next hzero => exact hzero.symm
  · have hk : v / spacing v = k := (div_eq_iff (spacing_pos v).ne').mpr h
    rw [hk, roundHalfEven_intCast, ← h]

theorem nearest_mul_zpow {m : Nat} (hm : m < 2 ^ 53) (e : Int) :
    nearest (m * (2 : Rat) ^ e) = m * (2 : Rat) ^ e := by
  rcases Nat.eq_zero_or_pos m with rfl | hpos
  · simp [nearest]
  generalize hv : (m : Rat) * (2 : Rat) ^ e = v
  have hvpos : 0 < v := by rw [← hv]; exact mul_pos (Nat.cast_pos.mpr hpos) (zpow_pos two_pos e)
  have hsize : v < (2 : Rat) ^ (53 + e) := by
    calc v
      _ = m * (2 : Rat) ^ e := hv.symm
      _ < (2 : Rat) ^ (53 : Nat) * (2 : Rat) ^ e :=
        mul_lt_mul_of_pos_right (by exact_mod_cast hm) (zpow_pos two_pos e)
      _ = (2 : Rat) ^ (53 + e) := by rw [zpow_add₀ two_ne_zero]; rfl
  have hbinade : binade v < 53 + e := binade_lt hvpos hsize
  obtain ⟨j, hj⟩ : ∃ j : Nat, e = j + (binade v + 1 - precision) :=
    ⟨(e - (binade v + 1 - precision)).toNat, by unfold precision; omega⟩
  refine nearest_eq_self (k := ((m * 2 ^ j : Nat) : Int)) ?_
  calc v
    _ = m * (2 : Rat) ^ e := hv.symm
    _ = m * ((2 : Rat) ^ j * spacing v) := by
      unfold spacing
      rw [← zpow_natCast, ← zpow_add₀ two_ne_zero, ← hj]
    _ = (((m * 2 ^ j : Nat) : Int) : Rat) * spacing v := by push_cast; rw [mul_assoc]

/-! ## Rounding is monotone -/

theorem nearest_of_pos (hv : 0 < v) :
    nearest v = (roundHalfEven (v / spacing v) : Rat) * spacing v := by
  rw [nearest, if_neg hv.ne']

/-- A multiple of the spacing that is not below a number is not below the rounded one. -/
theorem nearest_le_mul_spacing {k : Int} (hv : 0 < v) (h : v ≤ k * spacing v) :
    nearest v ≤ k * spacing v := by
  rw [nearest_of_pos hv]
  have hk : roundHalfEven (v / spacing v) ≤ k :=
    roundHalfEven_le ((div_le_iff₀ (spacing_pos v)).mpr h)
  exact mul_le_mul_of_nonneg_right (by exact_mod_cast hk) (spacing_pos v).le

theorem mul_spacing_le_nearest {k : Int} (hv : 0 < v) (h : k * spacing v ≤ v) :
    k * spacing v ≤ nearest v := by
  rw [nearest_of_pos hv]
  have hk : k ≤ roundHalfEven (v / spacing v) :=
    le_roundHalfEven ((le_div_iff₀ (spacing_pos v)).mpr h)
  exact mul_le_mul_of_nonneg_right (by exact_mod_cast hk) (spacing_pos v).le

theorem two_zpow_binade_eq (v : Rat) (j : Nat) :
    (2 : Rat) ^ (binade v + j) = ((2 ^ (52 + j) : Nat) : Int) * spacing v := by
  unfold spacing precision
  push_cast
  rw [← zpow_natCast, ← zpow_add₀ two_ne_zero]
  congr 1
  push_cast
  omega

theorem two_zpow_binade_le_nearest (hv : 0 < v) : (2 : Rat) ^ binade v ≤ nearest v := by
  have heq := two_zpow_binade_eq v 0
  rw [Nat.cast_zero, add_zero] at heq
  rw [heq]
  exact mul_spacing_le_nearest hv (heq ▸ two_zpow_binade_le hv)

theorem nearest_le_two_zpow_binade_succ (hv : 0 < v) : nearest v ≤ (2 : Rat) ^ (binade v + 1) := by
  have heq := two_zpow_binade_eq v 1
  rw [Nat.cast_one] at heq
  rw [heq]
  exact nearest_le_mul_spacing hv (heq ▸ (lt_two_zpow_binade_succ hv).le)

theorem two_zpow_le_nearest {e : Int} (h : (2 : Rat) ^ e ≤ v) : (2 : Rat) ^ e ≤ nearest v := by
  have hv : 0 < v := (zpow_pos two_pos e).trans_le h
  exact (zpow_le_zpow_right₀ one_le_two (le_binade hv h)).trans (two_zpow_binade_le_nearest hv)

theorem nearest_le_two_zpow {e : Int} (hv : 0 < v) (h : v < (2 : Rat) ^ e) :
    nearest v ≤ (2 : Rat) ^ e := by
  have hbinade : binade v + 1 ≤ e := binade_lt hv h
  exact (nearest_le_two_zpow_binade_succ hv).trans (zpow_le_zpow_right₀ one_le_two hbinade)

theorem nearest_nonneg (hv : 0 ≤ v) : 0 ≤ nearest v := by
  rcases hv.eq_or_lt with rfl | hpos
  · simp [nearest]
  · exact (zpow_pos two_pos _).le.trans (two_zpow_binade_le_nearest hpos)

theorem nearest_mono (hv : 0 ≤ v) (h : v ≤ w) : nearest v ≤ nearest w := by
  rcases hv.eq_or_lt with rfl | hpos
  · simpa [nearest] using nearest_nonneg h
  have hwpos : 0 < w := hpos.trans_le h
  have hle : binade v ≤ binade w := le_binade hwpos ((two_zpow_binade_le hpos).trans h)
  rcases hle.lt_or_eq with hlt | heq
  · -- the power of two that begins the upper binade stands between
    calc nearest v
      _ ≤ (2 : Rat) ^ (binade v + 1) := nearest_le_two_zpow_binade_succ hpos
      _ ≤ (2 : Rat) ^ binade w := zpow_le_zpow_right₀ one_le_two hlt
      _ ≤ nearest w := two_zpow_binade_le_nearest hwpos
  · have hspacing : spacing v = spacing w := by unfold spacing; rw [heq]
    rw [nearest_of_pos hpos, nearest_of_pos hwpos, hspacing]
    have hround : roundHalfEven (v / spacing w) ≤ roundHalfEven (w / spacing w) :=
      roundHalfEven_mono (div_le_div_of_nonneg_right h (spacing_pos w).le)
    exact mul_le_mul_of_nonneg_right (by exact_mod_cast hround) (spacing_pos w).le

end MacroScript.Binary64
