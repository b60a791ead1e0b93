import MacroScript.Proofs.Number.Spelling
import MacroScript.Proofs.Wait.Numeral
/-
  Waits as roundings of numbers. The rounding to doubles moves the wait of a number only up, and
  only where the number is within `2 ^ -22` below a half (`Wait.ofArgument_half_up`). The numbers
  halfway between two waits are doubles, which monotone rounding does not cross from above; the
  doubles next below them are at most `2 ^ -21` away, the spacing of doubles up to `2 ^ 32`. Larger
  numbers never ask for shorter waits, so spellings of one number ask for one wait
  (`Wait.ofArgument_mono`).
-/

namespace MacroScript.Wait

open Binary64

variable {v : Rat} {k : Nat}

/-! ## Never down -/

theorem saturate_eq_natCast (i : Int) : saturate i = saturate (min i.toNat longest : Nat) := by
  rw [← UInt32.toNat_inj, toNat_saturate, toNat_saturate]
  omega

/-- The numbers halfway between two whole numbers are doubles, and are rounded up. -/
theorem halfUp_sub_half (hk : k + 1 < 2 ^ 52) :
    halfUp ((k + 1 : Nat) - 1 / 2 : Rat) = saturate (k + 1 : Nat) := by
  have hvalue : ((k + 1 : Nat) - 1 / 2 : Rat) = ((2 * k + 1 : Nat) : Rat) / 2 ^ (0 + 1) := by
    push_cast
    ring
  exact halfUp_dyadic (by omega) (by decide) hvalue (by omega)

theorem saturate_floor_le_halfUp (v : Rat) : saturate (v + 1 / 2).floor ≤ halfUp v := by
  rw [saturate_eq_natCast]
  rcases hk : min (v + 1 / 2).floor.toNat longest with _ | k
  · exact UInt32.zero_le
  have hsize : k + 1 < 2 ^ 52 := by
    unfold longest at hk
    omega
  have hfloor : ((k + 1 : Nat) : Int) ≤ (v + 1 / 2).floor := by omega
  have hle : ((k + 1 : Nat) : Rat) ≤ v + 1 / 2 := by
    exact_mod_cast Rat.le_floor_iff.mp hfloor
  rw [← halfUp_sub_half hsize]
  exact halfUp_coe_mono (by linarith)

/-! ## Up only next to a half -/

/-- Below `2 ^ 31` the number `2 ^ -22` below a half is a double, and is rounded down. -/
theorem halfUp_below_half (hk : k < 2 ^ 31) :
    halfUp (k + 1 / 2 - 1 / 2 ^ 22 : Rat) = saturate k := by
  have hvalue : (k + 1 / 2 - 1 / 2 ^ 22 : Rat) =
      (((2 * k + 1) * 2 ^ 21 - 1 : Nat) : Rat) / 2 ^ (21 + 1) := by
    rw [Nat.cast_sub (by omega)]
    push_cast
    ring
  exact halfUp_dyadic (by omega) (by decide) hvalue (by omega)

theorem spacing_of_le_of_lt (h : (2 : Rat) ^ (31 : Int) ≤ v) (h' : v < (2 : Rat) ^ (32 : Int)) :
    spacing v = 1 / 2 ^ 21 := by
  have hpos : 0 < v := (zpow_pos two_pos _).trans_le h
  have hbinade : binade v = 31 :=
    le_antisymm (Int.lt_add_one_iff.mp (binade_lt hpos h')) (le_binade hpos h)
  rw [spacing, hbinade, precision]
  norm_num

/-- From `2 ^ 31` on doubles are `2 ^ -21` apart, so a number more than half of that below a half
does not become the half. -/
theorem toDouble_le_below_half (hk : k < 2 ^ 32) (h : (2 : Rat) ^ (31 : Int) ≤ v)
    (h' : v + 1 / 2 ^ 22 < k + 1 / 2) : toDouble v ≤ (k + 1 / 2 - 1 / 2 ^ 21 : Rat) := by
  have hhigh : v < (2 : Rat) ^ (32 : Int) := by
    have hcast : ((k + 1 : Nat) : Rat) ≤ ((2 ^ 32 : Nat) : Rat) := Nat.cast_le.mpr hk
    push_cast at hcast
    norm_num
    linarith
  have hspacing := spacing_of_le_of_lt h hhigh
  have hdouble : toDouble v = nearest v :=
    toDouble_of_normal ((zpow_le_zpow_right₀ one_le_two (by decide)).trans h)
      (hhigh.trans (zpow_lt_zpow_right₀ one_lt_two (by decide)))
  have hround : roundHalfEven (v / spacing v) ≤ (2 * k + 1) * 2 ^ 20 - 1 := by
    have herror := roundHalfEven_le_add_half (v / spacing v)
    rw [hspacing] at herror ⊢
    have hlt : (roundHalfEven (v / (1 / 2 ^ 21)) : Rat) < (((2 * k + 1) * 2 ^ 20 : Int) : Rat) := by
      push_cast
      linarith
    exact Int.le_sub_one_of_lt (Int.cast_lt.mp hlt)
  rw [hdouble, nearest_of_pos ((zpow_pos two_pos _).trans_le h), WithBotTop.coe_le_coe]
  calc (roundHalfEven (v / spacing v) : Rat) * spacing v
    _ ≤ (((2 * k + 1) * 2 ^ 20 - 1 : Int) : Rat) * spacing v :=
      mul_le_mul_of_nonneg_right (Int.cast_le.mpr hround) (spacing_pos v).le
    _ = k + 1 / 2 - 1 / 2 ^ 21 := by
      rw [hspacing]
      push_cast
      ring

/-- A number that becomes a double below a half is rounded down. -/
theorem halfUp_le_of_toDouble_le (hk : k < 2 ^ 32)
    (h : toDouble v ≤ (k + 1 / 2 - 1 / 2 ^ 21 : Rat)) : halfUp v ≤ saturate k := by
  have hsum : (k + 1 / 2 - 1 / 2 ^ 21 + 1 / 2 : Rat) =
      (((k + 1) * 2 ^ 21 - 1 : Nat) : Rat) / 2 ^ 21 := by
    rw [Nat.cast_sub (by omega)]
    push_cast
    ring
  have hwhole : ((k + 1) * 2 ^ 21 - 1) / 2 ^ 21 = k := by omega
  calc halfUp v
    _ ≤ floor (toDouble (k + 1 / 2 - 1 / 2 ^ 21 + 1 / 2 : Rat)) :=
      floor_mono (toDouble_mono (add_le_add_left h _))
    _ = saturate k := by
      rw [hsum, floor_toDouble_dyadic (by omega) (by decide), hwhole]

theorem halfUp_le_saturate_floor (hv : 0 ≤ v) :
    halfUp v ≤ saturate (v + 1 / 2 + 1 / 2 ^ 22).floor := by
  have hnonneg : 0 ≤ (v + 1 / 2 + 1 / 2 ^ 22).floor :=
    Rat.le_floor_iff.mpr (by norm_num; linarith)
  obtain ⟨k, hk⟩ := Int.eq_ofNat_of_zero_le hnonneg
  have hlt : v + 1 / 2 + 1 / 2 ^ 22 < k + 1 := by
    have hfloor := Rat.lt_floor_add_one (v + 1 / 2 + 1 / 2 ^ 22)
    rw [hk] at hfloor
    exact_mod_cast hfloor
  rw [hk]
  rcases lt_or_ge k (2 ^ 31) with hsmall | hlarge
  · rw [← halfUp_below_half hsmall]
    exact halfUp_coe_mono (by linarith)
  rcases lt_or_ge k (2 ^ 32) with hfits | hover
  · have hbinade : (2 : Rat) ^ (31 : Int) ≤ k := by exact_mod_cast hlarge
    refine halfUp_le_of_toDouble_le hfits ?_
    rcases le_total ((2 : Rat) ^ (31 : Int)) v with hv' | hv'
    · exact toDouble_le_below_half hfits hv' (by linarith)
    · calc toDouble v
        _ ≤ toDouble ((2 : Rat) ^ (31 : Int) : Rat) :=
          toDouble_mono (WithBotTop.coe_le_coe.mpr hv')
        _ ≤ (k + 1 / 2 - 1 / 2 ^ 21 : Rat) :=
          toDouble_le_below_half hfits le_rfl (by linarith)
  · have hlongest : saturate k = saturate longest := by
      rw [← UInt32.toNat_inj, toNat_saturate, toNat_saturate]
      unfold longest
      omega
    exact hlongest ▸ le_saturate_longest _

/-! ## Few places after the point -/

/-- A number of millionths is not within `2 ^ -22` below a half without being there. -/
theorem floor_add_eq {d : Int} (h : v * 10 ^ 6 = d) :
    (v + 1 / 2 + 1 / 2 ^ 22).floor = (v + 1 / 2).floor := by
  apply le_antisymm
  · have hlt := Rat.lt_floor_add_one (v + 1 / 2)
    push_cast at hlt
    have hcast : ((d + 500000 : Int) : Rat) < (((v + 1 / 2).floor + 1) * 10 ^ 6 : Int) := by
      push_cast
      linarith
    have hmillionth : d + 500000 + 1 ≤ ((v + 1 / 2).floor + 1) * 10 ^ 6 :=
      Int.add_one_le_of_lt (Int.cast_lt.mp hcast)
    have hle : ((d + 500000 + 1 : Int) : Rat) ≤ (((v + 1 / 2).floor + 1) * 10 ^ 6 : Int) :=
      Int.cast_le.mpr hmillionth
    push_cast at hle
    refine Int.lt_add_one_iff.mp (Rat.floor_lt_iff.mpr ?_)
    push_cast
    linarith
  · exact Rat.floor_monotone (by norm_num)

theorem exists_millionths {n : Numeral} {x : Numeral.Mantissa}
    (hmagnitude : n.magnitude = .finite x none) (hplaces : x.places ≤ 6) (hvalue : n.value = v) :
    ∃ d : Int, v * 10 ^ 6 = d := by
  obtain ⟨sign, magnitude⟩ := n
  obtain rfl : magnitude = .finite x none := hmagnitude
  have hscaled : Numeral.scaled x none * 10 ^ 6 =
      ((Numeral.digitValue x.digits * 10 ^ (6 - x.places) : Int) : Rat) := by
    have hpower : (10 : Rat) ^ 6 = 10 ^ (6 - x.places) * 10 ^ x.places := by
      rw [← pow_add, Nat.sub_add_cancel hplaces]
    rw [Numeral.scaled, Numeral.Mantissa.value, hpower]
    push_cast
    field_simp
    simp
  have hv := WithBotTop.coe_injective hvalue
  rw [← hv]
  split
  · exact ⟨-(Numeral.digitValue x.digits * 10 ^ (6 - x.places)),
      by rw [neg_mul, hscaled, Int.cast_neg]⟩
  · exact ⟨_, hscaled⟩

/-! ## Arguments -/

theorem toNat_halfUp_bounds (hv : 0 ≤ v) :
    min (v + 1 / 2).floor.toNat longest ≤ (halfUp v).toNat ∧
      (halfUp v).toNat ≤ min (v + 1 / 2 + 1 / 2 ^ 22).floor.toNat longest := by
  rw [← toNat_saturate, ← toNat_saturate]
  exact ⟨UInt32.le_iff_toNat_le.mp (saturate_floor_le_halfUp v),
    UInt32.le_iff_toNat_le.mp (halfUp_le_saturate_floor hv)⟩

/-- **Half up within a double's precision.** An argument whose numeral has a value below zero asks
for no wait. For any other rational value the wait is at least the value rounded half up, held to
the longest wait, and at most the same of the value plus `2 ^ -22`; without an exponent and with at
most six digits after the point it is the value rounded half up, held to the longest wait. The word
Infinity asks for the longest wait, or with a minus for none. The numeral of a wait asks for that
wait. -/
theorem ofArgument_half_up :
    (∀ (argument : List Char) (n : Numeral), n.Leads (argument.dropWhile isSpace) →
      (∀ v : Rat, n.value = v → v < 0 → ofArgument argument = 0) ∧
      (∀ v : Rat, n.value = v → 0 ≤ v →
        min (v + 1 / 2).floor.toNat longest ≤ (ofArgument argument).toNat ∧
        (ofArgument argument).toNat ≤ min (v + 1 / 2 + 1 / 2 ^ 22).floor.toNat longest) ∧
      (∀ (v : Rat) (x : Numeral.Mantissa), n.value = v → 0 ≤ v →
        n.magnitude = .finite x none → x.places ≤ 6 →
        (ofArgument argument).toNat = min (v + 1 / 2).floor.toNat longest) ∧
      (n.magnitude = .infinity →
        (ofArgument argument).toNat = if n.sign.negative then 0 else longest)) ∧
    ∀ w : Wait, ofArgument (Nat.toDigits 10 w.toNat) = w := by
  refine ⟨?_, ofArgument_toDigits⟩
  intro argument n hn
  rw [ofArgument_eq hn]
  refine ⟨?_, ?_, ?_, ?_⟩
  · intro v hvalue hv
    rw [hvalue]
    exact halfUp_of_le_quarter (by linarith)
  · intro v hvalue hv
    rw [hvalue]
    exact toNat_halfUp_bounds hv
  · intro v x hvalue hv hmagnitude hplaces
    obtain ⟨d, hd⟩ := exists_millionths hmagnitude hplaces hvalue
    have hbounds := toNat_halfUp_bounds hv
    rw [floor_add_eq hd] at hbounds
    rw [hvalue]
    exact le_antisymm hbounds.2 hbounds.1
  · intro hinfinity
    have hvalue : n.value = if n.sign.negative then ⊥ else ⊤ := by
      rw [Numeral.value, hinfinity]
    rw [hvalue]
    split
    · rfl
    · rfl

/-- Six places after the point leave one wait; just below one half there are two, and the doubles
take the upper one. -/
theorem ofArgument_half_up_below_half :
    (ofArgument " 2.499999s".toList).toNat = 2 ∧
    (ofArgument "0.49999999999999994".toList).toNat ≤ 1 ∧
    ofArgument "0.49999999999999994".toList = 1 := by
  have hshort : Numeral.Leads ⟨.unsigned, .finite ⟨[2], some [4, 9, 9, 9, 9, 9], by simp⟩ none⟩
      (" 2.499999s".toList.dropWhile isSpace) :=
    numberText?_eq_some_iff.mp (by decide +kernel)
  have hlong : Numeral.Leads ⟨.unsigned, .finite
      ⟨[0], some [4, 9, 9, 9, 9, 9, 9, 9, 9, 9, 9, 9, 9, 9, 9, 9, 4], by simp⟩ none⟩
      ("0.49999999999999994".toList.dropWhile isSpace) :=
    numberText?_eq_some_iff.mp (by decide +kernel)
  obtain ⟨-, -, hexact, -⟩ := ofArgument_half_up.1 _ _ hshort
  obtain ⟨-, hbounds, -, -⟩ := ofArgument_half_up.1 _ _ hlong
  refine ⟨?_, ?_, by decide +kernel⟩
  · rw [hexact (2499999 / 10 ^ 6) _ (by decide +kernel) (by norm_num) rfl (by decide)]
    decide +kernel
  · have hupper := (hbounds (49999999999999994 / 10 ^ 17) (by decide +kernel) (by norm_num)).2
    exact hupper.trans (by decide +kernel)

/-- **Monotone in the number.** Of two arguments that begin with numerals, the one with the larger
value does not ask for a shorter wait. Numerals of one value ask for one wait; so do spellings that
differ in a plus sign, in zeros at either end, or in the place of the point and the exponent. -/
theorem ofArgument_mono {a b : List Char} {m n : Numeral} (ha : m.Leads (a.dropWhile isSpace))
    (hb : n.Leads (b.dropWhile isSpace)) :
    (m.value ≤ n.value → ofArgument a ≤ ofArgument b) ∧
    (m.value = n.value → ofArgument a = ofArgument b) ∧
    (m.SpellsAlike n → ofArgument a = ofArgument b) := by
  rw [ofArgument_eq ha, ofArgument_eq hb]
  refine ⟨fun h => halfUp_mono h, fun h => congrArg halfUp h, fun h => ?_⟩
  exact congrArg halfUp h.value_eq

/-- Two and a half with a plus and a zero in front, and with an exponent. -/
theorem ofArgument_mono_respelled :
    ofArgument "  +02.5x".toList = ofArgument "25e-1".toList ∧
    ofArgument "25e-1".toList ≤ ofArgument "Infinity".toList := by
  have hpoint : Numeral.Leads ⟨.plus, .finite ⟨[0, 2], some [5], by simp⟩ none⟩
      ("  +02.5x".toList.dropWhile isSpace) :=
    numberText?_eq_some_iff.mp (by decide +kernel)
  have hexponent : Numeral.Leads
      ⟨.unsigned, .finite ⟨[2, 5], none, by simp⟩ (some ⟨false, .minus, [1], by simp⟩)⟩
      ("25e-1".toList.dropWhile isSpace) :=
    numberText?_eq_some_iff.mp (by decide +kernel)
  have hword : Numeral.Leads ⟨.unsigned, .infinity⟩ ("Infinity".toList.dropWhile isSpace) :=
    numberText?_eq_some_iff.mp (by decide +kernel)
  obtain ⟨-, -, halike⟩ := ofArgument_mono hpoint hexponent
  obtain ⟨hle, -, -⟩ := ofArgument_mono hexponent hword
  refine ⟨halike ?_, hle le_top⟩
  exact .trans _ _ _ (.rel _ _ (.plus _))
    (.trans _ _ _ (.rel _ _ (.leadingZero _ _ ⟨[2], some [5], by simp⟩ _ rfl rfl))
      (.rel _ _ (.moved _ _ _ _ _ rfl (by decide))))

end MacroScript.Wait
