import LineScript.Proofs.Number.Bits

/-!
# Rounding to the nearest number

A quotient of naturals is rounded to the number whose rounding interval it is in. The interval of a
number reaches halfway to its neighbours; its ends belong to it where the mantissa is even. Below a
number with the least mantissa of 53 digits the neighbours are closer, and so the interval is
shorter there. All rounding is to whole numbers in the end: no whole number is nearer to a quantity
than the one it rounds to, and this one is even if another is just as near.
-/

namespace LineScript

/-- A power with an integer exponent is a quotient of powers, one of which is one. -/
theorem zpow_eq_div (base : ℚ) (exponent : ℤ) :
    base ^ exponent = base ^ exponent.toNat / base ^ (-exponent).toNat := by
  rcases le_total 0 exponent with hnonneg | hnonpos
  · obtain ⟨n, rfl⟩ := Int.eq_ofNat_of_zero_le hnonneg
    simp
  · obtain ⟨n, hn⟩ := Int.eq_ofNat_of_zero_le (neg_nonneg.2 hnonpos)
    obtain rfl : exponent = -n := by omega
    simp

theorem two_zpow_pos (exponent : ℤ) : (0 : ℚ) < 2 ^ exponent :=
  zpow_pos two_pos exponent

/-- A whole number is nearest to a quantity, and even if another is just as near. -/
structure RoundsTo (quantity : ℚ) (whole : ℕ) : Prop where
  lower : whole - 1 / 2 ≤ quantity
  upper : quantity ≤ whole + 1 / 2
  even_of_tie : quantity = whole - 1 / 2 ∨ quantity = whole + 1 / 2 → Even whole

theorem RoundsTo.le {quantity : ℚ} {whole other : ℕ} (h : RoundsTo quantity whole)
    (hother : RoundsTo quantity other) : whole ≤ other := by
  by_contra hlt
  have hstep : (other : ℚ) + 1 ≤ whole := by exact_mod_cast Nat.not_le.1 hlt
  have hlower := h.lower
  have hupper := hother.upper
  -- Both are half a step away, one on each side, and they are neighbours.
  have heven := h.even_of_tie (.inl (by linarith))
  have hevenOther := hother.even_of_tie (.inr (by linarith))
  have hnext : whole = other + 1 := by
    have hle : (whole : ℚ) ≤ other + 1 := by linarith
    have hle' : whole ≤ other + 1 := by exact_mod_cast hle
    omega
  rw [hnext, Nat.even_add_one] at heven
  exact heven hevenOther

theorem RoundsTo.unique {quantity : ℚ} {whole other : ℕ} (h : RoundsTo quantity whole)
    (hother : RoundsTo quantity other) : whole = other :=
  le_antisymm (h.le hother) (hother.le h)

theorem RoundsTo.within_half {quantity : ℚ} {whole : ℕ} (h : RoundsTo quantity whole) :
    |quantity - whole| ≤ 1 / 2 :=
  abs_le.2 ⟨by linarith [h.lower], by linarith [h.upper]⟩

/-- At the end of its reach, a quantity rounds to an even number. -/
theorem RoundsTo.even_of_half {quantity : ℚ} {whole : ℕ} (h : RoundsTo quantity whole)
    (hhalf : |quantity - whole| = 1 / 2) : Even whole := by
  apply h.even_of_tie
  rcases (abs_eq (by norm_num)).1 hhalf with hend | hend
  · exact .inr (by linarith)
  · exact .inl (by linarith)

/-- From every other whole number a quantity is half a step away at least. -/
theorem RoundsTo.half_le {quantity : ℚ} {whole : ℕ} (h : RoundsTo quantity whole) {other : ℤ}
    (hother : other ≠ whole) : 1 / 2 ≤ |quantity - other| := by
  have hapart : (1 : ℚ) ≤ |(other : ℚ) - whole| := by
    have hstep : 1 ≤ |other - (whole : ℤ)| := Int.one_le_abs (sub_ne_zero.2 hother)
    exact_mod_cast hstep
  have htriangle := abs_sub_le (other : ℚ) quantity whole
  rw [abs_sub_comm (other : ℚ) quantity] at htriangle
  linarith [h.within_half]

/-- No whole number is nearer to a quantity than the one that it rounds to. -/
theorem RoundsTo.nearest {quantity : ℚ} {whole : ℕ} (h : RoundsTo quantity whole) (other : ℤ) :
    |quantity - whole| ≤ |quantity - other| := by
  rcases eq_or_ne other whole with rfl | hother
  · exact le_of_eq rfl
  · exact h.within_half.trans (h.half_le hother)

/-- If another whole number is just as near, the one that a quantity rounds to is even. -/
theorem RoundsTo.even_of_same_distance {quantity : ℚ} {whole : ℕ} (h : RoundsTo quantity whole)
    {other : ℤ} (hother : other ≠ whole) (htie : |quantity - other| = |quantity - whole|) :
    Even whole :=
  h.even_of_half (le_antisymm h.within_half (htie ▸ h.half_le hother))

/-- What is no farther from a whole number than a quantity that rounds to it rounds to it too. -/
theorem RoundsTo.of_nearer {quantity other : ℚ} {whole : ℕ} (h : RoundsTo quantity whole)
    (hother : |other - whole| ≤ |quantity - whole|) : RoundsTo other whole := by
  obtain ⟨hlower, hupper⟩ := abs_le.1 (hother.trans h.within_half)
  refine ⟨by linarith, by linarith, fun htie ↦ h.even_of_half (le_antisymm h.within_half ?_)⟩
  have hfar : |other - whole| = 1 / 2 := by
    rw [abs_eq (by norm_num)]
    rcases htie with rfl | rfl
    · exact .inr (by ring)
    · exact .inl (by ring)
  rwa [hfar] at hother

/-- Rounding a quotient gives the nearest whole number, a half going to the even one. -/
theorem roundsTo_roundHalfEven {numerator denominator : ℕ} (hpos : 0 < denominator) :
    RoundsTo (numerator / denominator) (roundHalfEven numerator denominator) := by
  have hdenominator : (0 : ℚ) < denominator := by exact_mod_cast hpos
  have hdivision : (numerator : ℚ) =
      denominator * (numerator / denominator : ℕ) + (numerator % denominator : ℕ) := by
    exact_mod_cast (Nat.div_add_mod numerator denominator).symm
  have hquantity : (numerator : ℚ) / denominator =
      (numerator / denominator : ℕ) + (numerator % denominator : ℕ) / denominator := by
    rw [hdivision, add_div, mul_div_cancel_left₀ _ hdenominator.ne']
  have hrest : (0 : ℚ) ≤ (numerator % denominator : ℕ) / denominator := by positivity
  rw [hquantity]
  unfold roundHalfEven
  dsimp only
  split
  · rename_i hless
    have hhalf : ((numerator % denominator : ℕ) : ℚ) / denominator < 1 / 2 := by
      rw [div_lt_div_iff₀ hdenominator two_pos]
      have hcast : (2 * (numerator % denominator : ℕ) : ℚ) < denominator := by exact_mod_cast hless
      linarith
    refine ⟨by linarith, by linarith, ?_⟩
    rintro (htie | htie) <;> linarith
  · split
    · rename_i hmore
      have hhalf : 1 / 2 < ((numerator % denominator : ℕ) : ℚ) / denominator := by
        rw [div_lt_div_iff₀ two_pos hdenominator]
        have hcast : (denominator : ℚ) < 2 * (numerator % denominator : ℕ) := by exact_mod_cast hmore
        linarith
      have hwhole : ((numerator % denominator : ℕ) : ℚ) / denominator < 1 := by
        rw [div_lt_one hdenominator]
        exact_mod_cast Nat.mod_lt numerator hpos
      refine ⟨by push_cast; linarith, by push_cast; linarith, ?_⟩
      push_cast
      rintro (htie | htie) <;> linarith
    · rename_i hmore hless
      have htie : ((numerator % denominator : ℕ) : ℚ) / denominator = 1 / 2 := by
        rw [div_eq_div_iff hdenominator.ne' two_ne_zero]
        have hcast : (2 * (numerator % denominator : ℕ) : ℚ) = denominator := by
          exact_mod_cast (by omega : 2 * (numerator % denominator) = denominator)
        linarith
      rw [htie]
      rcases Nat.mod_two_eq_zero_or_one (numerator / denominator) with heven | hodd
      · rw [heven, Nat.add_zero]
        exact ⟨by linarith, by linarith, fun _ ↦ Nat.even_iff.2 heven⟩
      · rw [hodd]
        refine ⟨by push_cast; linarith, by push_cast; linarith, fun _ ↦ ?_⟩
        rw [Nat.even_add_one, Nat.not_even_iff]
        exact hodd

theorem roundHalfEven_eq {numerator denominator whole : ℕ} (hpos : 0 < denominator)
    (h : RoundsTo (numerator / denominator) whole) :
    roundHalfEven numerator denominator = whole :=
  (roundsTo_roundHalfEven hpos).unique h

namespace Binary64

theorem two_zpow_log2_le {n : ℕ} (hpos : 0 < n) : (2 : ℚ) ^ (n.log2 : ℤ) ≤ n := by
  rw [zpow_natCast]
  exact_mod_cast Nat.log2_self_le hpos.ne'

theorem lt_two_zpow_log2 (n : ℕ) : (n : ℚ) < 2 ^ ((n.log2 : ℤ) + 1) := by
  rw [← Nat.cast_succ, zpow_natCast]
  exact_mod_cast Nat.lt_log2_self

/-- The whole part of the binary logarithm of a quotient. -/
theorem floorLog2_spec {numerator denominator : ℕ} (hnumerator : 0 < numerator)
    (hdenominator : 0 < denominator) :
    (2 : ℚ) ^ floorLog2 numerator denominator ≤ numerator / denominator ∧
      (numerator : ℚ) / denominator < 2 ^ (floorLog2 numerator denominator + 1) := by
  have hpos : (0 : ℚ) < denominator := by exact_mod_cast hdenominator
  have hlower := two_zpow_log2_le hnumerator
  have hupper := lt_two_zpow_log2 numerator
  have hlower' := two_zpow_log2_le hdenominator
  have hupper' := lt_two_zpow_log2 denominator
  obtain ⟨estimate, hestimate⟩ :
      ∃ estimate : ℤ, estimate = (numerator.log2 : ℤ) - denominator.log2 := ⟨_, rfl⟩
  have hless : (numerator : ℚ) / denominator < 2 ^ (estimate + 1) := by
    rw [div_lt_iff₀ hpos]
    calc
      (numerator : ℚ) < 2 ^ ((numerator.log2 : ℤ) + 1) := hupper
      _ = 2 ^ (estimate + 1) * 2 ^ (denominator.log2 : ℤ) := by
        rw [← zpow_add₀ two_ne_zero]
        congr 1
        omega
      _ ≤ 2 ^ (estimate + 1) * denominator := by gcongr
  have hmore : (2 : ℚ) ^ (estimate - 1) ≤ numerator / denominator := by
    rw [le_div_iff₀ hpos]
    calc
      (2 : ℚ) ^ (estimate - 1) * denominator ≤
          2 ^ (estimate - 1) * 2 ^ ((denominator.log2 : ℤ) + 1) := by gcongr
      _ = 2 ^ (numerator.log2 : ℤ) := by
        rw [← zpow_add₀ two_ne_zero]
        congr 1
        omega
      _ ≤ numerator := hlower
  -- The comparison of the terms is one of the quotient with the power.
  have hcompare : denominator * Nat.pow 2 estimate.toNat ≤ numerator * Nat.pow 2 (-estimate).toNat ↔
      (2 : ℚ) ^ estimate ≤ numerator / denominator := by
    rw [zpow_eq_div 2, div_le_div_iff₀ (by positivity) hpos, mul_comm denominator]
    simp only [Nat.pow_eq]
    exact_mod_cast Iff.rfl
  unfold floorLog2
  dsimp only
  rw [← hestimate]
  split
  · rename_i htest
    exact ⟨hcompare.1 htest, hless⟩
  · rename_i htest
    refine ⟨hmore, ?_⟩
    rw [Int.sub_add_cancel]
    exact not_le.1 fun hle ↦ htest (hcompare.2 hle)

/-! ## Rounding intervals -/

/-- Whether the number below one with a mantissa and an exponent is closer than the one above. -/
def NarrowBelow (mantissa : ℕ) (exponent : ℤ) : Prop :=
  mantissa = 2 ^ 52 ∧ exponent ≠ leastExponent

instance (mantissa : ℕ) (exponent : ℤ) : Decidable (NarrowBelow mantissa exponent) :=
  inferInstanceAs (Decidable (_ ∧ _))

/-- How far below a number its rounding interval begins, in units of the last place. -/
def reachBelow (mantissa : ℕ) (exponent : ℤ) : ℚ :=
  if NarrowBelow mantissa exponent then 1 / 4 else 1 / 2

/-- A quantity is in the rounding interval of `mantissa * 2 ^ exponent`. -/
structure RoundsBack (mantissa : ℕ) (exponent : ℤ) (quantity : ℚ) : Prop where
  lower : (mantissa - reachBelow mantissa exponent) * 2 ^ exponent ≤ quantity
  upper : quantity ≤ (mantissa + 1 / 2) * 2 ^ exponent
  even_of_end : quantity = (mantissa - reachBelow mantissa exponent) * 2 ^ exponent ∨
    quantity = (mantissa + 1 / 2) * 2 ^ exponent → Even mantissa

theorem reachBelow_le (mantissa : ℕ) (exponent : ℤ) : reachBelow mantissa exponent ≤ 1 / 2 := by
  unfold reachBelow
  split <;> norm_num

variable {mantissa : ℕ} {exponent : ℤ} {quantity : ℚ}

theorem RoundsBack.pos (h : RoundsBack mantissa exponent quantity) (hpos : 0 < mantissa) :
    0 < quantity := by
  have hone : (1 : ℚ) ≤ mantissa := by exact_mod_cast hpos
  have hreach := reachBelow_le mantissa exponent
  exact lt_of_lt_of_le (mul_pos (by linarith) (two_zpow_pos exponent)) h.lower

/-- A quantity in the rounding interval has no more than 53 digits before the last place. -/
theorem RoundsBack.lt_two_zpow (h : RoundsBack mantissa exponent quantity)
    (hcanonical : Canonical mantissa exponent) : quantity < 2 ^ (exponent + 53) := by
  have hmantissa : (mantissa : ℚ) + 1 ≤ 2 ^ 53 := by exact_mod_cast hcanonical.mantissa_lt
  calc
    quantity ≤ (mantissa + 1 / 2) * 2 ^ exponent := h.upper
    _ < 2 ^ 53 * 2 ^ exponent := by
      apply mul_lt_mul_of_pos_right _ (two_zpow_pos exponent)
      linarith
    _ = 2 ^ (exponent + 53) := by
      rw [zpow_add₀ two_ne_zero, mul_comm]
      norm_cast

/-- In units of the last place, a quantity in the rounding interval rounds to the mantissa. -/
theorem RoundsBack.roundsTo (h : RoundsBack mantissa exponent quantity) :
    RoundsTo (quantity / 2 ^ exponent) mantissa := by
  have hpos := two_zpow_pos exponent
  have hreach := reachBelow_le mantissa exponent
  have hlower := (le_div_iff₀ hpos).2 h.lower
  have hupper := (div_le_iff₀ hpos).2 h.upper
  refine ⟨by linarith, hupper, ?_⟩
  rintro (htie | htie)
  · have hend : quantity / 2 ^ exponent = mantissa - reachBelow mantissa exponent := by linarith
    exact h.even_of_end (.inl ((div_eq_iff hpos.ne').1 hend))
  · exact h.even_of_end (.inr ((div_eq_iff hpos.ne').1 htie))

/-- Where the leading digit of a quantity in the rounding interval is not that of the number, the
mantissa is the least of 53 digits. -/
theorem RoundsBack.narrowBelow (h : RoundsBack mantissa exponent quantity)
    (hcanonical : Canonical mantissa exponent) (hleast : leastExponent < exponent)
    (hlt : quantity < 2 ^ (exponent + 52)) :
    mantissa = 2 ^ 52 ∧ (2 ^ 52 - 1 / 4) * 2 ^ exponent ≤ quantity := by
  have hpos := two_zpow_pos exponent
  have hle : 2 ^ 52 ≤ mantissa := hcanonical.leading.resolve_left (by omega)
  have hreach := reachBelow_le mantissa exponent
  have hlower := h.lower
  have hbelow : (mantissa : ℚ) < 2 ^ 52 + 1 := by
    rw [zpow_add₀ two_ne_zero, mul_comm] at hlt
    have hless : (mantissa : ℚ) - reachBelow mantissa exponent < 2 ^ (52 : ℤ) := by
      by_contra hge
      exact absurd (mul_le_mul_of_nonneg_right (not_lt.1 hge) hpos.le) (by linarith)
    have hpower : (2 : ℚ) ^ (52 : ℤ) = 2 ^ 52 := by norm_cast
    linarith
  have heq : mantissa = 2 ^ 52 := by
    have hbound : mantissa < 2 ^ 52 + 1 := by exact_mod_cast hbelow
    omega
  refine ⟨heq, ?_⟩
  have hnarrow : reachBelow mantissa exponent = 1 / 4 := if_pos ⟨heq, hleast.ne'⟩
  rw [hnarrow, heq] at hlower
  exact_mod_cast hlower

/-- In units of the last place of the binade below, such a quantity rounds to the end of the
binade. -/
theorem roundsTo_of_narrowBelow (hge : (2 ^ 52 - 1 / 4) * 2 ^ exponent ≤ quantity)
    (hlt : quantity < 2 ^ (exponent + 52)) : RoundsTo (quantity / 2 ^ (exponent - 1)) (2 ^ 53) := by
  have hpos := two_zpow_pos (exponent - 1)
  have hdouble : (2 : ℚ) ^ exponent = 2 * 2 ^ (exponent - 1) := by
    rw [← zpow_one_add₀ two_ne_zero, add_sub_cancel]
  have hlower : (2 : ℚ) ^ 53 - 1 / 2 ≤ quantity / 2 ^ (exponent - 1) := by
    rw [le_div_iff₀ hpos]
    calc
      ((2 : ℚ) ^ 53 - 1 / 2) * 2 ^ (exponent - 1) = (2 ^ 52 - 1 / 4) * 2 ^ exponent := by
        rw [hdouble]
        linarith
      _ ≤ quantity := hge
  have hupper : quantity / (2 : ℚ) ^ (exponent - 1) ≤ 2 ^ 53 := by
    rw [div_le_iff₀ hpos]
    calc
      quantity ≤ 2 ^ (exponent + 52) := hlt.le
      _ = 2 ^ (52 : ℤ) * 2 * 2 ^ (exponent - 1) := by
        rw [zpow_add₀ two_ne_zero, hdouble]
        ring
      _ = 2 ^ 53 * 2 ^ (exponent - 1) := by norm_num
  refine ⟨?_, ?_, fun _ ↦ ⟨2 ^ 52, by norm_num⟩⟩
  · push_cast
    exact hlower
  · push_cast
    linarith

variable {numerator denominator : ℕ} {negative : Bool}

/-- A quotient in units of a power of two. -/
theorem scaled_div (numerator denominator : ℕ) (exponent : ℤ) :
    ((numerator * Nat.pow 2 (-exponent).toNat : ℕ) : ℚ) /
        (denominator * Nat.pow 2 exponent.toNat : ℕ) =
      numerator / denominator / 2 ^ exponent := by
  rw [zpow_eq_div 2]
  simp only [Nat.pow_eq]
  push_cast
  rw [div_div_div_eq, mul_comm (denominator : ℚ)]

/-- The number nearest to a quotient, once its spacing and its mantissa are known. -/
theorem nearest_eq (hnumerator : 0 < numerator) (hdenominator : 0 < denominator)
    {whole : ℕ} (hspacing : spacing numerator denominator = exponent)
    (hwhole : RoundsTo (numerator / denominator / 2 ^ exponent) whole)
    (hlt : magnitudeBits whole exponent < infinityBits) :
    nearest negative numerator denominator =
      ofMagnitudeBits negative (magnitudeBits whole exponent) := by
  have hround : roundHalfEven (numerator * Nat.pow 2 (-exponent).toNat)
      (denominator * Nat.pow 2 exponent.toNat) = whole := by
    apply roundHalfEven_eq
    · exact Nat.mul_pos hdenominator (Nat.pow_pos (by decide))
    · rwa [scaled_div]
  unfold nearest
  dsimp only
  rw [if_neg hnumerator.ne', hspacing, hround]
  congr 1
  exact Nat.min_eq_left hlt.le

/-- The spacing around a quotient is the power of two of which it has 53 digits, or the least. -/
theorem spacing_eq (hnumerator : 0 < numerator) (hdenominator : 0 < denominator)
    (hleast : leastExponent ≤ exponent)
    (hleading : exponent = leastExponent ∨ (2 : ℚ) ^ (exponent + 52) ≤ numerator / denominator)
    (hlt : (numerator : ℚ) / denominator < 2 ^ (exponent + 53)) :
    spacing numerator denominator = exponent := by
  obtain ⟨hlog, hlogUpper⟩ := floorLog2_spec hnumerator hdenominator
  have hle : floorLog2 numerator denominator < exponent + 53 :=
    (zpow_lt_zpow_iff_right₀ one_lt_two).1 (lt_of_le_of_lt hlog hlt)
  unfold spacing fractionBits
  rcases hleading with rfl | hge
  · omega
  · have hgt : exponent + 52 < floorLog2 numerator denominator + 1 :=
      (zpow_lt_zpow_iff_right₀ one_lt_two).1 (lt_of_le_of_lt hge hlogUpper)
    omega

/-- The end of a binade is the beginning of the next. -/
theorem magnitudeBits_carry (hleast : leastExponent < exponent) :
    magnitudeBits (2 ^ 53) (exponent - 1) = magnitudeBits (2 ^ 52) exponent := by
  have hcarry : (exponent - leastExponent).toNat = (exponent - 1 - leastExponent).toNat + 1 := by
    omega
  unfold magnitudeBits
  rw [hcarry]
  omega

/-- A quotient in the rounding interval of a number is rounded to it. -/
theorem nearest_of_roundsBack (hdenominator : 0 < denominator) (hpos : 0 < mantissa)
    (hcanonical : Canonical mantissa exponent)
    (h : RoundsBack mantissa exponent (numerator / denominator)) :
    nearest negative numerator denominator =
      ofMagnitudeBits negative (magnitudeBits mantissa exponent) := by
  have hnumerator : 0 < numerator := by
    have hdenominator' : (0 : ℚ) < denominator := by exact_mod_cast hdenominator
    have hcast : (0 : ℚ) < numerator := (div_pos_iff_of_pos_right hdenominator').1 (h.pos hpos)
    exact_mod_cast hcast
  by_cases hleading : exponent = leastExponent ∨ (2 : ℚ) ^ (exponent + 52) ≤ numerator / denominator
  · have hspacing : spacing numerator denominator = exponent :=
      spacing_eq hnumerator hdenominator hcanonical.least_le hleading (h.lt_two_zpow hcanonical)
    exact nearest_eq hnumerator hdenominator hspacing h.roundsTo hcanonical.magnitudeBits_lt
  · -- The quotient is in the binade below, but rounds to its end.
    obtain ⟨hother, hlt⟩ := not_or.1 hleading
    have hleast : leastExponent < exponent := lt_of_le_of_ne hcanonical.least_le (Ne.symm hother)
    have hlt := not_le.1 hlt
    obtain ⟨rfl, hge⟩ := h.narrowBelow hcanonical hleast hlt
    have hspacing : spacing numerator denominator = exponent - 1 := by
      apply spacing_eq hnumerator hdenominator (by omega)
      · right
        refine le_trans ?_ hge
        rw [show exponent - 1 + 52 = 51 + exponent by ring, zpow_add₀ two_ne_zero]
        apply mul_le_mul_of_nonneg_right _ (two_zpow_pos exponent).le
        norm_num
      · rwa [show exponent - 1 + 53 = exponent + 52 by ring]
    have hbits := magnitudeBits_carry hleast
    rw [← hbits]
    apply nearest_eq hnumerator hdenominator hspacing (roundsTo_of_narrowBelow hge hlt)
    rw [hbits]
    exact hcanonical.magnitudeBits_lt

end Binary64

end LineScript
