import LineScript.Proofs.Number.Decimals

/-!
# The closest number

A quotient that is not past the greatest number is rounded to a finite number, and no finite number
is closer to it. The numbers of its own binade and those above are multiples of one unit, so among
them this is rounding to a whole number; the smaller ones are closer together, but the beginning of
the binade is between them and the quotient.
-/

namespace LineScript

namespace Binary64

variable {mantissa whole numerator denominator : ℕ} {exponent unit : ℤ} {quantity : ℚ}

def greatest : ℕ :=
  (2 ^ 53 - 1) * 2 ^ 971

theorem cast_greatest : (greatest : ℚ) = (2 ^ 53 - 1 : ℕ) * 2 ^ (971 : ℤ) := by
  rw [greatest, Nat.cast_mul, Nat.cast_pow]
  rfl

theorem Canonical.value_le (h : Canonical mantissa exponent) :
    (mantissa * 2 ^ exponent : ℚ) ≤ greatest := by
  have hmantissa : (mantissa : ℚ) ≤ (2 ^ 53 - 1 : ℕ) := by
    exact_mod_cast Nat.le_sub_one_of_lt h.mantissa_lt
  have hpower : (2 : ℚ) ^ exponent ≤ 2 ^ (971 : ℤ) :=
    zpow_le_zpow_right₀ one_le_two h.le_greatest
  calc
    (mantissa * 2 ^ exponent : ℚ) ≤ (2 ^ 53 - 1 : ℕ) * 2 ^ (971 : ℤ) := by gcongr
    _ = greatest := cast_greatest.symm

theorem greatest_lt : (greatest : ℚ) < 2 ^ (1024 : ℤ) := by
  have hlt : greatest < 2 ^ 1024 := by decide +kernel
  exact_mod_cast hlt

/-- A finite number that is as close to a quantity as any. -/
structure Closest (quantity : ℚ) (mantissa : ℕ) (exponent : ℤ) : Prop where
  canonical : Canonical mantissa exponent
  abs_sub_le : ∀ other power, Canonical other power →
    |quantity - mantissa * 2 ^ exponent| ≤ |quantity - other * 2 ^ power|

/-- A distance is measured in units of a power of two. -/
theorem abs_sub_eq (quantity count : ℚ) (unit : ℤ) :
    |quantity - count * 2 ^ unit| = |quantity / 2 ^ unit - count| * 2 ^ unit := by
  have hpos := two_zpow_pos unit
  rw [← abs_of_pos hpos, ← abs_mul, abs_of_pos hpos, sub_mul, div_mul_cancel₀ _ hpos.ne']

/-- No multiple of the unit is closer to a quantity than the one that it rounds to. -/
theorem abs_sub_le_of_roundsTo (h : RoundsTo (quantity / 2 ^ unit) whole) (count : ℤ) :
    |quantity - whole * 2 ^ unit| ≤ |quantity - count * 2 ^ unit| := by
  rw [abs_sub_eq, abs_sub_eq]
  exact mul_le_mul_of_nonneg_right (h.nearest count) (two_zpow_pos unit).le

/-- No number is closer to a quantity of 53 digits than the one that it rounds to. -/
theorem abs_sub_le_of_canonical (h : RoundsTo (quantity / 2 ^ unit) whole)
    (hleading : unit = leastExponent ∨ (2 : ℚ) ^ (unit + 52) ≤ quantity)
    (hcanonical : Canonical mantissa exponent) :
    |quantity - whole * 2 ^ unit| ≤ |quantity - mantissa * 2 ^ exponent| := by
  rcases le_or_gt unit exponent with hcoarse | hfine
  · obtain ⟨steps, rfl⟩ := Int.le.dest hcoarse
    have hmultiple : (mantissa : ℚ) * 2 ^ (unit + steps) =
        ((mantissa * 2 ^ steps : ℕ) : ℤ) * 2 ^ unit := by
      rw [zpow_add₀ two_ne_zero, zpow_natCast]
      push_cast
      ring
    rw [hmultiple]
    exact abs_sub_le_of_roundsTo h _
  · -- The beginning of the binade is not below the number, and not above the quantity.
    have hbegin : (2 : ℚ) ^ (unit + 52) ≤ quantity :=
      hleading.resolve_left fun hleast ↦ by
        rw [hleast] at hfine
        exact absurd hcanonical.least_le (not_le.2 hfine)
    have hbelow : (mantissa : ℚ) * 2 ^ exponent ≤ 2 ^ (unit + 52) := by
      have hmantissa : (mantissa : ℚ) ≤ 2 ^ (53 : ℤ) := by
        exact_mod_cast hcanonical.mantissa_lt.le
      calc
        (mantissa : ℚ) * 2 ^ exponent ≤ 2 ^ (53 : ℤ) * 2 ^ exponent := by gcongr
        _ = 2 ^ (53 + exponent) := (zpow_add₀ two_ne_zero _ _).symm
        _ ≤ 2 ^ (unit + 52) := zpow_le_zpow_right₀ one_le_two (by omega)
    calc
      |quantity - whole * 2 ^ unit| ≤ |quantity - (2 ^ 52 : ℤ) * 2 ^ unit| :=
        abs_sub_le_of_roundsTo h _
      _ = quantity - 2 ^ (unit + 52) := by
        have hpower : ((2 ^ 52 : ℤ) : ℚ) * 2 ^ unit = 2 ^ (unit + 52) := by
          rw [add_comm, zpow_add₀ two_ne_zero]
          norm_cast
        rw [hpower, abs_of_nonneg (sub_nonneg.2 hbegin)]
      _ ≤ quantity - mantissa * 2 ^ exponent := by linarith
      _ ≤ |quantity - mantissa * 2 ^ exponent| := le_abs_self _

/-- A quantity of 53 digits rounds to a whole number of 53 digits, or to the least one of 54. -/
theorem le_two_pow_of_roundsTo (h : RoundsTo (quantity / 2 ^ unit) whole)
    (hlt : quantity < 2 ^ (unit + 53)) : whole ≤ 2 ^ 53 := by
  have hunits : quantity / 2 ^ unit < 2 ^ 53 := by
    rw [div_lt_iff₀ (two_zpow_pos unit)]
    calc
      quantity < 2 ^ (unit + 53) := hlt
      _ = 2 ^ 53 * 2 ^ unit := by
        rw [zpow_add₀ two_ne_zero, mul_comm]
        norm_cast
  have hcast : (whole : ℚ) < (2 ^ 53 : ℕ) + 1 := by
    push_cast
    linarith [h.lower]
  exact Nat.lt_succ_iff.1 (by exact_mod_cast hcast)

theorem two_pow_le_of_roundsTo (h : RoundsTo (quantity / 2 ^ unit) whole)
    (hle : (2 : ℚ) ^ (unit + 52) ≤ quantity) : 2 ^ 52 ≤ whole := by
  have hunits : (2 : ℚ) ^ 52 ≤ quantity / 2 ^ unit := by
    rw [le_div_iff₀ (two_zpow_pos unit)]
    calc
      (2 : ℚ) ^ 52 * 2 ^ unit = 2 ^ (unit + 52) := by
        rw [zpow_add₀ two_ne_zero, mul_comm]
        norm_cast
      _ ≤ quantity := hle
  have hcast : ((2 ^ 52 : ℕ) : ℚ) < whole + 1 := by
    push_cast
    linarith [h.upper]
  exact Nat.lt_succ_iff.1 (by exact_mod_cast hcast)

/-- In the greatest binade nothing that is not past the greatest number carries. -/
theorem lt_greatest_of_carry (h : RoundsTo (quantity / 2 ^ unit) (2 ^ 53))
    (hle : quantity ≤ greatest) : unit < 971 := by
  by_contra hunit
  have hunits : quantity / 2 ^ unit ≤ (2 ^ 53 - 1 : ℕ) := by
    rw [div_le_iff₀ (two_zpow_pos unit)]
    calc
      quantity ≤ greatest := hle
      _ = (2 ^ 53 - 1 : ℕ) * 2 ^ (971 : ℤ) := cast_greatest
      _ ≤ (2 ^ 53 - 1 : ℕ) * 2 ^ unit := by
        apply mul_le_mul_of_nonneg_left _ (Nat.cast_nonneg _)
        exact zpow_le_zpow_right₀ one_le_two (not_lt.1 hunit)
  have hlower := h.lower
  norm_num at hunits hlower
  linarith

/-- What a quantity rounds to is a number: where the digits carry, it is the least mantissa with the
next exponent. -/
theorem exists_canonical_of_roundsTo (h : RoundsTo (quantity / 2 ^ unit) whole)
    (hleast : leastExponent ≤ unit)
    (hleading : unit = leastExponent ∨ (2 : ℚ) ^ (unit + 52) ≤ quantity)
    (hlt : quantity < 2 ^ (unit + 53)) (hle : quantity ≤ greatest) :
    ∃ mantissa exponent, Canonical mantissa exponent ∧
      magnitudeBits mantissa exponent = magnitudeBits whole unit ∧
      (mantissa * 2 ^ exponent : ℚ) = whole * 2 ^ unit := by
  have hgreatest : unit ≤ 971 := by
    rcases hleading with rfl | hbegin
    · decide
    · have hpower : (2 : ℚ) ^ (unit + 52) < 2 ^ (1024 : ℤ) :=
        lt_of_le_of_lt (hbegin.trans hle) greatest_lt
      have hexponent := (zpow_lt_zpow_iff_right₀ one_lt_two).1 hpower
      omega
  rcases Nat.lt_or_eq_of_le (le_two_pow_of_roundsTo h hlt) with hsmall | rfl
  · exact ⟨whole, unit, ⟨hsmall, hleast, hgreatest, hleading.imp_right (two_pow_le_of_roundsTo h)⟩,
      rfl, rfl⟩
  · have hnext := lt_greatest_of_carry h hle
    refine ⟨2 ^ 52, unit + 1, ⟨by norm_num, by omega, by omega, .inr le_rfl⟩, ?_, ?_⟩
    · rw [← magnitudeBits_carry (by omega), add_sub_cancel_right]
    · rw [zpow_add_one₀ two_ne_zero]
      push_cast
      ring

/-- In units of its spacing a quotient has 53 digits, unless the spacing is the least. -/
theorem spacing_spec (hnumerator : 0 < numerator) (hdenominator : 0 < denominator)
    (hunit : spacing numerator denominator = unit) : leastExponent ≤ unit ∧
      (unit = leastExponent ∨ (2 : ℚ) ^ (unit + 52) ≤ numerator / denominator) ∧
      (numerator : ℚ) / denominator < 2 ^ (unit + 53) := by
  obtain ⟨hlog, hlogUpper⟩ := floorLog2_spec hnumerator hdenominator
  unfold spacing fractionBits at hunit
  refine ⟨hunit ▸ le_max_right _ _, ?_, ?_⟩
  · rcases max_choice (floorLog2 numerator denominator - (52 : ℕ)) leastExponent with
      hlogarithm | hleast
    · right
      rwa [← hunit, hlogarithm, Nat.cast_ofNat, sub_add_cancel]
    · exact .inl (hunit.symm.trans hleast)
  · have hexponent : floorLog2 numerator denominator + 1 ≤ unit + 53 := by omega
    exact lt_of_lt_of_le hlogUpper (zpow_le_zpow_right₀ one_le_two hexponent)

/-- A quotient is rounded to a finite number that is as close to it as any. -/
theorem exists_nearest_eq (hnumerator : 0 < numerator) (hdenominator : 0 < denominator)
    (hle : (numerator : ℚ) / denominator ≤ greatest) (negative : Bool) :
    ∃ mantissa exponent, Closest (numerator / denominator) mantissa exponent ∧
      nearest negative numerator denominator =
        ofMagnitudeBits negative (magnitudeBits mantissa exponent) := by
  obtain ⟨unit, hunit⟩ : ∃ unit, spacing numerator denominator = unit := ⟨_, rfl⟩
  obtain ⟨hleast, hleading, hlt⟩ := spacing_spec hnumerator hdenominator hunit
  obtain ⟨whole, hround⟩ : ∃ whole, RoundsTo (numerator / denominator / 2 ^ unit) whole := by
    rw [← scaled_div]
    exact ⟨_, roundsTo_roundHalfEven (Nat.mul_pos hdenominator (Nat.pow_pos (by decide)))⟩
  obtain ⟨mantissa, exponent, hcanonical, hbits, hvalue⟩ :=
    exists_canonical_of_roundsTo hround hleast hleading hlt hle
  refine ⟨mantissa, exponent, ⟨hcanonical, fun other power hother ↦ ?_⟩, ?_⟩
  · rw [hvalue]
    exact abs_sub_le_of_canonical hround hleading hother
  · rw [hbits]
    apply nearest_eq hnumerator hdenominator hunit hround
    rw [← hbits]
    exact hcanonical.magnitudeBits_lt

end Binary64

/-- A decimal that is neither past the greatest number nor too small is read as a finite number that
is as close to it as any. -/
theorem Decimal.exists_toFloat_closest {d : Decimal} (hlower : (2 : ℚ) ^ (-1075 : ℤ) ≤ d.quantity)
    (hle : d.quantity ≤ Binary64.greatest) (negative : Bool) :
    ∃ mantissa exponent, Binary64.Closest d.quantity mantissa exponent ∧
      Binary64.decode (d.toFloat negative) = .finite negative mantissa exponent := by
  have hpos : 0 < d.quantity := (two_zpow_pos (-1075)).trans_le hlower
  rw [toFloat_eq_nearest hlower (hle.trans_lt Binary64.greatest_lt)]
  rw [quantity_eq_div] at hle hpos ⊢
  have hten : 0 < Nat.pow 10 (-d.exponent).toNat := Nat.pow_pos (by decide)
  have hnumerator : 0 < d.coefficient * Nat.pow 10 d.exponent.toNat := by
    have hcast := (div_pos_iff_of_pos_right (by exact_mod_cast hten)).1 hpos
    exact_mod_cast hcast
  obtain ⟨mantissa, exponent, hclosest, hnearest⟩ :=
    Binary64.exists_nearest_eq hnumerator hten hle negative
  refine ⟨mantissa, exponent, hclosest, ?_⟩
  rw [hnearest, Binary64.decode_ofMagnitudeBits hclosest.canonical]

end LineScript
