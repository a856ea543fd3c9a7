import LineScript.Number.Decimal
import LineScript.Proofs.Number.Rounding

/-!
# Decimals and the numbers they are read as

A decimal in the rounding interval of a number is read as that number: its quantity is then neither
so large nor so small that it is answered without being computed. So it does not matter how a
quantity is written: zeros in front of the digits say nothing, and those behind them only shift them.
-/

namespace LineScript

open Binary64

/-- The quantity that a decimal stands for. -/
def Decimal.quantity (d : Decimal) : ℚ :=
  d.coefficient * 10 ^ d.exponent

namespace Binary64

variable {mantissa : ℕ} {exponent : ℤ} {quantity : ℚ}

/-- The rounding interval of a number begins at half the smallest positive number, or above. -/
theorem RoundsBack.two_zpow_le (h : RoundsBack mantissa exponent quantity) (hpos : 0 < mantissa)
    (hcanonical : Canonical mantissa exponent) : (2 : ℚ) ^ (-1075 : ℤ) ≤ quantity := by
  have hreach := reachBelow_le mantissa exponent
  have hone : (1 : ℚ) ≤ mantissa := by exact_mod_cast hpos
  calc
    (2 : ℚ) ^ (-1075 : ℤ) = 2 ^ (-1 + leastExponent) := rfl
    _ = 1 / 2 * 2 ^ leastExponent := by
      rw [zpow_add₀ two_ne_zero, zpow_neg_one, one_div]
    _ ≤ 1 / 2 * 2 ^ exponent := by
      gcongr
      · exact one_le_two
      · exact hcanonical.least_le
    _ ≤ (mantissa - reachBelow mantissa exponent) * 2 ^ exponent := by
      gcongr
      linarith
    _ ≤ quantity := h.lower

/-- The rounding interval of a number ends before the power of two past every number. -/
theorem RoundsBack.lt_two_pow (h : RoundsBack mantissa exponent quantity)
    (hcanonical : Canonical mantissa exponent) : quantity < 2 ^ (1024 : ℤ) := by
  have hgreatest := hcanonical.le_greatest
  calc
    quantity < 2 ^ (exponent + 53) := h.lt_two_zpow hcanonical
    _ ≤ 2 ^ (1024 : ℤ) := zpow_le_zpow_right₀ one_le_two (by omega)

end Binary64

namespace Decimal

variable {d : Decimal} {mantissa : ℕ} {exponent : ℤ} {negative : Bool}

theorem quantity_eq_div (d : Decimal) : d.quantity =
    ((d.coefficient * Nat.pow 10 d.exponent.toNat : ℕ) : ℚ) /
      (Nat.pow 10 (-d.exponent).toNat : ℕ) := by
  rw [quantity, zpow_eq_div 10]
  simp only [Nat.pow_eq]
  push_cast
  rw [mul_div_assoc]

/-- Three binary digits are less than a decimal one. -/
theorem two_zpow_le_ten_zpow {n : ℤ} (hn : 0 ≤ n) : (2 : ℚ) ^ (3 * n) ≤ 10 ^ n := by
  rw [zpow_mul]
  exact zpow_le_zpow_left₀ hn (by norm_num) (by norm_num)

theorem ten_zpow_le_two_zpow {n : ℤ} (hn : n ≤ 0) : (10 : ℚ) ^ n ≤ 2 ^ (3 * n) := by
  have hinverse := two_zpow_le_ten_zpow (neg_nonneg.2 hn)
  rw [mul_neg, zpow_neg, zpow_neg] at hinverse
  exact (inv_le_inv₀ (two_zpow_pos _) (by positivity)).1 hinverse

/-- A quantity below `2 ^ 1024` has no power of ten that is past every number. -/
theorem exponent_le (hpos : 0 < d.coefficient) (hlt : d.quantity < 2 ^ (1024 : ℤ)) :
    d.exponent ≤ 400 := by
  by_contra hgt
  have hone : (1 : ℚ) ≤ d.coefficient := by exact_mod_cast hpos
  have hten : (2 : ℚ) ^ (1024 : ℤ) ≤ d.quantity :=
    calc
      (2 : ℚ) ^ (1024 : ℤ) ≤ 2 ^ (3 * d.exponent) := by
        gcongr
        · exact one_le_two
        · omega
      _ ≤ 10 ^ d.exponent := two_zpow_le_ten_zpow (by omega)
      _ ≤ d.coefficient * 10 ^ d.exponent := le_mul_of_one_le_left (by positivity) hone
  exact absurd hlt (not_lt.2 hten)

/-- A quantity that is not below half the smallest positive number has digits enough for its power
of ten. -/
theorem three_mul_le (hle : (2 : ℚ) ^ (-1075 : ℤ) ≤ d.quantity) :
    3 * -d.exponent ≤ (d.coefficient.log2 : ℤ) + 1077 := by
  by_contra hgt
  have hten := ten_zpow_le_two_zpow (n := d.exponent) (by omega)
  have hbound : (2 : ℚ) ^ (-1075 : ℤ) < 2 ^ ((d.coefficient.log2 : ℤ) + 1 + 3 * d.exponent) :=
    calc
      (2 : ℚ) ^ (-1075 : ℤ) ≤ d.coefficient * 10 ^ d.exponent := hle
      _ < 2 ^ ((d.coefficient.log2 : ℤ) + 1) * 10 ^ d.exponent := by
        apply mul_lt_mul_of_pos_right (lt_two_zpow_log2 _)
        positivity
      _ ≤ 2 ^ ((d.coefficient.log2 : ℤ) + 1) * 2 ^ (3 * d.exponent) := by gcongr
      _ = 2 ^ ((d.coefficient.log2 : ℤ) + 1 + 3 * d.exponent) := (zpow_add₀ two_ne_zero _ _).symm
  have hlt := (zpow_lt_zpow_iff_right₀ one_lt_two).1 hbound
  omega

/-- A quantity that is neither too small nor too large for every number is rounded to the nearest. -/
theorem toFloat_eq_nearest (hlower : (2 : ℚ) ^ (-1075 : ℤ) ≤ d.quantity)
    (hupper : d.quantity < 2 ^ (1024 : ℤ)) (negative : Bool) : d.toFloat negative =
      nearest negative (d.coefficient * Nat.pow 10 d.exponent.toNat)
        (Nat.pow 10 (-d.exponent).toNat) := by
  have hcoefficient : d.coefficient ≠ 0 := by
    intro hzero
    rw [quantity, hzero, Nat.cast_zero, zero_mul] at hlower
    exact absurd (two_zpow_pos (-1075)) (not_lt.2 hlower)
  have hgreat := exponent_le (Nat.pos_of_ne_zero hcoefficient) hupper
  have hsmall := three_mul_le hlower
  unfold toFloat
  rw [if_neg hcoefficient, if_neg (not_lt.2 hgreat), if_neg (not_lt.2 hsmall)]

/-- A decimal in the rounding interval of a number is read as the number. -/
theorem toFloat_of_roundsBack (hpos : 0 < mantissa) (hcanonical : Canonical mantissa exponent)
    (h : RoundsBack mantissa exponent d.quantity) :
    d.toFloat negative = ofMagnitudeBits negative (magnitudeBits mantissa exponent) := by
  rw [toFloat_eq_nearest (h.two_zpow_le hpos hcanonical) (h.lt_two_pow hcanonical)]
  rw [quantity_eq_div] at h
  exact nearest_of_roundsBack (Nat.pow_pos (by decide)) hpos hcanonical h

/-- A decimal is read as bits that are not past infinity, whatever its sign. -/
theorem exists_toFloat_eq (d : Decimal) :
    ∃ magnitude ≤ infinityBits, ∀ negative, d.toFloat negative =
      ofMagnitudeBits negative magnitude := by
  unfold toFloat nearest
  split
  · exact ⟨0, Nat.zero_le _, fun _ ↦ rfl⟩
  · split
    · exact ⟨infinityBits, Nat.le_refl _, fun _ ↦ rfl⟩
    · split
      · exact ⟨0, Nat.zero_le _, fun _ ↦ rfl⟩
      · split
        · exact ⟨0, Nat.zero_le _, fun _ ↦ rfl⟩
        · exact ⟨_, Nat.min_le_right _ _, fun _ ↦ rfl⟩

/-- A sign negates what a decimal is read as. -/
theorem neg_toFloat (d : Decimal) : -d.toFloat false = d.toFloat true := by
  obtain ⟨magnitude, hle, hfloat⟩ := d.exists_toFloat_eq
  rw [hfloat, hfloat, neg_ofMagnitudeBits hle]

/-- A decimal without a sign that is read as a finite number is read as one that is not negative. -/
theorem exists_decode_toFloat {d : Decimal} (h : (d.toFloat false).isFinite = true) :
    ∃ mantissa exponent, decode (d.toFloat false) = .finite false mantissa exponent := by
  obtain ⟨magnitude, hle, hfloat⟩ := d.exists_toFloat_eq
  rw [hfloat] at h ⊢
  exact exists_decode_ofMagnitudeBits hle h

theorem ofDigits_eq (digits : List Char) : ofDigits digits = Nat.ofDigitChars 10 digits 0 :=
  Nat.ofDigitChars_eq_foldl.symm

theorem ofDigits_toDigits (n : ℕ) : ofDigits (Nat.toDigits 10 n) = n := by
  rw [ofDigits_eq, Nat.ofDigitChars_ten_toDigits]

theorem ofDigits_append (digits others : List Char) :
    ofDigits (digits ++ others) = ofDigits digits * 10 ^ others.length + ofDigits others := by
  rw [ofDigits_eq, Nat.ofDigitChars_append, Nat.ofDigitChars_eq_ofDigitChars_zero, ← ofDigits_eq,
    ← ofDigits_eq, Nat.mul_comm]

theorem ofDigits_replicate_zero (zeros : ℕ) : ofDigits (List.replicate zeros '0') = 0 := by
  rw [ofDigits_eq, Nat.ofDigitChars_replicate_zero, Nat.mul_zero]

/-- Zeros in front of digits say nothing. -/
theorem ofDigits_zeros_append (zeros : ℕ) (digits : List Char) :
    ofDigits (List.replicate zeros '0' ++ digits) = ofDigits digits := by
  rw [ofDigits_append, ofDigits_replicate_zero, Nat.zero_mul, Nat.zero_add]

/-- Zeros behind digits multiply by powers of ten. -/
theorem ofDigits_append_zeros (digits : List Char) (zeros : ℕ) :
    ofDigits (digits ++ List.replicate zeros '0') = ofDigits digits * 10 ^ zeros := by
  rw [ofDigits_append, ofDigits_replicate_zero, List.length_replicate, Nat.add_zero]

/-- What is cut off at the end of digits are zeros. -/
theorem exists_zeros (digits : List Char) :
    ∃ zeros, digits.rdropWhile (· == '0') ++ List.replicate zeros '0' = digits := by
  have hzeros : digits.rtakeWhile (· == '0') = List.replicate _ '0' :=
    List.eq_replicate_of_mem fun c hc ↦ by
      have htest := List.mem_rtakeWhile_imp hc
      exact eq_of_beq htest
  have hsplit := @List.rdropWhile_append_rtakeWhile _ (· == '0') digits
  rw [hzeros] at hsplit
  exact ⟨_, hsplit⟩

/-- Only zero is written with a zero in front. -/
theorem eq_zero_of_head?_toDigits {n : ℕ} (h : (Nat.toDigits 10 n).head? = some '0') : n = 0 := by
  induction n using Nat.strong_induction_on with
  | _ n ih =>
    by_cases hsmall : n < 10
    · rw [Nat.toDigits_of_lt_base hsmall, List.head?_cons, Option.some.injEq] at h
      interval_cases n <;> first | rfl | exact absurd h (by decide)
    · have hfront : (Nat.toDigits 10 (n / 10)).head? = some '0' := by
        rw [Nat.toDigits_of_base_le (by decide) (not_lt.1 hsmall), List.head?_append,
          Option.or_of_isSome] at h
        · exact h
        · rw [List.isSome_head?]
          exact Nat.toDigits_ne_nil
      have hzero := ih (n / 10) (by omega) hfront
      omega

/-- Digits behind a leading one. -/
theorem exists_toDigits_eq_cons (places : ℕ) {rest : ℕ} (hrest : rest < 10 ^ places) :
    ∃ digits, Nat.toDigits 10 (10 ^ places + rest) = '1' :: digits ∧ digits.length = places ∧
      ofDigits digits = rest := by
  induction places generalizing rest with
  | zero =>
    obtain rfl : rest = 0 := by simpa using hrest
    exact ⟨[], by decide, rfl, rfl⟩
  | succ places ih =>
    have hpower : 10 ^ (places + 1) = 10 * 10 ^ places := Nat.pow_succ'
    have hpos : 0 < 10 ^ places := Nat.pow_pos (by decide)
    obtain ⟨digits, hdigits, hlength, hvalue⟩ := @ih (rest / 10) (by omega)
    have hfront : (10 ^ (places + 1) + rest) / 10 = 10 ^ places + rest / 10 := by omega
    have hlast : (10 ^ (places + 1) + rest) % 10 = rest % 10 := by omega
    refine ⟨digits ++ [(rest % 10).digitChar], ?_, ?_, ?_⟩
    · rw [Nat.toDigits_of_base_le (by decide) (by omega), hfront, hlast, hdigits, List.cons_append]
    · rw [List.length_append, hlength, List.length_singleton]
    · have hdigit : ofDigits [(rest % 10).digitChar] = rest % 10 := by
        rw [← Nat.toDigits_of_lt_base (Nat.mod_lt _ (by decide) : rest % 10 < 10),
          ofDigits_toDigits]
      rw [ofDigits_append, hvalue, hdigit, List.length_singleton]
      omega

end Decimal

/-- The quantity of a numeral without an exponent does not change with zeros behind it. -/
theorem Numeral.quantity_of_zeros {numeral : Numeral} (hexponent : numeral.exponent = none)
    (zeros : ℕ) : numeral.value.quantity =
      Decimal.ofDigits (numeral.whole ++ numeral.fractionDigits ++ List.replicate zeros '0') /
        10 ^ (numeral.fractionDigits.length + zeros) := by
  rw [Decimal.ofDigits_append_zeros, Decimal.quantity, Numeral.value, hexponent]
  change _ * (10 : ℚ) ^ (0 - (numeral.fractionDigits.length : ℤ)) = _
  rw [zero_sub, zpow_neg, zpow_natCast, pow_add]
  push_cast
  field_simp

end LineScript
