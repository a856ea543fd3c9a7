import LineScript.Number.Shortest
import LineScript.Proofs.Number.Decimals
import LineScript.Proofs.Number.Numerals

/-!
# The text of a number reads back

The decimal that is written for a number is in the rounding interval of the number, whichever of the
candidates it is: each is tested, and the one that is taken where no test succeeds is the number
itself. How it is written does not change its quantity. So the text of a number is read as the
number.
-/

namespace LineScript

open Binary64

namespace Shortest

variable {mantissa : ℕ} {exponent : ℤ} {d : Decimal}

section

variable (a b : ℕ) (i j : ℤ)

/-- Both sides of a comparison are brought to one scale. -/
theorem scaled_eq : ∃ scale : ℚ, 0 < scale ∧
    (a * 10 ^ i : ℚ) * scale = (a * Nat.pow 10 i.toNat * Nat.pow 2 (-j).toNat : ℕ) ∧
    (b * 2 ^ j : ℚ) * scale = (b * Nat.pow 2 j.toNat * Nat.pow 10 (-i).toNat : ℕ) := by
  refine ⟨10 ^ (-i).toNat * 2 ^ (-j).toNat, by positivity, ?_, ?_⟩
  · rw [zpow_eq_div 10]
    simp only [Nat.pow_eq]
    push_cast
    field_simp
  · rw [zpow_eq_div 2]
    simp only [Nat.pow_eq]
    push_cast
    field_simp

theorem isLE_compareScaled :
    (compareScaled a i b j).isLE = true ↔ (a * 10 ^ i : ℚ) ≤ b * 2 ^ j := by
  obtain ⟨scale, hscale, ha, hb⟩ := scaled_eq a b i j
  rw [compareScaled, Nat.isLE_compare, ← mul_le_mul_iff_left₀ hscale, ha, hb]
  exact Nat.cast_le.symm

theorem isGE_compareScaled :
    (compareScaled a i b j).isGE = true ↔ (b * 2 ^ j : ℚ) ≤ a * 10 ^ i := by
  obtain ⟨scale, hscale, ha, hb⟩ := scaled_eq a b i j
  rw [compareScaled, Nat.isGE_compare, ← mul_le_mul_iff_left₀ hscale, ha, hb]
  exact Nat.cast_le.symm

theorem isGT_compareScaled :
    (compareScaled a i b j).isGT = true ↔ (b * 2 ^ j : ℚ) < a * 10 ^ i := by
  rw [← not_le, ← isLE_compareScaled]
  cases compareScaled a i b j <;> decide

theorem isLT_compareScaled :
    (compareScaled a i b j).isLT = true ↔ (a * 10 ^ i : ℚ) < b * 2 ^ j := by
  rw [← not_le, ← isGE_compareScaled]
  cases compareScaled a i b j <;> decide

end

/-- A quarter of a unit in the last place, as it is counted in comparisons. -/
theorem quarters_mul_zpow (quarters : ℕ) (exponent : ℤ) :
    (quarters * 2 ^ (exponent - 2) : ℚ) = quarters / 4 * 2 ^ exponent := by
  rw [zpow_sub₀ two_ne_zero]
  norm_num
  ring

/-- Where the rounding interval begins, in quarters of a unit in the last place. -/
theorem low_eq (hpos : 0 < mantissa) (exponent : ℤ) :
    ((4 * mantissa - (if mantissa == Nat.pow 2 fractionBits && exponent != leastExponent then 1
      else 2) : ℕ) : ℚ) / 4 = mantissa - reachBelow mantissa exponent := by
  have htest : (mantissa == Nat.pow 2 fractionBits && exponent != leastExponent) = true ↔
      NarrowBelow mantissa exponent := by
    rw [Bool.and_eq_true, beq_iff_eq, bne_iff_ne]
    exact Iff.rfl
  rw [reachBelow]
  by_cases hnarrow : NarrowBelow mantissa exponent
  · rw [if_pos (htest.2 hnarrow), if_pos hnarrow, Nat.cast_sub (by omega)]
    push_cast
    ring
  · rw [if_neg (mt htest.1 hnarrow), if_neg hnarrow, Nat.cast_sub (by omega)]
    push_cast
    ring

/-- A decimal that passes the test is in the rounding interval. -/
theorem roundsBack_of_readsBack (hpos : 0 < mantissa) (h : readsBack mantissa exponent d = true) :
    RoundsBack mantissa exponent d.quantity := by
  have hhigh : ((4 * mantissa + 2 : ℕ) : ℚ) / 4 = mantissa + 1 / 2 := by
    push_cast
    ring
  unfold readsBack at h
  dsimp only at h
  split at h
  · rename_i heven
    rw [Bool.and_eq_true, isGE_compareScaled, isLE_compareScaled, quarters_mul_zpow,
      quarters_mul_zpow, low_eq hpos, hhigh] at h
    exact ⟨h.1, h.2, fun _ ↦ Nat.even_iff.2 (eq_of_beq heven)⟩
  · rw [Bool.and_eq_true, isGT_compareScaled, isLT_compareScaled, quarters_mul_zpow,
      quarters_mul_zpow, low_eq hpos, hhigh] at h
    refine ⟨h.1.le, h.2.le, ?_⟩
    rintro (hend | hend)
    · exact absurd hend h.1.ne'
    · exact absurd hend h.2.ne

/-- The number itself is in its rounding interval. -/
theorem roundsBack_self (mantissa : ℕ) (exponent : ℤ) :
    RoundsBack mantissa exponent (mantissa * 2 ^ exponent) := by
  have hunit := two_zpow_pos exponent
  have hreach : 0 < reachBelow mantissa exponent := by
    unfold reachBelow
    split <;> norm_num
  have hlower : (mantissa - reachBelow mantissa exponent) * 2 ^ exponent <
      mantissa * 2 ^ exponent := mul_lt_mul_of_pos_right (by linarith) hunit
  have hupper : (mantissa : ℚ) * 2 ^ exponent < (mantissa + 1 / 2) * 2 ^ exponent :=
    mul_lt_mul_of_pos_right (by linarith) hunit
  refine ⟨hlower.le, hupper.le, ?_⟩
  rintro (hend | hend)
  · exact absurd hend hlower.ne'
  · exact absurd hend hupper.ne

/-- With no more digits than given, only a decimal that passes the test is taken. -/
theorem readsBack_of_withDigits? {digits : ℕ}
    (h : withDigits? mantissa exponent digits = some d) : readsBack mantissa exponent d = true := by
  unfold withDigits? at h
  dsimp only at h
  split at h
  · rename_i hlower hupper
    cases h
    unfold nearer
    split
    · exact hlower
    · exact hupper
  · rename_i hlower _
    cases h
    exact hlower
  · rename_i hupper
    cases h
    exact hupper
  · cases h

/-- What is written when no decimal with few digits will do is the number itself. -/
theorem quantity_exact (mantissa : ℕ) (exponent : ℤ) :
    Decimal.quantity ⟨mantissa * Nat.pow 2 exponent.toNat * Nat.pow 5 (-exponent).toNat,
      min exponent 0⟩ = mantissa * 2 ^ exponent := by
  rw [Decimal.quantity]
  simp only [Nat.pow_eq]
  rcases le_total 0 exponent with hnonneg | hnonpos
  · obtain ⟨n, rfl⟩ := Int.eq_ofNat_of_zero_le hnonneg
    simp
  · obtain ⟨n, hn⟩ := Int.eq_ofNat_of_zero_le (neg_nonneg.2 hnonpos)
    obtain rfl : exponent = -n := by omega
    have hten : (10 : ℚ) ^ n = 5 ^ n * 2 ^ n := by
      rw [← mul_pow]
      norm_num
    rw [min_eq_left hnonpos, zpow_neg, zpow_neg, zpow_natCast, zpow_natCast, hten]
    simp
    field_simp

/-- The decimal that is written for a number is in its rounding interval. -/
theorem roundsBack_select (hpos : 0 < mantissa) :
    RoundsBack mantissa exponent (select mantissa exponent).quantity := by
  unfold select
  dsimp only
  cases hfound : ((List.range 17).map (· + 1)).findSome? (withDigits? mantissa exponent) with
  | some d =>
    obtain ⟨digits, -, hdigits⟩ := List.exists_of_findSome?_eq_some hfound
    exact roundsBack_of_readsBack hpos (readsBack_of_withDigits? hdigits)
  | none =>
    rw [Option.getD_none, quantity_exact]
    exact roundsBack_self mantissa exponent

/-! ## Positional notation -/

/-- The digits of a decimal, with the zeros that its power of ten adds on either side. -/
def padded (d : Decimal) : List Char :=
  List.replicate ((-d.exponent).toNat + 1 - (Nat.toDigits 10 d.coefficient).length) '0' ++
    Nat.toDigits 10 d.coefficient ++ List.replicate d.exponent.toNat '0'

theorem isDigit_of_mem_padded {c : Char} (hc : c ∈ padded d) : c.isDigit = true := by
  unfold padded at hc
  rw [List.mem_append, List.mem_append] at hc
  rcases hc with (hzero | hdigit) | hzero
  · rw [List.eq_of_mem_replicate hzero]
    rfl
  · exact Nat.isDigit_of_mem_toDigits (by decide) (by decide) hdigit
  · rw [List.eq_of_mem_replicate hzero]
    rfl

theorem ofDigits_padded (d : Decimal) :
    Decimal.ofDigits (padded d) = d.coefficient * 10 ^ d.exponent.toNat := by
  rw [padded, Decimal.ofDigits_append_zeros, Decimal.ofDigits_zeros_append,
    Decimal.ofDigits_toDigits]

theorem lt_length_padded (d : Decimal) : (-d.exponent).toNat < (padded d).length := by
  simp only [padded, List.length_append, List.length_replicate]
  omega

def fractionOf (d : Decimal) : List Char :=
  (((padded d).drop ((padded d).length - (-d.exponent).toNat)).reverse.dropWhile
    (· == '0')).reverse

def wholeOf (d : Decimal) : List Char :=
  (padded d).take ((padded d).length - (-d.exponent).toNat)

/-- The numeral that a decimal is written as, without a point where no digits are left behind it. -/
def numeralOf (d : Decimal) : Numeral :=
  ⟨wholeOf d, if (fractionOf d).isEmpty then none else some (fractionOf d), none⟩

theorem numeralOf_eq (d : Decimal) : numeralOf d = .plain (wholeOf d) (fractionOf d) :=
  rfl

theorem positional_eq (d : Decimal) : positional d = (numeralOf d).text := by
  rw [numeralOf_eq, Numeral.text_plain]
  rfl

theorem fractionDigits_numeralOf (d : Decimal) : (numeralOf d).fractionDigits = fractionOf d :=
  Numeral.fractionDigits_plain _ _

/-- The digits of a numeral and the zeros left out after it are all the digits. -/
theorem exists_zeros_padded (d : Decimal) : ∃ zeros,
    wholeOf d ++ fractionOf d ++ List.replicate zeros '0' = padded d ∧
      (fractionOf d).length + zeros = (-d.exponent).toNat := by
  obtain ⟨zeros, hzeros⟩ :=
    Decimal.exists_zeros ((padded d).drop ((padded d).length - (-d.exponent).toNat))
  change fractionOf d ++ _ = _ at hzeros
  refine ⟨zeros, ?_, ?_⟩
  · rw [List.append_assoc, hzeros, wholeOf, List.take_append_drop]
  · have hlength := congrArg List.length hzeros
    have hlt := lt_length_padded d
    rw [List.length_append, List.length_replicate, List.length_drop] at hlength
    omega

/-- A decimal and the numeral it is written as stand for the same quantity. -/
theorem quantity_numeralOf (d : Decimal) : (numeralOf d).value.quantity = d.quantity := by
  obtain ⟨zeros, hdigits, hlength⟩ := exists_zeros_padded d
  rw [Numeral.quantity_of_zeros rfl zeros, fractionDigits_numeralOf, hlength]
  change (Decimal.ofDigits (wholeOf d ++ fractionOf d ++ _) : ℚ) / _ = _
  rw [hdigits, ofDigits_padded, Decimal.quantity, zpow_eq_div 10 d.exponent]
  push_cast
  rw [mul_div_assoc]

theorem wellFormed_numeralOf (d : Decimal) : (numeralOf d).WellFormed := by
  obtain ⟨zeros, hpadded, -⟩ := exists_zeros_padded d
  have hdigit : ∀ c ∈ wholeOf d ++ fractionOf d, c.isDigit = true := fun c hc ↦
    isDigit_of_mem_padded (hpadded ▸ List.mem_append_left _ hc)
  obtain ⟨hwhole, hfraction⟩ := List.forall_mem_append.1 hdigit
  refine Numeral.wellFormed_plain ?_ hwhole hfraction
  have hlt := lt_length_padded d
  rw [← List.length_pos_iff, wholeOf, List.length_take]
  omega

/-- A text that starts with a decimal in positional notation starts with its numeral. -/
theorem split?_positional (d : Decimal) {rest : List Char} (hrest : Numeral.EndsNumeral rest) :
    Numeral.split? (positional d ++ rest) = some (numeralOf d, rest) := by
  rw [positional_eq]
  exact (wellFormed_numeralOf d).split?_append hrest

theorem toList_render {x : Float} (hdecode : decode x = .finite false mantissa exponent) :
    (render x).toList =
      if mantissa = 0 then ['0'] else positional (select mantissa exponent) := by
  unfold render
  rw [hdecode]
  simp

/-- The text of a number that is finite and has no sign is taken off the front of a text as a
numeral, and read as the number. -/
theorem exists_split?_render {x : Float} (hdecode : decode x = .finite false mantissa exponent)
    {rest : List Char} (hrest : Numeral.EndsNumeral rest) : ∃ numeral,
      Numeral.split? ((render x).toList ++ rest) = some (numeral, rest) ∧
        numeral.text = (render x).toList ∧ numeral.value.toFloat false = x := by
  have hx := eq_of_decode hdecode
  obtain ⟨hcanonical, -⟩ := decode_eq_finite hdecode
  rw [toList_render hdecode]
  by_cases hzero : mantissa = 0
  · have hleast : exponent = leastExponent := by
      refine hcanonical.leading.resolve_right fun hle ↦ ?_
      rw [hzero] at hle
      exact absurd hle (by decide)
    have hzeroDigit : ∀ c ∈ ['0'], c.isDigit = true := by
      intro c hc
      rw [List.mem_singleton.1 hc]
      rfl
    have hdigit : (Numeral.mk ['0'] none none).WellFormed :=
      ⟨List.cons_ne_nil _ _, hzeroDigit, fun _ hpart ↦ by cases hpart⟩
    rw [if_pos hzero]
    refine ⟨⟨['0'], none, none⟩, hdigit.split?_append hrest, rfl, ?_⟩
    rw [hx, hzero, hleast]
    rfl
  · have hpos := Nat.pos_of_ne_zero hzero
    rw [if_neg hzero]
    refine ⟨numeralOf (select mantissa exponent), split?_positional _ hrest,
      (positional_eq _).symm, ?_⟩
    rw [hx]
    apply Decimal.toFloat_of_roundsBack hpos hcanonical
    rw [quantity_numeralOf]
    exact roundsBack_select hpos

end Shortest

end LineScript
