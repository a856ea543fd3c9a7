import LineScript.Proofs.Number.Nearest
import LineScript.Proofs.Number.SixPlaces
import LineScript.Proofs.Text.Words

/-!
# Numbers that are printed and read back

A finite number is printed as the nearest multiple of a millionth, and the text is read as a number
that is as close to this multiple as any. The number that was printed is among those, so what is
read is no farther from the multiple. Hence it rounds to the same multiple, which is even where both
are half a millionth away from it, and is printed alike.
-/

namespace LineScript.SixPlaces

open Binary64

variable {mantissa mantissa' count : ℕ} {exponent exponent' : ℤ} {x : Float} {negative : Bool}
  {quantity other : ℚ}

/-- A number that is as close as any to the multiple that another number rounds to rounds to this
multiple too. -/
theorem roundsTo_of_closest (hcanonical : Canonical mantissa exponent)
    (hround : RoundsTo (mantissa * 2 ^ exponent * 10 ^ 6) count)
    (hclosest : Closest (count / 10 ^ 6) mantissa' exponent') :
    RoundsTo (mantissa' * 2 ^ exponent' * 10 ^ 6) count := by
  apply hround.of_nearer
  have hcloser := hclosest.abs_sub_le mantissa exponent hcanonical
  rw [abs_sub_comm, abs_sub_comm _ (mantissa * 2 ^ exponent : ℚ)] at hcloser
  have hdistance := fun quantity ↦ abs_sub_millionths quantity count
  simp only [Int.cast_natCast] at hdistance
  rwa [hdistance, hdistance, div_le_div_iff_of_pos_right (by norm_num)] at hcloser

/-- What is not past a whole number rounds to a multiple that is not past it either. -/
theorem div_le_of_roundsTo {bound : ℕ} (hround : RoundsTo (quantity * 10 ^ 6) count)
    (hle : quantity ≤ bound) : (count / 10 ^ 6 : ℚ) ≤ bound := by
  have hmillion : (0 : ℚ) < 10 ^ 6 := by norm_num
  have hmultiple : quantity * 10 ^ 6 ≤ (bound * 10 ^ 6 : ℕ) := by
    push_cast
    exact mul_le_mul_of_nonneg_right hle hmillion.le
  have hless : (count : ℚ) < (bound * 10 ^ 6 : ℕ) + 1 := by linarith [hround.lower]
  have hcount : count ≤ bound * 10 ^ 6 := Nat.lt_succ_iff.1 (by exact_mod_cast hless)
  rw [div_le_iff₀ hmillion]
  exact_mod_cast hcount

/-- A multiple of a millionth other than zero is far from the smallest numbers. -/
theorem two_zpow_le_div (hpos : 0 < count) : (2 : ℚ) ^ (-1075 : ℤ) ≤ count / 10 ^ 6 := by
  have hone : (1 : ℚ) ≤ count := by exact_mod_cast hpos
  calc
    (2 : ℚ) ^ (-1075 : ℤ) ≤ 2 ^ (-20 : ℤ) := zpow_le_zpow_right₀ one_le_two (by decide)
    _ ≤ 1 / 10 ^ 6 := by norm_num
    _ ≤ count / 10 ^ 6 := by gcongr

theorem toFloat_numeralOf_zero (negative : Bool) :
    decode ((numeralOf 0).value.toFloat negative) = .finite negative 0 leastExponent := by
  have hcoefficient : (numeralOf 0).value.coefficient = 0 := by decide +kernel
  have hcanonical : Canonical 0 leastExponent :=
    ⟨by decide, le_rfl, by decide, .inl rfl⟩
  rw [Decimal.toFloat, if_pos hcoefficient]
  exact decode_ofMagnitudeBits hcanonical negative

/-- The decimal of a multiple that a finite number rounds to is read as a finite number that rounds
to it too. -/
theorem exists_decode_toFloat (hcanonical : Canonical mantissa exponent)
    (hround : RoundsTo (mantissa * 2 ^ exponent * 10 ^ 6) count) (negative : Bool) :
    ∃ mantissa' exponent', decode ((numeralOf count).value.toFloat negative) =
        .finite negative mantissa' exponent' ∧
      RoundsTo (mantissa' * 2 ^ exponent' * 10 ^ 6) count := by
  rcases Nat.eq_zero_or_pos count with rfl | hpos
  · refine ⟨0, leastExponent, toFloat_numeralOf_zero negative, ?_⟩
    rw [Nat.cast_zero, zero_mul, zero_mul]
    exact ⟨by norm_num, by norm_num, fun _ ↦ Even.zero⟩
  · have hquantity := quantity_numeralOf count
    obtain ⟨mantissa', exponent', hclosest, hdecode⟩ :=
      @Decimal.exists_toFloat_closest (numeralOf count).value
        (hquantity ▸ two_zpow_le_div hpos)
        (hquantity ▸ div_le_of_roundsTo hround hcanonical.value_le) negative
    rw [hquantity] at hclosest
    exact ⟨mantissa', exponent', hdecode, roundsTo_of_closest hcanonical hround hclosest⟩

/-- The text of a finite number is read as one that rounds to the same multiple. -/
theorem exists_readNumber? (h : IsExactly x negative quantity) :
    ∃ y otherNegative other count, readNumber? (render x) = some y ∧
      IsExactly y otherNegative other ∧ NearestMillionth quantity count ∧
      NearestMillionth other count := by
  obtain ⟨mantissa, exponent, hdecode, rfl⟩ := h
  have hround := roundsTo_millionths mantissa exponent
  have hnearest := (nearestMillionth_of_roundsTo hround).signed negative
  have htext := toList_render hdecode
  have hsize := natAbs_signed negative (millionths mantissa exponent)
  generalize signed negative (millionths mantissa exponent : ℤ) = count at hnearest htext hsize
  rw [← hsize] at hround
  obtain ⟨mantissa', exponent', hread, hroundBack⟩ := exists_decode_toFloat
    (decode_eq_finite hdecode).1 hround (minus (decide (count < 0)) == ['-'])
  refine ⟨_, _, _, count, ?_, ⟨mantissa', exponent', hread, rfl⟩, hnearest, ?_⟩
  · rw [readNumber?, htext]
    exact Numeral.readFloat?_numeral (isSign_minus _) (canonical_numeralOf _).wellFormed
  · have hsign : (minus (decide (count < 0)) == ['-']) = decide (count < 0) := by
      cases decide (count < 0) <;> rfl
    have hback := (nearestMillionth_of_roundsTo hroundBack).signed (decide (count < 0))
    rwa [signed_natAbs, ← hsign] at hback

/-- Numbers that round to the same multiple are a millionth apart at most. -/
theorem abs_sub_le_of_nearest {count : ℤ} (h : NearestMillionth quantity count)
    (hother : NearestMillionth other count) : |other - quantity| ≤ 1 / 10 ^ 6 := by
  have hreach : ∀ {size : ℚ}, NearestMillionth size count →
      |size - count / 10 ^ 6| ≤ 1 / 2 / 10 ^ 6 := by
    intro size hsize
    rw [abs_sub_millionths]
    exact div_le_div_of_nonneg_right hsize.within_half (by norm_num)
  calc
    |other - quantity| ≤ |other - count / 10 ^ 6| + |quantity - count / 10 ^ 6| := by
      rw [abs_sub_comm quantity]
      exact abs_sub_le _ _ _
    _ ≤ 1 / 2 / 10 ^ 6 + 1 / 2 / 10 ^ 6 := add_le_add (hreach hother) (hreach h)
    _ = 1 / 10 ^ 6 := by norm_num

/-- A number that is not finite is printed by its name. -/
theorem render_cases (x : Float) : (∃ negative quantity, IsExactly x negative quantity) ∨
    decode x = .nan ∧ render x = "NaN" ∨
    ∃ negative, decode x = .infinite negative ∧ render x = if negative then "-inf" else "inf" := by
  cases hdecode : decode x with
  | nan => exact .inr (.inl ⟨rfl, by rw [render, hdecode]⟩)
  | infinite negative => exact .inr (.inr ⟨negative, rfl, by rw [render, hdecode]⟩)
  | finite negative mantissa exponent =>
    exact .inl ⟨negative, _, mantissa, exponent, hdecode, rfl⟩

/--
A number that is printed and the one that is read from its text: it is printed alike. If the number
is finite, both round to the same multiple of a millionth, and so they are a millionth apart at most;
if it is not, it is read as it was.
-/
structure ReadsBack (x y : Float) : Prop where
  read : readNumber? (render x) = some y
  alike : render y = render x
  finite : ∀ negative quantity, IsExactly x negative quantity →
    ∃ otherNegative other count, IsExactly y otherNegative other ∧
      NearestMillionth quantity count ∧ NearestMillionth other count ∧
      |other - quantity| ≤ 1 / 10 ^ 6
  special : (∀ negative quantity, ¬IsExactly x negative quantity) → decode y = decode x

/-- A number that is not finite is read by its name. -/
theorem readsBack_of_decode_eq {y : Float} (hread : readNumber? (render x) = some y)
    (hdecode : decode y = decode x)
    (hspecial : ∀ negative mantissa exponent, decode x ≠ .finite negative mantissa exponent) :
    ReadsBack x y where
  read := hread
  alike := by rw [render, render, hdecode]
  finite := by
    rintro negative quantity ⟨mantissa, exponent, hfinite, -⟩
    exact absurd hfinite (hspecial negative mantissa exponent)
  special _ := hdecode

/-- The text of every number is read as a number, which is printed alike. -/
theorem exists_readsBack (x : Float) : ∃ y, ReadsBack x y := by
  rcases render_cases x with ⟨negative, quantity, hexactly⟩ | ⟨hdecode, htext⟩ |
    ⟨negative, hdecode, htext⟩
  · obtain ⟨y, otherNegative, other, count, hread, hother, hnearest, hotherNearest⟩ :=
      exists_readNumber? hexactly
    refine ⟨y, hread, ?_, ?_, fun hspecial ↦ absurd hexactly (hspecial negative quantity)⟩
    · obtain ⟨printed, hprinted, htext⟩ := exists_count hexactly
      obtain ⟨reprinted, hreprinted, hretext⟩ := exists_count hother
      rw [hprinted.unique hnearest] at htext
      rw [hreprinted.unique hotherNearest, ← htext] at hretext
      exact String.toList_inj.1 hretext
    · intro negative' quantity' hexactly'
      obtain rfl := hexactly.unique hexactly'
      exact ⟨otherNegative, other, count, hother, hnearest, hotherNearest,
        abs_sub_le_of_nearest hnearest hotherNearest⟩
  · have hnan : decode notANumber = .nan := by decide +kernel
    refine ⟨notANumber, readsBack_of_decode_eq (htext ▸ rfl) (hnan.trans hdecode.symm) ?_⟩
    simp [hdecode]
  · have hinfinite : decode (infinity negative) = .infinite negative := by
      cases negative <;> decide +kernel
    refine ⟨infinity negative, readsBack_of_decode_eq ?_ (hinfinite.trans hdecode.symm) ?_⟩
    · rw [htext]
      cases negative <;> rfl
    · simp [hdecode]

/-- What was read from a text is read again from its own. -/
theorem ReadsBack.again {y : Float} (h : ReadsBack x y) : ReadsBack y y where
  read := by rw [h.alike, h.read]
  alike := rfl
  finite negative quantity hexactly := by
    obtain ⟨count, hnearest, -⟩ := exists_count hexactly
    refine ⟨negative, quantity, _, hexactly, hnearest, hnearest, ?_⟩
    rw [sub_self, abs_zero]
    norm_num
  special _ := rfl

/-- There are no blanks in the text of a number. -/
theorem isBlank_of_mem_render {c : Char} (hc : c ∈ (render x).toList) : isBlank c = false := by
  have hchecked : ∀ {text : List Char}, text.all (!isBlank ·) = true → c ∈ text →
      isBlank c = false := by
    intro text hall hmem
    simpa using List.all_eq_true.1 hall c hmem
  rcases render_cases x with ⟨negative, quantity, hexactly⟩ | ⟨-, htext⟩ | ⟨negative, -, htext⟩
  · obtain ⟨count, -, htext⟩ := exists_count hexactly
    rw [htext, textOf, List.mem_append] at hc
    rcases hc with hsign | hnumeral
    · refine hchecked ?_ hsign
      unfold minus
      split <;> decide
    · rcases (canonical_numeralOf _).wellFormed.mem_text hnumeral with hdigit | hmark
      · exact isBlank_of_isDigit hdigit
      · exact hchecked (by decide) hmark
  · rw [htext] at hc
    exact hchecked (by decide) hc
  · rw [htext] at hc
    refine hchecked ?_ hc
    cases negative <;> decide

end LineScript.SixPlaces
