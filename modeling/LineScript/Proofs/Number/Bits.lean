import LineScript.Number.Binary64
import Mathlib

/-!
# Bits of numbers

A number keeps the bits it is made of, unless they say that it is none. So a finite number is its
sign, mantissa and exponent: the three are read off its bits, and the bits are made of them again.
The mantissa has 53 binary digits, of which the leading one is zero only where the exponent is the
least that there is. A number is negated by its sign alone.
-/

namespace LineScript.Binary64

open Float.Model (Format)
open Float.Model.UnpackedFloat (unpack unpackExponent unpackMantissa unpackSign
  pack_unpack_of_valid)

variable {mantissa : Nat}

/-- The exponent field of bits. -/
theorem toNat_unpackExponent (bits : UInt64) :
    (@unpackExponent .binary64 bits.toBitVec).toNat = bits.toNat / 2 ^ 52 % 2 ^ 11 := by
  simp [unpackExponent, BitVec.extractLsb, BitVec.extractLsb'_toNat, Nat.shiftRight_eq_div_pow]

/-- The fraction field of bits. -/
theorem toNat_unpackMantissa (bits : UInt64) :
    (@unpackMantissa .binary64 bits.toBitVec).toNat = bits.toNat % 2 ^ 52 := by
  simp [unpackMantissa, BitVec.extractLsb, BitVec.extractLsb'_toNat]

/-- The sign of bits. -/
theorem toNat_unpackSign (bits : UInt64) :
    (@unpackSign .binary64 bits.toBitVec).toNat = bits.toNat / 2 ^ 63 % 2 := by
  simp [unpackSign, BitVec.extractLsb, BitVec.extractLsb'_toNat, Nat.shiftRight_eq_div_pow]

theorem toBits_ofBits {bits : UInt64} (hvalid : Format.binary64.Valid bits.toBitVec) :
    (Float.ofBits bits).toBits = bits :=
  UInt64.toBitVec_inj.1 (pack_unpack_of_valid hvalid)

/-- The mantissas and exponents of finite numbers. -/
structure Canonical (mantissa : Nat) (exponent : Int) : Prop where
  mantissa_lt : mantissa < 2 ^ 53
  least_le : leastExponent ≤ exponent
  le_greatest : exponent ≤ 971
  leading : exponent = leastExponent ∨ 2 ^ 52 ≤ mantissa

def magnitudeBits (mantissa : Nat) (exponent : Int) : Nat :=
  (exponent - leastExponent).toNat * 2 ^ 52 + mantissa

theorem infinityBits_eq : infinityBits = 2047 * 2 ^ 52 :=
  rfl

theorem Canonical.magnitudeBits_lt {exponent : Int} (h : Canonical mantissa exponent) :
    magnitudeBits mantissa exponent < infinityBits := by
  obtain ⟨hlt, hleast, hgreatest, -⟩ := h
  rw [magnitudeBits, infinityBits_eq]
  unfold leastExponent at hleast ⊢
  omega

/-- Bits whose exponent is not the greatest are those of their number. -/
theorem toNat_toBits_ofNat {value : Nat} (hsize : value < 2 ^ 64)
    (hfield : value / 2 ^ 52 % 2 ^ 11 ≠ 2047) : (Float.ofBits (.ofNat value)).toBits.toNat = value := by
  have hnat : (UInt64.ofNat value).toNat = value := by
    rw [UInt64.toNat_ofNat', Nat.mod_eq_of_lt hsize]
  have hvalid : Format.binary64.Valid (UInt64.ofNat value).toBitVec := by
    refine ⟨fun hmax _ ↦ absurd ?_ hfield⟩
    rw [← hnat, ← toNat_unpackExponent]
    exact congrArg BitVec.toNat hmax
  rw [toBits_ofBits hvalid, hnat]

/-- The bits of a number that is made of a sign and bits are these. -/
theorem toNat_toBits_ofMagnitudeBits {negative : Bool} {magnitude : Nat}
    (hlt : magnitude < infinityBits) :
    (ofMagnitudeBits negative magnitude).toBits.toNat =
      (if negative then 2 ^ 63 else 0) + magnitude := by
  rw [infinityBits_eq] at hlt
  apply toNat_toBits_ofNat
  · cases negative <;> simp <;> omega
  · cases negative <;> simp <;> omega

variable {x : Float} {negative : Bool} {exponent : Int}

theorem decode_eq {field fraction : Nat} (hfield : x.toBits.toNat / 2 ^ 52 % 2 ^ 11 = field)
    (hfraction : x.toBits.toNat % 2 ^ 52 = fraction) : decode x =
      if field = 2047 then
        if fraction = 0 then .infinite (x.toBits.toNat / 2 ^ 63 == 1) else .nan
      else if field = 0 then .finite (x.toBits.toNat / 2 ^ 63 == 1) fraction leastExponent
      else .finite (x.toBits.toNat / 2 ^ 63 == 1) (2 ^ 52 + fraction)
        (leastExponent + (field - 1)) := by
  subst hfield hfraction
  rfl

/-- What a finite number is made of makes up its bits. -/
theorem decode_eq_finite (h : decode x = .finite negative mantissa exponent) :
    Canonical mantissa exponent ∧
      x.toBits.toNat = (if negative then 2 ^ 63 else 0) + magnitudeBits mantissa exponent := by
  have hsize := x.toBits.toNat_lt
  obtain ⟨field, hfield⟩ : ∃ field, x.toBits.toNat / 2 ^ 52 % 2 ^ 11 = field := ⟨_, rfl⟩
  obtain ⟨fraction, hfraction⟩ : ∃ fraction, x.toBits.toNat % 2 ^ 52 = fraction := ⟨_, rfl⟩
  have hsign : (if (x.toBits.toNat / 2 ^ 63 == 1) = true then 2 ^ 63 else 0) =
      x.toBits.toNat / 2 ^ 63 * 2 ^ 63 := by
    split
    · rename_i hone
      rw [eq_of_beq hone, Nat.one_mul]
    · rename_i hother
      rw [beq_iff_eq] at hother
      omega
  rw [decode_eq hfield hfraction] at h
  split at h
  · split at h <;> cases h
  · split at h
    · cases h
      constructor
      · exact ⟨by omega, Int.le_refl _, by decide, .inl rfl⟩
      · rw [hsign, magnitudeBits, Int.sub_self]
        omega
    · cases h
      have hexponent : (leastExponent + ((field : Int) - 1) - leastExponent).toNat = field - 1 := by
        omega
      constructor
      · refine ⟨by omega, by omega, ?_, .inr (by omega)⟩
        unfold leastExponent
        omega
      · rw [hsign, magnitudeBits, hexponent]
        omega

/-- A finite number is made of its sign, mantissa and exponent. -/
theorem eq_of_decode (h : decode x = .finite negative mantissa exponent) :
    x = ofMagnitudeBits negative (magnitudeBits mantissa exponent) := by
  obtain ⟨hcanonical, hbits⟩ := decode_eq_finite h
  apply Float.toBits_inj.1
  apply UInt64.toNat_inj.1
  rw [hbits, toNat_toBits_ofMagnitudeBits hcanonical.magnitudeBits_lt]

/-- Bits that are made of a sign, a mantissa and an exponent are read as these. -/
theorem decode_of_toBits (h : Canonical mantissa exponent)
    (hbits : x.toBits.toNat = (if negative then 2 ^ 63 else 0) + magnitudeBits mantissa exponent) :
    decode x = .finite negative mantissa exponent := by
  have hlt := h.magnitudeBits_lt
  obtain ⟨hmantissa, hleast, -, hleading⟩ := h
  obtain ⟨steps, rfl⟩ : ∃ steps : Nat, exponent = leastExponent + steps :=
    ⟨(exponent - leastExponent).toNat, by omega⟩
  have hsteps : (leastExponent + steps - leastExponent).toNat = steps := by omega
  rw [magnitudeBits, hsteps] at hbits hlt
  rw [infinityBits_eq] at hlt
  have hsign : (x.toBits.toNat / 2 ^ 63 == 1) = negative := by
    rw [hbits]
    cases negative with
    | false =>
      simp only [Bool.false_eq_true, if_false, beq_eq_false_iff_ne]
      omega
    | true =>
      simp only [if_true, beq_iff_eq]
      omega
  have hfields : x.toBits.toNat % 2 ^ 63 = steps * 2 ^ 52 + mantissa := by
    rw [hbits]
    cases negative <;> simp <;> omega
  by_cases hsmall : mantissa < 2 ^ 52
  · have hzero : steps = 0 := by omega
    have hfield : x.toBits.toNat / 2 ^ 52 % 2 ^ 11 = 0 := by omega
    have hfraction : x.toBits.toNat % 2 ^ 52 = mantissa := by omega
    rw [decode_eq hfield hfraction, hsign, hzero]
    rfl
  · have hfield : x.toBits.toNat / 2 ^ 52 % 2 ^ 11 = steps + 1 := by omega
    have hfraction : x.toBits.toNat % 2 ^ 52 = mantissa - 2 ^ 52 := by omega
    have hjoined : 2 ^ 52 + (mantissa - 2 ^ 52) = mantissa := by omega
    have hexponent : leastExponent + ((steps + 1 : Nat) - 1 : Int) = leastExponent + steps := by omega
    rw [decode_eq hfield hfraction, if_neg (by omega), if_neg (by omega), hsign, hjoined, hexponent]

/-- A number that is made of a sign, a mantissa and an exponent is read as these. -/
theorem decode_ofMagnitudeBits (h : Canonical mantissa exponent) (negative : Bool) :
    decode (ofMagnitudeBits negative (magnitudeBits mantissa exponent)) =
      .finite negative mantissa exponent :=
  decode_of_toBits h (toNat_toBits_ofMagnitudeBits h.magnitudeBits_lt)

/-- A number that is finite is made of a sign, a mantissa and an exponent. -/
theorem exists_decode_of_isFinite (h : x.isFinite = true) :
    ∃ negative mantissa exponent, decode x = .finite negative mantissa exponent := by
  have hfield : x.toBits.toNat / 2 ^ 52 % 2 ^ 11 ≠ 2047 := by
    intro hmax
    rw [← toNat_unpackExponent] at hmax
    have hexponent : @unpackExponent .binary64 x.toBits.toBitVec = -1#11 :=
      BitVec.eq_of_toNat_eq hmax
    change (unpack .binary64 x.toBits.toBitVec).isFinite = true at h
    rw [unpack] at h
    dsimp only at h
    split at h
    · split at h <;> cases h
    · rename_i hother
      exact hother hexponent
  rw [decode_eq rfl rfl, if_neg hfield]
  split
  · exact ⟨_, _, _, rfl⟩
  · exact ⟨_, _, _, rfl⟩

/-- A finite number that is made of bits without a sign is not negative. -/
theorem exists_decode_ofMagnitudeBits {magnitude : Nat} (hle : magnitude ≤ infinityBits)
    (h : (ofMagnitudeBits false magnitude).isFinite = true) :
    ∃ mantissa exponent, decode (ofMagnitudeBits false magnitude) =
      .finite false mantissa exponent := by
  obtain ⟨negative, mantissa, exponent, hdecode⟩ := exists_decode_of_isFinite h
  rcases Nat.lt_or_eq_of_le hle with hlt | rfl
  · obtain ⟨-, hbits⟩ := decode_eq_finite hdecode
    rw [toNat_toBits_ofMagnitudeBits hlt] at hbits
    rw [infinityBits_eq] at hlt
    cases negative with
    | false => exact ⟨mantissa, exponent, hdecode⟩
    | true =>
      simp only [Bool.false_eq_true, if_false, if_true] at hbits
      omega
  · have hinfinite : decode (ofMagnitudeBits false infinityBits) = .infinite false := by
      decide +kernel
    rw [hinfinite] at hdecode
    cases hdecode

/-- Bits up to infinity are those of a number, whatever the sign. -/
theorem valid_of_le {bits : UInt64} (h : bits.toNat % 2 ^ 63 ≤ infinityBits) :
    Format.binary64.Valid bits.toBitVec := by
  rw [infinityBits_eq] at h
  refine ⟨fun hexponent hmantissa ↦ absurd ?_ hmantissa⟩
  have hfield := congrArg BitVec.toNat hexponent
  rw [toNat_unpackExponent] at hfield
  change _ = 2047 at hfield
  apply BitVec.eq_of_toNat_eq
  rw [toNat_unpackMantissa]
  change _ = 0
  omega

/-- The sign bit turns a number into its negation. -/
theorem unpack_add_sign {bits signed : UInt64} (hlt : bits.toNat < 2 ^ 63)
    (hsigned : signed.toNat = 2 ^ 63 + bits.toNat) :
    unpack .binary64 signed.toBitVec = (unpack .binary64 bits.toBitVec).neg := by
  have hexponent : @unpackExponent .binary64 signed.toBitVec =
      @unpackExponent .binary64 bits.toBitVec := by
    apply BitVec.eq_of_toNat_eq
    rw [toNat_unpackExponent, toNat_unpackExponent]
    omega
  have hmantissa : @unpackMantissa .binary64 signed.toBitVec =
      @unpackMantissa .binary64 bits.toBitVec := by
    apply BitVec.eq_of_toNat_eq
    rw [toNat_unpackMantissa, toNat_unpackMantissa]
    omega
  have hpositive : @unpackSign .binary64 bits.toBitVec = 0#1 := by
    apply BitVec.eq_of_toNat_eq
    rw [toNat_unpackSign]
    change _ = 0
    omega
  have hnegative : @unpackSign .binary64 signed.toBitVec = 1#1 := by
    apply BitVec.eq_of_toNat_eq
    rw [toNat_unpackSign]
    change _ = 1
    omega
  unfold unpack
  dsimp only
  rw [hexponent, hpositive, hnegative]
  simp only [hmantissa]
  split
  · split <;> rfl
  · split
    · split <;> rfl
    · rfl

/-- What is made of a sign and bits is negated by the other sign. -/
theorem neg_ofMagnitudeBits {magnitude : Nat} (hle : magnitude ≤ infinityBits) :
    -ofMagnitudeBits false magnitude = ofMagnitudeBits true magnitude := by
  have hinfinity := infinityBits_eq
  have hbits : (UInt64.ofNat magnitude).toNat = magnitude := by
    rw [UInt64.toNat_ofNat', Nat.mod_eq_of_lt (by omega)]
  have hsigned : (UInt64.ofNat (2 ^ 63 + magnitude)).toNat = 2 ^ 63 + magnitude := by
    rw [UInt64.toNat_ofNat', Nat.mod_eq_of_lt (by omega)]
  have hunpack : unpack .binary64 (UInt64.ofNat (2 ^ 63 + magnitude)).toBitVec =
      (unpack .binary64 (UInt64.ofNat magnitude).toBitVec).neg :=
    unpack_add_sign (by omega) (by rw [hsigned, hbits])
  apply Float.toBits_inj.1
  have hvalid : Format.binary64.Valid (UInt64.ofNat magnitude).toBitVec := valid_of_le (by omega)
  have hvalidSigned : Format.binary64.Valid (UInt64.ofNat (2 ^ 63 + magnitude)).toBitVec :=
    valid_of_le (by omega)
  have hplain : (ofMagnitudeBits false magnitude).toBits = UInt64.ofNat magnitude := by
    rw [ofMagnitudeBits, if_neg (by simp), Nat.zero_add, toBits_ofBits hvalid]
  have hother : (ofMagnitudeBits true magnitude).toBits = UInt64.ofNat (2 ^ 63 + magnitude) := by
    rw [ofMagnitudeBits, if_pos rfl, Nat.pow_eq, toBits_ofBits hvalidSigned]
  rw [hother]
  apply UInt64.toBitVec_inj.1
  change Float.Model.UnpackedFloat.pack .binary64
    (unpack .binary64 (ofMagnitudeBits false magnitude).toBits.toBitVec).neg = _
  rw [hplain, ← hunpack, pack_unpack_of_valid hvalidSigned]

end LineScript.Binary64
