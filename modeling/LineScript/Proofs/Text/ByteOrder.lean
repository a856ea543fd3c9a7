import LineScript.Proofs.Text.Lines
import Mathlib.Data.List.Lex

/-!
# The order of bytes

Texts are ordered by the code points of their characters. The encoding keeps the order: the first
byte tells how many there are, and more bytes are used for greater code points only. So texts may be
compared byte by byte, without decoding them.
-/

namespace LineScript

theorem ofNat_lt_ofNat_iff {a b : Nat} (ha : a < 256) (hb : b < 256) :
    UInt8.ofNat a < UInt8.ofNat b ↔ a < b := by
  rw [UInt8.lt_iff_toNat_lt, UInt8.toNat_ofNat_of_lt' ha, UInt8.toNat_ofNat_of_lt' hb]

theorem ofNat_eq_ofNat_iff {a b : Nat} (ha : a < 256) (hb : b < 256) :
    UInt8.ofNat a = UInt8.ofNat b ↔ a = b := by
  rw [← UInt8.toNat_inj, UInt8.toNat_ofNat_of_lt' ha, UInt8.toNat_ofNat_of_lt' hb]

theorem codePoint_lt (c : Char) : c.val.toNat < 0x110000 := by
  rcases c.valid with hlow | ⟨-, hhigh⟩
  · have hsmall : c.val.toNat < 0xd800 := hlow
    omega
  · exact hhigh

/-- Two characters are told apart by their bytes, whatever follows them. -/
theorem utf8EncodeChar_append_lt {c d : Char} (h : c < d) (rest rest' : List UInt8) :
    String.utf8EncodeChar c ++ rest < String.utf8EncodeChar d ++ rest' := by
  have hlt : c.val.toNat < d.val.toNat := UInt32.lt_iff_toNat_lt.1 h
  have hbound := codePoint_lt d
  unfold String.utf8EncodeChar
  generalize c.val.toNat = v at hlt
  generalize d.val.toNat = w at hlt hbound
  -- The bytes are digits to base 64, each taken off the quotient before.
  have hquotient (n : Nat) : n / 4096 = n / 64 / 64 ∧ n / 262144 = n / 64 / 64 / 64 := by
    constructor <;> simp only [Nat.div_div_eq_div_mul]
  simp only [(hquotient v).1, (hquotient v).2, (hquotient w).1, (hquotient w).2]
  split <;> [skip; split <;> [skip; split]] <;> (split <;> [skip; split <;> [skip; split]]) <;>
    simp (disch := omega) only [List.cons_append, List.nil_append, List.cons_lt_cons_iff,
      ofNat_lt_ofNat_iff, ofNat_eq_ofNat_iff] <;>
    omega

theorem flatMap_utf8EncodeChar_lt {text other : List Char} (h : text < other) :
    text.flatMap String.utf8EncodeChar < other.flatMap String.utf8EncodeChar := by
  induction h with
  | nil =>
    rename_i c rest
    rw [List.flatMap_nil, List.flatMap_cons]
    obtain ⟨byte, bytes, hbytes⟩ := List.exists_cons_of_ne_nil (@String.utf8EncodeChar_ne_nil c)
    rw [hbytes]
    exact .nil
  | cons _ ih => exact List.append_left_lt ih
  | rel hlt => exact utf8EncodeChar_append_lt hlt _ _

/-- Texts are ordered as their bytes are. -/
theorem toUTF8_lt_iff {text other : String} :
    text.toUTF8.toList < other.toUTF8.toList ↔ text < other := by
  rw [toList_toUTF8, toList_toUTF8]
  refine ⟨fun h ↦ ?_, flatMap_utf8EncodeChar_lt⟩
  by_contra hge
  by_cases heq : other = text
  · rw [heq] at h
    exact List.lt_irrefl _ h
  · have hgt : other < text := Std.lt_of_le_of_ne (String.not_lt.1 hge) heq
    exact List.lt_asymm h (flatMap_utf8EncodeChar_lt hgt)

end LineScript
