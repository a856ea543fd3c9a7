import LineScript.Proofs.Text.Lines
import Mathlib.Data.String.Basic

/-!
# Bytes of a text

A text may be read byte by byte, the position being a number of bytes. A byte is looked at as the
character that has its code, so that a test for characters can be put to it. A test that does not
tell characters beyond the first 128 codes apart gives for each byte of a character what it gives
for the character, since all bytes of such a character have codes beyond these. So whoever passes
over bytes by such tests passes over whole characters, and where he stops the text may be cut.
-/

namespace LineScript

variable {c d byte : Char} {p q : Char → Bool} {before middle after rest chars : List Char}
  {text : String}

def byteAt? (text : String) (pos : Nat) : Option Char :=
  text.toUTF8.toList[pos]?.map Char.ofUInt8

/-- The first position from one on where the text has ended or a test fails. -/
def passOver (text : String) (test : Char → Bool) (pos : Nat) : Nat :=
  if _ : (byteAt? text pos).any test then passOver text test (pos + 1) else pos
termination_by text.toUTF8.toList.length - pos
decreasing_by
  rename_i hpass
  obtain ⟨_, hbyte, -⟩ := (Option.any_eq_true _ _).1 hpass
  obtain ⟨_, hget, -⟩ := Option.map_eq_some_iff.1 hbyte
  have hlt := (List.getElem?_eq_some_iff.1 hget).1
  omega

/-- The part of a text between two positions; there is none unless both are between characters. -/
def slice? (text : String) (start stop : Nat) : Option String :=
  if start ≤ stop ∧ String.Pos.Raw.IsValid text ⟨start⟩ ∧ String.Pos.Raw.IsValid text ⟨stop⟩ then
    some (String.Pos.Raw.extract text ⟨start⟩ ⟨stop⟩)
  else none

def byteChars (chars : List Char) : List Char :=
  chars.flatMap fun c ↦ (String.utf8EncodeChar c).map Char.ofUInt8

theorem byteChars_append (chars others : List Char) :
    byteChars (chars ++ others) = byteChars chars ++ byteChars others :=
  List.flatMap_append

theorem byteChars_cons (c : Char) (chars : List Char) :
    byteChars (c :: chars) = (String.utf8EncodeChar c).map Char.ofUInt8 ++ byteChars chars :=
  List.flatMap_cons

theorem length_byteChars (chars : List Char) : (byteChars chars).length = String.utf8Len chars := by
  induction chars with
  | nil => rfl
  | cons c others ih =>
    rw [byteChars_cons, List.length_append, List.length_map, String.length_utf8EncodeChar, ih,
      String.utf8Len_cons, Nat.add_comm]

theorem byteAt?_eq (text : String) (pos : Nat) :
    byteAt? text pos = (byteChars text.toList)[pos]? := by
  rw [byteAt?, byteChars, ← List.getElem?_map, toList_toUTF8, List.map_flatMap]

theorem toNat_ofUInt8 (byte : UInt8) : (Char.ofUInt8 byte).toNat = byte.toNat :=
  UInt8.toNat_toUInt32 byte

theorem byteChars_singleton (h : c.toNat < 128) : byteChars [c] = [c] := by
  have hcode : (Char.ofUInt8 (UInt8.ofNat c.val.toNat)).toNat = c.toNat := by
    rw [toNat_ofUInt8]
    exact UInt8.toNat_ofNat_of_lt' (Nat.lt_trans h (by decide))
  rw [byteChars_cons, utf8EncodeChar_of_lt h, List.map_singleton, Char.toNat_inj.1 hcode]
  rfl

theorem le_of_mem_byteChars (h : 128 ≤ c.toNat) : ∀ byte ∈ byteChars [c], 128 ≤ byte.toNat := by
  intro byte hmem
  rw [byteChars, List.flatMap_singleton] at hmem
  obtain ⟨code, hcode, rfl⟩ := List.mem_map.1 hmem
  rw [toNat_ofUInt8]
  exact le_of_mem_utf8EncodeChar h code hcode

/-- A test that does not tell characters with codes from 128 on apart. -/
def AsciiTest (test : Char → Bool) : Prop :=
  ∀ c d : Char, 128 ≤ c.toNat → 128 ≤ d.toNat → test c = test d

/-- A byte is as good as a character to such a test: it is the character, or both are beyond. -/
def Resembles (byte c : Char) : Prop :=
  byte = c ∨ 128 ≤ byte.toNat ∧ 128 ≤ c.toNat

theorem AsciiTest.eq_of_resembles (hp : AsciiTest p) (h : Resembles byte c) : p byte = p c := by
  rcases h with rfl | ⟨hbyte, hc⟩
  · rfl
  · exact hp byte c hbyte hc

theorem asciiTest_of_false (h : ∀ c : Char, 128 ≤ c.toNat → p c = false) : AsciiTest p :=
  fun c d hc hd ↦ (h c hc).trans (h d hd).symm

theorem asciiTest_beq (h : d.toNat < 128) : AsciiTest (· == d) := by
  refine asciiTest_of_false fun c hc ↦ ?_
  rw [beq_eq_false_iff_ne]
  rintro rfl
  omega

theorem AsciiTest.not (hp : AsciiTest p) : AsciiTest fun c ↦ !p c :=
  fun c d hc hd ↦ congrArg _ (hp c d hc hd)

theorem AsciiTest.or (hp : AsciiTest p) (hq : AsciiTest q) : AsciiTest fun c ↦ p c || q c :=
  fun c d hc hd ↦ congrArg₂ _ (hp c d hc hd) (hq c d hc hd)

theorem asciiTest_isDigit : AsciiTest Char.isDigit := by
  refine asciiTest_of_false fun c hc ↦ ?_
  have hval : 128 ≤ c.val := UInt32.le_iff_toNat_le.2 hc
  unfold Char.isDigit
  grind

theorem asciiTest_isAlpha : AsciiTest Char.isAlpha := by
  refine asciiTest_of_false fun c hc ↦ ?_
  have hval : 128 ≤ c.val := UInt32.le_iff_toNat_le.2 hc
  unfold Char.isAlpha Char.isUpper Char.isLower
  grind

theorem exists_byteChars (c : Char) :
    ∃ byte bytes, byteChars [c] = byte :: bytes ∧ Resembles byte c := by
  by_cases hlow : c.toNat < 128
  · exact ⟨c, [], byteChars_singleton hlow, .inl rfl⟩
  · have hhigh := Nat.not_lt.1 hlow
    have hmem := le_of_mem_byteChars hhigh
    have hne : byteChars [c] ≠ [] := by
      rw [← List.length_pos_iff, length_byteChars, String.utf8Len_cons]
      exact Nat.add_pos_right _ c.utf8Size_pos
    obtain ⟨byte, bytes, hbytes⟩ := List.exists_cons_of_ne_nil hne
    rw [hbytes] at hmem
    exact ⟨byte, bytes, hbytes, .inr ⟨hmem byte List.mem_cons_self, hhigh⟩⟩

theorem eq_of_mem_byteChars (hp : AsciiTest p) (h : byte ∈ byteChars [c]) : p byte = p c := by
  by_cases hlow : c.toNat < 128
  · rw [byteChars_singleton hlow, List.mem_singleton] at h
    rw [h]
  · have hhigh := Nat.not_lt.1 hlow
    exact hp byte c (le_of_mem_byteChars hhigh byte h) hhigh

/-- Bytes that pass a test are the bytes of the characters that pass it. -/
theorem takeWhile_byteChars (hp : AsciiTest p) (chars : List Char) :
    (byteChars chars).takeWhile p = byteChars (chars.takeWhile p) := by
  induction chars with
  | nil => rfl
  | cons c others ih =>
    rw [← List.singleton_append, byteChars_append]
    by_cases hc : p c = true
    · rw [List.takeWhile_append_of_pos fun byte hmem ↦ (eq_of_mem_byteChars hp hmem).trans hc, ih,
        List.singleton_append, List.takeWhile_cons_of_pos hc, ← byteChars_append,
        List.singleton_append]
    · obtain ⟨byte, bytes, hbytes, hbyte⟩ := exists_byteChars c
      rw [hbytes, List.cons_append, List.singleton_append, List.takeWhile_cons_of_neg hc,
        List.takeWhile_cons_of_neg (by rwa [hp.eq_of_resembles hbyte])]
      rfl

theorem passOver_eq_takeWhile (text : String) (test : Char → Bool) (pos : Nat) :
    passOver text test pos =
      pos + (((byteChars text.toList).drop pos).takeWhile test).length := by
  fun_induction passOver text test pos with
  | case1 pos hpass ih =>
    obtain ⟨byte, hbyte, htest⟩ := (Option.any_eq_true _ _).1 hpass
    rw [byteAt?_eq] at hbyte
    obtain ⟨hlt, hget⟩ := List.getElem?_eq_some_iff.1 hbyte
    rw [ih, List.drop_eq_getElem_cons hlt, hget, List.takeWhile_cons_of_pos htest,
      List.length_cons]
    omega
  | case2 pos hstop =>
    rw [byteAt?_eq, ← List.head?_drop] at hstop
    cases hrest : (byteChars text.toList).drop pos with
    | nil => rfl
    | cons byte bytes =>
      rw [hrest, List.head?_cons, Option.any_some] at hstop
      rw [List.takeWhile_cons_of_neg hstop]
      rfl

theorem drop_byteChars (before rest : List Char) :
    (byteChars (before ++ rest)).drop (String.utf8Len before) = byteChars rest := by
  rw [byteChars_append, ← length_byteChars, List.drop_left]

theorem passOver_eq (hp : AsciiTest p) (h : text.toList = before ++ rest) :
    passOver text p (String.utf8Len before) = String.utf8Len (before ++ rest.takeWhile p) := by
  rw [passOver_eq_takeWhile, h, drop_byteChars, takeWhile_byteChars hp, length_byteChars,
    String.utf8Len_append]

/-- Behind whole characters stands a byte of the next one. -/
theorem exists_byteAt? (h : text.toList = before ++ c :: rest) :
    ∃ byte, byteAt? text (String.utf8Len before) = some byte ∧ Resembles byte c := by
  obtain ⟨byte, bytes, hbytes, hbyte⟩ := exists_byteChars c
  refine ⟨byte, ?_, hbyte⟩
  rw [byteAt?_eq, h, ← List.head?_drop, drop_byteChars, ← List.singleton_append, byteChars_append,
    hbytes]
  rfl

theorem byteAt?_end (text : String) : byteAt? text (String.utf8Len text.toList) = none := by
  rw [byteAt?_eq, ← length_byteChars, List.getElem?_eq_none (Nat.le_refl _)]

theorem any_byteAt? (hp : AsciiTest p) (h : text.toList = before ++ rest) :
    (byteAt? text (String.utf8Len before)).any p = rest.head?.any p := by
  cases rest with
  | nil =>
    rw [List.append_nil] at h
    rw [← h, byteAt?_end]
    rfl
  | cons c others =>
    obtain ⟨byte, hbyte, hresembles⟩ := exists_byteAt? h
    rw [hbyte, Option.any_some, hp.eq_of_resembles hresembles]
    rfl

theorem isValid_of_append (h : text.toList = before ++ rest) :
    String.Pos.Raw.IsValid text ⟨String.utf8Len before⟩ := by
  refine String.Pos.Raw.isValid_iff_exists_append.2 ⟨.ofList before, .ofList rest, ?_, ?_⟩
  · rw [← String.ofList_append, ← h, String.ofList_toList]
  · rw [String.rawEndPos_ofList]

theorem slice?_eq (h : text.toList = before ++ (middle ++ after)) :
    slice? text (String.utf8Len before) (String.utf8Len (before ++ middle)) =
      some (.ofList middle) := by
  have hstop : text.toList = (before ++ middle) ++ after := by rw [h, List.append_assoc]
  have hle : String.utf8Len before ≤ String.utf8Len (before ++ middle) := by
    rw [String.utf8Len_append]
    exact Nat.le_add_right _ _
  have hextract := String.extract_of_valid before middle after
  rw [← hstop, String.ofList_toList, ← String.utf8Len_append] at hextract
  rw [slice?, if_pos ⟨hle, isValid_of_append h, isValid_of_append hstop⟩, hextract]

end LineScript
