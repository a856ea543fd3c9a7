import LineScript.Machine.LineReader
import Mathlib.Data.List.TakeWhile
import Mathlib.Tactic.Common

/-!
# Lines of bytes

What is read line by line is cut after each byte that is a line feed. In an encoded text that byte
stands for a line feed and for nothing else, so the lines of the bytes are the lines of the text,
each encoded: no character is cut in two, and each line of a text is a text again. Lines can be cut
off one after the other, and a line that is written with a line feed is the first that is read.
-/

namespace LineScript

variable {α β : Type} {isLast : α → Bool}

theorem splitAfter_cons_of_last {a : α} (hlast : isLast a = true) (rest : List α) :
    splitAfter isLast (a :: rest) = [a] :: splitAfter isLast rest := by
  rw [splitAfter, List.foldr_cons, hlast]
  rfl

/-- What does not end a piece begins the piece that follows. -/
theorem splitAfter_append {start : List α} (hne : start ≠ [])
    (hstart : ∀ a ∈ start, isLast a = false) (rest : List α) :
    splitAfter isLast (start ++ rest) =
      (start ++ (splitAfter isLast rest).headD []) :: (splitAfter isLast rest).tail := by
  have hcons : ∀ a, isLast a = false → ∀ rest, splitAfter isLast (a :: rest) =
      (a :: (splitAfter isLast rest).headD []) :: (splitAfter isLast rest).tail := by
    intro a ha rest
    rw [splitAfter, List.foldr_cons, ha, ← splitAfter]
    cases splitAfter isLast rest <;> rfl
  induction start with
  | nil => exact absurd rfl hne
  | cons a start ih =>
    rw [List.cons_append, hcons a (hstart a List.mem_cons_self)]
    cases start with
    | nil => rfl
    | cons b start =>
      rw [ih (by simp) fun c hmem ↦ hstart c (List.mem_cons_of_mem _ hmem)]
      rfl

theorem append_cutAfter (isLast : α → Bool) (list : List α) :
    (cutAfter isLast list).1 ++ (cutAfter isLast list).2 = list := by
  change list.takeWhile (!isLast ·) ++ List.take 1 _ ++ List.drop 1 _ = list
  rw [List.append_assoc, List.take_append_drop, List.takeWhile_append_dropWhile]

/-- What is cut off ends with its one element that satisfies the test, or is all that there was. -/
theorem cutAfter_cases (isLast : α → Bool) (list : List α) : ∃ start,
    (∀ a ∈ start, isLast a = false) ∧ (cutAfter isLast list = (start, []) ∨
      ∃ last rest, cutAfter isLast list = (start ++ [last], rest) ∧ isLast last = true) := by
  refine ⟨list.takeWhile (!isLast ·), fun a ha ↦ ?_, ?_⟩
  · simpa using List.mem_takeWhile_imp ha
  · have hlast := List.head?_dropWhile_not (!isLast ·) list
    unfold cutAfter
    dsimp only
    cases hrest : list.dropWhile (!isLast ·) with
    | nil =>
      left
      rw [List.take_nil, List.append_nil, List.drop_nil]
    | cons last rest =>
      right
      rw [hrest] at hlast
      exact ⟨last, rest, rfl, by simpa using hlast⟩

/-- The first piece of a list ends with its first cut, and the others are those of what is left. -/
theorem splitAfter_eq_cons {list : List α} (hne : list ≠ []) :
    splitAfter isLast list =
      (cutAfter isLast list).1 :: splitAfter isLast (cutAfter isLast list).2 := by
  have hlist := append_cutAfter isLast list
  obtain ⟨start, hstart, hcut | ⟨last, rest, hcut, hlast⟩⟩ := cutAfter_cases isLast list <;>
    rw [hcut] at hlist ⊢ <;> subst hlist
  · rw [List.append_nil] at hne
    rw [splitAfter_append hne hstart]
    exact congrArg (· :: _) (List.append_nil start)
  · have hfirst := splitAfter_cons_of_last hlast rest
    rw [List.append_assoc, List.singleton_append]
    cases start with
    | nil => exact hfirst
    | cons b start =>
      rw [splitAfter_append (by simp) hstart, hfirst]
      rfl

/-- Elements may be written out before the cuts or after, where what ends a piece is written as one
element that does, and nothing else is written with such an element. -/
theorem splitAfter_flatMap {isLast' : β → Bool} {write : α → List β}
    (hlast : ∀ a, isLast a = true → ∃ b, write a = [b] ∧ isLast' b = true)
    (hother : ∀ a, isLast a = false → write a ≠ [] ∧ ∀ b ∈ write a, isLast' b = false)
    (list : List α) :
    splitAfter isLast' (list.flatMap write) =
      (splitAfter isLast list).map (List.flatMap write) := by
  induction list with
  | nil => rfl
  | cons a rest ih =>
    rw [List.flatMap_cons]
    by_cases ha : isLast a = true
    · obtain ⟨b, hwrite, hb⟩ := hlast a ha
      rw [hwrite, List.singleton_append, splitAfter_cons_of_last hb, splitAfter_cons_of_last ha,
        List.map_cons, ih, List.flatMap_singleton, hwrite]
    · rw [Bool.not_eq_true] at ha
      obtain ⟨hne, hwrite⟩ := hother a ha
      have hstart : ∀ b ∈ [a], isLast b = false := by simpa using ha
      have hpiece := splitAfter_append (by simp) hstart rest
      rw [List.singleton_append] at hpiece
      rw [splitAfter_append hne hwrite, hpiece, ih, List.map_cons, List.map_tail]
      cases splitAfter isLast rest <;> simp

/-- A line without carriage returns ends before the first line feed. -/
theorem linesOf_append {line : List Char} (hline : ∀ c ∈ line, c ≠ '\n' ∧ c ≠ '\r')
    (rest : List Char) : linesOf (line ++ '\n' :: rest) = line :: linesOf rest := by
  have hfirst : splitAfter isLineFeed ('\n' :: rest) = ['\n'] :: splitAfter isLineFeed rest :=
    splitAfter_cons_of_last rfl rest
  have hpiece : splitAfter isLineFeed (line ++ '\n' :: rest) =
      (line ++ ['\n']) :: splitAfter isLineFeed rest := by
    cases hempty : line with
    | nil => exact hfirst
    | cons c others =>
      rw [← hempty, splitAfter_append (by simp [hempty]) (fun c hc ↦ by simp [isLineFeed, hline c hc]),
        hfirst]
      rfl
  have hcontent : dropLineEnd (line ++ ['\n']) = line := by
    rcases List.eq_nil_or_concat line with rfl | ⟨others, last, rfl⟩
    · rfl
    · have hlast := (hline last (by simp)).2
      simp [dropLineEnd, hlast]
  rw [linesOf, hpiece, List.map_cons, hcontent, linesOf]

/-- A character with a code below 128 is one byte, which is its code. -/
theorem utf8EncodeChar_of_lt {c : Char} (h : c.val.toNat < 128) :
    String.utf8EncodeChar c = [UInt8.ofNat c.val.toNat] := by
  unfold String.utf8EncodeChar
  exact if_pos (Nat.le_of_lt_succ h)

/-- All bytes of a character with a code from 128 on are from 128 on. -/
theorem le_of_mem_utf8EncodeChar {c : Char} (h : 128 ≤ c.val.toNat) :
    ∀ byte ∈ String.utf8EncodeChar c, 128 ≤ byte.toNat := by
  have hbyte : ∀ value : Nat, 128 ≤ value → value < 256 → 128 ≤ (UInt8.ofNat value).toNat := by
    intro value hle hlt
    rwa [UInt8.toNat_ofNat_of_lt' hlt]
  intro byte hmem
  unfold String.utf8EncodeChar at hmem
  generalize c.val.toNat = value at h hmem
  dsimp only at hmem
  split at hmem
  · omega
  · split at hmem
    · simp only [List.mem_cons, List.not_mem_nil, or_false] at hmem
      rcases hmem with rfl | rfl <;> exact hbyte _ (by omega) (by omega)
    · split at hmem
      · simp only [List.mem_cons, List.not_mem_nil, or_false] at hmem
        rcases hmem with rfl | rfl | rfl <;> exact hbyte _ (by omega) (by omega)
      · simp only [List.mem_cons, List.not_mem_nil, or_false] at hmem
        rcases hmem with rfl | rfl | rfl | rfl <;> exact hbyte _ (by omega) (by omega)

/-- Only a line feed is encoded with the byte that ends a line. -/
theorem utf8EncodeChar_of_ne {c : Char} (hc : isLineFeed c = false) :
    String.utf8EncodeChar c ≠ [] ∧ ∀ byte ∈ String.utf8EncodeChar c, (byte == 10) = false := by
  have hvalue : c.val.toNat ≠ 10 := by
    intro hsame
    have hnewline : c = '\n' := Char.ext (UInt32.toNat_inj.1 hsame)
    simp [isLineFeed, hnewline] at hc
  refine ⟨String.utf8EncodeChar_ne_nil, fun byte hmem ↦ ?_⟩
  rw [beq_eq_false_iff_ne]
  rintro rfl
  by_cases hlow : c.val.toNat < 128
  · rw [utf8EncodeChar_of_lt hlow, List.mem_singleton] at hmem
    have hten := congrArg UInt8.toNat hmem
    rw [UInt8.toNat_ofNat_of_lt' (by omega : c.val.toNat < 256)] at hten
    exact hvalue hten.symm
  · exact absurd (le_of_mem_utf8EncodeChar (Nat.not_lt.1 hlow) _ hmem) (by decide)

/-- The bytes of an array are its contents. -/
theorem toList_eq_data_toList (bytes : ByteArray) : bytes.toList = bytes.data.toList := by
  have hloop : ∀ rest position (before : List UInt8), bytes.size = position + rest →
      ByteArray.toList.loop bytes position before =
        before.reverse ++ bytes.data.toList.drop position := by
    intro rest
    induction rest with
    | zero =>
      intro position before hsize
      rw [ByteArray.toList.loop, if_neg (by omega), List.drop_of_length_le, List.append_nil]
      exact Nat.le_of_eq hsize
    | succ rest ih =>
      intro position before hsize
      have hpos : position < bytes.size := by omega
      have hlt : position < bytes.data.toList.length := hpos
      rw [ByteArray.toList.loop, if_pos hpos, ih (position + 1) _ (by omega), List.reverse_cons,
        List.append_assoc, List.singleton_append, List.drop_eq_getElem_cons hlt]
      congr 2
      rw [Array.getElem_toList]
      exact getElem!_pos bytes.data position hlt
  rw [ByteArray.toList, hloop bytes.size 0 [] (Nat.zero_add _).symm]
  rfl

theorem toList_toUTF8 (text : String) :
    text.toUTF8.toList = text.toList.flatMap String.utf8EncodeChar := by
  rw [toList_eq_data_toList, String.toUTF8_eq_toByteArray, ← String.utf8Encode_toList,
    List.utf8Encode, List.toList_data_toByteArray]

/-- The lines of the bytes of a text are the encodings of its lines. -/
theorem linesOfBytes_toUTF8 (text : String) :
    Input.linesOfBytes text.toUTF8.toList =
      (splitAfter isLineFeed text.toList).map (List.flatMap String.utf8EncodeChar) := by
  rw [toList_toUTF8, Input.linesOfBytes]
  refine splitAfter_flatMap ?_ (fun c hc ↦ utf8EncodeChar_of_ne hc) text.toList
  intro c hc
  rw [eq_of_beq hc]
  exact ⟨10, by decide, rfl⟩

/-- Encoded characters are read back as a text. -/
theorem fromUTF8?_flatMap (chars : List Char) :
    String.fromUTF8? ⟨(chars.flatMap String.utf8EncodeChar).toArray⟩ = some (.ofList chars) := by
  have hbytes : (⟨(chars.flatMap String.utf8EncodeChar).toArray⟩ : ByteArray) = chars.utf8Encode := by
    apply ByteArray.ext
    rw [List.utf8Encode, ← Array.toList_inj, List.toList_data_toByteArray]
  rw [hbytes, String.fromUTF8?, dif_pos ByteArray.isValidUTF8_utf8Encode]
  rfl

end LineScript
