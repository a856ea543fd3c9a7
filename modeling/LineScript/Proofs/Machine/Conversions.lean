import LineScript.Machine.Step
import LineScript.Proofs.Number.ReadingBack

/-!
# Numbers that are passed as texts

An argument is brought to the kind of its parameter. A number becomes its text where the parameter is
a text, and where that text is passed on to a parameter that is a number, it becomes a number again:
neither fails. The number has lost what six places do not say, and nothing more is lost where it is
passed on in the same way.
-/

namespace LineScript

open SixPlaces (ReadsBack render exists_readsBack isBlank_of_mem_render)

variable {x y : Float}

/-- The text of a number becomes the number that is read from it. -/
theorem Kind.coerce?_number_text (h : ReadsBack x y) :
    Kind.number.coerce? (.text (render x)) = some (.number y) := by
  have htrim := trimBlanks_of_forall_not_blank fun _ ↦ isBlank_of_mem_render (x := x)
  have hread : Numeral.readFloat? (render x).toList = some y := h.read
  rw [Kind.coerce?, htrim, hread, Option.map_some]

namespace Machine

/-- An argument whose value can be brought to the kind of its parameter does not fail. -/
theorem argumentValue_of_coerce? {function : String} {scopes : ScopeTree} {scope : ScopeId}
    {argument : Argument} {raw value : Value}
    (hraw : argument.operand.value? scopes scope = some raw)
    (hcoerce : argument.parameter.kind.coerce? raw = some value) :
    argumentValue function scopes scope argument = .ok (argument.parameter.name, value) := by
  rw [argumentValue, hraw]
  dsimp only
  rw [hcoerce]

/--
A number and the one that it becomes when it is passed as a text and then, from the text, as a
number. Wherever the two are passed, and whatever the calls and the parameters are, neither argument
fails.
-/
structure Passes (x y : Float) : Prop extends ReadsBack x y where
  as_text : ∀ function scopes scope argument, argument.parameter.kind = .text →
    argument.operand.value? scopes scope = some (.number x) →
    argumentValue function scopes scope argument =
      .ok (argument.parameter.name, .text (render x))
  as_number : ∀ function scopes scope argument, argument.parameter.kind = .number →
    argument.operand.value? scopes scope = some (.text (render x)) →
    argumentValue function scopes scope argument = .ok (argument.parameter.name, .number y)

theorem passes_of_readsBack (h : ReadsBack x y) : Passes x y where
  toReadsBack := h
  as_text _ _ _ _ hkind hraw := by
    apply argumentValue_of_coerce? hraw
    rw [hkind]
    rfl
  as_number _ _ _ _ hkind hraw := by
    apply argumentValue_of_coerce? hraw
    rw [hkind]
    exact Kind.coerce?_number_text h

/--
Every number can be printed, and its text is read as a number that is printed alike. So it can be
passed as a text, and the text as a number, and what it becomes then becomes itself when it is passed
on like this again.
-/
theorem passes_back (x : Float) : ∃ y, Passes x y ∧ Passes y y := by
  obtain ⟨y, h⟩ := exists_readsBack x
  exact ⟨y, passes_of_readsBack h, passes_of_readsBack h.again⟩

end Machine

end LineScript
