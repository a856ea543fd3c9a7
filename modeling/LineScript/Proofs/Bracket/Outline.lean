import LineScript.Program.NodeId
import LineScript.Proofs.Bracket.Balanced

/-!
# Outlines

An outline is the tree of blocks that a word of brackets spells out: lines that are no brackets, and
blocks with what stands inside them, all in order and each with its position. It is read off the
word in one go, without any counting: an `end` starts what is inside a block, and the nearest
bracket before it that is not yet used up opens that block. Reading succeeds when every block is
closed, and only a balanced word is used up completely.
-/

namespace LineScript

/-- Lines and blocks in order, with their positions. -/
inductive Outline where
  | empty
  | line (id : NodeId) (rest : Outline)
  | block (header : NodeId) (inside : Outline) (close : NodeId) (rest : Outline)
deriving DecidableEq, Repr

namespace Outline

/-- The brackets that an outline spells out. -/
def word : Outline → List Bracket
  | empty => []
  | line _ rest => .plain :: rest.word
  | block _ inside _ rest => .opens :: (inside.word ++ .closes :: rest.word)

/--
Reads brackets from a position on. The first outline ends at the first bracket that closes a block
opened earlier; such brackets follow, each with the outline of what comes after it.
-/
def read : NodeId → List Bracket → Option (Outline × List (NodeId × Outline))
  | _, [] => some (empty, [])
  | position, .plain :: rest =>
    (read (position + 1) rest).map fun (first, hanging) ↦ (line position first, hanging)
  | position, .closes :: rest =>
    (read (position + 1) rest).map fun (first, hanging) ↦ (empty, (position, first) :: hanging)
  | position, .opens :: rest =>
    match read (position + 1) rest with
    | some (inside, (close, after) :: hanging) =>
      some (block position inside close after, hanging)
    | _ => none

/-- The outline of a whole word, in which no bracket closes a block that was not opened. -/
def ofBrackets (brackets : List Bracket) : Option Outline :=
  match read 0 brackets with
  | some (outline, []) => some outline
  | _ => none

theorem balanced_word (outline : Outline) : Bracket.Balanced outline.word := by
  induction outline with
  | empty => exact .nil
  | line _ _ ih => exact ih.plain
  | block _ _ _ _ ihInside ihRest => exact ihInside.block ihRest

/-- The brackets of closing brackets that hang over, and of what comes after them. -/
def hangingWord (hanging : List (NodeId × Outline)) : List Bracket :=
  hanging.flatMap fun (_, after) ↦ .closes :: after.word

@[simp]
theorem hangingWord_cons (close : NodeId) (after : Outline) (hanging : List (NodeId × Outline)) :
    hangingWord ((close, after) :: hanging) = .closes :: (after.word ++ hangingWord hanging) := by
  simp [hangingWord]

/-- Nothing is lost in reading. -/
theorem word_of_read {position : NodeId} {brackets : List Bracket} {outline : Outline}
    {hanging : List (NodeId × Outline)} (h : read position brackets = some (outline, hanging)) :
    brackets = outline.word ++ hangingWord hanging := by
  induction brackets generalizing position outline hanging with
  | nil =>
    obtain ⟨rfl, rfl⟩ := Prod.mk.inj (Option.some.inj h)
    rfl
  | cons bracket rest ih =>
    cases bracket with
    | plain =>
      obtain ⟨⟨first, hanging'⟩, hread, hresult⟩ := Option.map_eq_some_iff.1 h
      obtain ⟨rfl, rfl⟩ := Prod.mk.inj hresult
      calc
        Bracket.plain :: rest = .plain :: (first.word ++ hangingWord hanging') :=
          congrArg (List.cons Bracket.plain) (ih hread)
        _ = (line position first).word ++ hangingWord hanging' := rfl
    | closes =>
      obtain ⟨⟨first, hanging'⟩, hread, hresult⟩ := Option.map_eq_some_iff.1 h
      obtain ⟨rfl, rfl⟩ := Prod.mk.inj hresult
      calc
        Bracket.closes :: rest = .closes :: (first.word ++ hangingWord hanging') :=
          congrArg (List.cons Bracket.closes) (ih hread)
        _ = hangingWord ((position, first) :: hanging') :=
          (hangingWord_cons position first hanging').symm
    | opens =>
      rw [read] at h
      split at h
      · rename_i inside close after hanging' hread
        obtain ⟨rfl, rfl⟩ := Prod.mk.inj (Option.some.inj h)
        rw [ih hread, hangingWord_cons]
        simp [word]
      · exact absurd h (by simp)

/-- A word can be read if every block that it opens is closed. -/
theorem exists_read {brackets : List Bracket}
    (h : ∀ header, brackets[header]? = some .opens →
      (Bracket.closing? brackets header).isSome) (position : NodeId) :
    ∃ outline hanging, read position brackets = some (outline, hanging) := by
  induction brackets generalizing position with
  | nil => exact ⟨.empty, [], rfl⟩
  | cons bracket rest ih =>
    have hrest : ∀ header, rest[header]? = some .opens →
        (Bracket.closing? rest header).isSome := by
      intro header hopens
      have hclosed := h (header + 1) (by simpa using hopens)
      simpa [Bracket.closing?] using hclosed
    obtain ⟨first, hanging, hread⟩ := ih hrest (position + 1)
    cases bracket with
    | plain => exact ⟨_, _, by rw [read, hread]; rfl⟩
    | closes => exact ⟨_, _, by rw [read, hread]; rfl⟩
    | opens =>
      cases hanging with
      | nil =>
        have hword : rest = first.word := by
          have hsplit := word_of_read hread
          rwa [hangingWord, List.flatMap_nil, List.append_nil] at hsplit
        have hclosed := h 0 (by simp)
        rw [Bracket.closing?, List.drop_one, List.tail_cons, hword,
          Bracket.distance?_of_balanced first.balanced_word] at hclosed
        exact absurd hclosed (by simp)
      | cons next hanging =>
        obtain ⟨close, after⟩ := next
        exact ⟨_, _, by rw [read, hread]⟩

/-- A word in which both scans find a partner for every bracket has an outline. -/
theorem exists_ofBrackets {brackets : List Bracket}
    (hopens : ∀ header, brackets[header]? = some .opens →
      (Bracket.closing? brackets header).isSome)
    (hcloses : ∀ close, brackets[close]? = some .closes →
      (Bracket.opening? brackets close).isSome) :
    ∃ outline, ofBrackets brackets = some outline := by
  obtain ⟨outline, hanging, hread⟩ := exists_read hopens 0
  cases hanging with
  | nil => exact ⟨outline, by rw [ofBrackets, hread]⟩
  | cons next hanging =>
    -- The first bracket that hangs over has a balanced word before it, hence no partner.
    obtain ⟨close, after⟩ := next
    have hword := word_of_read hread
    rw [hangingWord_cons] at hword
    have hopened := hcloses outline.word.length (by simp [hword])
    have htake : brackets.take outline.word.length = outline.word := by
      rw [hword]
      exact List.take_left
    rw [Bracket.opening?, htake] at hopened
    change ((Bracket.distance? 0 (Bracket.mirror outline.word)).map _).isSome = true at hopened
    rw [Bracket.distance?_of_balanced outline.balanced_word.mirror] at hopened
    exact absurd hopened (by simp)

theorem read_of_ofBrackets {brackets : List Bracket} {outline : Outline}
    (h : ofBrackets brackets = some outline) : read 0 brackets = some (outline, []) := by
  rw [ofBrackets] at h
  split at h
  · rename_i hread
    rw [hread, Option.some.inj h]
  · exact absurd h (by simp)

theorem word_of_ofBrackets {brackets : List Bracket} {outline : Outline}
    (h : ofBrackets brackets = some outline) : outline.word = brackets := by
  have hword := word_of_read (read_of_ofBrackets h)
  rw [hangingWord, List.flatMap_nil, List.append_nil] at hword
  exact hword.symm

/-- An outline whose positions are those from one position up to another, in order. -/
inductive Spans : Nat → Outline → Nat → Prop where
  | empty (p : Nat) : Spans p .empty p
  | line {p q : Nat} {rest : Outline} : Spans (p + 1) rest q → Spans p (.line p rest) q
  | block {p e q : Nat} {inside rest : Outline} : Spans (p + 1) inside e →
      Spans (e + 1) rest q → Spans p (.block p inside e rest) q

theorem Spans.stop_eq {p q : Nat} {outline : Outline} (h : Spans p outline q) :
    q = p + outline.word.length := by
  induction h with
  | empty => rfl
  | line _ ih =>
    rw [word, List.length_cons]
    omega
  | block _ _ ihInside ihRest =>
    simp only [word, List.length_cons, List.length_append]
    omega

/-- Closing brackets that hang over from a position on, with outlines of what comes after them. -/
def Hangs : NodeId → List (NodeId × Outline) → Prop
  | _, [] => True
  | position, (close, after) :: hanging =>
    close = position ∧ ∃ stop, Spans (position + 1) after stop ∧ Hangs stop hanging

theorem spans_of_read {position : NodeId} {brackets : List Bracket} {outline : Outline}
    {hanging : List (NodeId × Outline)} (h : read position brackets = some (outline, hanging)) :
    ∃ stop, Spans position outline stop ∧ Hangs stop hanging := by
  induction brackets generalizing position outline hanging with
  | nil =>
    obtain ⟨rfl, rfl⟩ := Prod.mk.inj (Option.some.inj h)
    exact ⟨position, .empty _, trivial⟩
  | cons bracket rest ih =>
    cases bracket with
    | plain =>
      obtain ⟨⟨first, hanging'⟩, hread, hresult⟩ := Option.map_eq_some_iff.1 h
      obtain ⟨rfl, rfl⟩ := Prod.mk.inj hresult
      obtain ⟨stop, hspans, hhangs⟩ := ih hread
      exact ⟨stop, hspans.line, hhangs⟩
    | closes =>
      obtain ⟨⟨first, hanging'⟩, hread, hresult⟩ := Option.map_eq_some_iff.1 h
      obtain ⟨rfl, rfl⟩ := Prod.mk.inj hresult
      exact ⟨position, .empty _, rfl, ih hread⟩
    | opens =>
      rw [read] at h
      split at h
      · rename_i inside close after hanging' hread
        obtain ⟨rfl, rfl⟩ := Prod.mk.inj (Option.some.inj h)
        obtain ⟨inner, hinside, rfl, stop, hafter, hhangs⟩ := ih hread
        exact ⟨stop, hinside.block hafter, hhangs⟩
      · exact absurd h (by simp)

theorem spans_of_ofBrackets {brackets : List Bracket} {outline : Outline}
    (h : ofBrackets brackets = some outline) : Spans 0 outline brackets.length := by
  obtain ⟨stop, hspans, -⟩ := spans_of_read (read_of_ofBrackets h)
  have hstop := hspans.stop_eq
  rw [word_of_ofBrackets h, Nat.zero_add] at hstop
  exact hstop ▸ hspans

end Outline

end LineScript
