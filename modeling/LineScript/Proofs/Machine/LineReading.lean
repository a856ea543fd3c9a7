import LineScript.Machine.LineReader
import LineScript.Proofs.Machine.Runs
import LineScript.Proofs.Source.Spacing
import LineScript.Proofs.Text.Lines

/-!
# Lines do not matter to a reader

A reader that reads one line at a time, and only when it has no word left, is asked for words. Its
answers are the words of the whole text in order, and nothing once they are used up, however the
text is divided into lines. A machine that waits for a line goes on in the same way as if the line
had been there before.
-/

namespace LineScript

variable {bytes : List UInt8} {reader : LineReader}

/-- No word goes on behind a line feed. -/
theorem wordsOf_cutAfter (text : List Char) :
    wordsOf (cutAfter isLineFeed text).1 ++ wordsOf (cutAfter isLineFeed text).2 = wordsOf text := by
  nth_rewrite 3 [← append_cutAfter isLineFeed text]
  obtain ⟨start, -, hcut | ⟨feed, rest, hcut, hfeed⟩⟩ := cutAfter_cases isLineFeed text
  · rw [hcut, List.append_nil]
    exact List.append_nil _
  · have hblank : isBlank feed = true := by
      rw [eq_of_beq hfeed]
      decide
    have hends (after : List Char) : EndsWord (feed :: after) := by
      intro c hc
      rwa [← Option.some.inj hc]
    rw [hcut, List.append_assoc, List.singleton_append,
      wordsOf_append_of_endsWord start (hends []), wordsOf_append_of_endsWord start (hends rest),
      wordsOf_cons_of_blank hblank, wordsOf_cons_of_blank hblank, List.append_assoc]
    rfl

/-- The words of a text are those of its lines. -/
theorem flatMap_wordsOf_splitAfter (text : List Char) :
    (splitAfter isLineFeed text).flatMap wordsOf = wordsOf text := by
  induction hsize : text.length using Nat.strong_induction_on generalizing text with
  | _ size ih =>
    subst hsize
    by_cases hne : text = []
    · subst hne
      rfl
    · rw [splitAfter_eq_cons hne, List.flatMap_cons, ih _ (length_cutAfter_lt _ hne) _ rfl,
        wordsOf_cutAfter]

namespace Input

theorem piecesOfLine_flatMap (line : List Char) :
    piecesOfLine (line.flatMap String.utf8EncodeChar) =
      (wordsOf line).map fun word ↦ .word (.ofList word) := by
  rw [piecesOfLine, fromUTF8?_flatMap]
  dsimp only
  rw [words, String.toList_ofList, List.map_map]
  rfl

/-- What is read line by line from the bytes of a text are the words of the text. -/
theorem ofBytes_toUTF8 (text : String) : ofBytes text.toUTF8.toList = ofText text := by
  rw [ofBytes, ofText, linesOfBytes_toUTF8, List.flatMap_map, words,
    ← flatMap_wordsOf_splitAfter, List.map_flatMap, List.map_flatMap]
  simp only [piecesOfLine_flatMap, List.map_map]
  rfl

theorem pieces_ofBytes (hne : bytes ≠ []) : (ofBytes bytes).pieces =
    piecesOfLine (readLine bytes).1 ++ (ofBytes (readLine bytes).2).pieces := by
  rw [ofBytes, linesOfBytes, splitAfter_eq_cons hne, List.flatMap_cons]
  rfl

variable {input rest : Input} {piece : InputPiece}

theorem pieces_of_next (h : input.next = (some piece, rest)) :
    input.pieces = piece :: rest.pieces := by
  obtain ⟨pieces⟩ := input
  cases pieces <;> cases h
  rfl

theorem pieces_of_next_eq_none (h : input.next = (none, rest)) :
    input.pieces = [] ∧ rest.pieces = [] := by
  obtain ⟨pieces⟩ := input
  cases pieces <;> cases h
  exact ⟨rfl, rfl⟩

theorem next_eq (input : Input) :
    input.next.1 = input.pieces.head? ∧ input.next.2.pieces = input.pieces.tail := by
  obtain ⟨pieces⟩ := input
  cases pieces <;> exact ⟨rfl, rfl⟩

end Input

/-- All pieces that a reader has not handed out, also those in lines that it has not read. -/
def LineReader.remaining (reader : LineReader) : List InputPiece :=
  reader.pending.pieces ++ (Input.ofBytes reader.unread).pieces

/-- A reader hands out the first of its pieces, in whatever line it is, and keeps the others. -/
theorem LineReader.next_eq (reader : LineReader) :
    reader.next.1 = reader.remaining.head? ∧ reader.next.2.remaining = reader.remaining.tail := by
  fun_induction LineReader.next reader with
  | case1 reader piece pending hnext =>
    rw [remaining, remaining, Input.pieces_of_next hnext]
    exact ⟨rfl, rfl⟩
  | case2 reader pending hnext hempty =>
    rw [remaining, (Input.pieces_of_next_eq_none hnext).1, hempty]
    exact ⟨rfl, rfl⟩
  | case3 reader pending hnext hmore line ih =>
    obtain ⟨hnone, hpending⟩ := Input.pieces_of_next_eq_none hnext
    have hremaining : remaining ⟨pending.feedLine line.1, line.2⟩ = reader.remaining := by
      rw [remaining, remaining, hnone, Input.pieces_ofBytes hmore, Input.feedLine, hpending,
        List.nil_append, List.nil_append]
    rwa [hremaining] at ih

/-- The answers of a reader that is asked a number of times. -/
def answers {σ : Type} (next : σ → Option InputPiece × σ) : Nat → σ → List (Option InputPiece)
  | 0, _ => []
  | count + 1, state => (next state).1 :: answers next count (next state).2

/-- A reader that hands out the first of its pieces each time hands out all of them in order, and
nothing after that. -/
theorem answers_eq {σ : Type} {next : σ → Option InputPiece × σ} {pieces : σ → List InputPiece}
    (hnext : ∀ state, (next state).1 = (pieces state).head? ∧
      pieces (next state).2 = (pieces state).tail) (count : Nat) (state : σ) :
    answers next count state = (List.range count).map fun i ↦ (pieces state)[i]? := by
  induction count generalizing state with
  | zero => rfl
  | succ count ih =>
    obtain ⟨hfirst, hrest⟩ := hnext state
    rw [answers, ih, hfirst, hrest, List.range_succ_eq_map, List.map_cons, List.map_map,
      List.head?_eq_getElem?]
    congr 1
    exact List.map_congr_left fun i _ ↦ List.getElem?_tail

/-- However a text is divided into lines, it is read as its words: the runs of characters between
blanks in order, each of them once, and nothing after the last one. -/
theorem answers_lines (text : String) (count : Nat) :
    answers LineReader.next count (.ofBytes text.toUTF8.toList) =
        answers Input.next count (.ofText text) ∧
      answers Input.next count (.ofText text) =
        (List.range count).map (fun i ↦ ((words text)[i]?).map .word) ∧
      Spread ((words text).map String.toList) text.toList := by
  have hreader := answers_eq LineReader.next_eq count (.ofBytes text.toUTF8.toList)
  have hinput := answers_eq Input.next_eq count (.ofText text)
  have hremaining : LineReader.remaining (.ofBytes text.toUTF8.toList) =
      (Input.ofText text).pieces :=
    congrArg Input.pieces (Input.ofBytes_toUTF8 text)
  refine ⟨?_, ?_, ?_⟩
  · rw [hreader, hinput, hremaining]
  · rw [hinput]
    exact List.map_congr_left fun i _ ↦ List.getElem?_map
  · rw [spread_iff, words, List.map_map]
    simp

namespace Machine

variable {kind : Kind} {output after : Output} {pieces rest : List InputPiece}

/-- The machine with one more line to read. -/
def fed (m : Machine) (line : List UInt8) : Machine :=
  { m with input := m.input.feedLine line }

/-- Where all words that there are were refused, reading goes on with those that come later. -/
theorem readWord_append_of_closed (h : readWord kind output pieces = (.closed, rest, after))
    (more : List InputPiece) :
    rest = [] ∧ readWord kind output (pieces ++ more) = readWord kind after more := by
  induction pieces generalizing output with
  | nil =>
    cases h
    exact ⟨rfl, rfl⟩
  | cons piece others ih =>
    cases piece with
    | garbled => cases h
    | word word =>
      rw [List.cons_append, readWord]
      rw [readWord] at h
      cases hvalue : wordValue? kind word with
      | some value =>
        rw [hvalue] at h
        cases h
      | none =>
        rw [hvalue] at h
        exact ih h

theorem step_of_node {program : Program} {m : Machine} {id : NodeId} {node : Node}
    (hcurrent : m.current = some id) (hnode : program.node? id = some node) (elapsed : Nat) :
    m.step program elapsed = commit program elapsed ⟨id, node, m.attempt program id node⟩ := by
  rw [step, tryCurrent_of_node hcurrent hnode]

/-- A machine that has refused all words that there were, and then gets a line, does what it would
have done if the line had been there. -/
theorem step_of_starved {program : Program} {m waiting : Machine}
    (h : m.starved? program = some waiting) (line : List UInt8) (elapsed : Nat) :
    (waiting.fed line).step program elapsed = (m.fed line).step program elapsed := by
  obtain ⟨kind, hkind, hread⟩ := Option.bind_eq_some_iff.1 h
  unfold awaitedKind? at hkind
  split at hkind
  · rename_i location operand scope hnode
    obtain ⟨old, hold, rfl⟩ := Option.map_eq_some_iff.1 hkind
    split at hread
    · rename_i rest after hclosed
      cases hread
      obtain ⟨rfl, hmore⟩ := readWord_append_of_closed hclosed (Input.piecesOfLine line)
      obtain ⟨id, hcurrent, hid⟩ := Option.bind_eq_some_iff.1 hnode
      have hfed : (m.fed line).current = some id := hcurrent
      have hwaiting : (fed { m with input := ⟨[]⟩, output := after } line).current = some id :=
        hcurrent
      have hattempt : (m.fed line).attempt program id ⟨location, [operand], scope, .input⟩ =
          (fed { m with input := ⟨[]⟩, output := after } line).attempt program id
            ⟨location, [operand], scope, .input⟩ := by
        simp only [attempt, runInput, fed, hold, readInto, Input.feedLine, hmore,
          List.nil_append]
      rw [step_of_node hfed hid, step_of_node hwaiting hid, hattempt]
    · cases hread
  · cases hkind

end Machine

end LineScript
