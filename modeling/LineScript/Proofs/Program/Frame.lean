import LineScript.Proofs.Program.Blocks

/-!
# Frames

The frame of a position is the innermost function whose statements after the header, its `end`
included, contain it; code outside all functions has none. Two positions have the same frame where
the same functions are around them: where no function begins or ends between them, and where a block
is passed as a whole.
-/

namespace LineScript.Program

def isFunction (program : Program) (id : Nat) : Bool :=
  match program.node? id with
  | some ⟨_, _, _, .function ..⟩ => true
  | _ => false

/-- Whether a position is inside the function of a header, or at its `end`. -/
def isAround (program : Program) (position header : Nat) : Bool :=
  program.isFunction header && decide (header < position) &&
    (Bracket.closing? program.brackets header).any fun close ↦ decide (position ≤ close)

/-- The header of the innermost function around a position. -/
def frame? (program : Program) (position : Nat) : Option NodeId :=
  ((List.range program.size).filter (program.isAround position)).getLast?

theorem isFunction_iff {program : Program} {id : Nat} :
    program.isFunction id = true ↔ ∃ node past signature, program.node? id = some node ∧
      node.action = .function past signature := by
  unfold isFunction
  constructor
  · intro h
    split at h
    · rename_i location operands scope past signature hnode
      exact ⟨_, past, signature, hnode, rfl⟩
    · exact absurd h (by simp)
  · rintro ⟨node, past, signature, hnode, haction⟩
    rw [hnode]
    obtain ⟨location, operands, scope, action⟩ := node
    cases haction
    rfl

variable {program : Program} (hbalanced : Bracket.Balanced program.brackets)

include hbalanced

theorem isAround_iff {position header : Nat} :
    program.isAround position header = true ↔ program.isFunction header = true ∧
      ∃ close, Bracket.Pair program.brackets header close ∧ header < position ∧
        position ≤ close := by
  unfold isAround
  rw [Bool.and_eq_true, Bool.and_eq_true, decide_eq_true_eq, Option.any_eq_true]
  constructor
  · rintro ⟨⟨hfunction, hlt⟩, close, hclose, hle⟩
    obtain ⟨node, past, signature, hnode, haction⟩ := isFunction_iff.1 hfunction
    have hopens : program.brackets[header]? = some .opens := by
      rw [bracket_of_node hnode, haction]
      rfl
    obtain ⟨partner, hpair⟩ := (hbalanced.exists_pair header).1 hopens
    rw [hpair.closing?_eq] at hclose
    cases hclose
    exact ⟨hfunction, close, hpair, hlt, of_decide_eq_true hle⟩
  · rintro ⟨hfunction, close, hpair, hlt, hle⟩
    exact ⟨⟨hfunction, hlt⟩, close, hpair.closing?_eq, decide_eq_true hle⟩

/-- Positions inside the same functions have the same functions around them. -/
theorem isAround_congr {position other : Nat}
    (h : ∀ header close, program.isFunction header = true →
      Bracket.Pair program.brackets header close →
      (header < position ∧ position ≤ close ↔ header < other ∧ other ≤ close)) :
    program.isAround position = program.isAround other := by
  funext header
  rw [Bool.eq_iff_iff, isAround_iff hbalanced, isAround_iff hbalanced]
  constructor
  · rintro ⟨hfunction, close, hpair, haround⟩
    exact ⟨hfunction, close, hpair, (h header close hfunction hpair).1 haround⟩
  · rintro ⟨hfunction, close, hpair, haround⟩
    exact ⟨hfunction, close, hpair, (h header close hfunction hpair).2 haround⟩

/-- Where no function begins or ends, the same functions are around the next position. -/
theorem isAround_succ {position : Nat} (hstart : program.isFunction position = false)
    (hstop : ∀ header, program.isFunction header = true →
      ¬ Bracket.Pair program.brackets header position) :
    program.isAround (position + 1) = program.isAround position := by
  apply isAround_congr hbalanced
  intro header close hfunction hpair
  have hheader : header ≠ position := by
    rintro rfl
    rw [hstart] at hfunction
    exact absurd hfunction (by simp)
  have hclose : close ≠ position := by
    rintro rfl
    exact hstop header hfunction hpair
  omega

theorem frame?_succ {position : Nat} (hstart : program.isFunction position = false)
    (hstop : ∀ header, program.isFunction header = true →
      ¬ Bracket.Pair program.brackets header position) :
    program.frame? (position + 1) = program.frame? position := by
  rw [frame?, isAround_succ hbalanced hstart hstop, frame?]

/-- The functions around the header of a block are around the position after the block. -/
theorem isAround_after {header close : Nat} (hpair : Bracket.Pair program.brackets header close) :
    program.isAround (close + 1) = program.isAround header := by
  apply isAround_congr hbalanced
  intro other otherClose _ hother
  have hlt := hpair.lt
  have hotherLt := hother.lt
  have hne : otherClose ≠ header := by
    rintro rfl
    have hopens := hpair.opens
    rw [hother.closes] at hopens
    exact absurd (Option.some.inj hopens) (by decide)
  rcases Nat.lt_trichotomy other header with hbefore | rfl | hafter
  · have hnested := hother.nested_or_disjoint hpair hbefore
    omega
  · have hsame := hother.close_unique hpair
    omega
  · have hnested := hpair.nested_or_disjoint hother hafter
    omega

theorem frame?_after {header close : Nat} (hpair : Bracket.Pair program.brackets header close) :
    program.frame? (close + 1) = program.frame? header := by
  rw [frame?, isAround_after hbalanced hpair, frame?]

/-- The functions around the header of a block that is no function are around its `end`. -/
theorem isAround_close {header close : Nat} (hpair : Bracket.Pair program.brackets header close)
    (hheader : program.isFunction header = false) :
    program.isAround close = program.isAround header := by
  have hclose : program.isFunction close = false := by
    rw [Bool.eq_false_iff]
    intro hfunction
    obtain ⟨node, past, signature, hnode, haction⟩ := isFunction_iff.1 hfunction
    have hcloses := hpair.closes
    rw [bracket_of_node hnode, haction] at hcloses
    exact absurd hcloses (by simp [Action.bracket])
  have hopener : ∀ other, program.isFunction other = true →
      ¬ Bracket.Pair program.brackets other close := by
    intro other hfunction hother
    rw [hother.header_unique hpair, hheader] at hfunction
    exact absurd hfunction (by simp)
  calc
    program.isAround close = program.isAround (close + 1) :=
      (isAround_succ hbalanced hclose hopener).symm
    _ = program.isAround header := isAround_after hbalanced hpair

theorem frame?_close {header close : Nat} (hpair : Bracket.Pair program.brackets header close)
    (hheader : program.isFunction header = false) :
    program.frame? close = program.frame? header := by
  rw [frame?, isAround_close hbalanced hpair hheader, frame?]

/-- The latest function around a position is its frame. -/
theorem frame?_eq_some {position header : Nat} (haround : program.isAround position header = true)
    (hlast : ∀ other, program.isAround position other = true → other ≤ header) :
    program.frame? position = some header := by
  obtain ⟨-, close, hpair, -, -⟩ := (isAround_iff hbalanced).1 haround
  have hlt : header < program.size := by
    obtain ⟨hlt, -⟩ := List.getElem?_eq_some_iff.1 hpair.opens
    simpa [brackets, size] using hlt
  obtain ⟨rest, hrest⟩ := Nat.exists_eq_add_of_lt hlt
  have hsplit : List.range program.size =
      List.range header ++ header :: (List.range rest).map (header + 1 + ·) := by
    rw [hrest, Nat.add_right_comm, List.range_add, List.range_succ, List.append_assoc]
    rfl
  have hnone :
      ((List.range rest).map (header + 1 + ·)).filter (program.isAround position) = [] := by
    rw [List.filter_eq_nil_iff]
    intro other hmem hother
    obtain ⟨i, -, rfl⟩ := List.mem_map.1 hmem
    have hle := hlast _ hother
    omega
  rw [frame?, hsplit, List.filter_append, List.filter_cons_of_pos haround, hnone]
  exact List.getLast?_concat

/-- A frame begins before the position that has it. -/
theorem lt_of_frame? {position header : Nat} (h : program.frame? position = some header) :
    header < position := by
  have hmem := List.mem_of_getLast? h
  obtain ⟨-, -, -, hlt, -⟩ := (isAround_iff hbalanced).1 (List.mem_filter.1 hmem).2
  exact hlt

/-- The body of a function and its `end` have the function as their frame. -/
theorem frame?_body {header close : Nat} (hpair : Bracket.Pair program.brackets header close)
    (hfunction : program.isFunction header = true) :
    program.frame? (header + 1) = some header ∧ program.frame? close = some header := by
  have hlt := hpair.lt
  constructor
  · apply frame?_eq_some hbalanced
    · exact (isAround_iff hbalanced).2 ⟨hfunction, close, hpair, by omega, by omega⟩
    · intro other hother
      obtain ⟨-, -, -, hother, -⟩ := (isAround_iff hbalanced).1 hother
      omega
  · apply frame?_eq_some hbalanced
    · exact (isAround_iff hbalanced).2 ⟨hfunction, close, hpair, by omega, by omega⟩
    · intro other hother
      obtain ⟨-, otherClose, hpairOther, hotherLt, hle⟩ := (isAround_iff hbalanced).1 hother
      by_contra hafter
      have hnested := hpair.nested_or_disjoint hpairOther (by omega)
      omega

/-- Past the last position there is no frame. -/
theorem frame?_of_size_le {position : Nat} (h : program.size ≤ position) :
    program.frame? position = none := by
  rw [frame?, List.getLast?_eq_none_iff, List.filter_eq_nil_iff]
  intro header _ haround
  obtain ⟨-, close, hpair, -, hle⟩ := (isAround_iff hbalanced).1 haround
  have hclose : close < program.size := by simpa [brackets, size] using hpair.lt_length
  omega

/-- The frame of the next position, which is none where there is no next position. -/
theorem frame?_next? (position : Nat) :
    (program.next? position).bind program.frame? = program.frame? (position + 1) := by
  by_cases h : position + 1 < program.size
  · rw [next?_eq_some h]
    rfl
  · rw [next?_eq_none (Nat.not_lt.1 h), frame?_of_size_le hbalanced (Nat.not_lt.1 h)]
    rfl

end LineScript.Program
