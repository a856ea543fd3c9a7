import LineScript.Proofs.Expr.Evaluation
import LineScript.Proofs.Expr.PostOrder

/-!
# Compiling in one descent

An expression may be compiled while it is read, without a tree in between. The descent has a
function for every level of the grammar, all of them working on one array of nodes: a function adds
the nodes of what it reads and returns the position of the last one, by which the caller refers to
it. A chain of operators is read in a loop, which keeps the position of all that stands to the left
of the next operator.

What a function adds is the listing of one tree: the nodes of a right operand come right behind
those of the left one because nothing else is added between the two calls, whatever parentheses and
unary operators there are on the way. So the array is the tree in post-order, and it is the one that
`Expr.parse` compiles. Where the descent fails, it fails as `Expr.parse` does. Positions are 32-bit
quantities, and it takes more nodes than there are positions to tell the two apart.
-/

namespace LineScript

namespace Descent

/-! ## The descent -/

/-- The number of positions that there are. -/
def idCount : Nat := 0x100000000

/-- The position that stands for a number; numbers that are too large stand for the last one. -/
def idOf (number : Nat) : Nat :=
  min number (idCount - 1)

/-- What has been read of some tokens: which are left, all nodes so far, and the last node added. -/
structure Parsed (bound : Nat) where
  rest : List Lexeme
  nodes : Array ExprNode
  root : Nat
  length_lt : rest.length < bound

def Parsed.widen {bound wider : Nat} (parsed : Parsed bound) (h : bound ≤ wider) : Parsed wider :=
  { parsed with length_lt := Nat.lt_of_lt_of_le parsed.length_lt h }

def alloc {bound : Nat} (rest : List Lexeme) (nodes : Array ExprNode) (node : ExprNode)
    (h : rest.length < bound) : Parsed bound :=
  ⟨rest, nodes.push node, idOf nodes.size, h⟩

def unexpected (stop : Nat) (rest : List Lexeme) (expected : Expectation) : ParseError :=
  match rest with
  | [] => .unexpectedToken none expected stop
  | lexeme :: _ => .unexpectedToken (some lexeme.token) expected lexeme.offset

/-- The binary operator of a level that a token is. -/
def operator? (level : Nat) : Token → Option BinaryOp
  | .symbol s => s.binary?.filter fun op ↦ op.level == level
  | .atom _ => none

def sign? : Token → Option UnaryOp
  | .symbol s => s.unary?
  | .atom _ => none

/-- Passes over the parenthesis behind an expression in parentheses. -/
def close {bound : Nat} (stop : Nat) (inner : Parsed bound) : Except ParseError (Parsed bound) :=
  match inner with
  | ⟨[], _, _, _⟩ => .error (unexpected stop [] .closeParen)
  | ⟨lexeme :: rest, nodes, root, h⟩ =>
    if lexeme.token = .symbol .closeParen then .ok ⟨rest, nodes, root, Nat.lt_of_succ_lt h⟩
    else .error (unexpected stop (lexeme :: rest) .closeParen)

mutual

/-- Reads an expression of a level: a chain of its operators, if it has any. -/
def expression (stop level : Nat) (rest : List Lexeme) (nodes : Array ExprNode) :
    Except ParseError (Parsed rest.length) :=
  if level < 6 then do
    let left ← expression stop (level + 1) rest nodes
    let whole ← extend stop level left.rest left.nodes left.root
    return whole.widen left.length_lt
  else prefixed stop rest nodes
termination_by (rest.length, 2 + (6 - level))
decreasing_by
  · exact .right _ (by omega)
  · exact .left _ _ left.length_lt
  · exact .right _ (by omega)

/-- The loop over the operators of a level behind what has been read of a chain. -/
def extend (stop level : Nat) (rest : List Lexeme) (nodes : Array ExprNode) (left : Nat) :
    Except ParseError (Parsed (rest.length + 1)) :=
  match rest with
  | [] => .ok ⟨[], nodes, left, Nat.lt_succ_self _⟩
  | lexeme :: others =>
    match operator? level lexeme.token with
    | none => .ok ⟨lexeme :: others, nodes, left, Nat.lt_succ_self _⟩
    | some op => do
      let right ← expression stop (level + 1) others nodes
      let whole := alloc right.rest right.nodes (.binary op left right.root) right.length_lt
      let last ← extend stop level whole.rest whole.nodes whole.root
      return last.widen (Nat.le_succ_of_le (Nat.le_succ_of_le whole.length_lt))
termination_by (rest.length, 0)
decreasing_by
  · exact .left _ _ (Nat.lt_succ_self _)
  · exact .left _ _ (Nat.lt_succ_of_lt whole.length_lt)

/-- Reads unary operators and what they are in front of. -/
def prefixed (stop : Nat) (rest : List Lexeme) (nodes : Array ExprNode) :
    Except ParseError (Parsed rest.length) :=
  match rest with
  | [] => .error (unexpected stop [] .value)
  | lexeme :: others =>
    match sign? lexeme.token with
    | none => primary stop lexeme others nodes
    | some op => do
      let operand ← prefixed stop others nodes
      return alloc operand.rest operand.nodes (.unary op operand.root)
        (Nat.lt_succ_of_lt operand.length_lt)
termination_by (rest.length, 1)

/-- Reads a value, or an expression in parentheses. -/
def primary (stop : Nat) (lexeme : Lexeme) (others : List Lexeme) (nodes : Array ExprNode) :
    Except ParseError (Parsed (others.length + 1)) :=
  match lexeme.token with
  | .atom a => .ok (alloc others nodes (.atom a) (Nat.lt_succ_self _))
  | .symbol .openParen => do
    let inner ← expression stop 0 others nodes
    let closed ← close stop inner
    return closed.widen (Nat.le_succ _)
  | .symbol _ => .error (unexpected stop (lexeme :: others) .value)
termination_by (others.length + 1, 0)

end

def compile (text : String) : Except ParseError Arena := do
  let found ← scan text
  if found.lexemes.isEmpty then .error .empty
  else
    let whole ← expression found.stop 0 found.lexemes #[]
    if whole.rest.isEmpty then return ⟨whole.nodes, whole.root⟩
    else .error (unexpected found.stop whole.rest .operatorOrEnd)

variable {stop level root : Nat} {rest lexemes others : List Lexeme} {lexeme : Lexeme}
  {nodes after : Array ExprNode} {tree : Tree} {error : ParseError}

theorem operator?_eq_some_iff {token : Token} {op : BinaryOp} :
    operator? level token = some op ↔ token = .symbol op.symbol ∧ op.level = level := by
  cases token with
  | atom a => simp [operator?]
  | symbol s => simp [operator?, Option.filter_eq_some_iff, Symbol.binary?_eq_some_iff]

theorem sign?_eq_some_iff {token : Token} {op : UnaryOp} :
    sign? token = some op ↔ token = .symbol op.symbol := by
  cases token with
  | atom a => simp [sign?]
  | symbol s => simp [sign?, Symbol.unary?_eq_some_iff]

theorem close_eq_ok {bound : Nat} {inner closed : Parsed bound} (h : close stop inner = .ok closed) :
    ∃ lexeme, lexeme.token = .symbol .closeParen ∧ inner.rest = lexeme :: closed.rest ∧
      closed.nodes = inner.nodes ∧ closed.root = inner.root := by
  unfold close at h
  split at h
  · cases h
  · split at h
    · rename_i lexeme _ _ _ _ hclose
      cases h
      exact ⟨lexeme, hclose, rfl, rfl, rfl⟩
    · cases h

theorem close_eq_error {bound : Nat} {inner : Parsed bound} (h : close stop inner = .error error) :
    error = unexpected stop inner.rest .closeParen ∧
      ∀ lexeme ∈ inner.rest.head?, lexeme.token ≠ .symbol .closeParen := by
  unfold close at h
  split at h
  · cases h
    exact ⟨rfl, fun _ hmem ↦ by cases hmem⟩
  · split at h
    · cases h
    · rename_i hother
      cases h
      refine ⟨rfl, fun found hmem ↦ ?_⟩
      cases hmem
      exact hother

theorem primary_of_symbol {symbol : Symbol} (htoken : lexeme.token = .symbol symbol)
    (hother : symbol ≠ .openParen) (nodes : Array ExprNode) :
    primary stop lexeme others nodes = .error (unexpected stop (lexeme :: others) .value) := by
  rw [primary, htoken]
  cases symbol <;> first | rfl | exact absurd rfl hother

/-! ## Soundness -/

/--
The nodes of a tree were added behind others, and its root was referred to by its position, unless
there were more nodes than positions.
-/
structure Adds (nodes : Array ExprNode) (tree : Tree) (after : Array ExprNode) (root : Nat) :
    Prop where
  size_eq : after.size = nodes.size + tree.size
  toList_eq : after.size ≤ idCount → after.toList = nodes.toList ++ tree.listing nodes.size
  root_eq : after.size ≤ idCount → root + 1 = after.size

theorem idOf_of_lt {number : Nat} (h : number + 1 ≤ idCount) : idOf number = number := by
  rw [idOf]
  omega

namespace Adds

theorem atom (nodes : Array ExprNode) (a : Atom) :
    Adds nodes (.atom a) (nodes.push (.atom a)) (idOf nodes.size) where
  size_eq := Array.size_push _
  toList_eq _ := Array.toList_push
  root_eq hfits := by
    rw [Array.size_push] at hfits ⊢
    rw [idOf_of_lt hfits]

theorem unary {op : UnaryOp} (h : Adds nodes tree after root) :
    Adds nodes (.unary op tree) (after.push (.unary op root)) (idOf after.size) where
  size_eq := by rw [Array.size_push, h.size_eq, Tree.size, Nat.add_assoc]
  toList_eq hfits := by
    rw [Array.size_push] at hfits
    have hroot : root = nodes.size + tree.size - 1 := by
      have hlast := h.root_eq (Nat.le_of_succ_le hfits)
      have hsize := h.size_eq
      omega
    rw [Array.toList_push, h.toList_eq (Nat.le_of_succ_le hfits), Tree.listing, hroot,
      List.append_assoc]
  root_eq hfits := by
    rw [Array.size_push] at hfits ⊢
    rw [idOf_of_lt hfits]

/-- The nodes of the right operand stand between those of the left one and the new one. -/
theorem binary {op : BinaryOp} {left right : Tree} {between : Array ExprNode} {first second : Nat}
    (hleft : Adds nodes left between first) (hright : Adds between right after second) :
    Adds nodes (.binary op left right) (after.push (.binary op first second)) (idOf after.size) where
  size_eq := by
    rw [Array.size_push, hright.size_eq, hleft.size_eq, Tree.size]
    omega
  toList_eq hfits := by
    rw [Array.size_push] at hfits
    have hsize := hleft.size_eq
    have hafter : after.size ≤ idCount := Nat.le_of_succ_le hfits
    have hbetween : between.size ≤ idCount := by
      have hle := hright.size_eq
      omega
    have hfirst : first = nodes.size + left.size - 1 := by
      have hlast := hleft.root_eq hbetween
      omega
    have hsecond : second = nodes.size + left.size + right.size - 1 := by
      have hlast := hright.root_eq hafter
      have hle := hright.size_eq
      omega
    rw [Array.toList_push, hright.toList_eq hafter, hleft.toList_eq hbetween, hsize, Tree.listing,
      hfirst, hsecond]
    simp only [List.append_assoc]
  root_eq hfits := by
    rw [Array.size_push] at hfits ⊢
    rw [idOf_of_lt hfits]

end Adds

/-- Tokens were read as an expression of a level, up to those that are left, and its nodes added. -/
structure Reads (level : Nat) (lexemes : List Lexeme) (nodes : Array ExprNode) (tree : Tree)
    (rest : List Lexeme) (after : Array ExprNode) (root : Nat) : Prop where
  derives : ∃ taken, lexemes = taken ++ rest ∧
    Derives level (taken.map fun lexeme ↦ lexeme.token) tree
  adds : Adds nodes tree after root

/-- What is left does not begin with an operator of a level, or of a tighter one. -/
def Stops (level : Nat) (rest : List Lexeme) : Prop :=
  ∀ lexeme ∈ rest.head?, ∀ op : BinaryOp, lexeme.token = .symbol op.symbol → op.level < level

/-- All binary operators are looser than the unary ones. -/
theorem stops_six (rest : List Lexeme) : Stops 6 rest :=
  fun _ _ op _ ↦ op.level_lt

theorem Stops.loosen (h : Stops (level + 1) (lexeme :: rest))
    (hnone : operator? level lexeme.token = none) : Stops level (lexeme :: rest) := by
  intro found hmem op htoken
  have hlt := h found hmem op htoken
  cases hmem
  refine Nat.lt_of_le_of_ne (Nat.le_of_lt_succ hlt) fun hlevel ↦ ?_
  rw [operator?_eq_some_iff.2 ⟨htoken, hlevel⟩] at hnone
  cases hnone

namespace Reads

theorem tighter (h : Reads (level + 1) lexemes nodes tree rest after root) (hlt : level < 7) :
    Reads level lexemes nodes tree rest after root := by
  obtain ⟨taken, hlexemes, hderives⟩ := h.derives
  exact ⟨⟨taken, hlexemes, .tighter hlt hderives⟩, h.adds⟩

theorem binary {op : BinaryOp} {left right : Tree} {between : Array ExprNode} {first second : Nat}
    (hleft : Reads op.level lexemes nodes left (lexeme :: others) between first)
    (hlexeme : lexeme.token = .symbol op.symbol)
    (hright : Reads (op.level + 1) others between right rest after second) :
    Reads op.level lexemes nodes (.binary op left right) rest
      (after.push (.binary op first second)) (idOf after.size) := by
  obtain ⟨taken, hlexemes, hderives⟩ := hleft.derives
  obtain ⟨more, hothers, hderives'⟩ := hright.derives
  refine ⟨⟨taken ++ lexeme :: more, ?_, ?_⟩, hleft.adds.binary hright.adds⟩
  · rw [hlexemes, hothers, List.append_assoc, List.cons_append]
  · rw [List.map_append, List.map_cons, hlexeme]
    exact .binary hderives hderives'

theorem unary {op : UnaryOp} (hlexeme : lexeme.token = .symbol op.symbol)
    (h : Reads 6 others nodes tree rest after root) :
    Reads 6 (lexeme :: others) nodes (.unary op tree) rest (after.push (.unary op root))
      (idOf after.size) := by
  obtain ⟨taken, hothers, hderives⟩ := h.derives
  refine ⟨⟨lexeme :: taken, ?_, ?_⟩, h.adds.unary⟩
  · rw [hothers, List.cons_append]
  · rw [List.map_cons, hlexeme]
    exact hderives.unary

theorem atom {a : Atom} (hlexeme : lexeme.token = .atom a) (nodes : Array ExprNode) :
    Reads 7 (lexeme :: others) nodes (.atom a) others (nodes.push (.atom a))
      (idOf nodes.size) := by
  refine ⟨⟨[lexeme], rfl, ?_⟩, .atom nodes a⟩
  rw [List.map_cons, hlexeme]
  exact .atom a

/-- Parentheses add no node. -/
theorem group {closing : Lexeme} (hopen : lexeme.token = .symbol .openParen)
    (h : Reads 0 others nodes tree (closing :: rest) after root)
    (hclose : closing.token = .symbol .closeParen) :
    Reads 7 (lexeme :: others) nodes tree rest after root := by
  obtain ⟨taken, hothers, hderives⟩ := h.derives
  refine ⟨⟨lexeme :: (taken ++ [closing]), ?_, ?_⟩, h.adds⟩
  · rw [hothers]
    simp
  · rw [List.map_cons, List.map_append, List.map_singleton, hopen, hclose]
    exact .group hderives

end Reads

def ExpressionSound (stop level : Nat) (rest : List Lexeme) (nodes : Array ExprNode) : Prop :=
  level ≤ 6 → ∀ parsed, expression stop level rest nodes = .ok parsed →
    ∃ tree, Reads level rest nodes tree parsed.rest parsed.nodes parsed.root ∧
      Stops level parsed.rest

def PrefixedSound (stop : Nat) (rest : List Lexeme) (nodes : Array ExprNode) : Prop :=
  ∀ parsed, prefixed stop rest nodes = .ok parsed →
    ∃ tree, Reads 6 rest nodes tree parsed.rest parsed.nodes parsed.root

def PrimarySound (stop : Nat) (lexeme : Lexeme) (others : List Lexeme)
    (nodes : Array ExprNode) : Prop :=
  ∀ parsed, primary stop lexeme others nodes = .ok parsed →
    ∃ tree, Reads 7 (lexeme :: others) nodes tree parsed.rest parsed.nodes parsed.root

/-- The loop turns what was read of a chain into all of it. -/
def ExtendSound (stop level : Nat) (rest : List Lexeme) (between : Array ExprNode) (left : Nat) :
    Prop :=
  ∀ {lexemes : List Lexeme} {nodes : Array ExprNode} {tree : Tree},
    Reads level lexemes nodes tree rest between left → Stops (level + 1) rest →
      ∀ parsed, extend stop level rest between left = .ok parsed →
        ∃ tree, Reads level lexemes nodes tree parsed.rest parsed.nodes parsed.root ∧
          Stops level parsed.rest

theorem expressionSound_of_chain (hlevel : level < 6)
    (ihLeft : ExpressionSound stop (level + 1) rest nodes)
    (ihWhole : ∀ left : Parsed rest.length,
      ExtendSound stop level left.rest left.nodes left.root) :
    ExpressionSound stop level rest nodes := by
  intro _ parsed h
  rw [expression, if_pos hlevel] at h
  obtain ⟨left, hleft, h⟩ := Chain.bind_eq_ok_iff.1 h
  obtain ⟨whole, hwhole, h⟩ := Chain.bind_eq_ok_iff.1 h
  cases h
  obtain ⟨tree, hreads, hstops⟩ := ihLeft hlevel left hleft
  exact ihWhole left (hreads.tighter (by omega)) hstops whole hwhole

theorem expressionSound_of_prefixed (hlevel : ¬ level < 6) (ih : PrefixedSound stop rest nodes) :
    ExpressionSound stop level rest nodes := by
  intro hle parsed h
  obtain rfl : level = 6 := by omega
  rw [expression, if_neg hlevel] at h
  obtain ⟨tree, hreads⟩ := ih parsed h
  exact ⟨tree, hreads, stops_six _⟩

theorem extendSound_of_operator {op : BinaryOp} {left : Nat}
    (hop : operator? level lexeme.token = some op)
    (ihRight : ExpressionSound stop (level + 1) others nodes)
    (ihLast : ∀ right : Parsed others.length, ExtendSound stop level right.rest
      (right.nodes.push (.binary op left right.root)) (idOf right.nodes.size)) :
    ExtendSound stop level (lexeme :: others) nodes left := by
  intro lexemes start tree hreads _ parsed h
  rw [extend, hop] at h
  obtain ⟨right, hright, h⟩ := Chain.bind_eq_ok_iff.1 h
  obtain ⟨last, hlast, h⟩ := Chain.bind_eq_ok_iff.1 h
  cases h
  obtain ⟨htoken, rfl⟩ := operator?_eq_some_iff.1 hop
  obtain ⟨rightTree, hreads', hstops⟩ := ihRight op.level_lt right hright
  exact ihLast right (hreads.binary htoken hreads') hstops last hlast

theorem prefixedSound_of_sign {op : UnaryOp} (hop : sign? lexeme.token = some op)
    (ih : PrefixedSound stop others nodes) : PrefixedSound stop (lexeme :: others) nodes := by
  intro parsed h
  rw [prefixed, hop] at h
  obtain ⟨operand, hoperand, h⟩ := Chain.bind_eq_ok_iff.1 h
  cases h
  obtain ⟨tree, hreads⟩ := ih operand hoperand
  exact ⟨_, hreads.unary (sign?_eq_some_iff.1 hop)⟩

theorem primarySound_of_group (hopen : lexeme.token = .symbol .openParen)
    (ih : ExpressionSound stop 0 others nodes) : PrimarySound stop lexeme others nodes := by
  intro parsed h
  rw [primary, hopen] at h
  obtain ⟨inner, hinner, h⟩ := Chain.bind_eq_ok_iff.1 h
  obtain ⟨closed, hclosed, h⟩ := Chain.bind_eq_ok_iff.1 h
  cases h
  obtain ⟨tree, hreads, -⟩ := ih (Nat.zero_le 6) inner hinner
  obtain ⟨closing, hclose, hrest, hnodes, hroot⟩ := close_eq_ok hclosed
  rw [hrest, ← hnodes, ← hroot] at hreads
  exact ⟨tree, hreads.group hopen hclose⟩

/-- What is read is an expression, and its nodes are added in post-order. -/
theorem expressionSound (stop level : Nat) (rest : List Lexeme) (nodes : Array ExprNode) :
    ExpressionSound stop level rest nodes := by
  -- The cases are those of the recursion: at each level a chain, its loop, and what is tighter.
  refine (expression.mutual_induct (ExpressionSound stop) (PrefixedSound stop) (PrimarySound stop)
    (ExtendSound stop) ?chain ?tightest ?missing ?unsigned ?signed ?atom ?group ?symbol ?exhausted
    ?finished ?operator).1 level rest nodes
  case chain => exact fun _ _ _ ↦ expressionSound_of_chain
  case tightest => exact fun _ _ _ ↦ expressionSound_of_prefixed
  case missing =>
    intro nodes parsed h
    rw [prefixed] at h
    cases h
  case unsigned =>
    intro nodes lexeme others hop ih parsed h
    rw [prefixed, hop] at h
    obtain ⟨tree, hreads⟩ := ih parsed h
    exact ⟨tree, hreads.tighter (by decide)⟩
  case signed => exact fun _ _ _ _ ↦ prefixedSound_of_sign
  case atom =>
    intro lexeme others nodes a htoken parsed h
    rw [primary, htoken] at h
    cases h
    exact ⟨_, .atom htoken nodes⟩
  case group => exact fun _ _ _ ↦ primarySound_of_group
  case symbol =>
    intro lexeme others nodes symbol hother htoken parsed h
    rw [primary_of_symbol htoken hother] at h
    cases h
  case exhausted =>
    intro level nodes left lexemes start tree hreads _ parsed h
    rw [extend] at h
    cases h
    exact ⟨tree, hreads, fun _ hmem ↦ by cases hmem⟩
  case finished =>
    intro level nodes left lexeme others hop lexemes start tree hreads hstops parsed h
    rw [extend, hop] at h
    cases h
    exact ⟨tree, hreads, hstops.loosen hop⟩
  case operator => exact fun _ _ _ _ _ _ ↦ extendSound_of_operator

/-! ## Failures -/

open Reading (Waiting complete complete_of_waiting steps_cons steps_append steps_of_derives
  wantingStep_of_unary havingStep_of_binary expectation)

/-- Reading the rest of a text, with the byte that it ends at. -/
def finishes (stop : Nat) (reading : Reading) (rest : List Lexeme) : Except ParseError Tree :=
  reading.steps rest >>= fun last ↦ last.finish stop

theorem finishes_cons {reading next : Reading} (h : reading.step lexeme = .ok next) :
    finishes stop reading (lexeme :: others) = finishes stop next others := by
  rw [finishes, steps_cons h]
  rfl

theorem finishes_cons_of_error {reading : Reading} (h : reading.step lexeme = .error error) :
    finishes stop reading (lexeme :: others) = .error error := by
  rw [finishes, Reading.steps_cons_of_error h]
  rfl

/-- Behind an expression that was read, reading goes on with a value that completes to its tree. -/
theorem Reads.exists_finishes (h : Reads level lexemes nodes tree rest after root)
    (frames : List Frame) (hframes : level < 6 → Waiting level frames) :
    ∃ inner value, (∀ looser ≤ level, complete looser inner value = complete looser frames tree) ∧
      ∀ stop, finishes stop (.wanting frames) lexemes =
        finishes stop (.having inner value) rest := by
  obtain ⟨taken, rfl, hderives⟩ := h.derives
  obtain ⟨inner, value, hsteps, hcomplete⟩ := steps_of_derives hderives frames hframes rfl
  refine ⟨inner, value, hcomplete, fun stop ↦ ?_⟩
  rw [finishes, finishes, steps_append hsteps]

/-- Where no operator follows and nothing else may, that is reported. -/
theorem finishes_of_stops {inner left : List Frame} {value whole : Tree}
    (hcomplete : complete 0 inner value = (left, whole)) (hstops : Stops 0 rest)
    (hend : rest = [] → left ≠ [])
    (hclose : ∀ outer, left = .group :: outer →
      ∀ lexeme ∈ rest.head?, lexeme.token ≠ .symbol .closeParen) :
    finishes stop (.having inner value) rest =
      .error (unexpected stop rest (expectation left)) := by
  cases rest with
  | nil =>
    change Reading.finish stop (.having inner value) = _
    rw [Reading.finish, hcomplete]
    cases left with
    | nil => exact absurd rfl (hend rfl)
    | cons frame outer => rfl
  | cons lexeme others =>
    refine finishes_cons_of_error ?_
    change Reading.havingStep inner value lexeme = _
    unfold Reading.havingStep
    rw [hcomplete]
    dsimp only
    split
    · rename_i outer htoken
      exact absurd htoken (hclose outer rfl lexeme rfl)
    · rename_i symbol htoken _
      split
      · rename_i op hop
        rw [Symbol.binary?_eq_some_iff.1 hop] at htoken
        exact absurd (hstops lexeme rfl op htoken) (Nat.not_lt_zero _)
      · rfl
    · rfl

def ExpressionFails (stop level : Nat) (rest : List Lexeme) (nodes : Array ExprNode) : Prop :=
  level ≤ 6 → ∀ error, expression stop level rest nodes = .error error →
    ∀ frames, (level < 6 → Waiting level frames) →
      finishes stop (.wanting frames) rest = .error error

def PrefixedFails (stop : Nat) (rest : List Lexeme) (nodes : Array ExprNode) : Prop :=
  ∀ error, prefixed stop rest nodes = .error error →
    ∀ frames, finishes stop (.wanting frames) rest = .error error

def PrimaryFails (stop : Nat) (lexeme : Lexeme) (others : List Lexeme)
    (nodes : Array ExprNode) : Prop :=
  sign? lexeme.token = none → ∀ error, primary stop lexeme others nodes = .error error →
    ∀ frames, finishes stop (.wanting frames) (lexeme :: others) = .error error

/-- The loop fails as reading does with the chain so far for a value. -/
def ExtendFails (stop level : Nat) (rest : List Lexeme) (between : Array ExprNode) (left : Nat) :
    Prop :=
  ∀ error, extend stop level rest between left = .error error →
    ∀ {frames inner : List Frame} {tree value : Tree}, Waiting level frames →
      (∀ looser ≤ level, complete looser inner value = complete looser frames tree) →
        finishes stop (.having inner value) rest = .error error

theorem expressionFails_of_chain (hlevel : level < 6)
    (ihLeft : ExpressionFails stop (level + 1) rest nodes)
    (ihWhole : ∀ left : Parsed rest.length,
      ExtendFails stop level left.rest left.nodes left.root) :
    ExpressionFails stop level rest nodes := by
  intro _ error h frames hframes
  have hwaiting := hframes hlevel
  have htight : level + 1 < 6 → Waiting (level + 1) frames :=
    fun _ ↦ hwaiting.tighten (Nat.le_succ level)
  rw [expression, if_pos hlevel] at h
  rcases Chain.bind_eq_error_iff.1 h with hleft | ⟨left, hleft, h⟩
  · exact ihLeft hlevel error hleft frames htight
  · rcases Chain.bind_eq_error_iff.1 h with hwhole | ⟨whole, -, h⟩
    · obtain ⟨tree, hreads, -⟩ := expressionSound stop (level + 1) rest nodes hlevel left hleft
      obtain ⟨inner, value, hcomplete, hfinishes⟩ := hreads.exists_finishes _ htight
      rw [hfinishes]
      exact ihWhole left error hwhole hwaiting
        fun looser hle ↦ hcomplete looser (Nat.le_succ_of_le hle)
    · cases h

theorem extendFails_of_operator {op : BinaryOp} {left : Nat}
    (hop : operator? level lexeme.token = some op)
    (ihRight : ExpressionFails stop (level + 1) others nodes)
    (ihLast : ∀ right : Parsed others.length, ExtendFails stop level right.rest
      (right.nodes.push (.binary op left right.root)) (idOf right.nodes.size)) :
    ExtendFails stop level (lexeme :: others) nodes left := by
  intro error h frames inner tree value hwaiting hcomplete
  obtain ⟨htoken, rfl⟩ := operator?_eq_some_iff.1 hop
  have hstep : (Reading.having inner value).step lexeme =
      .ok (.wanting (.binary op tree :: frames)) := by
    change Reading.havingStep inner value lexeme = _
    rw [havingStep_of_binary htoken, hcomplete op.level (Nat.le_refl _),
      complete_of_waiting hwaiting]
  have hinner : op.level + 1 < 6 → Waiting (op.level + 1) (.binary op tree :: frames) :=
    fun _ ↦ Nat.lt_succ_self op.level
  rw [finishes_cons hstep]
  rw [extend, hop] at h
  rcases Chain.bind_eq_error_iff.1 h with hright | ⟨right, hright, h⟩
  · exact ihRight op.level_lt error hright _ hinner
  · rcases Chain.bind_eq_error_iff.1 h with hlast | ⟨last, -, h⟩
    · obtain ⟨rightTree, hreads, -⟩ :=
        expressionSound stop (op.level + 1) others nodes op.level_lt right hright
      obtain ⟨inner', value', hcomplete', hfinishes⟩ := hreads.exists_finishes _ hinner
      have hwhole : ∀ looser ≤ op.level,
          complete looser inner' value' = complete looser frames (.binary op tree rightTree) := by
        intro looser hle
        calc
          complete looser inner' value' =
              complete looser (.binary op tree :: frames) rightTree :=
            hcomplete' looser (Nat.le_succ_of_le hle)
          _ = complete looser frames (.binary op tree rightTree) := if_pos hle
      rw [hfinishes]
      exact ihLast right error hlast hwaiting hwhole
    · cases h

theorem prefixedFails_of_sign {op : UnaryOp} (hop : sign? lexeme.token = some op)
    (ih : PrefixedFails stop others nodes) : PrefixedFails stop (lexeme :: others) nodes := by
  intro error h frames
  have hstep : (Reading.wanting frames).step lexeme = .ok (.wanting (.unary op :: frames)) :=
    wantingStep_of_unary (sign?_eq_some_iff.1 hop)
  rw [finishes_cons hstep]
  rw [prefixed, hop] at h
  rcases Chain.bind_eq_error_iff.1 h with hoperand | ⟨operand, -, h⟩
  · exact ih error hoperand _
  · cases h

theorem primaryFails_of_group (hopen : lexeme.token = .symbol .openParen)
    (ih : ExpressionFails stop 0 others nodes) : PrimaryFails stop lexeme others nodes := by
  intro _ error h frames
  have hstep : (Reading.wanting frames).step lexeme = .ok (.wanting (.group :: frames)) := by
    change Reading.wantingStep frames lexeme = _
    unfold Reading.wantingStep
    rw [hopen]
  rw [finishes_cons hstep]
  rw [primary, hopen] at h
  rcases Chain.bind_eq_error_iff.1 h with hinner | ⟨inner, hinner, h⟩
  · exact ih (Nat.zero_le 6) error hinner _ fun _ ↦ trivial
  · rcases Chain.bind_eq_error_iff.1 h with hclose | ⟨closed, -, h⟩
    · obtain ⟨tree, hreads, hstops⟩ :=
        expressionSound stop 0 others nodes (Nat.zero_le 6) inner hinner
      obtain ⟨opened, value, hcomplete, hfinishes⟩ :=
        hreads.exists_finishes (.group :: frames) fun _ ↦ trivial
      obtain ⟨rfl, hother⟩ := close_eq_error hclose
      rw [hfinishes]
      exact finishes_of_stops (hcomplete 0 (Nat.le_refl 0)) hstops (fun _ ↦ by simp)
        fun _ _ ↦ hother
    · cases h

theorem primaryFails_of_symbol {symbol : Symbol} (htoken : lexeme.token = .symbol symbol)
    (hother : symbol ≠ .openParen) (nodes : Array ExprNode) :
    PrimaryFails stop lexeme others nodes := by
  intro hsign error h frames
  rw [primary_of_symbol htoken hother] at h
  cases h
  refine finishes_cons_of_error ?_
  change Reading.wantingStep frames lexeme = _
  unfold Reading.wantingStep
  rw [htoken] at hsign ⊢
  split
  · rename_i heq
    cases heq
  · rename_i heq
    cases heq
    exact absurd rfl hother
  · rename_i heq
    cases heq
    rw [sign?] at hsign
    rw [hsign, unexpected, htoken]

/-- Where an expression cannot be read, reading token by token fails as well, and in the same way. -/
theorem expressionFails (stop level : Nat) (rest : List Lexeme) (nodes : Array ExprNode) :
    ExpressionFails stop level rest nodes := by
  -- Before a call that fails others succeeded; `expressionSound` tells what those have read.
  refine (expression.mutual_induct (ExpressionFails stop) (PrefixedFails stop) (PrimaryFails stop)
    (ExtendFails stop) ?chain ?tightest ?missing ?unsigned ?signed ?atom ?group ?symbol ?exhausted
    ?finished ?operator).1 level rest nodes
  case chain => exact fun _ _ _ ↦ expressionFails_of_chain
  case tightest =>
    intro level rest nodes hlevel ih _ error h frames _
    rw [expression, if_neg hlevel] at h
    exact ih error h frames
  case missing =>
    intro nodes error h frames
    rw [prefixed] at h
    cases h
    rfl
  case unsigned =>
    intro nodes lexeme others hop ih error h
    rw [prefixed, hop] at h
    exact ih hop error h
  case signed => exact fun _ _ _ _ ↦ prefixedFails_of_sign
  case atom =>
    intro lexeme others nodes a htoken _ error h
    rw [primary, htoken] at h
    cases h
  case group => exact fun _ _ _ ↦ primaryFails_of_group
  case symbol => exact fun _ _ nodes _ hother htoken ↦ primaryFails_of_symbol htoken hother nodes
  case exhausted =>
    intro level nodes left error h
    rw [extend] at h
    cases h
  case finished =>
    intro level nodes left lexeme others hop error h
    rw [extend, hop] at h
    cases h
  case operator => exact fun _ _ _ _ _ _ ↦ extendFails_of_operator

theorem Adds.arena_eq (h : Adds #[] tree after root) (hfits : after.size ≤ idCount) :
    (Expr.ofTree tree).arena = ⟨after, root⟩ := by
  have hnodes : (Expr.ofTree tree).nodes = after := by
    apply Array.toList_inj.1
    calc
      (Expr.ofTree tree).nodes.toList = [] ++ tree.listing 0 := tree.toList_listAfter #[]
      _ = after.toList := (h.toList_eq hfits).symm
  have hroot : (Expr.ofTree tree).root = root := by
    have hlast := h.root_eq hfits
    rw [Expr.root, Expr.size, hnodes]
    omega
  rw [Expr.arena, hnodes, hroot]

/-- A text that is compiled has the tokens of an expression, and its nodes are all there are. -/
theorem exists_of_compile {text : String} {arena : Arena} (h : compile text = .ok arena) :
    ∃ found tree, scan text = .ok found ∧ Derives 0 found.tokens tree ∧
      Adds #[] tree arena.nodes arena.root := by
  obtain ⟨found, hscan, h⟩ := Chain.bind_eq_ok_iff.1 h
  split at h
  · cases h
  · obtain ⟨whole, hwhole, h⟩ := Chain.bind_eq_ok_iff.1 h
    obtain ⟨tree, hreads, -⟩ :=
      expressionSound found.stop 0 found.lexemes #[] (Nat.zero_le 6) whole hwhole
    split at h
    · rename_i hrest
      cases h
      obtain ⟨taken, hlexemes, hderives⟩ := hreads.derives
      rw [List.isEmpty_iff.1 hrest, List.append_nil] at hlexemes
      rw [← hlexemes] at hderives
      exact ⟨found, tree, hscan, hderives, hreads.adds⟩
    · cases h

theorem parse_of_compile_error {text : String} (h : compile text = .error error) :
    Expr.parse text = .error error := by
  rw [Expr.parse, Tree.parse]
  rcases Chain.bind_eq_error_iff.1 h with hscan | ⟨found, hscan, h⟩
  · rw [hscan]
    rfl
  rw [hscan]
  refine Chain.map_eq_error_iff.2 ?_
  change Tree.ofScan found = .error error
  split at h
  · rename_i hempty
    cases h
    rw [Tree.ofScan, if_pos hempty]
  rename_i hempty
  have hnonempty : found.lexemes ≠ [] := fun hnil ↦ hempty (List.isEmpty_iff.2 hnil)
  rw [ofScan_of_ne_nil hnonempty]
  change finishes found.stop (.wanting []) found.lexemes = .error error
  rcases Chain.bind_eq_error_iff.1 h with hwhole | ⟨whole, hwhole, h⟩
  · exact expressionFails found.stop 0 found.lexemes #[] (Nat.zero_le 6) error hwhole []
      fun _ ↦ trivial
  · obtain ⟨tree, hreads, hstops⟩ :=
      expressionSound found.stop 0 found.lexemes #[] (Nat.zero_le 6) whole hwhole
    obtain ⟨inner, value, hcomplete, hfinishes⟩ :=
      hreads.exists_finishes [] fun _ ↦ trivial
    split at h
    · cases h
    · rename_i hrest
      cases h
      rw [hfinishes]
      exact finishes_of_stops (hcomplete 0 (Nat.le_refl 0)) hstops
        (fun hnil ↦ absurd (List.isEmpty_iff.2 hnil) hrest) fun _ hgroup ↦ by cases hgroup

/-- The descent gives what `Expr.parse` gives, as long as there are positions for all nodes. -/
theorem compile_eq {text : String} (hfits : ∀ e, Expr.parse text = .ok e → e.size ≤ idCount) :
    compile text = (Expr.parse text).map Expr.arena := by
  cases h : compile text with
  | error error =>
    rw [parse_of_compile_error h]
    rfl
  | ok arena =>
    obtain ⟨found, tree, hscan, hderives, hadds⟩ := exists_of_compile h
    have hparse := parse_of_derives hscan hderives
    have hsize : arena.nodes.size = (Expr.ofTree tree).size := by
      rw [hadds.size_eq, Expr.size_ofTree]
      exact Nat.zero_add _
    have harena := hadds.arena_eq (hsize ▸ hfits _ hparse)
    rw [hparse]
    exact congrArg Except.ok harena.symm

/--
A text that is compiled in one descent is compiled by `Expr.parse`, into the same nodes. They are in
post-order, and they are the tokens of the text without the parentheses, as many as there are of
these, with the values among them in the order of the text. Printing and evaluating them gives what
the tree gives, by recursion on it.
-/
theorem inPostOrder_of_compile {text : String} {arena : Arena} (h : compile text = .ok arena)
    (hfits : arena.nodes.size ≤ idCount) :
    ∃ e, Expr.parse text = .ok e ∧ e.arena = arena ∧ arena.InPostOrder e.tree ∧
      (∃ found, scan text = .ok found ∧ Derives 0 found.tokens e.tree ∧
        (arena.nodes.toList.map ExprNode.token).Perm
          (found.tokens.filter fun token ↦ !token.isParenthesis) ∧
        arena.nodes.size = found.tokens.countP (fun token ↦ !token.isParenthesis) ∧
        arena.nodes.toList.filterMap ExprNode.atom? = found.tokens.filterMap Token.atom?) ∧
      (∀ resolve, e.eval resolve = e.tree.eval resolve) ∧ e.render.toList = e.tree.text := by
  obtain ⟨found, tree, hscan, hderives, hadds⟩ := exists_of_compile h
  have hnodes : arena.nodes.toList = tree.listing 0 := hadds.toList_eq hfits
  have htokens := hderives.perm_token_listing 0
  have hpost := Arena.inPostOrder_of_listing hnodes (hadds.root_eq hfits)
  refine ⟨.ofTree tree, parse_of_derives hscan hderives, hadds.arena_eq hfits, ?_,
    ⟨found, hscan, ?_, ?_, ?_, ?_⟩, fun resolve ↦ ?_, ?_⟩
  · rw [Expr.tree_ofTree]
    exact hpost
  · rw [Expr.tree_ofTree]
    exact hderives
  · rw [hnodes]
    exact htokens
  · have hlength := htokens.length_eq
    rw [List.length_map, ← List.countP_eq_length_filter, ← hnodes, Array.length_toList] at hlength
    exact hlength
  · rw [hnodes, tree.filterMap_atom?_listing, hderives.filterMap_atom?]
  · rw [Expr.tree_ofTree, Expr.eval_ofTree]
  · rw [Expr.tree_ofTree, Expr.toList_render_ofTree]

/-- Nested parentheses, a chain of one level and unary operators. -/
def nested : String :=
  "-((a + 2) * b) - !c || (1)"

theorem compile_nested : ∃ arena tree, compile nested = .ok arena ∧ arena.nodes.size = 11 ∧
    arena.InPostOrder tree ∧ arena.nodes[8]? = some (.binary .subtract 5 7) ∧
    (∀ p, Under arena.nodes 7 p ↔ 5 < p ∧ p ≤ 7) ∧ (∃! parent, Refers arena.nodes parent 5) ∧
    ∀ p, Under arena.nodes arena.root p ↔ p < 11 := by
  have hparse : (Expr.parse nested).toOption.map (fun e ↦ (e.size, e.nodes[8]?)) =
      some (11, some (.binary .subtract 5 7)) := by
    decide +kernel
  obtain ⟨e, he, hfound⟩ := Chain.exists_of_map_toOption hparse
  obtain ⟨hsize, hnode⟩ := Prod.mk.inj hfound
  have hfits : e.arena.nodes.size ≤ idCount := hsize.trans_le (by decide)
  have hcompile : compile nested = .ok e.arena := by
    rw [compile_eq, he]
    · rfl
    · intro other hother
      rw [he] at hother
      cases hother
      exact hfits
  obtain ⟨other, -, -, hpost, -⟩ := inPostOrder_of_compile hcompile hfits
  have hroot := hpost.root_eq
  obtain ⟨-, -, hright⟩ := hpost.adjacent 8 5 7 .subtract hnode
  refine ⟨e.arena, other.tree, hcompile, hsize, hpost, hnode, hright,
    hpost.existsUnique_refers 5 ?_, fun p ↦ ?_⟩
  · change e.arena.root + 1 = e.size at hroot
    omega
  · rw [hpost.under_root_iff]
    exact iff_of_eq (congrArg (p < ·) hsize)

end Descent

end LineScript
