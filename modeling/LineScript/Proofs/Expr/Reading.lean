import LineScript.Proofs.Expr.Grammar

/-!
# Reading expressions

Reading token by token finds exactly the derivations of the grammar. An expression of some level,
read where a value is wanted, leaves a value that is complete up to that level: this is shown along
the derivation, and since reading has one result, it also shows that a derivation has one tree. In
the other direction, the frames on the stack and the tokens before the current value spell out what
was read so far. Whatever the stack is, closing its parentheses makes an expression, so reading
fails at the first token that no expression goes on with.
-/

namespace LineScript.Reading

/-- Frames that wait for an operand of some level: the next of them binds less tightly. -/
def Waiting (level : Nat) : List Frame → Prop
  | .unary _ :: _ => False
  | .binary op _ :: _ => op.level < level
  | _ => True

theorem Waiting.tighten {level tighter : Nat} {frames : List Frame} (h : Waiting level frames)
    (hle : level ≤ tighter) : Waiting tighter frames := by
  match frames with
  | [] => trivial
  | .group :: _ => trivial
  | .unary _ :: _ => exact h
  | .binary op _ :: _ => exact Nat.lt_of_lt_of_le h hle

/-- Where all frames wait for an operand of a level, none is completed at that level. -/
theorem complete_of_waiting {level : Nat} {frames : List Frame} (h : Waiting level frames)
    (value : Tree) : complete level frames value = (frames, value) := by
  match frames with
  | [] => rfl
  | .group :: _ => rfl
  | .unary _ :: _ => exact h.elim
  | .binary op _ :: _ => exact if_neg (Nat.not_le.2 h)

theorem havingStep_of_binary {frames : List Frame} {value : Tree} {lexeme : Lexeme}
    {op : BinaryOp} (htoken : lexeme.token = .symbol op.symbol) :
    havingStep frames value lexeme =
      .ok (.wanting (.binary op (complete op.level frames value).2 ::
        (complete op.level frames value).1)) := by
  unfold havingStep
  rw [htoken]
  cases op <;> rfl

theorem wantingStep_of_unary {frames : List Frame} {lexeme : Lexeme} {op : UnaryOp}
    (htoken : lexeme.token = .symbol op.symbol) :
    wantingStep frames lexeme = .ok (.wanting (.unary op :: frames)) := by
  unfold wantingStep
  rw [htoken]
  cases op <;> rfl

def steps (reading : Reading) (lexemes : List Lexeme) : Except ParseError Reading :=
  lexemes.foldlM step reading

theorem steps_append {reading between : Reading} {lexemes others : List Lexeme}
    (h : reading.steps lexemes = .ok between) :
    reading.steps (lexemes ++ others) = between.steps others := by
  unfold steps at h ⊢
  rw [List.foldlM_append, h]
  rfl

theorem steps_cons {reading between : Reading} {lexeme : Lexeme} {others : List Lexeme}
    (h : reading.step lexeme = .ok between) :
    reading.steps (lexeme :: others) = between.steps others := by
  unfold steps
  rw [List.foldlM_cons, h]
  rfl

theorem steps_cons_of_error {reading : Reading} {lexeme : Lexeme} {error : ParseError}
    (h : reading.step lexeme = .error error) (others : List Lexeme) :
    reading.steps (lexeme :: others) = .error error := by
  unfold steps
  rw [List.foldlM_cons, h]
  rfl

/--
An expression leaves a value that, together with frames still open inside it, completes to its tree
at every level down to its own.
-/
theorem steps_of_derives {level : Nat} {word : List Token} {tree : Tree}
    (h : Derives level word tree) (frames : List Frame)
    (hframes : level < 6 → Waiting level frames) {lexemes : List Lexeme}
    (hlexemes : lexemes.map (fun lexeme ↦ lexeme.token) = word) :
    ∃ inner value, (Reading.wanting frames).steps lexemes = .ok (.having inner value) ∧
      ∀ looser ≤ level, complete looser inner value = complete looser frames tree := by
  induction h generalizing frames lexemes with
  | @tighter level word tree hlt _ ih =>
    obtain ⟨inner, value, hsteps, hcomplete⟩ :=
      ih frames (fun hlevel ↦ (hframes (by omega)).tighten (Nat.le_succ level)) hlexemes
    exact ⟨inner, value, hsteps, fun looser hle ↦ hcomplete looser (Nat.le_succ_of_le hle)⟩
  | @binary op left right leftTree rightTree _ _ ihLeft ihRight =>
    obtain ⟨lefts, rest, rfl, hlefts, hrest⟩ := List.map_eq_append_iff.1 hlexemes
    obtain ⟨lexeme, rights, rfl, htoken, hrights⟩ := List.map_eq_cons_iff.1 hrest
    have hwaiting := hframes op.level_lt
    obtain ⟨inner, value, hsteps, hcomplete⟩ := ihLeft frames hframes hlefts
    have hstep : (Reading.having inner value).step lexeme =
        .ok (.wanting (.binary op leftTree :: frames)) := by
      have hleft : complete op.level inner value = (frames, leftTree) :=
        calc
          complete op.level inner value = complete op.level frames leftTree :=
            hcomplete op.level (Nat.le_refl _)
          _ = (frames, leftTree) := complete_of_waiting hwaiting leftTree
      change havingStep inner value lexeme = _
      rw [havingStep_of_binary htoken, hleft]
    have hinner : Waiting (op.level + 1) (.binary op leftTree :: frames) :=
      Nat.lt_succ_self op.level
    obtain ⟨inner', value', hsteps', hcomplete'⟩ := ihRight _ (fun _ ↦ hinner) hrights
    refine ⟨inner', value', ?_, ?_⟩
    · rw [steps_append hsteps, steps_cons hstep, hsteps']
    · intro looser hle
      calc
        complete looser inner' value' = complete looser (.binary op leftTree :: frames) rightTree :=
          hcomplete' looser (Nat.le_succ_of_le hle)
        _ = complete looser frames (.binary op leftTree rightTree) := if_pos hle
  | @unary op word tree _ ih =>
    obtain ⟨lexeme, others, rfl, htoken, hothers⟩ := List.map_eq_cons_iff.1 hlexemes
    obtain ⟨inner, value, hsteps, hcomplete⟩ :=
      ih (.unary op :: frames) (fun hlt ↦ absurd hlt (Nat.lt_irrefl 6)) hothers
    have hstep : (Reading.wanting frames).step lexeme = .ok (.wanting (.unary op :: frames)) :=
      wantingStep_of_unary htoken
    refine ⟨inner, value, ?_, hcomplete⟩
    rw [steps_cons hstep, hsteps]
  | atom atom =>
    obtain ⟨lexeme, others, rfl, htoken, hothers⟩ := List.map_eq_cons_iff.1 hlexemes
    rw [List.map_eq_nil_iff.1 hothers]
    have hstep : (Reading.wanting frames).step lexeme = .ok (.having frames (.atom atom)) := by
      change wantingStep frames lexeme = _
      unfold wantingStep
      rw [htoken]
    exact ⟨frames, .atom atom, steps_cons hstep, fun _ _ ↦ rfl⟩
  | @group word tree _ ih =>
    obtain ⟨opening, rest, rfl, hopen, hrest⟩ := List.map_eq_cons_iff.1 hlexemes
    obtain ⟨middle, last, rfl, hmiddle, hlast⟩ := List.map_eq_append_iff.1 hrest
    obtain ⟨closing, others, rfl, hclose, hothers⟩ := List.map_eq_cons_iff.1 hlast
    rw [List.map_eq_nil_iff.1 hothers]
    have hstart : (Reading.wanting frames).step opening = .ok (.wanting (.group :: frames)) := by
      change wantingStep frames opening = _
      unfold wantingStep
      rw [hopen]
    obtain ⟨inner, value, hsteps, hcomplete⟩ :=
      ih (.group :: frames) (fun _ ↦ trivial) hmiddle
    have hstop : (Reading.having inner value).step closing = .ok (.having frames tree) := by
      change havingStep inner value closing = _
      unfold havingStep
      rw [hcomplete 0 (Nat.le_refl 0), hclose]
      rfl
    refine ⟨frames, tree, ?_, fun _ _ ↦ rfl⟩
    rw [steps_cons hstart, steps_append hsteps, steps_cons hstop]
    rfl

/-- The tokens before a value that is wanted, as the frames on the stack spell them out. -/
inductive Stack : List Frame → List Token → Prop where
  | nil : Stack [] []
  | group {frames : List Frame} {word : List Token} : Stack frames word →
      Stack (.group :: frames) (word ++ [.symbol .openParen])
  | unary {frames : List Frame} {word : List Token} (op : UnaryOp) : Stack frames word →
      Stack (.unary op :: frames) (word ++ [.symbol op.symbol])
  | binary {frames : List Frame} {word left : List Token} {op : BinaryOp} {tree : Tree} :
      Stack frames word → Waiting op.level frames → Derives op.level left tree →
      Stack (.binary op tree :: frames) (word ++ left ++ [.symbol op.symbol])

/-- The value that was read last is of some level, and may be an operand of the frame before it. -/
def IsOperand (frames : List Frame) (level : Nat) (word : List Token) (value : Tree) : Prop :=
  Derives level word value ∧ level ≤ 6 ∧ (level < 6 → Waiting level frames)

variable {frames : List Frame} {word last : List Token} {value : Tree} {level : Nat}

/-- After an operator, a value completes its frame. -/
theorem IsOperand.unary {op : UnaryOp} (h : IsOperand (.unary op :: frames) level last value) :
    IsOperand frames 6 (.symbol op.symbol :: last) (.unary op value) := by
  obtain ⟨hderives, hle, hwaiting⟩ := h
  have hlevel : level = 6 := by
    by_contra hne
    exact hwaiting (by omega)
  subst hlevel
  exact ⟨hderives.unary, Nat.le_refl 6, fun hlt ↦ absurd hlt (Nat.lt_irrefl 6)⟩

theorem IsOperand.binary {op : BinaryOp} {left : List Token} {tree : Tree}
    (h : IsOperand (.binary op tree :: frames) level last value)
    (hleft : Derives op.level left tree) (hframes : Waiting op.level frames) :
    IsOperand frames op.level (left ++ .symbol op.symbol :: last) (.binary op tree value) := by
  obtain ⟨hderives, hle, hwaiting⟩ := h
  have hlt : op.level < level := by
    by_cases hlevel : level < 6
    · exact hwaiting hlevel
    · have hop := op.level_lt
      omega
  exact ⟨.binary hleft (hderives.loosen hlt), Nat.le_of_lt op.level_lt, fun _ ↦ hframes⟩

/-- Completing frames moves tokens from the stack to the value. -/
theorem exists_of_complete (hstack : Stack frames word) {bound : Nat}
    (hvalue : IsOperand frames bound last value) (hle : level ≤ bound) {left : List Frame}
    {whole : Tree} (hcomplete : complete level frames value = (left, whole)) :
    ∃ before after, word ++ last = before ++ after ∧ Stack left before ∧
      Derives level after whole ∧ Waiting level left := by
  induction hstack generalizing bound last value with
  | nil =>
    cases hcomplete
    exact ⟨[], last, rfl, .nil, hvalue.1.loosen hle, trivial⟩
  | group hstack =>
    cases hcomplete
    exact ⟨_, last, rfl, hstack.group, hvalue.1.loosen hle, trivial⟩
  | unary op hstack ih =>
    have hbound := hvalue.2.1
    obtain ⟨before, after, hword, hrest⟩ := ih hvalue.unary (by omega) hcomplete
    refine ⟨before, after, ?_, hrest⟩
    rw [← hword]
    simp
  | @binary frames word leftWord op tree hstack hwaiting hleft ih =>
    rw [complete] at hcomplete
    split at hcomplete
    · rename_i hop
      obtain ⟨before, after, hword, hrest⟩ := ih (hvalue.binary hleft hwaiting) hop hcomplete
      refine ⟨before, after, ?_, hrest⟩
      rw [← hword]
      simp
    · rename_i hop
      cases hcomplete
      exact ⟨_, last, rfl, hstack.binary hwaiting hleft, hvalue.1.loosen hle, Nat.not_le.1 hop⟩

/-- What a reading knows about the tokens that it has read. -/
def Knows : Reading → List Token → Prop
  | .wanting frames, word => Stack frames word
  | .having frames value, word =>
    ∃ before last, word = before ++ last ∧ Stack frames before ∧ Derives 7 last value

theorem isOperand_of_derives (h : Derives 7 last value) : IsOperand frames 6 last value :=
  ⟨h.loosen (by decide), Nat.le_refl 6, fun hlt ↦ absurd hlt (Nat.lt_irrefl 6)⟩

theorem knows_of_wantingStep {lexeme : Lexeme} {after : Reading} (hstack : Stack frames word)
    (h : wantingStep frames lexeme = .ok after) : after.Knows (word ++ [lexeme.token]) := by
  unfold wantingStep at h
  split at h
  · rename_i atom htoken
    cases h
    rw [htoken]
    exact ⟨word, _, rfl, hstack, .atom atom⟩
  · rename_i htoken
    cases h
    rw [htoken]
    exact hstack.group
  · rename_i symbol _ htoken
    split at h
    · rename_i op hop
      cases h
      rw [htoken, Symbol.unary?_eq_some_iff.1 hop]
      exact hstack.unary op
    · cases h

theorem knows_of_havingStep {lexeme : Lexeme} {after : Reading} (hstack : Stack frames word)
    (hvalue : Derives 7 last value) (h : havingStep frames value lexeme = .ok after) :
    after.Knows (word ++ last ++ [lexeme.token]) := by
  unfold havingStep at h
  rcases hcomplete : complete 0 frames value with ⟨left, whole⟩
  rw [hcomplete] at h
  dsimp only at h
  split at h
  · rename_i outer htoken
    cases h
    obtain ⟨before, inside, hword, hleft, hwhole, -⟩ :=
      exists_of_complete hstack (isOperand_of_derives hvalue) (Nat.zero_le 6) hcomplete
    cases hleft with
    | @group _ before houter =>
      refine ⟨before, .symbol .openParen :: (inside ++ [.symbol .closeParen]), ?_, houter,
        .group hwhole⟩
      rw [hword, htoken]
      simp
  · rename_i symbol htoken _
    split at h
    · rename_i op hop
      cases h
      rcases hoperand : complete op.level frames value with ⟨outer, operand⟩
      obtain ⟨before, left, hword, houter, hleft, hwaiting⟩ :=
        exists_of_complete hstack (isOperand_of_derives hvalue) (Nat.le_of_lt op.level_lt) hoperand
      rw [hword, htoken, Symbol.binary?_eq_some_iff.1 hop]
      exact houter.binary hwaiting hleft
    · cases h
  · cases h

theorem Knows.step {reading after : Reading} {lexeme : Lexeme} (hknows : reading.Knows word)
    (h : reading.step lexeme = .ok after) : after.Knows (word ++ [lexeme.token]) := by
  cases reading with
  | wanting frames => exact knows_of_wantingStep hknows h
  | having frames value =>
    obtain ⟨before, last, rfl, hstack, hvalue⟩ := hknows
    exact knows_of_havingStep hstack hvalue h

/-- A reading knows about all tokens that led to it. -/
theorem Knows.steps {reading after : Reading} {lexemes : List Lexeme}
    (hknows : reading.Knows word) (h : reading.steps lexemes = .ok after) :
    after.Knows (word ++ lexemes.map fun lexeme ↦ lexeme.token) := by
  induction lexemes generalizing reading word with
  | nil =>
    cases h
    rw [List.map_nil, List.append_nil]
    exact hknows
  | cons lexeme others ih =>
    cases hstep : reading.step lexeme with
    | error error =>
      rw [steps_cons_of_error hstep] at h
      cases h
    | ok between =>
      rw [steps_cons hstep] at h
      have hknows' := ih (hknows.step hstep) h
      rw [List.append_assoc, List.singleton_append] at hknows'
      exact hknows'

/-- Closing its parentheses makes an expression of a stack and a value. -/
theorem exists_derives_of_isOperand (hstack : Stack frames word)
    (hvalue : IsOperand frames level last value) :
    ∃ rest tree, Derives 0 (word ++ last ++ rest) tree := by
  induction hstack generalizing level last value with
  | nil => exact ⟨[], value, by simpa using hvalue.1.loosen (Nat.zero_le _)⟩
  | group hstack ih =>
    have hgroup := Derives.group (hvalue.1.loosen (Nat.zero_le _))
    obtain ⟨rest, tree, hderives⟩ := ih (isOperand_of_derives hgroup)
    exact ⟨.symbol .closeParen :: rest, tree, by simpa using hderives⟩
  | unary op hstack ih =>
    obtain ⟨rest, tree, hderives⟩ := ih hvalue.unary
    exact ⟨rest, tree, by simpa using hderives⟩
  | binary hstack hwaiting hleft ih =>
    obtain ⟨rest, tree, hderives⟩ := ih (hvalue.binary hleft hwaiting)
    exact ⟨rest, tree, by simpa using hderives⟩

/-- What has been read goes on to an expression. -/
theorem Knows.exists_derives {reading : Reading} (hknows : reading.Knows word) :
    ∃ rest tree, Derives 0 (word ++ rest) tree := by
  cases reading with
  | wanting frames =>
    obtain ⟨rest, tree, hderives⟩ :=
      exists_derives_of_isOperand hknows (isOperand_of_derives (.atom (.bool true)))
    exact ⟨_, tree, by rw [← List.append_assoc]; exact hderives⟩
  | having frames value =>
    obtain ⟨before, last, rfl, hstack, hvalue⟩ := hknows
    exact exists_derives_of_isOperand hstack (isOperand_of_derives hvalue)

end LineScript.Reading
