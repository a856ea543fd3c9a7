import LineScript.Proofs.Chain
import LineScript.Proofs.Expr.Arena
import LineScript.Proofs.Expr.Reading

/-!
# Parsing expressions

A text whose tokens are known is parsed exactly when the grammar derives them, into the one tree
that it derives. If it is not, the first token that no expression goes on with is reported, where
the end of the text counts as a token.
-/

namespace LineScript

open Reading (steps_cons steps_cons_of_error steps_append steps_of_derives exists_of_complete
  isOperand_of_derives)

/-- Tokens that are not found anywhere. -/
def lexemesOf (word : List Token) : List Lexeme :=
  word.map fun token ↦ ⟨token, [], 0⟩

theorem map_token_lexemesOf (word : List Token) :
    (lexemesOf word).map (fun lexeme ↦ lexeme.token) = word := by
  rw [lexemesOf, List.map_map]
  exact List.map_id word

theorem knows_start : Reading.start.Knows [] :=
  Reading.Stack.nil

/-- Reading a text that has tokens. -/
theorem ofScan_of_ne_nil {scan : Scan} (h : scan.lexemes ≠ []) :
    Tree.ofScan scan =
      (Reading.start.steps scan.lexemes >>= fun reading ↦ reading.finish scan.stop) := by
  rw [Tree.ofScan, if_neg]
  · rfl
  · rw [List.isEmpty_iff]
    exact h

theorem ofScan_of_derives {scan : Scan} {tree : Tree} (h : Derives 0 scan.tokens tree) :
    Tree.ofScan scan = .ok tree := by
  have hnonempty : scan.lexemes ≠ [] := by
    intro hnil
    apply h.ne_nil
    rw [Scan.tokens, hnil, List.map_nil]
  obtain ⟨inner, value, hsteps, hcomplete⟩ := steps_of_derives h [] (fun _ ↦ trivial) rfl
  have hwhole : Reading.complete 0 inner value = ([], tree) := hcomplete 0 (Nat.le_refl 0)
  rw [ofScan_of_ne_nil hnonempty, Reading.start, hsteps]
  change (Reading.having inner value).finish scan.stop = _
  rw [Reading.finish, hwhole]

/-- A text whose tokens the grammar derives is parsed into the tree that it derives. -/
theorem parse_of_derives {text : String} {found : Scan} {tree : Tree}
    (hscan : scan text = .ok found) (h : Derives 0 found.tokens tree) :
    Expr.parse text = .ok (Expr.ofTree tree) := by
  rw [Expr.parse, Tree.parse, hscan]
  change (Tree.ofScan found).map Expr.ofTree = _
  rw [ofScan_of_derives h]
  rfl

theorem derives_of_finish {reading : Reading} {word : List Token} {stop : Nat} {tree : Tree}
    (hknows : reading.Knows word) (h : reading.finish stop = .ok tree) : Derives 0 word tree := by
  cases reading with
  | wanting frames => cases h
  | having frames value =>
    obtain ⟨before, last, rfl, hstack, hvalue⟩ := hknows
    rw [Reading.finish] at h
    split at h
    · rename_i whole hcomplete
      cases h
      obtain ⟨rest, after, hword, hempty, hderives, -⟩ :=
        exists_of_complete hstack (isOperand_of_derives hvalue) (Nat.zero_le 6) hcomplete
      cases hempty
      rw [hword]
      exact hderives
    · cases h

/-- Tokens are read as the tree that the grammar derives. -/
theorem ofScan_eq_ok_iff {scan : Scan} {tree : Tree} :
    Tree.ofScan scan = .ok tree ↔ Derives 0 scan.tokens tree := by
  refine ⟨?_, ofScan_of_derives⟩
  intro h
  by_cases hnil : scan.lexemes = []
  · rw [Tree.ofScan, hnil] at h
    cases h
  · rw [ofScan_of_ne_nil hnil] at h
    obtain ⟨reading, hsteps, hfinish⟩ := Chain.bind_eq_ok_iff.1 h
    exact derives_of_finish (knows_start.steps hsteps) hfinish

/-- The grammar is unambiguous. -/
theorem Derives.tree_unique {level : Nat} {word : List Token} {tree other : Tree}
    (h : Derives level word tree) (hother : Derives level word other) : tree = other := by
  have htokens : (Scan.mk (lexemesOf word) 0).tokens = word := map_token_lexemesOf word
  have hread := h.loosen (Nat.zero_le level)
  have hreadOther := hother.loosen (Nat.zero_le level)
  rw [← htokens] at hread hreadOther
  have hsame : Except.ok tree = Except.ok other :=
    calc
      .ok tree = Tree.ofScan ⟨lexemesOf word, 0⟩ := (ofScan_of_derives hread).symm
      _ = .ok other := ofScan_of_derives hreadOther
  exact Except.ok.inj hsame

/-- Where tokens may stand at the start of an expression, so may fewer of them. -/
theorem Viable.shorten {start shorter : List (Option Token)} (h : Viable start)
    (hbegins : shorter <+: start) : Viable shorter := by
  obtain ⟨word, tree, hderives, hstart⟩ := h
  exact ⟨word, tree, hderives, hbegins.trans hstart⟩

theorem viable_of_knows {reading : Reading} {word : List Token} (hknows : reading.Knows word) :
    Viable (word.map some) := by
  obtain ⟨rest, tree, hderives⟩ := hknows.exists_derives
  refine ⟨word ++ rest, tree, hderives, ?_⟩
  rw [List.map_append, List.append_assoc]
  exact List.prefix_append _ _

/-- Tokens at the start of others and their end do not reach the end. -/
theorem exists_of_begins {start word : List Token}
    (h : start.map some <+: word.map some ++ [none]) : ∃ rest, word = start ++ rest := by
  induction start generalizing word with
  | nil => exact ⟨word, rfl⟩
  | cons token others ih =>
    cases word with
    | nil =>
      rw [List.map_cons, List.map_nil, List.nil_append, List.cons_prefix_cons] at h
      cases h.1
    | cons first rest =>
      rw [List.map_cons, List.map_cons, List.cons_append, List.cons_prefix_cons] at h
      obtain ⟨rest', rfl⟩ := ih h.2
      exact ⟨rest', by rw [Option.some.inj h.1]; rfl⟩

theorem eq_of_begins {start word : List Token}
    (h : start.map some ++ [none] <+: word.map some ++ [none]) : word = start := by
  obtain ⟨rest, rfl⟩ := exists_of_begins ((List.prefix_append _ _).trans h)
  rw [List.map_append, List.append_assoc, List.prefix_append_right_inj] at h
  cases rest with
  | nil => exact List.append_nil start
  | cons token others =>
    rw [List.map_cons, List.cons_append, List.cons_prefix_cons] at h
    cases h.1

/-- Where reading fails, it fails at one token, all before it being read. -/
theorem exists_failing_step {reading : Reading} {lexemes : List Lexeme} {error : ParseError}
    (h : reading.steps lexemes = .error error) :
    ∃ before lexeme after between, lexemes = before ++ lexeme :: after ∧
      reading.steps before = .ok between ∧ between.step lexeme = .error error := by
  induction lexemes generalizing reading with
  | nil => cases h
  | cons lexeme others ih =>
    cases hstep : reading.step lexeme with
    | error found =>
      rw [steps_cons_of_error hstep] at h
      cases h
      exact ⟨[], lexeme, others, reading, rfl, rfl, hstep⟩
    | ok next =>
      rw [steps_cons hstep] at h
      obtain ⟨before, last, after, between, rfl, hbefore, hlast⟩ := ih h
      exact ⟨lexeme :: before, last, after, between, rfl, (steps_cons hstep).trans hbefore, hlast⟩

/-- A token that is refused is reported where it starts. -/
theorem exists_of_step_error {reading : Reading} {lexeme : Lexeme} {error : ParseError}
    (h : reading.step lexeme = .error error) :
    ∃ expected, error = .unexpectedToken (some lexeme.token) expected lexeme.offset := by
  cases reading with
  | wanting frames =>
    change Reading.wantingStep frames lexeme = _ at h
    unfold Reading.wantingStep at h
    split at h
    · cases h
    · cases h
    · split at h
      · cases h
      · cases h
        exact ⟨_, rfl⟩
  | having frames value =>
    change Reading.havingStep frames value lexeme = _ at h
    unfold Reading.havingStep at h
    dsimp only at h
    split at h
    · cases h
    · split at h
      · cases h
      · cases h
        exact ⟨_, rfl⟩
    · cases h
      exact ⟨_, rfl⟩

/-- No expression goes on with a token that is refused. -/
theorem not_viable_of_step_error {before : List Lexeme} {lexeme : Lexeme} {between : Reading}
    {error : ParseError} (hbefore : Reading.start.steps before = .ok between)
    (hstep : between.step lexeme = .error error) :
    ¬ Viable ((before ++ [lexeme]).map fun lexeme ↦ some lexeme.token) := by
  rintro ⟨word, tree, hderives, hbegins⟩
  have hmap : (before ++ [lexeme]).map (fun lexeme ↦ some lexeme.token) =
      ((before ++ [lexeme]).map fun lexeme ↦ lexeme.token).map some := by
    rw [List.map_map]
    rfl
  rw [hmap] at hbegins
  obtain ⟨rest, rfl⟩ := exists_of_begins hbegins
  have hlexemes : (before ++ lexeme :: lexemesOf rest).map (fun lexeme ↦ lexeme.token) =
      (before ++ [lexeme]).map (fun lexeme ↦ lexeme.token) ++ rest := by
    rw [List.map_append, List.map_cons, map_token_lexemesOf, List.map_append]
    simp
  obtain ⟨inner, value, hsteps, -⟩ := steps_of_derives hderives [] (fun _ ↦ trivial) hlexemes
  change Reading.start.steps _ = _ at hsteps
  rw [steps_append hbefore, steps_cons_of_error hstep] at hsteps
  cases hsteps

/-- A reading that cannot end is reported at the end. -/
theorem exists_of_finish_error {reading : Reading} {stop : Nat} {error : ParseError}
    (h : reading.finish stop = .error error) :
    ∃ expected, error = .unexpectedToken none expected stop := by
  cases reading with
  | wanting frames =>
    cases h
    exact ⟨_, rfl⟩
  | having frames value =>
    rw [Reading.finish] at h
    split at h
    · cases h
    · cases h
      exact ⟨_, rfl⟩

/-- What is reported of tokens that are no expression: the first that no expression goes on with. -/
def Reports (scan : Scan) (error : ParseError) : Prop :=
  ∃ id token expected offset, scan.marks[id]? = some (token, offset) ∧
    error = .unexpectedToken token expected offset ∧
    ¬ Viable ((scan.marks.map Prod.fst).take (id + 1)) ∧
    ∀ earlier ≤ id, Viable ((scan.marks.map Prod.fst).take earlier)

theorem marks_fst (scan : Scan) :
    scan.marks.map Prod.fst = scan.lexemes.map (fun lexeme ↦ some lexeme.token) ++ [none] := by
  rw [Scan.marks, List.map_append, List.map_map]
  rfl

theorem viable_of_steps {before : List Lexeme} {between : Reading}
    (h : Reading.start.steps before = .ok between) :
    Viable (before.map fun lexeme ↦ some lexeme.token) := by
  have hviable := viable_of_knows (knows_start.steps h)
  rw [List.nil_append, List.map_map] at hviable
  exact hviable

theorem reports_of_ofScan {scan : Scan} {error : ParseError}
    (h : Tree.ofScan scan = .error error) (hlexemes : scan.lexemes ≠ []) :
    Reports scan error := by
  have hofScan := ofScan_of_ne_nil hlexemes
  cases hsteps : Reading.start.steps scan.lexemes with
  | error found =>
    rw [hofScan, hsteps] at h
    cases h
    obtain ⟨before, lexeme, after, between, hsplit, hbefore, hstep⟩ := exists_failing_step hsteps
    obtain ⟨expected, rfl⟩ := exists_of_step_error hstep
    have hmarks : scan.marks.map Prod.fst = before.map (fun lexeme ↦ some lexeme.token) ++
        some lexeme.token :: (after.map (fun lexeme ↦ some lexeme.token) ++ [none]) := by
      rw [marks_fst, hsplit]
      simp
    refine ⟨before.length, some lexeme.token, expected, lexeme.offset, ?_, rfl, ?_, ?_⟩
    · rw [Scan.marks, hsplit]
      simp
    · have hrefused := not_viable_of_step_error hbefore hstep
      rw [hmarks, List.take_append, List.take_of_length_le (by simp)]
      simpa using hrefused
    · intro earlier hle
      rw [hmarks, List.take_append_of_le_length (by simpa using hle)]
      exact (viable_of_steps hbefore).shorten (List.take_prefix _ _)
  | ok reading =>
    have hfinish : reading.finish scan.stop = .error error := by
      rw [hofScan, hsteps] at h
      exact h
    obtain ⟨expected, rfl⟩ := exists_of_finish_error hfinish
    refine ⟨scan.lexemes.length, none, expected, scan.stop, ?_, rfl, ?_, ?_⟩
    · rw [Scan.marks]
      simp
    · rw [marks_fst, List.take_of_length_le (by simp)]
      rintro ⟨word, tree, hderives, hbegins⟩
      have hmap : scan.lexemes.map (fun lexeme ↦ some lexeme.token) = scan.tokens.map some := by
        rw [Scan.tokens, List.map_map]
        rfl
      rw [hmap] at hbegins
      rw [eq_of_begins hbegins] at hderives
      rw [ofScan_of_derives hderives] at h
      cases h
    · intro earlier hle
      rw [marks_fst, List.take_append_of_le_length (by simpa using hle)]
      exact (viable_of_steps hsteps).shorten (List.take_prefix _ _)

/--
A text with known tokens is parsed exactly into the trees that the grammar derives from them, one
node for each atom and operator; there is never more than one such tree. If the text is not parsed,
it has no tokens, or the error is at the first token, or the end, that no expression goes on with.
-/
theorem parse_of_scan {text : String} {found : Scan} (hscan : scan text = .ok found) :
    (∀ tree, Derives 0 found.tokens tree ↔
      ∃ expr, Expr.parse text = .ok expr ∧ expr.tree = tree) ∧
    (∀ expr, Expr.parse text = .ok expr → expr.size = expr.tree.size) ∧
    (∀ (level : Nat) (word : List Token) (tree other : Tree), Derives level word tree →
      Derives level word other → tree = other) ∧
    ∀ error, Expr.parse text = .error error →
      (found.tokens = [] → error = .empty) ∧ (found.tokens ≠ [] → Reports found error) := by
  have hread : Tree.parse text = Tree.ofScan found := by
    rw [Tree.parse, hscan]
    rfl
  have hparse : Expr.parse text = (Tree.ofScan found).map Expr.ofTree :=
    calc
      Expr.parse text = (Tree.parse text).map Expr.ofTree := rfl
      _ = (Tree.ofScan found).map Expr.ofTree := by rw [hread]
  refine ⟨?_, ?_, fun _ _ _ _ h hother ↦ h.tree_unique hother, ?_⟩
  · intro tree
    rw [hparse, ← ofScan_eq_ok_iff]
    constructor
    · intro h
      exact ⟨Expr.ofTree tree, by rw [h]; rfl, Expr.tree_ofTree tree⟩
    · rintro ⟨expr, hexpr, rfl⟩
      obtain ⟨tree, htree, rfl⟩ := Chain.map_eq_ok_iff.1 hexpr
      rw [Expr.tree_ofTree]
      exact htree
  · intro expr hexpr
    rw [hparse] at hexpr
    obtain ⟨tree, -, rfl⟩ := Chain.map_eq_ok_iff.1 hexpr
    rw [Expr.tree_ofTree, Expr.size_ofTree]
  · intro error herror
    rw [hparse] at herror
    cases hread : Tree.ofScan found with
    | ok tree =>
      rw [hread] at herror
      cases herror
    | error reported =>
      rw [hread] at herror
      cases herror
      constructor
      · intro hnil
        have hempty : found.lexemes = [] := List.map_eq_nil_iff.1 hnil
        rw [Tree.ofScan, hempty] at hread
        cases hread
        rfl
      · intro hnonempty
        apply reports_of_ofScan hread
        intro hempty
        apply hnonempty
        rw [Scan.tokens, hempty, List.map_nil]

theorem parse_misplaced_star : ∃ found id token, scan "1 + * 2" = .ok found ∧
    found.marks[id]? = some (token, 4) ∧ ¬ Viable ((found.marks.map Prod.fst).take (id + 1)) := by
  have hscan : ((scan "1 + * 2").toOption.map fun found ↦ found.tokens.length) = some 4 := by
    decide +kernel
  have htree : Tree.parse "1 + * 2" =
      .error (.unexpectedToken (some (.symbol .star)) .value 4) := by
    decide +kernel
  obtain ⟨found, hfound, hlength⟩ := Chain.exists_of_map_toOption hscan
  have hnonempty : found.tokens ≠ [] := by
    intro hnil
    rw [hnil] at hlength
    cases hlength
  have herror : Expr.parse "1 + * 2" = _ := Chain.map_eq_error_iff.2 htree
  obtain ⟨id, token, expected, offset, hmark, hreport, hviable, -⟩ :=
    ((parse_of_scan hfound).2.2.2 _ herror).2 hnonempty
  cases hreport
  exact ⟨found, id, _, hfound, hmark, hviable⟩

end LineScript
