import LineScript.Proofs.Machine.Writes
import LineScript.Proofs.Scope.Edits
import LineScript.Proofs.Source.Spacing

/-!
# Reading words until one will do

An `in` takes words off the input until one of them will do for its variable, and answers each word
before that by a line that tells why no number was read from it. A text takes the first word. What
is consumed is fixed by the words alone: those at the front that no number is read from, and the one
after them, so a later `in` goes on directly behind it. If there is no such word, all are consumed,
and the variable keeps its value.
-/

namespace LineScript

/-- No word is empty. -/
theorem ne_empty_of_mem_words {text word : String} (h : word ∈ words text) : word ≠ "" := by
  obtain ⟨characters, hmem, rfl⟩ := List.mem_map.1 h
  rw [ne_eq, String.ofList_eq_empty_iff]
  exact (spread_iff.2 rfl).ne_nil hmem

/-- What is left to read are these tokens, the last words of a text. -/
structure Input.Scripted (input : Input) (tokens : List String) : Prop where
  pieces : input.pieces = tokens.map .word
  suffix : ∃ text, tokens <:+ words text

variable {input : Input} {tokens refused rest : List String} {token : String}

theorem Input.scripted_ofText (text : String) : (Input.ofText text).Scripted (words text) where
  pieces := rfl
  suffix := ⟨text, List.suffix_refl _⟩

theorem Input.Scripted.ne_empty (h : input.Scripted tokens) (hmem : token ∈ tokens) :
    token ≠ "" := by
  obtain ⟨text, hsuffix⟩ := h.suffix
  exact ne_empty_of_mem_words (hsuffix.subset hmem)

/-- When the first tokens are consumed, the rest still is a script. -/
theorem Input.Scripted.drop (h : input.Scripted tokens) (hrest : rest <:+ tokens) :
    Input.Scripted ⟨rest.map .word⟩ rest where
  pieces := rfl
  suffix := h.suffix.imp fun _ hsuffix ↦ hrest.trans hsuffix

namespace Machine

/-- Whether no value of a kind is read from a token. -/
def refuses (kind : Kind) (token : String) : Bool :=
  match kind with
  | .text => false
  | .number => (readNumber? token).isNone

/-- Why no number is read from a text; only where there is nothing at all, the reason is another. -/
def parseError (text : String) : String :=
  if text = "" then "cannot parse float from empty string" else numberRefusal

/-- Output that tokens were answered on, each by a line. -/
def retries (output : Output) (refused : List String) : Output :=
  refused.foldl (fun output token ↦ output.writeLine ("Please retry: " ++ parseError token)) output

/-- What a token gives a variable of a kind: itself, or the number that is read from it. -/
inductive Stores : Kind → String → Value → Prop where
  | text (token : String) : Stores .text token (.text token)
  | number {token : String} {value : Float} : readNumber? token = some value →
      Stores .number token (.number value)

variable {kind : Kind} {output : Output} {pieces : List InputPiece} {value : Value}

theorem Stores.kind_eq (h : Stores kind token value) : value.kind = kind := by
  cases h <;> rfl

theorem wordValue?_eq_some_iff : wordValue? kind token = some value ↔ Stores kind token value := by
  unfold wordValue?
  constructor
  · intro h
    split at h
    · obtain ⟨number, hread, rfl⟩ := Option.map_eq_some_iff.1 h
      exact .number hread
    · cases h
      exact .text token
  · rintro (_ | hread)
    · rfl
    · rw [hread]
      rfl

theorem isNone_wordValue? (kind : Kind) (token : String) :
    (wordValue? kind token).isNone = refuses kind token := by
  cases kind with
  | number => exact Option.isNone_map
  | text => rfl

theorem exists_stores (h : refuses kind token = false) : ∃ value, Stores kind token value := by
  rw [← isNone_wordValue?, Option.isNone_eq_false_iff] at h
  obtain ⟨value, hvalue⟩ := Option.isSome_iff_exists.1 h
  exact ⟨value, wordValue?_eq_some_iff.1 hvalue⟩

/-- Tokens that will not do are passed over, and each is answered by a line. -/
theorem readWord_refused (hrefused : ∀ token ∈ refused, refuses kind token = true)
    (hne : ∀ token ∈ refused, token ≠ "") : readWord kind output (refused.map .word ++ pieces) =
      readWord kind (retries output refused) pieces := by
  induction refused generalizing output with
  | nil => rfl
  | cons token others ih =>
    obtain ⟨htoken, hothers⟩ := List.forall_mem_cons.1 hrefused
    obtain ⟨hfirst, hnext⟩ := List.forall_mem_cons.1 hne
    have hnone : wordValue? kind token = none := by
      rwa [← Option.isNone_iff_eq_none, isNone_wordValue?]
    have hline : retryLine = "Please retry: " ++ parseError token := by
      rw [parseError, if_neg hfirst, retryLine]
    rw [List.map_cons, List.cons_append, readWord, hnone]
    dsimp only
    rw [ih hothers hnext, hline]
    rfl

theorem readWord_accepted (h : Stores kind token value) :
    readWord kind output (.word token :: pieces) = (.accepted value, pieces, output) := by
  rw [readWord, wordValue?_eq_some_iff.2 h]

/-- The tokens that are passed over are the longest run at the front that will not do. -/
theorem readWord_scripted (hne : ∀ token ∈ tokens, token ≠ "") :
    readWord kind output (tokens.map .word) =
      readWord kind (retries output (tokens.takeWhile (refuses kind)))
        ((tokens.dropWhile (refuses kind)).map .word) := by
  have hfront := List.takeWhile_prefix (l := tokens) (refuses kind)
  nth_rewrite 1 [← List.takeWhile_append_dropWhile (p := refuses kind) (l := tokens)]
  rw [List.map_append]
  exact readWord_refused (fun token hmem ↦ List.mem_takeWhile_imp hmem)
    fun token hmem ↦ hne token (hfront.subset hmem)

variable {program : Program} {m : Machine} {id : NodeId} {node : Node} {operand : Operand}
  {old : Value}

theorem runInput_of_form (h : node.operands.length ≠ 1) :
    m.runInput node = .failed m (.inputForm node.operands.length) := by
  unfold runInput
  split
  · rename_i operand hoperands
    rw [hoperands] at h
    exact absurd rfl h
  · rfl

theorem runInput_of_undeclared (hoperands : node.operands = [operand])
    (hnone : m.scopes.get? node.scope operand.raw = none) :
    m.runInput node = .failed m (.undeclared operand.raw) := by
  unfold runInput
  rw [hoperands]
  dsimp only
  rw [hnone]

theorem runInput_of_scripted (hoperands : node.operands = [operand])
    (hold : m.scopes.get? node.scope operand.raw = some old) (hscript : m.input.Scripted tokens)
    (hrest : tokens.dropWhile (refuses old.kind) = token :: rest) :
    ∃ value, Stores old.kind token value ∧ m.runInput node =
      .done { m with
        input := ⟨rest.map .word⟩
        output := retries m.output (tokens.takeWhile (refuses old.kind))
        scopes := m.scopes.set node.scope operand.raw value } .next := by
  have htoken : refuses old.kind token = false := by
    have hhead := List.head?_dropWhile_not (refuses old.kind) tokens
    rwa [hrest, List.head?_cons] at hhead
  obtain ⟨value, hvalue⟩ := exists_stores htoken
  refine ⟨value, hvalue, ?_⟩
  have hread := @readWord_scripted _ old.kind m.output fun _ ↦ hscript.ne_empty
  rw [hrest, List.map_cons, readWord_accepted hvalue, ← hscript.pieces] at hread
  unfold runInput
  rw [hoperands]
  dsimp only
  rw [hold]
  dsimp only
  rw [readInto, hread]

theorem runInput_of_closed (hoperands : node.operands = [operand])
    (hold : m.scopes.get? node.scope operand.raw = some old) (hscript : m.input.Scripted tokens)
    (hrest : tokens.dropWhile (refuses old.kind) = []) :
    m.runInput node =
      .failed { m with input := ⟨[]⟩, output := retries m.output tokens }
        (.inputClosed operand.raw) := by
  have hall : tokens.takeWhile (refuses old.kind) = tokens := by
    have happend := List.takeWhile_append_dropWhile (p := refuses old.kind) (l := tokens)
    rwa [hrest, List.append_nil] at happend
  have hread := @readWord_scripted _ old.kind m.output fun _ ↦ hscript.ne_empty
  rw [hrest, hall, List.map_nil, readWord, ← hscript.pieces] at hread
  unfold runInput
  rw [hoperands]
  dsimp only
  rw [hold]
  dsimp only
  rw [readInto, hread]

/-- The scopes after the nearest variable of a name, as seen from a scope, got a value: no other
variable, no function, and no scope has changed. -/
structure Rebound (tree : ScopeTree) (scope : ScopeId) (name : String) (value : Value)
    (after : ScopeTree) : Prop where
  nearest : ∃ owner, tree.owner? scope name = some owner ∧ ∀ around other,
    after.local? around other =
      if around = owner ∧ other = name then some value else tree.local? around other
  functions : after.localFunction? = tree.localFunction?
  ancestors : after.ancestors = tree.ancestors

theorem rebound_set {tree : ScopeTree} {scope : ScopeId} {name : String}
    (hold : tree.get? scope name = some old) (value : Value) :
    Rebound tree scope name value (tree.set scope name value) := by
  rw [ScopeTree.get?_eq_bind_owner?] at hold
  obtain ⟨owner, howner, hbound⟩ := Option.bind_eq_some_iff.1 hold
  have hsome : (tree.local? owner name).isSome := by rw [hbound]; rfl
  have hset : tree.set scope name value = tree.bindIn owner name value := by
    rw [ScopeTree.set_eq_bindIn, ScopeTree.holder, howner, Option.getD_some]
  rw [hset]
  refine ⟨⟨owner, howner, fun around other ↦ ?_⟩, ?_, ScopeTree.ancestors_bindIn⟩
  · rw [ScopeTree.local?_bindIn]
    simp only [ScopeTree.lt_count_of_local? hsome, and_true, eq_comm]
  · funext around other
    exact ScopeTree.localFunction?_bindIn

/--
How the step of an `in` treats the tokens of a script. Unless it has one operand, and that names a
variable that is visible, the machine stays as it is. Otherwise the tokens at the front that will
not do are consumed, each answered by a line. The token after them is consumed, too, and its value
goes to the nearest variable of the name, of whose kind it is, and nowhere else. If there is none,
the statement fails with no variable changed.
-/
structure ReadsScript (program : Program) (elapsed : Nat) (m : Machine) (id : NodeId)
    (node : Node) : Prop where
  form : node.operands.length ≠ 1 → m.step program elapsed =
    (m, .error ⟨node.location, .inputForm node.operands.length, m.backtrace program⟩)
  undeclared : ∀ operand, node.operands = [operand] →
    m.scopes.get? node.scope operand.raw = none → m.step program elapsed =
      (m, .error ⟨node.location, .undeclared operand.raw, m.backtrace program⟩)
  accepted : ∀ operand old tokens token rest, node.operands = [operand] →
    m.scopes.get? node.scope operand.raw = some old → m.input.Scripted tokens →
    tokens.dropWhile (refuses old.kind) = token :: rest →
    ∃ value scopes, Stores old.kind token value ∧ value.kind = old.kind ∧
      Rebound m.scopes node.scope operand.raw value scopes ∧
      Input.Scripted ⟨rest.map .word⟩ rest ∧
      m.step program elapsed = (arrive program elapsed id node { m with
        input := ⟨rest.map .word⟩
        output := retries m.output (tokens.takeWhile (refuses old.kind))
        scopes } .next, .ok (program.next? id).isSome)
  closed : ∀ operand old tokens, node.operands = [operand] →
    m.scopes.get? node.scope operand.raw = some old → m.input.Scripted tokens →
    tokens.dropWhile (refuses old.kind) = [] → m.step program elapsed =
      ({ m with input := ⟨[]⟩, output := retries m.output tokens },
        .error ⟨node.location, .inputClosed operand.raw, m.backtrace program⟩)

/-- Every `in`, in every state, reads scripts in this way. -/
theorem readsScript_of_input (hcurrent : m.current = some id) (hnode : program.node? id = some node)
    (haction : node.action = .input) (elapsed : Nat) : ReadsScript program elapsed m id node := by
  have hattempt : m.attempt program id node = m.runInput node := by rw [attempt, haction]
  constructor
  · intro hform
    exact step_of_failed hcurrent hnode (hattempt.trans (runInput_of_form hform))
  · intro operand hoperands hnone
    exact step_of_failed hcurrent hnode (hattempt.trans (runInput_of_undeclared hoperands hnone))
  · intro operand old tokens token rest hoperands hold hscript hrest
    obtain ⟨value, hvalue, hrun⟩ := runInput_of_scripted hoperands hold hscript hrest
    have hsuffix : rest <:+ tokens := by
      have hdropped := List.dropWhile_suffix (l := tokens) (refuses old.kind)
      rw [hrest] at hdropped
      exact (List.suffix_cons token rest).trans hdropped
    exact ⟨value, _, hvalue, hvalue.kind_eq, rebound_set hold value, hscript.drop hsuffix,
      step_of_done hcurrent hnode (hattempt.trans hrun)⟩
  · intro operand old tokens hoperands hold hscript hrest
    exact step_of_failed hcurrent hnode
      (hattempt.trans (runInput_of_closed hoperands hold hscript hrest))

theorem eq_input_of_label {action : Action} (h : action.label = "in") : action = .input := by
  cases action with
  | input => rfl
  | declare kind => cases kind <;> simp [Action.label, Kind.keyword] at h
  | _ => simp [Action.label] at h

/-- A number is asked for, and the first word that is typed is none. -/
def retrying : List (List Word) :=
  [["number", "n"], ["in", "n"], ["out", "n"]].zipIdx.map
    fun (words, line) ↦ words.map fun text ↦ ⟨text, "retrying", line + 1⟩

theorem readsScript_retrying : ∃ linked m node, linkLines retrying = .ok linked ∧
    m = (runFor linked.program 1
      (start linked ⟨none, false⟩ (.ofText "abc 12 13") .fresh)).1 ∧
    m.current = some 1 ∧ linked.program.node? 1 = some node ∧ node.action = .input ∧
    ReadsScript linked.program 0 m 1 node ∧
    (m.step linked.program 0).1.input = .ofText "13" ∧
    (m.step linked.program 0).1.output = .kept "Please retry: invalid float literal\n" := by
  have hstate : ((linkLines retrying).toOption.map fun linked ↦
      let m := (runFor linked.program 1
        (start linked ⟨none, false⟩ (.ofText "abc 12 13") .fresh)).1
      (m.current, m.input, m.output)) = some (some 1, .ofText "abc 12 13", .fresh) := by
    decide +kernel
  have hstatement : ((linkLines retrying).toOption.map fun linked ↦
      let m := (runFor linked.program 1
        (start linked ⟨none, false⟩ (.ofText "abc 12 13") .fresh)).1
      (linked.program.node? 1).map fun node ↦
        (node.action.label, node.operands, m.scopes.get? node.scope "n")) =
      some (some ("in", [.name "n"], some (.number 0))) := by
    decide +kernel
  obtain ⟨linked, hlinked, hfacts⟩ := Chain.exists_of_map_toOption hstate
  rw [hlinked] at hstatement
  obtain ⟨hcurrent, hrest⟩ := Prod.mk.inj hfacts
  obtain ⟨hinput, houtput⟩ := Prod.mk.inj hrest
  obtain ⟨node, hnode, hkinds⟩ := Option.map_eq_some_iff.1 (Option.some.inj hstatement)
  obtain ⟨hlabel, hkinds⟩ := Prod.mk.inj hkinds
  obtain ⟨hoperands, hold⟩ := Prod.mk.inj hkinds
  have haction := eq_input_of_label hlabel
  have hreads := readsScript_of_input hcurrent hnode haction 0
  have hscript := Input.scripted_ofText "abc 12 13"
  rw [← hinput] at hscript
  obtain ⟨value, scopes, -, -, -, -, hstep⟩ := hreads.accepted _ _ _ "12" ["13"] hoperands hold
    hscript (by decide +kernel)
  refine ⟨linked, _, node, hlinked, rfl, hcurrent, hnode, haction, hreads, ?_, ?_⟩
  · rw [hstep]
    change Input.mk (["13"].map .word) = .ofText "13"
    decide +kernel
  · rw [hstep]
    change retries (runFor linked.program 1 _).1.output _ = _
    rw [houtput]
    decide +kernel

end Machine

end LineScript
