import LineScript.Proofs.Chain
import LineScript.Proofs.Text.Words
import LineScript.Source.Include
import Mathlib.Data.List.Nodup
import Mathlib.Data.List.Perm.Basic

/-!
# Splicing included files

Loading a file splices files into one another: each line that includes a file is replaced by the
statements of that file, and by nothing where the file cannot be read. `Spliced` says this line by
line, without regard to identities. The expansion of a file does it unless, on some chain of files
each of which names the next, two are one and the same; such a chain is found wherever it is, and
including a file several times without such a chain does no harm.
-/

namespace LineScript

/-- A line names a file: the keyword stands in it first, then a blank, then the name. -/
def Names (line named : List Char) : Prop :=
  ∃ before blank after, line = before ++ (includeKeyword.toList ++ blank :: after) ∧
    (∀ c ∈ before, isBlank c = true) ∧ isBlank blank = true ∧ named = trimBlanks after ∧
    named ≠ []

theorem trimBlanksLeft_includeKeyword (after : List Char) :
    trimBlanksLeft (includeKeyword.toList ++ after) = includeKeyword.toList ++ after := by
  change trimBlanksLeft ('i' :: _) = _
  rw [trimBlanksLeft, List.dropWhile_cons_of_neg (by decide)]
  rfl

theorem trimBlanks_ne_nil_iff {text : List Char} : trimBlanks text ≠ [] ↔ wordsOf text ≠ [] := by
  rw [Ne, Ne, trimBlanks_eq_nil_iff, wordsOf_eq_nil_iff]

/-- The path of an `include` line is the name that the line gives. -/
theorem includedPath?_eq_some_iff {line named : List Char} :
    includedPath? line = some named ↔ Names line named := by
  constructor
  · intro h
    unfold includedPath? at h
    split at h
    · rename_i keyword second others hwords
      split at h
      · rename_i hkeyword
        subst hkeyword
        obtain ⟨before, after, rfl, hbefore, hafter, hothers⟩ := exists_of_wordsOf_eq_cons hwords
        rw [trimBlanksLeft_append hbefore, trimBlanksLeft_includeKeyword, List.drop_left] at h
        cases after with
        | nil => cases hothers
        | cons blank after =>
          have hblank := hafter blank rfl
          have hblanks : ∀ c ∈ [blank], isBlank c = true := by simpa using hblank
          have htrim : trimBlanks (blank :: after) = trimBlanks after :=
            trimBlanks_append hblanks after
          rw [wordsOf_cons_of_blank hblank] at hothers
          obtain rfl := Option.some.inj h
          refine ⟨before, blank, after, rfl, hbefore, hblank, htrim, ?_⟩
          rw [htrim, trimBlanks_ne_nil_iff, hothers]
          exact List.cons_ne_nil second others
      · cases h
    · cases h
  · rintro ⟨before, blank, after, rfl, hbefore, hblank, rfl, hne⟩
    have hends : EndsWord (blank :: after) := by
      intro c hc
      rw [← Option.some.inj hc]
      exact hblank
    obtain ⟨second, others, hothers⟩ := List.exists_cons_of_ne_nil (trimBlanks_ne_nil_iff.1 hne)
    have hkeyword : ∀ c ∈ includeKeyword.toList, isBlank c = false := by
      have hall : includeKeyword.toList.all (fun c ↦ !isBlank c) = true := by decide
      simpa using hall
    have hwords : wordsOf (before ++ (includeKeyword.toList ++ blank :: after)) =
        includeKeyword.toList :: second :: others := by
      rw [wordsOf_append_of_blank hbefore, wordsOf_append (by decide) hkeyword hends,
        wordsOf_cons_of_blank hblank, hothers]
    unfold includedPath?
    rw [hwords]
    dsimp only
    rw [if_pos rfl, trimBlanksLeft_append hbefore, trimBlanksLeft_includeKeyword, List.drop_left]
    congr 1
    have hblanks : ∀ c ∈ [blank], isBlank c = true := by simpa using hblank
    exact trimBlanks_append hblanks after

theorem includedPath?_eq_none_iff {line : List Char} :
    includedPath? line = none ↔ ∀ named, ¬ Names line named := by
  rw [Option.eq_none_iff_forall_ne_some]
  simp only [Ne, includedPath?_eq_some_iff]

/-- Some line of a file under a path names the file under another path. -/
def Leads (path : String) (lines : List (List Char × Nat)) (target : String) : Prop :=
  ∃ line ∈ lines, ∃ named, Names line.1 named ∧ target = Path.beside path (.ofList named)

section Items

variable {path : String} {number : Nat} {line : List Char}

theorem ofLine?_eq_none_iff : SourceItem.ofLine? path number line = none ↔
    (∀ named, ¬ Names line named) ∧ Statement.ofLine? path number line = none := by
  rw [← includedPath?_eq_none_iff, SourceItem.ofLine?]
  cases includedPath? line <;> simp

theorem ofLine?_eq_statement_iff {s : Statement} :
    SourceItem.ofLine? path number line = some (.statement s) ↔
      (∀ named, ¬ Names line named) ∧ Statement.ofLine? path number line = some s := by
  rw [← includedPath?_eq_none_iff, SourceItem.ofLine?]
  cases includedPath? line <;> simp

theorem ofLine?_eq_inclusion_iff {target : String} :
    SourceItem.ofLine? path number line = some (.inclusion target) ↔
      ∃ named, Names line named ∧ target = Path.beside path (.ofList named) := by
  simp only [← includedPath?_eq_some_iff, SourceItem.ofLine?]
  cases includedPath? line with
  | none => simp
  | some named => simp [eq_comm (a := target)]

def itemsOf (path : String) (lines : List (List Char × Nat)) : List SourceItem :=
  lines.filterMap fun (content, number) ↦ SourceItem.ofLine? path number content

theorem mem_itemsOf_iff {lines : List (List Char × Nat)} {target : String} :
    .inclusion target ∈ itemsOf path lines ↔ Leads path lines target := by
  simp only [itemsOf, List.mem_filterMap, ofLine?_eq_inclusion_iff, Leads]

end Items

/-! ## Splices -/

/-- The statements that numbered lines of the file under a path stand for. -/
inductive Spliced (files : Files) :
    String → List (List Char × Nat) → List Statement → Prop where
  | nil {path : String} : Spliced files path [] []
  | blank {path : String} {line : List Char} {number : Nat} {lines : List (List Char × Nat)}
      {statements : List Statement} : (∀ named, ¬ Names line named) →
      Statement.ofLine? path number line = none → Spliced files path lines statements →
      Spliced files path ((line, number) :: lines) statements
  | statement {path : String} {line : List Char} {number : Nat}
      {lines : List (List Char × Nat)} {s : Statement} {statements : List Statement} :
      (∀ named, ¬ Names line named) → Statement.ofLine? path number line = some s →
      Spliced files path lines statements →
      Spliced files path ((line, number) :: lines) (s :: statements)
  | missing {path : String} {line named : List Char} {number : Nat}
      {lines : List (List Char × Nat)} {fault : ReadFault} {statements : List Statement} :
      Names line named → files.read (Path.beside path (.ofList named)) = .error fault →
      Spliced files path lines statements →
      Spliced files path ((line, number) :: lines) statements
  | included {path : String} {line named : List Char} {number : Nat}
      {lines : List (List Char × Nat)} {document : Document} {inner statements : List Statement} :
      Names line named → files.read (Path.beside path (.ofList named)) = .ok document →
      Spliced files (Path.beside path (.ofList named)) (numberedLines document.text) inner →
      Spliced files path lines statements →
      Spliced files path ((line, number) :: lines) (inner ++ statements)

variable {files : Files} {path : String} {lines : List (List Char × Nat)}
  {statements : List Statement} {active : List String} {items : List SourceItem}

theorem Names.unique {line named other : List Char} (h : Names line named)
    (hother : Names line other) : named = other := by
  rw [← includedPath?_eq_some_iff] at h hother
  rw [h] at hother
  exact Option.some.inj hother

/-- Lines stand for one sequence of statements at most. -/
theorem Spliced.unique {others : List Statement} (h : Spliced files path lines statements)
    (hothers : Spliced files path lines others) : others = statements := by
  induction h generalizing others with
  | nil =>
    cases hothers
    rfl
  | blank hnone hblank _ ih =>
    cases hothers with
    | blank _ _ hrest => exact ih hrest
    | statement _ hs => rw [hblank] at hs; cases hs
    | missing hnames | included hnames => exact absurd hnames (hnone _)
  | statement hnone hs _ ih =>
    cases hothers with
    | blank _ hblank => rw [hs] at hblank; cases hblank
    | statement _ hother hrest =>
      rw [hs] at hother
      rw [Option.some.inj hother, ih hrest]
    | missing hnames | included hnames => exact absurd hnames (hnone _)
  | missing hnames hread _ ih =>
    cases hothers with
    | blank hnone | statement hnone => exact absurd hnames (hnone _)
    | missing _ _ hrest => exact ih hrest
    | included hother hdocument =>
      rw [← hnames.unique hother, hread] at hdocument
      cases hdocument
  | included hnames hread _ _ ihInner ih =>
    cases hothers with
    | blank hnone | statement hnone => exact absurd hnames (hnone _)
    | missing hother hfault =>
      rw [← hnames.unique hother, hread] at hfault
      cases hfault
    | included hother hdocument hinner hrest =>
      obtain rfl := hnames.unique hother
      rw [hread] at hdocument
      cases hdocument
      rw [ihInner hinner, ih hrest]

/-- Lines that stand for nothing can be put in front. -/
theorem Spliced.skip {before : List (List Char × Nat)}
    (hbefore : ∀ line ∈ before, SourceItem.ofLine? path line.2 line.1 = none)
    (h : Spliced files path lines statements) :
    Spliced files path (before ++ lines) statements := by
  induction before with
  | nil => exact h
  | cons line rest ih =>
    obtain ⟨hnone, hblank⟩ := ofLine?_eq_none_iff.1 (hbefore line List.mem_cons_self)
    exact .blank hnone hblank (ih fun other hother ↦ hbefore other (List.mem_cons_of_mem _ hother))

/-- Lines that name no file stand for the statements they hold. -/
theorem spliced_of_plain (hplain : ∀ line ∈ lines, ∀ named, ¬ Names line.1 named) :
    Spliced files path lines
      (lines.filterMap fun (content, number) ↦ Statement.ofLine? path number content) := by
  induction lines with
  | nil => exact .nil
  | cons line rest ih =>
    obtain ⟨content, number⟩ := line
    have hnone := hplain _ List.mem_cons_self
    have hrest := ih fun other hother ↦ hplain other (List.mem_cons_of_mem _ hother)
    cases hs : Statement.ofLine? path number content with
    | none => simpa only [List.filterMap_cons, hs] using Spliced.blank hnone hs hrest
    | some s => simpa only [List.filterMap_cons, hs] using Spliced.statement hnone hs hrest

/-- What an expansion returns is the splice of the lines that were expanded. -/
theorem spliced_of_expand (h : expand files active items = .ok statements)
    (hitems : itemsOf path lines = items) : Spliced files path lines statements := by
  fun_induction expand files active items generalizing statements path lines with
  | case1 =>
    cases h
    have hnil : Spliced files path [] [] := .nil
    have hskip := hnil.skip (List.filterMap_eq_nil_iff.1 hitems)
    rwa [List.append_nil] at hskip
  | case2 active s items ih =>
    obtain ⟨rest, hrest, hresult⟩ := Chain.bind_eq_ok_iff.1 h
    cases hresult
    obtain ⟨before, line, after, rfl, hbefore, hline, hafter⟩ :=
      List.filterMap_eq_cons_iff.1 hitems
    obtain ⟨hnone, hs⟩ := ofLine?_eq_statement_iff.1 hline
    exact (Spliced.statement hnone hs (ih hrest hafter)).skip hbefore
  | case3 active target items fault hread ih =>
    obtain ⟨before, line, after, rfl, hbefore, hline, hafter⟩ :=
      List.filterMap_eq_cons_iff.1 hitems
    obtain ⟨named, hnames, rfl⟩ := ofLine?_eq_inclusion_iff.1 hline
    exact (Spliced.missing hnames hread (ih h hafter)).skip hbefore
  | case4 => cases h
  | case5 active target items document hread _ ihInner ih =>
    obtain ⟨inner, hinner, hboth⟩ := Chain.bind_eq_ok_iff.1 h
    obtain ⟨rest, hrest, hresult⟩ := Chain.bind_eq_ok_iff.1 hboth
    cases hresult
    obtain ⟨before, line, after, rfl, hbefore, hline, hafter⟩ :=
      List.filterMap_eq_cons_iff.1 hitems
    obtain ⟨named, hnames, rfl⟩ := ofLine?_eq_inclusion_iff.1 hline
    exact (Spliced.included hnames hread (ihInner hinner rfl) (ih hrest hafter)).skip hbefore

/-- Files that can be read, the first under a path, each of which names the next. -/
inductive IncludeChain (files : Files) : String → List Document → Prop where
  | last {path : String} {document : Document} : files.read path = .ok document →
      IncludeChain files path [document]
  | more {path target : String} {document : Document} {rest : List Document} :
      files.read path = .ok document → Leads path (numberedLines document.text) target →
      IncludeChain files target rest → IncludeChain files path (document :: rest)

/-- Some chain that begins with the file under a path holds two that are one and the same. -/
def IncludesItself (files : Files) (path : String) : Prop :=
  ∃ chain, IncludeChain files path chain ∧ ¬ (chain.map Document.identity).Nodup

/-- Some chain that begins with the file under a path, put after active files, does so. -/
def Reenters (files : Files) (active : List String) (path : String) : Prop :=
  ∃ chain, IncludeChain files path chain ∧ ¬ (active ++ chain.map Document.identity).Nodup

theorem not_reenters_of_error {fault : ReadFault} (hread : files.read path = .error fault) :
    ¬ Reenters files active path := by
  rintro ⟨chain, hchain, -⟩
  cases hchain with
  | last hok | more hok =>
    rw [hread] at hok
    cases hok

theorem reenters_of_mem {document : Document} (hread : files.read path = .ok document)
    (hmem : document.identity ∈ active) : Reenters files active path := by
  refine ⟨[document], .last hread, fun hnodup ↦ ?_⟩
  exact List.disjoint_of_nodup_append hnodup hmem (by simp)

/-- A file that is new reenters active files as the files that it names do. -/
theorem reenters_iff {document : Document} (hactive : active.Nodup)
    (hread : files.read path = .ok document) (hnew : document.identity ∉ active) :
    Reenters files active path ↔
      ∃ target, .inclusion target ∈ sourceItems path document.text ∧
        Reenters files (document.identity :: active) target := by
  have hperm (rest : List String) :
      (active ++ document.identity :: rest).Nodup ↔
        (document.identity :: active ++ rest).Nodup :=
    List.perm_middle.nodup_iff
  constructor
  · rintro ⟨chain, hchain, hrepeats⟩
    cases hchain with
    | last hok =>
      rw [hread] at hok
      cases hok
      refine absurd ?_ hrepeats
      rw [List.map_singleton, hperm, List.append_nil]
      exact hactive.cons hnew
    | more hok hleads hrest =>
      rw [hread] at hok
      cases hok
      rw [List.map_cons, hperm] at hrepeats
      exact ⟨_, mem_itemsOf_iff.2 hleads, _, hrest, hrepeats⟩
  · rintro ⟨target, hmem, chain, hchain, hrepeats⟩
    refine ⟨document :: chain, .more hread (mem_itemsOf_iff.1 hmem) hchain, ?_⟩
    rwa [List.map_cons, hperm]

/-- Some of the items includes a file that reenters active files. -/
def Clashes (files : Files) (active : List String) (items : List SourceItem) : Prop :=
  ∃ target, .inclusion target ∈ items ∧ Reenters files active target

theorem clashes_cons_inclusion {target : String} :
    Clashes files active (.inclusion target :: items) ↔
      Reenters files active target ∨ Clashes files active items := by
  simp [Clashes, or_and_right, exists_or]

/-- An expansion reports a cycle where its items clash, and returns statements otherwise. -/
theorem expand_or_cycle (hactive : active.Nodup) :
    (Clashes files active items ∧ ∃ path, expand files active items = .error (.cycle path)) ∨
      ¬ Clashes files active items ∧
        ∃ statements, expand files active items = .ok statements := by
  fun_induction expand files active items with
  | case1 => exact .inr ⟨by simp [Clashes], [], rfl⟩
  | case2 active s items ih =>
    have hclashes : Clashes files active (.statement s :: items) ↔ Clashes files active items := by
      simp [Clashes]
    rw [hclashes]
    rcases ih hactive with ⟨hclash, cyclic, hcycle⟩ | ⟨hnone, rest, hrest⟩
    · exact .inl ⟨hclash, cyclic, by rw [hcycle]; rfl⟩
    · exact .inr ⟨hnone, s :: rest, by rw [hrest]; rfl⟩
  | case3 active target items fault hread ih =>
    rw [clashes_cons_inclusion, or_iff_right (not_reenters_of_error hread)]
    exact ih hactive
  | case4 active target items document hread hmem =>
    exact .inl ⟨clashes_cons_inclusion.2 (.inl (reenters_of_mem hread hmem)), target, rfl⟩
  | case5 active target items document hread hnew ihInner ih =>
    rw [clashes_cons_inclusion, reenters_iff hactive hread hnew]
    rcases ihInner (hactive.cons hnew) with ⟨hclash, cyclic, hcycle⟩ | ⟨hinner, inner, hok⟩
    · exact .inl ⟨.inl hclash, cyclic, by rw [hcycle]; rfl⟩
    · rcases ih hactive with ⟨hclash, cyclic, hcycle⟩ | ⟨hrest, rest, hrestOk⟩
      · exact .inl ⟨.inr hclash, cyclic, by rw [hok, hcycle]; rfl⟩
      · exact .inr ⟨not_or.2 ⟨hinner, hrest⟩, inner ++ rest, by rw [hok, hrestOk]; rfl⟩

/-! ## Loading -/

/-- A file includes itself exactly where the expansion of its items, it being active, clashes. -/
theorem includesItself_iff {document : Document} (hread : files.read path = .ok document) :
    IncludesItself files path ↔
      Clashes files [document.identity] (sourceItems path document.text) :=
  reenters_iff .nil hread List.not_mem_nil

theorem load_of_error {fault : ReadFault} (hread : files.read path = .error fault) :
    load files path = .error (.unreadable path fault) := by
  rw [load, hread]

theorem load_of_cyclic {document : Document} (hread : files.read path = .ok document)
    (hcyclic : IncludesItself files path) : ∃ cycle, load files path = .error (.cycle cycle) := by
  rw [includesItself_iff hread] at hcyclic
  rcases expand_or_cycle (List.nodup_singleton document.identity) with
    ⟨-, cycle, hcycle⟩ | ⟨hnone, -⟩
  · exact ⟨cycle, by rw [load, hread]; dsimp only; rw [hcycle]; rfl⟩
  · exact absurd hcyclic hnone

/-- A file that does not include itself is loaded as its splice, which must not be empty. -/
theorem load_of_acyclic {document : Document} (hread : files.read path = .ok document)
    (hacyclic : ¬ IncludesItself files path) :
    ∃ statements, Spliced files path (numberedLines document.text) statements ∧
      load files path = if statements = [] then .error (.empty path) else .ok statements := by
  rw [includesItself_iff hread] at hacyclic
  rcases expand_or_cycle (List.nodup_singleton document.identity) with
    ⟨hclash, -⟩ | ⟨-, statements, hexpand⟩
  · exact absurd hclash hacyclic
  · refine ⟨statements, spliced_of_expand hexpand rfl, ?_⟩
    rw [load, hread]
    dsimp only
    rw [hexpand]
    cases statements <;> rfl

theorem not_includesItself_of_plain {document : Document} (hread : files.read path = .ok document)
    (hplain : ∀ line ∈ numberedLines document.text, ∀ named, ¬ Names line.1 named) :
    ¬ IncludesItself files path := by
  rw [includesItself_iff hread]
  rintro ⟨target, hmem, -⟩
  obtain ⟨line, hline, named, hnames, -⟩ := mem_itemsOf_iff.1 hmem
  exact hplain line hline named hnames

/--
Loading a file always ends. It fails for want of the file exactly where that cannot be read, and
with a cycle exactly where the file includes itself; otherwise what is loaded is the one splice of
its lines, which is an error only if it is empty. A file that names no other is loaded as its own
statements.
-/
theorem load_splices (files : Files) (root : String) :
    (∀ path fault, load files root = .error (.unreadable path fault) ↔
      path = root ∧ files.read root = .error fault) ∧
    ∀ document, files.read root = .ok document →
      ((∃ path, load files root = .error (.cycle path)) ↔ IncludesItself files root) ∧
      (¬ IncludesItself files root → ∃ statements,
        (∀ others, Spliced files root (numberedLines document.text) others ↔
          others = statements) ∧
        load files root = if statements = [] then .error (.empty root) else .ok statements) ∧
      ((∀ line ∈ numberedLines document.text, ∀ named, ¬ Names line.1 named) →
        load files root = if statementsOf root document.text = [] then .error (.empty root)
          else .ok (statementsOf root document.text)) := by
  have hacyclic : ∀ document, files.read root = .ok document → ¬ IncludesItself files root →
      ∃ statements, (∀ others, Spliced files root (numberedLines document.text) others ↔
          others = statements) ∧
        load files root = if statements = [] then .error (.empty root) else .ok statements := by
    intro document hread hnone
    obtain ⟨statements, hspliced, hload⟩ := load_of_acyclic hread hnone
    exact ⟨statements, fun others ↦ ⟨hspliced.unique, fun h ↦ h ▸ hspliced⟩, hload⟩
  refine ⟨?_, ?_⟩
  · intro path fault
    cases hread : files.read root with
    | error found =>
      rw [load_of_error hread]
      simp [eq_comm]
    | ok document =>
      by_cases hcyclic : IncludesItself files root
      · obtain ⟨cycle, hcycle⟩ := load_of_cyclic hread hcyclic
        simp [hcycle]
      · obtain ⟨statements, -, hload⟩ := hacyclic document hread hcyclic
        rw [hload]
        split <;> simp
  · intro document hread
    refine ⟨⟨?_, load_of_cyclic hread⟩, hacyclic document hread, ?_⟩
    · rintro ⟨path, hcycle⟩
      by_contra hnone
      obtain ⟨statements, -, hload⟩ := hacyclic document hread hnone
      rw [hload] at hcycle
      split at hcycle <;> cases hcycle
    · intro hplain
      obtain ⟨statements, hunique, hload⟩ :=
        hacyclic document hread (not_includesItself_of_plain hread hplain)
      rw [statementsOf, (hunique _).1 (spliced_of_plain hplain)]
      exact hload

/-- Two files that include a third, which is no cycle, and one that includes itself by two
spellings of its path. -/
def pantry : Files :=
  .ofTable [
    ("menu", .ok ⟨"menu", "include shelf/tea\nout 1\ninclude nowhere\n  include  shelf/jam"⟩),
    ("shelf/tea", .ok ⟨"shelf/tea", "include sugar\nout 2"⟩),
    ("shelf/jam", .ok ⟨"shelf/jam", "# sweet\ninclude sugar"⟩),
    ("shelf/sugar", .ok ⟨"shelf/sugar", "\nout 3"⟩),
    ("loop", .ok ⟨"loop", "out 4\ninclude ./loop"⟩),
    ("./loop", .ok ⟨"loop", "out 4\ninclude ./loop"⟩)]

theorem load_pantry :
    load pantry "menu" = .ok [⟨"shelf/sugar", 2, "out", ["3"]⟩, ⟨"shelf/tea", 2, "out", ["2"]⟩,
      ⟨"menu", 2, "out", ["1"]⟩, ⟨"shelf/sugar", 2, "out", ["3"]⟩] ∧
    ¬ IncludesItself pantry "menu" ∧ IncludesItself pantry "loop" := by
  have hmenu : load pantry "menu" = .ok [⟨"shelf/sugar", 2, "out", ["3"]⟩,
      ⟨"shelf/tea", 2, "out", ["2"]⟩, ⟨"menu", 2, "out", ["1"]⟩,
      ⟨"shelf/sugar", 2, "out", ["3"]⟩] := by
    have hread : pantry.read "menu" = .ok ⟨"menu", _⟩ := rfl
    have hnowhere : pantry.read "nowhere" = .error .notFound := by decide +kernel
    have htea : pantry.read "shelf/tea" = .ok ⟨"shelf/tea", _⟩ := rfl
    have hjam : pantry.read "shelf/jam" = .ok ⟨"shelf/jam", _⟩ := rfl
    have hsugar : pantry.read "shelf/sugar" = .ok ⟨"shelf/sugar", _⟩ := rfl
    have hmenuItems : sourceItems "menu"
        "include shelf/tea\nout 1\ninclude nowhere\n  include  shelf/jam" =
          [.inclusion "shelf/tea", .statement ⟨"menu", 2, "out", ["1"]⟩, .inclusion "nowhere",
            .inclusion "shelf/jam"] := by
      decide +kernel
    have hteaItems : sourceItems "shelf/tea" "include sugar\nout 2" =
        [.inclusion "shelf/sugar", .statement ⟨"shelf/tea", 2, "out", ["2"]⟩] := by
      decide +kernel
    have hjamItems : sourceItems "shelf/jam" "# sweet\ninclude sugar" =
        [.inclusion "shelf/sugar"] := by
      decide +kernel
    have hsugarItems : sourceItems "shelf/sugar" "\nout 3" =
        [.statement ⟨"shelf/sugar", 2, "out", ["3"]⟩] := by
      decide +kernel
    simp [load, hread, hmenuItems, expand_of_ok htea, hteaItems, expand_of_ok hjam, hjamItems,
      expand_of_ok hsugar, hsugarItems, expand_of_error hnowhere, expand, bind, Except.bind, pure,
      Except.pure]
  refine ⟨hmenu, ?_, ?_⟩
  · intro hcyclic
    obtain ⟨path, hcycle⟩ := (((load_splices pantry "menu").2 _ rfl).1).2 hcyclic
    rw [hmenu] at hcycle
    cases hcycle
  · have hread : pantry.read "loop" = .ok ⟨"loop", _⟩ := rfl
    have hagain : pantry.read "./loop" = .ok ⟨"loop", _⟩ := rfl
    have hitems : sourceItems "loop" "out 4\ninclude ./loop" =
        [.statement ⟨"loop", 1, "out", ["4"]⟩, .inclusion "./loop"] := by
      decide +kernel
    refine (((load_splices pantry "loop").2 _ hread).1).1 ⟨"./loop", ?_⟩
    simp [load, hread, hitems, expand_of_ok hagain, expand, bind, Except.bind]

end LineScript
