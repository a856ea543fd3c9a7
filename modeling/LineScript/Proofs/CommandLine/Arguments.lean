import LineScript.CommandLine.Options
import LineScript.Proofs.Chain
import Mathlib.Data.List.Induction

/-!
# What the arguments of a run mean

An argument without fault turns on a switch, sets the call depth or is the path. Options do not get
in each other's way: a switch is on if one of its spellings is among the arguments, and the last
depth counts. So arguments may be reordered freely, except for the depths among themselves.
Arguments that are refused are refused for the first one that is at fault.
-/

namespace LineScript.RunOptions

inductive Switch where
  | debug
  | trace
  | dump
  | time
  | verbose
deriving DecidableEq, Repr

namespace Switch

def spellings : Switch → List String
  | debug => ["-d", "--debug"]
  | trace => ["-t", "--trace"]
  | dump => ["-p", "--dump"]
  | time => ["--time"]
  | verbose => ["-v", "--verbose"]

def isOn : Switch → RunOptions → Bool
  | debug, options => options.debug
  | trace, options => options.trace
  | dump, options => options.dump
  | time, options => options.time
  | verbose, options => options.verbose

def turnOn : Switch → RunOptions → RunOptions
  | debug, options => { options with debug := true }
  | trace, options => { options with trace := true }
  | dump, options => { options with dump := true }
  | time, options => { options with time := true }
  | verbose, options => { options with verbose := true }

theorem isOn_turnOn_iff {switch other : Switch} {options : RunOptions} :
    other.isOn (switch.turnOn options) ↔ other = switch ∨ other.isOn options := by
  cases switch <;> cases other <;> simp [isOn, turnOn]

theorem maxCallDepth_turnOn (switch : Switch) (options : RunOptions) :
    (switch.turnOn options).maxCallDepth = options.maxCallDepth := by
  cases switch <;> rfl

theorem isOn_maxCallDepth (switch : Switch) (options : RunOptions) (depth? : Option Nat) :
    switch.isOn { options with maxCallDepth := depth? } = switch.isOn options := by
  cases switch <;> rfl

theorem isOn_none (switch : Switch) : switch.isOn RunOptions.none = false := by
  cases switch <;> rfl

/-- No two switches are written the same way. -/
theorem eq_of_mem_spellings {switch other : Switch} {spelling : String}
    (h : spelling ∈ switch.spellings) (hother : spelling ∈ other.spellings) : other = switch := by
  have hdisjoint : ∀ spelling ∈ switch.spellings, spelling ∈ other.spellings → other = switch := by
    cases switch <;> cases other <;> decide
  exact hdisjoint spelling h hother

end Switch

/-- Options are known from their switches and their depth. -/
theorem eq_of_isOn {options other : RunOptions}
    (hswitches : ∀ switch : Switch, switch.isOn options = switch.isOn other)
    (hdepth : options.maxCallDepth = other.maxCallDepth) : options = other := by
  cases options
  cases other
  exact (RunOptions.mk.injEq ..).mpr ⟨hswitches .debug, hswitches .trace, hswitches .dump,
    hswitches .time, hswitches .verbose, hdepth⟩

/-- An argument is an option if it starts with a dash. -/
def isOption (argument : String) : Bool :=
  argument.toList.head? == some '-'

def isDepthOption (argument : String) : Bool :=
  depthOption.toList.isPrefixOf argument.toList

/-- A text that is read as a depth: digits, perhaps after a plus, that denote a number of at most
64 bits. -/
def ReadsDepth (text : String) (depth : Nat) : Prop :=
  ∃ digits : List Char, (text.toList = digits ∨ text.toList = '+' :: digits) ∧ digits ≠ [] ∧
    (∀ digit ∈ digits, digit.isDigit) ∧ Decimal.ofDigits digits = depth ∧
    depth ≤ 0xFFFFFFFFFFFFFFFF

/-- An argument that sets the depth. -/
def SetsDepth (argument : String) (depth : Nat) : Prop :=
  ∃ text, argument = depthOption ++ text ∧ ReadsDepth text depth

/-- An option that means something. -/
def Known (argument : String) : Prop :=
  (∃ switch : Switch, argument ∈ switch.spellings) ∨ ∃ depth, SetsDepth argument depth

/-- Why an argument is refused, where `paths` have been there before. -/
inductive Refuses (paths : List String) : String → String → Prop
  | invalidDepth {text : String} (h : ∀ depth, ¬ ReadsDepth text depth) :
    Refuses paths (depthOption ++ text) ("invalid call depth '" ++ text ++ "'")
  | unknownOption {argument : String} (hoption : isOption argument)
    (hswitch : ∀ switch : Switch, argument ∉ switch.spellings)
    (hdepth : isDepthOption argument = false) :
    Refuses paths argument ("unknown option '" ++ argument ++ "'")
  | unexpected {argument : String} (hpath : isOption argument = false) (hpaths : paths ≠ []) :
    Refuses paths argument ("unexpected argument '" ++ argument ++ "'")

def paths (arguments : List String) : List String :=
  arguments.filter (!isOption ·)

def depthOptions (arguments : List String) : List String :=
  arguments.filter isDepthOption

/-- No argument is an unknown option, an invalid depth or a second path. -/
def Faultless (arguments : List String) : Prop :=
  ∀ before argument after, arguments = before ++ argument :: after →
    ∀ message, ¬ Refuses (paths before) argument message

/-- What arguments without fault come to: at most one of them is a path, a switch is on if it is
there, and the last depth counts. -/
structure Accounts (arguments : List String) (path? : Option String) (options : RunOptions) :
    Prop where
  known : ∀ argument ∈ arguments, isOption argument → Known argument
  paths_eq : paths arguments = path?.toList
  isOn_iff : ∀ switch : Switch, switch.isOn options ↔
    ∃ spelling ∈ switch.spellings, spelling ∈ arguments
  maxCallDepth_iff : ∀ depth, options.maxCallDepth = some depth ↔
    ∃ argument, (depthOptions arguments).getLast? = some argument ∧ SetsDepth argument depth

variable {argument text spelling path : String} {depth : Nat} {switch : Switch}
  {arguments others before after : List String} {path? path?' : Option String}
  {options options' : RunOptions} {fault : ArgumentError}

/-- A text is read without its sign. -/
theorem readDepth?_eq {digits : List Char}
    (htext : text.toList = '+' :: digits ∨ text.toList = digits ∧ digits.head? ≠ some '+') :
    readDepth? text =
      if digits.isEmpty || !digits.all Char.isDigit then .none
      else if Decimal.ofDigits digits ≤ largestDepth then some (Decimal.ofDigits digits)
      else .none := by
  unfold readDepth?
  rcases htext with hsigned | ⟨hplain, hhead⟩
  · rw [hsigned]
    rfl
  · rw [hplain]
    split
    · exact absurd rfl hhead
    · rfl

theorem readDepth?_eq_some_iff : readDepth? text = some depth ↔ ReadsDepth text depth := by
  constructor
  · intro hread
    obtain ⟨digits, htext⟩ : ∃ digits,
        text.toList = '+' :: digits ∨ text.toList = digits ∧ digits.head? ≠ some '+' := by
      by_cases hsigned : text.toList.head? = some '+'
      · obtain ⟨digits, htext⟩ := List.head?_eq_some_iff.1 hsigned
        exact ⟨digits, .inl htext⟩
      · exact ⟨_, .inr ⟨rfl, hsigned⟩⟩
    rw [readDepth?_eq htext] at hread
    split at hread
    · cases hread
    · rename_i hdigits
      split at hread
      · rename_i hle
        cases hread
        simp only [Bool.or_eq_true, List.isEmpty_iff, Bool.not_eq_true', not_or,
          Bool.not_eq_false, List.all_eq_true] at hdigits
        exact ⟨digits, (htext.imp_right And.left).symm, hdigits.1, hdigits.2, rfl, hle⟩
      · cases hread
  · rintro ⟨digits, htext, hne, hall, rfl, hle⟩
    have hsign : digits.head? ≠ some '+' := by
      intro hhead
      exact absurd (hall _ (List.mem_of_head? hhead)) (by decide)
    rw [readDepth?_eq (htext.symm.imp_right fun hplain ↦ ⟨hplain, hsign⟩), if_neg,
      if_pos (show _ ≤ largestDepth from hle)]
    simpa [hne] using hall

theorem ReadsDepth.unique {other : Nat} (h : ReadsDepth text depth)
    (hother : ReadsDepth text other) : other = depth := by
  rw [← readDepth?_eq_some_iff] at h hother
  exact Option.some.inj (hother.symm.trans h)

theorem depthText?_eq_some_iff :
    depthText? argument = some text ↔ argument = depthOption ++ text := by
  unfold depthText?
  rw [← String.toList_inj, String.toList_append, String.length]
  split
  · rename_i hstarts
    obtain ⟨rest, hrest⟩ := List.isPrefixOf_iff_prefix.1 hstarts
    rw [← hrest, List.drop_left, List.append_cancel_left_eq, Option.some_inj]
    constructor
    · rintro rfl
      rw [String.toList_ofList]
    · rintro rfl
      rw [String.ofList_toList]
  · rename_i hstarts
    refine ⟨nofun, fun h ↦ absurd ?_ hstarts⟩
    exact List.isPrefixOf_iff_prefix.2 ⟨_, h.symm⟩

theorem isDepthOption_iff : isDepthOption argument ↔ ∃ text, argument = depthOption ++ text := by
  rw [isDepthOption, List.isPrefixOf_iff_prefix]
  constructor
  · rintro ⟨rest, hrest⟩
    refine ⟨.ofList rest, ?_⟩
    rw [← String.toList_inj, String.toList_append, String.toList_ofList, hrest]
  · rintro ⟨text, rfl⟩
    rw [String.toList_append]
    exact List.prefix_append _ _

/-- The text of a depth option is known from the argument. -/
theorem depthOption_append_inj {other : String} (h : depthOption ++ text = depthOption ++ other) :
    text = other := by
  rw [← depthText?_eq_some_iff, depthText?_eq_some_iff.2 rfl] at h
  exact (Option.some.inj h)

/-! ## One argument -/

theorem isOption_of_isDepthOption (h : isDepthOption argument) : isOption argument := by
  obtain ⟨text, rfl⟩ := isDepthOption_iff.1 h
  rw [isOption, String.toList_append]
  rfl

theorem isOption_of_mem_spellings (h : spelling ∈ switch.spellings) : isOption spelling := by
  have hdash : ∀ spelling ∈ switch.spellings, isOption spelling := by
    cases switch <;> decide
  exact hdash spelling h

theorem isDepthOption_of_mem_spellings (h : spelling ∈ switch.spellings) :
    isDepthOption spelling = false := by
  have hshort : ∀ spelling ∈ switch.spellings, isDepthOption spelling = false := by
    cases switch <;> decide
  exact hshort spelling h

theorem SetsDepth.isDepthOption (h : SetsDepth argument depth) : isDepthOption argument := by
  obtain ⟨text, rfl, -⟩ := h
  exact isDepthOption_iff.2 ⟨text, rfl⟩

theorem setsDepth_append_iff : SetsDepth (depthOption ++ text) depth ↔ ReadsDepth text depth := by
  constructor
  · rintro ⟨other, hother, hreads⟩
    rwa [depthOption_append_inj hother]
  · exact fun hreads ↦ ⟨text, rfl, hreads⟩

/-- An argument is refused if it is an option that means nothing, or a path after another one. -/
theorem refuses_iff {paths : List String} : (∃ message, Refuses paths argument message) ↔
    isOption argument ∧ ¬ Known argument ∨ isOption argument = false ∧ paths ≠ [] := by
  constructor
  · rintro ⟨message, hrefuses⟩
    cases hrefuses with
    | @invalidDepth text h =>
      have hdepth : isDepthOption (depthOption ++ text) := isDepthOption_iff.2 ⟨text, rfl⟩
      refine .inl ⟨isOption_of_isDepthOption hdepth, ?_⟩
      rintro (⟨switch, hmem⟩ | ⟨depth, hsets⟩)
      · rw [isDepthOption_of_mem_spellings hmem] at hdepth
        cases hdepth
      · exact h depth (setsDepth_append_iff.1 hsets)
    | unknownOption hoption hswitch hdepth =>
      refine .inl ⟨hoption, ?_⟩
      rintro (⟨switch, hmem⟩ | ⟨depth, hsets⟩)
      · exact hswitch switch hmem
      · rw [hsets.isDepthOption] at hdepth
        cases hdepth
    | unexpected hpath hpaths => exact .inr ⟨hpath, hpaths⟩
  · rintro (⟨hoption, hknown⟩ | ⟨hpath, hpaths⟩)
    · by_cases hdepth : isDepthOption argument
      · obtain ⟨text, rfl⟩ := isDepthOption_iff.1 hdepth
        exact ⟨_, .invalidDepth fun depth hreads ↦
          hknown (.inr ⟨depth, setsDepth_append_iff.2 hreads⟩)⟩
      · exact ⟨_, .unknownOption hoption (fun switch hmem ↦ hknown (.inl ⟨switch, hmem⟩))
          (Bool.eq_false_iff.2 hdepth)⟩
    · exact ⟨_, .unexpected hpath hpaths⟩

/-- How an argument without fault changes what is known so far. -/
inductive Adds : Option String × RunOptions → String → Option String × RunOptions → Prop
  | switch {path? : Option String} {options : RunOptions} {switch : Switch} {spelling : String}
    (h : spelling ∈ switch.spellings) :
    Adds (path?, options) spelling (path?, switch.turnOn options)
  | depth {path? : Option String} {options : RunOptions} {text : String} {depth : Nat}
    (h : ReadsDepth text depth) :
    Adds (path?, options) (depthOption ++ text) (path?, { options with maxCallDepth := some depth })
  | path {options : RunOptions} {argument : String} (h : isOption argument = false) :
    Adds (.none, options) argument (some argument, options)

variable {state next : Option String × RunOptions}

/-- An argument is taken into account, or refused with a message. -/
theorem addArgument_spec (state : Option String × RunOptions) (argument : String) :
    (∃ next, addArgument state argument = .ok next ∧ Adds state argument next) ∨
      ∃ fault, addArgument state argument = .error fault ∧
        Refuses state.1.toList argument fault.message := by
  obtain ⟨path?, options⟩ := state
  unfold addArgument
  dsimp only
  split
  · exact .inl ⟨_, rfl, .switch (show _ ∈ Switch.verbose.spellings by decide)⟩
  · exact .inl ⟨_, rfl, .switch (show _ ∈ Switch.verbose.spellings by decide)⟩
  · exact .inl ⟨_, rfl, .switch (show _ ∈ Switch.debug.spellings by decide)⟩
  · exact .inl ⟨_, rfl, .switch (show _ ∈ Switch.debug.spellings by decide)⟩
  · exact .inl ⟨_, rfl, .switch (show _ ∈ Switch.trace.spellings by decide)⟩
  · exact .inl ⟨_, rfl, .switch (show _ ∈ Switch.trace.spellings by decide)⟩
  · exact .inl ⟨_, rfl, .switch (show _ ∈ Switch.time.spellings by decide)⟩
  · exact .inl ⟨_, rfl, .switch (show _ ∈ Switch.dump.spellings by decide)⟩
  · exact .inl ⟨_, rfl, .switch (show _ ∈ Switch.dump.spellings by decide)⟩
  · rename_i hv hverbose hd hdebug ht htrace htime hp hdump
    split
    · rename_i text htext
      obtain rfl := depthText?_eq_some_iff.1 htext
      split
      · rename_i depth hread
        exact .inl ⟨_, rfl, .depth (readDepth?_eq_some_iff.1 hread)⟩
      · rename_i hread
        refine .inr ⟨_, rfl, .invalidDepth fun depth hreads ↦ ?_⟩
        rw [readDepth?_eq_some_iff.2 hreads] at hread
        cases hread
    · rename_i hnone
      split
      · rename_i hdash
        refine .inr ⟨_, rfl, .unknownOption (by simpa [isOption] using hdash) ?_ ?_⟩
        · rintro (_ | _ | _ | _ | _) hmem <;> simp [Switch.spellings] at hmem <;> tauto
        · rw [Bool.eq_false_iff]
          intro hdepth
          obtain ⟨text, htext⟩ := isDepthOption_iff.1 hdepth
          rw [depthText?_eq_some_iff.2 htext] at hnone
          cases hnone
      · rename_i hdash
        have hoption : isOption argument = false := by simpa [isOption] using hdash
        cases path? with
        | none => exact .inl ⟨_, rfl, .path hoption⟩
        | some path => exact .inr ⟨_, rfl, .unexpected hoption (List.cons_ne_nil _ _)⟩

theorem Adds.known (h : Adds state argument next) (hoption : isOption argument) :
    Known argument := by
  cases h with
  | switch hmem => exact .inl ⟨_, hmem⟩
  | depth hreads => exact .inr ⟨_, setsDepth_append_iff.2 hreads⟩
  | path hpath => exact absurd hoption (Bool.eq_false_iff.1 hpath)

theorem Adds.toList_eq (h : Adds state argument next) :
    next.1.toList = state.1.toList ++ paths [argument] := by
  cases h with
  | switch hmem => simp [paths, isOption_of_mem_spellings hmem]
  | depth hreads =>
    simp [paths, isOption_of_isDepthOption (isDepthOption_iff.2 ⟨_, rfl⟩)]
  | path hpath => simp [paths, hpath]

theorem Adds.isOn_iff (h : Adds state argument next) (switch : Switch) :
    switch.isOn next.2 ↔ switch.isOn state.2 ∨ argument ∈ switch.spellings := by
  cases h with
  | switch hmem =>
    rw [Switch.isOn_turnOn_iff, or_comm]
    refine or_congr_right ⟨?_, Switch.eq_of_mem_spellings hmem⟩
    rintro rfl
    exact hmem
  | @depth _ _ text =>
    rw [Switch.isOn_maxCallDepth, iff_self_or]
    intro hmem
    have hnot := isDepthOption_of_mem_spellings hmem
    rw [isDepthOption_iff.2 ⟨text, rfl⟩] at hnot
    cases hnot
  | path hpath =>
    rw [iff_self_or]
    intro hmem
    rw [isOption_of_mem_spellings hmem] at hpath
    cases hpath

theorem Adds.maxCallDepth_iff (h : Adds state argument next) (depth : Nat) :
    next.2.maxCallDepth = some depth ↔ SetsDepth argument depth ∨
      isDepthOption argument = false ∧ state.2.maxCallDepth = some depth := by
  have hnone : isDepthOption argument = false → ¬ SetsDepth argument depth :=
    fun hnot hsets ↦ Bool.eq_false_iff.1 hnot hsets.isDepthOption
  cases h with
  | switch hmem =>
    have hnot := isDepthOption_of_mem_spellings hmem
    rw [Switch.maxCallDepth_turnOn]
    simp [hnot, hnone hnot]
  | @depth _ _ text _ hreads =>
    have hdepth : isDepthOption (depthOption ++ text) := isDepthOption_iff.2 ⟨text, rfl⟩
    rw [setsDepth_append_iff, Option.some_inj]
    simp only [hdepth, Bool.true_eq_false, false_and, or_false]
    exact ⟨fun heq ↦ heq ▸ hreads, fun hother ↦ hother.unique hreads⟩
  | path hpath =>
    have hnot : isDepthOption argument = false :=
      Bool.eq_false_iff.2 fun hdepth ↦
        Bool.eq_false_iff.1 hpath (isOption_of_isDepthOption hdepth)
    simp [hnot, hnone hnot]

/-! ## All arguments -/

theorem paths_append : paths (before ++ after) = paths before ++ paths after :=
  List.filter_append ..

theorem accounts_nil : Accounts [] .none RunOptions.none where
  known := by simp
  paths_eq := rfl
  isOn_iff switch := by simp [Switch.isOn_none]
  maxCallDepth_iff depth := by simp [RunOptions.none, depthOptions]

/-- What arguments come to changes with one more argument by what that argument adds. -/
theorem Accounts.snoc (h : Accounts before path? options)
    (hadds : Adds (path?, options) argument (path?', options')) :
    Accounts (before ++ [argument]) path?' options' where
  known other hmem hoption := by
    rcases List.mem_append.1 hmem with hbefore | hlast
    · exact h.known other hbefore hoption
    · obtain rfl := List.mem_singleton.1 hlast
      exact hadds.known hoption
  paths_eq := by
    rw [paths_append, h.paths_eq]
    exact hadds.toList_eq.symm
  isOn_iff switch := by
    rw [hadds.isOn_iff switch, h.isOn_iff switch]
    simp [and_or_left, exists_or]
  maxCallDepth_iff depth := by
    rw [hadds.maxCallDepth_iff depth, h.maxCallDepth_iff depth]
    unfold depthOptions
    rw [List.filter_append, List.getLast?_append]
    cases hdepth : isDepthOption argument with
    | false =>
      have hnot : ¬ SetsDepth argument depth :=
        fun hsets ↦ Bool.eq_false_iff.1 hdepth hsets.isDepthOption
      simp [hdepth, hnot]
    | true => simp [hdepth]

theorem accounts_of_foldlM
    (h : arguments.foldlM addArgument (.none, RunOptions.none) = .ok (path?, options)) :
    Accounts arguments path? options := by
  induction arguments using List.reverseRecOn generalizing path? options with
  | nil =>
    cases h
    exact accounts_nil
  | append_singleton before argument ih =>
    rw [List.foldlM_append] at h
    obtain ⟨⟨reached, known⟩, hbefore, hlast⟩ := Chain.bind_eq_ok_iff.1 h
    obtain ⟨last, hlast, hresult⟩ := Chain.bind_eq_ok_iff.1 hlast
    cases hresult
    rcases addArgument_spec (reached, known) argument with ⟨next, hok, hadds⟩ | ⟨fault, herror, -⟩
    · obtain rfl := Except.ok.inj (hok.symm.trans hlast)
      exact (ih hbefore).snoc hadds
    · cases herror.symm.trans hlast

/-- Arguments come to one thing only. -/
theorem Accounts.unique (h : Accounts arguments path? options)
    (h' : Accounts arguments path?' options') : path? = path?' ∧ options = options' := by
  constructor
  · calc
      path? = path?.toList.head? := Option.head?_toList.symm
      _ = path?'.toList.head? := by rw [← h.paths_eq, h'.paths_eq]
      _ = path?' := Option.head?_toList
  · refine eq_of_isOn (fun switch ↦ ?_) (Option.ext fun depth ↦ ?_)
    · rw [Bool.eq_iff_iff, h.isOn_iff, h'.isOn_iff]
    · rw [h.maxCallDepth_iff, h'.maxCallDepth_iff]

theorem Accounts.of_perm (h : Accounts arguments path? options) (hperm : arguments.Perm others)
    (hdepths : depthOptions arguments = depthOptions others) : Accounts others path? options where
  known argument hmem := h.known argument (hperm.mem_iff.2 hmem)
  paths_eq := by
    have hpaths : (paths others).Perm path?.toList :=
      h.paths_eq ▸ hperm.symm.filter _
    cases path? with
    | none => exact List.perm_nil.1 hpaths
    | some path => exact List.perm_singleton.1 hpaths
  isOn_iff switch := by
    simp only [h.isOn_iff switch, hperm.mem_iff]
  maxCallDepth_iff depth := by
    rw [h.maxCallDepth_iff depth, hdepths]

theorem faultless_of_known (hknown : ∀ argument ∈ arguments, isOption argument → Known argument)
    (hpaths : (paths arguments).length ≤ 1) : Faultless arguments := by
  rintro before argument after rfl message hrefuses
  rcases refuses_iff.1 ⟨message, hrefuses⟩ with ⟨hoption, hnot⟩ | ⟨hpath, hne⟩
  · exact hnot (hknown argument (by simp) hoption)
  · rw [paths_append, paths, paths, List.filter_cons_of_pos (by simp [hpath]), List.length_append,
      List.length_cons] at hpaths
    have hpos := List.length_pos_iff.2 hne
    unfold paths at hpos
    omega

/-- Reading fails at the first argument that is at fault. -/
theorem exists_refuses_of_foldlM
    (h : arguments.foldlM addArgument (.none, RunOptions.none) = .error fault) :
    ∃ before argument after path? options, arguments = before ++ argument :: after ∧
      before.foldlM addArgument (.none, RunOptions.none) = .ok (path?, options) ∧
      Refuses (paths before) argument fault.message := by
  obtain ⟨before, argument, after, ⟨path?, options⟩, hsplit, hbefore, hargument⟩ :=
    Chain.exists_split_of_foldlM h
  refine ⟨before, argument, after, path?, options, hsplit, hbefore, ?_⟩
  rw [(accounts_of_foldlM hbefore).paths_eq]
  rcases addArgument_spec (path?, options) argument with ⟨next, hok, -⟩ | ⟨found, herror, hrefuses⟩
  · cases hok.symm.trans hargument
  · obtain rfl := Except.error.inj (herror.symm.trans hargument)
    exact hrefuses

theorem Faultless.exists_foldlM (h : Faultless arguments) : ∃ path? options,
    arguments.foldlM addArgument (.none, RunOptions.none) = .ok (path?, options) := by
  cases hfold : arguments.foldlM addArgument (.none, RunOptions.none) with
  | ok result => exact ⟨result.1, result.2, rfl⟩
  | error fault =>
    obtain ⟨before, argument, after, _, _, hsplit, -, hrefuses⟩ := exists_refuses_of_foldlM hfold
    exact absurd hrefuses (h before argument after hsplit _)

theorem Accounts.faultless (h : Accounts arguments path? options) : Faultless arguments := by
  refine faultless_of_known h.known ?_
  rw [h.paths_eq]
  cases path? <;> simp

theorem foldlM_eq_ok_iff :
    arguments.foldlM addArgument (.none, RunOptions.none) = .ok (path?, options) ↔
      Accounts arguments path? options := by
  refine ⟨accounts_of_foldlM, fun haccounts ↦ ?_⟩
  obtain ⟨path?', options', hfold⟩ := haccounts.faultless.exists_foldlM
  obtain ⟨rfl, rfl⟩ := haccounts.unique (accounts_of_foldlM hfold)
  exact hfold

theorem ofArguments_eq_ok_iff :
    ofArguments arguments = .ok (path, options) ↔ Accounts arguments (some path) options := by
  rw [← foldlM_eq_ok_iff, ofArguments, Chain.bind_eq_ok_iff]
  constructor
  · rintro ⟨⟨path?, options⟩, hfold, hpath⟩
    cases path? with
    | none => cases hpath
    | some path =>
      cases hpath
      exact hfold
  · exact fun hfold ↦ ⟨_, hfold, rfl⟩

/--
Arguments are accepted if and only if every option among them is a switch or sets a depth, and
exactly one of them is no option. Then that one is the path, a switch is on if and only if one of
its spellings is there, and the depth is that of the last argument that sets one. If the arguments
are reordered, but the depths not among themselves, then they are accepted with the same result, or
refused as well. Arguments that are refused are refused for the first that is an unknown option, an
invalid depth or a second path; they lack a path only if there is no such argument.
-/
theorem arguments_accounted (arguments : List String) :
    ((∃ result, ofArguments arguments = .ok result) ↔
      (∀ argument ∈ arguments, isOption argument → Known argument) ∧
        (paths arguments).length = 1) ∧
    (∀ path options, ofArguments arguments = .ok (path, options) ↔
      Accounts arguments (some path) options) ∧
    (∀ others, arguments.Perm others → depthOptions arguments = depthOptions others →
      (ofArguments arguments).toOption = (ofArguments others).toOption) ∧
    ∀ error, ofArguments arguments = .error error →
      (∃ before argument after, arguments = before ++ argument :: after ∧ Faultless before ∧
        Refuses (paths before) argument error.message) ∨
      Faultless arguments ∧ paths arguments = [] ∧ error.message = "missing file path" := by
  refine ⟨⟨?_, ?_⟩, fun path options ↦ ofArguments_eq_ok_iff, fun others hperm hdepths ↦ ?_,
    fun error herror ↦ ?_⟩
  · rintro ⟨⟨path, options⟩, hok⟩
    have haccounts := ofArguments_eq_ok_iff.1 hok
    exact ⟨haccounts.known, congrArg List.length haccounts.paths_eq⟩
  · rintro ⟨hknown, hone⟩
    obtain ⟨path?, options, hfold⟩ := (faultless_of_known hknown (Nat.le_of_eq hone)).exists_foldlM
    have haccounts := accounts_of_foldlM hfold
    rw [haccounts.paths_eq] at hone
    cases path? with
    | none => cases hone
    | some path => exact ⟨_, ofArguments_eq_ok_iff.2 haccounts⟩
  · refine Option.ext fun ⟨path, options⟩ ↦ ?_
    rw [Chain.toOption_eq_some_iff, Chain.toOption_eq_some_iff, ofArguments_eq_ok_iff,
      ofArguments_eq_ok_iff]
    exact ⟨fun h ↦ h.of_perm hperm hdepths, fun h ↦ h.of_perm hperm.symm hdepths.symm⟩
  · rcases Chain.bind_eq_error_iff.1 herror with hfold | ⟨⟨path?, options⟩, hfold, hmissing⟩
    · obtain ⟨before, argument, after, _, _, hsplit, hbefore, hrefuses⟩ :=
        exists_refuses_of_foldlM hfold
      exact .inl ⟨before, argument, after, hsplit, (accounts_of_foldlM hbefore).faultless, hrefuses⟩
    · have haccounts := accounts_of_foldlM hfold
      cases path? with
      | none =>
        cases hmissing
        exact .inr ⟨haccounts.faultless, haccounts.paths_eq, rfl⟩
      | some path => cases hmissing

example : ofArguments ["--max-depth=9", "-v", "main.lino", "--max-depth=+64"] =
    .ok ("main.lino", ⟨false, false, false, false, true, some 64⟩) := by
  decide +kernel

end LineScript.RunOptions
