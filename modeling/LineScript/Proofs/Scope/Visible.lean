import LineScript.Proofs.Scope.Edits
import LineScript.Proofs.Scope.Entries
import LineScript.Proofs.Text.ByteOrder
import Mathlib.Data.List.Nodup

/-!
# What is seen from a scope

All variables that are seen from a scope are listed scope by scope, outward, and a name that was
listed before is left out. Such a list says the same as looking up every name: an entry is listed
exactly if its name is read as its value. The nearer the scope that a variable is read from, the
earlier it comes, and the variables of one scope come in the order of the bytes of their names. So
nothing but the chain of scopes and what each binds decides the list. It is the same in whatever
order the variables were bound, and in whatever order a scope gives out what it binds.
-/

namespace LineScript.ScopeTree

variable {tree other : ScopeTree} {id scope around : ScopeId} {chain : List ScopeId} {name : String}
  {value : Value} {seen entries : List (String × Value)}

/-- The scope that is a number of steps outward from another. -/
def outward (tree : ScopeTree) : Nat → ScopeId → Option ScopeId
  | 0, id => some id
  | steps + 1, id => (tree.parent? id).bind (tree.outward steps)

def bindsName (tree : ScopeTree) (name : String) (id : ScopeId) : Bool :=
  (tree.local? id name).isSome

/-- The place in a chain of the first scope that binds a variable. -/
def placeIn (tree : ScopeTree) (chain : List ScopeId) (name : String) : Nat :=
  chain.findIdx (tree.bindsName name)

/-- The number of steps outward to the nearest scope that binds a variable. -/
def distance (tree : ScopeTree) (id : ScopeId) (name : String) : Nat :=
  tree.placeIn (tree.ancestors id) name

/-- The chain of a scope is what the steps outward lead to. -/
theorem Nested.getElem?_ancestors (h : tree.Nested) (hid : id < tree.count) (steps : Nat) :
    (tree.ancestors id)[steps]? = tree.outward steps id := by
  induction steps generalizing id with
  | zero =>
    rw [ancestors_eq_cons hid]
    rfl
  | succ steps ih =>
    have hchain := h.ancestors_eq_parent? hid
    rw [outward]
    cases hparent : tree.parent? id with
    | none =>
      rw [hparent] at hchain
      rw [hchain]
      rfl
    | some parent =>
      have hlt : parent < tree.count := by
        rw [parent?_eq] at hparent
        exact h.lt_count_of_mem (List.mem_of_mem_tail (List.mem_of_mem_head? hparent))
      rw [hparent, Option.map_some, Option.getD_some] at hchain
      rw [hchain, List.getElem?_cons_succ, ih hlt, Option.bind_some]

theorem Nested.outward_distance (h : tree.Nested) (howner : tree.owner? id name = some scope) :
    tree.outward (tree.distance id name) id = some scope := by
  have hfound : (tree.ancestors id).find? (tree.bindsName name) = some scope := howner
  have hid := lt_count_of_mem_ancestors (List.mem_of_find?_eq_some hfound)
  rw [← h.getElem?_ancestors hid, distance, placeIn, ← List.find?_eq_getElem?_findIdx]
  exact hfound

/-- What the scopes of a chain bind, as it is listed. -/
def listed (tree : ScopeTree) (chain : List ScopeId) : List (String × Value) :=
  chain.foldl (fun seen around ↦ addUnseen seen (tree.localEntries around)) []

theorem listed_concat : tree.listed (chain ++ [around]) =
    addUnseen (tree.listed chain) (tree.localEntries around) := by
  rw [listed, List.foldl_append]
  rfl

theorem addUnseen_eq : addUnseen seen entries =
    seen ++ entries.filter fun entry ↦ entry.1 ∉ seen.map Prod.fst := by
  have hany (name : String) :
      (seen.any fun other ↦ other.1 == name) = decide (name ∈ seen.map Prod.fst) := by
    rw [Bool.eq_iff_iff]
    simp
  change seen ++ entries.filter (fun entry ↦ !seen.any fun other ↦ other.1 == entry.1) = _
  simp only [hany, decide_not]

/-- An entry is listed if the first scope of the chain that binds its name gives its value. -/
theorem mem_listed_iff : (name, value) ∈ tree.listed chain ↔
    chain.findSome? (fun around ↦ tree.local? around name) = some value := by
  induction chain using List.reverseRecOn generalizing value with
  | nil => simp [listed]
  | append_singleton chain around ih =>
    have hseen : name ∈ (tree.listed chain).map Prod.fst ↔
        (chain.findSome? fun around ↦ tree.local? around name).isSome := by
      simp [Option.isSome_iff_exists, ih]
    rw [listed_concat, addUnseen_eq, List.mem_append, List.mem_filter, ih, mem_localEntries_iff,
      decide_eq_true_iff, hseen, List.findSome?_append]
    cases chain.findSome? fun around ↦ tree.local? around name <;> simp

theorem nodup_listed : ((tree.listed chain).map Prod.fst).Nodup := by
  induction chain using List.reverseRecOn with
  | nil => exact .nil
  | append_singleton chain around ih =>
    rw [listed_concat, addUnseen_eq, List.map_append, List.nodup_append]
    refine ⟨ih, nodup_localEntries.sublist (List.filter_sublist.map _), ?_⟩
    rintro name hname _ hnew rfl
    obtain ⟨entry, hentry, rfl⟩ := List.mem_map.1 hnew
    exact of_decide_eq_true (List.mem_filter.1 hentry).2 hname

theorem placeIn_lt_iff : tree.placeIn chain name < chain.length ↔
    name ∈ (tree.listed chain).map Prod.fst := by
  have hlisted : name ∈ (tree.listed chain).map Prod.fst ↔
      ∃ value, chain.findSome? (fun around ↦ tree.local? around name) = some value := by
    simp [mem_listed_iff]
  rw [hlisted, placeIn, List.findIdx_lt_length, ← Option.isSome_iff_exists, List.isSome_findSome?,
    List.any_eq_true]
  rfl

/-- Nearer scopes come first, and in one scope the names ascend. -/
theorem pairwise_listed : (tree.listed chain).Pairwise fun a b ↦
    tree.placeIn chain a.1 < tree.placeIn chain b.1 ∨
      tree.placeIn chain a.1 = tree.placeIn chain b.1 ∧ a.1 < b.1 := by
  induction chain using List.reverseRecOn with
  | nil => exact .nil
  | append_singleton chain around ih =>
    have hold : ∀ a ∈ tree.listed chain,
        tree.placeIn chain a.1 < chain.length ∧
          tree.placeIn (chain ++ [around]) a.1 = tree.placeIn chain a.1 := by
      intro a ha
      have hlt := placeIn_lt_iff.2 (List.mem_map_of_mem ha)
      refine ⟨hlt, ?_⟩
      rw [placeIn, List.findIdx_append]
      exact if_pos hlt
    have hnew : ∀ b ∈ (tree.localEntries around).filter
        (fun entry ↦ entry.1 ∉ (tree.listed chain).map Prod.fst),
        tree.placeIn (chain ++ [around]) b.1 = chain.length := by
      intro b hb
      obtain ⟨hmem, hunseen⟩ := List.mem_filter.1 hb
      have hbound : tree.bindsName b.1 around = true := by
        rw [bindsName, mem_localEntries_iff.1 hmem]
        rfl
      rw [placeIn, List.findIdx_append, if_neg, List.findIdx_singleton, if_pos hbound, Nat.zero_add]
      exact fun hlt ↦ of_decide_eq_true hunseen (placeIn_lt_iff.1 hlt)
    rw [listed_concat, addUnseen_eq, List.pairwise_append]
    refine ⟨ih.imp_of_mem fun {a b} ha hb hbefore ↦ ?_, ?_, fun a ha b hb ↦ .inl ?_⟩
    · rw [(hold a ha).2, (hold b hb).2]
      exact hbefore
    · refine (ascending_localEntries.filter _).imp_of_mem fun {a b} ha hb hlt ↦ .inr ⟨?_, hlt⟩
      rw [hnew a ha, hnew b hb]
    · rw [(hold a ha).2, hnew b hb]
      exact (hold a ha).1

/-! ## Collecting -/

/-- What each scope binds, given out in some order. -/
def GivesOut (tree : ScopeTree) (contents : ScopeId → List (String × Value)) : Prop :=
  ∀ id, ((contents id).map Prod.fst).Nodup ∧
    ∀ name value, (name, value) ∈ contents id ↔ tree.local? id name = some value

def sortByBytes (entries : List (String × Value)) : List (String × Value) :=
  entries.mergeSort fun a b ↦ decide (a.1.toUTF8.toList ≤ b.1.toUTF8.toList)

def addEntry (seen : List (String × Value)) (entry : String × Value) : List (String × Value) :=
  if entry.1 ∈ seen.map Prod.fst then seen else seen ++ [entry]

/-- Collects what is seen from a scope, entry by entry, from scopes that give out what they bind. -/
def collect (tree : ScopeTree) (contents : ScopeId → List (String × Value)) (id : ScopeId) :
    List (String × Value) :=
  (tree.ancestors id).foldl
    (fun seen around ↦ (sortByBytes (contents around)).foldl addEntry seen) []

theorem foldl_addEntry (hnodup : (entries.map Prod.fst).Nodup) :
    entries.foldl addEntry seen = addUnseen seen entries := by
  induction entries generalizing seen with
  | nil => simp [addUnseen_eq]
  | cons entry rest ih =>
    obtain ⟨hnew, hrest⟩ := List.nodup_cons.1 hnodup
    rw [List.foldl_cons, ih hrest, addEntry, addUnseen_eq, addUnseen_eq, List.filter_cons]
    split
    · rename_i hseen
      rw [if_neg (by simpa using hseen)]
    · rename_i hunseen
      rw [if_pos (by simpa using hunseen), List.append_assoc, List.singleton_append]
      congr 2
      apply List.filter_congr
      intro other hother
      have hne : other.1 ≠ entry.1 := fun heq ↦ hnew (heq ▸ List.mem_map_of_mem hother)
      simp [hne]

/-- Sorting puts entries with different names into the order in which they are kept. -/
theorem sortByBytes_eq {contents : ScopeId → List (String × Value)} (h : tree.GivesOut contents)
    (id : ScopeId) : sortByBytes (contents id) = tree.localEntries id := by
  obtain ⟨hnodup, hmem⟩ := h id
  have hle (a b : String) : a.toUTF8.toList ≤ b.toUTF8.toList ↔ a ≤ b := by
    rw [← List.not_lt, toUTF8_lt_iff, String.not_lt]
  have hsorted : (sortByBytes (contents id)).Pairwise fun a b ↦ a.1 ≤ b.1 := by
    refine (List.pairwise_mergeSort ?_ ?_ (contents id)).imp fun h ↦
      (hle _ _).1 (of_decide_eq_true h)
    · intro a b c hab hbc
      simp only [decide_eq_true_iff, hle] at hab hbc ⊢
      exact String.le_trans hab hbc
    · intro a b
      simp only [Bool.or_eq_true, decide_eq_true_iff, hle]
      exact String.le_total a.1 b.1
  have hdistinct : (sortByBytes (contents id)).Pairwise fun a b ↦ a.1 ≠ b.1 :=
    List.pairwise_map.1 (((List.mergeSort_perm _ _).map Prod.fst).nodup_iff.2 hnodup)
  have hascending := hsorted.and hdistinct
  apply Bindings.eq_of_ascending (hascending.imp fun h ↦ Std.lt_of_le_of_ne h.1 h.2)
    ascending_localEntries
  rintro ⟨name, value⟩
  rw [sortByBytes, List.mem_mergeSort, hmem, mem_localEntries_iff]

/-- Collecting gives the list of what is seen, in whatever order the scopes give out what they
bind. -/
theorem collect_eq {contents : ScopeId → List (String × Value)} (h : tree.GivesOut contents)
    (id : ScopeId) : tree.collect contents id = tree.bindings id := by
  simp only [collect, sortByBytes_eq h, foldl_addEntry nodup_localEntries]
  rfl

/-- The tree after declarations of variables; those that are refused change nothing. -/
def declareAll (tree : ScopeTree) (declarations : List (ScopeId × String × Kind)) : ScopeTree :=
  declarations.foldl (fun tree (id, name, kind) ↦ (ScopeEdit.declare id name kind).apply tree) tree

theorem bindIn_comm {id' : ScopeId} {name' : String} {value' : Value}
    (hne : (id, name) ≠ (id', name')) :
    (tree.bindIn id name value).bindIn id' name' value' =
      (tree.bindIn id' name' value').bindIn id name value := by
  have hscope (content : Scope) (hid : id = id') :
      (content.bind name value).bind name' value' =
        (content.bind name' value').bind name value := by
    have hname : name ≠ name' := fun h ↦ hne (by rw [hid, h])
    unfold Scope.bind
    congr 1
    apply Bindings.ext_get?
    intro other
    simp only [Bindings.get?_insert]
    grind
  unfold bindIn
  congr 1
  apply Array.ext_getElem?
  intro position
  simp only [Array.getElem?_modify]
  split
  · split
    · rename_i hthere hhere
      cases tree.scopes[position]? with
      | none => rfl
      | some content => exact congrArg some (hscope content (hhere.trans hthere.symm))
    · rfl
  · rfl

theorem apply_declare {kind : Kind} : (ScopeEdit.declare id name kind).apply tree =
    if tree.bindsName name id then tree else tree.bindIn id name kind.zero := by
  rw [ScopeEdit.apply, result?_declare, bindsName]
  split <;> rfl

/-- Declarations of different variables may be made in either order. -/
theorem apply_declare_comm {id' : ScopeId} {name' : String} {kind kind' : Kind}
    (hne : (id, name) ≠ (id', name')) :
    (ScopeEdit.declare id' name' kind').apply ((ScopeEdit.declare id name kind).apply tree) =
      (ScopeEdit.declare id name kind).apply ((ScopeEdit.declare id' name' kind').apply tree) := by
  have hbinds {id id' : ScopeId} {name name' : String} {value : Value}
      (hne : (id, name) ≠ (id', name')) :
      (tree.bindIn id name value).bindsName name' id' = tree.bindsName name' id' := by
    rw [bindsName, local?_bindIn, if_neg]
    · rfl
    · rintro ⟨⟨rfl, rfl⟩, -⟩
      exact hne rfl
  have hhere {value : Value} :
      (tree.bindIn id' name' value).bindsName name id = tree.bindsName name id :=
    hbinds hne.symm
  have hthere {value : Value} :
      (tree.bindIn id name value).bindsName name' id' = tree.bindsName name' id' :=
    hbinds hne
  simp only [apply_declare]
  by_cases hfirst : tree.bindsName name id <;> by_cases hsecond : tree.bindsName name' id' <;>
    simp only [hfirst, hsecond, hhere, hthere, if_true, if_false, Bool.false_eq_true]
  exact bindIn_comm hne

/-- The order in which different variables are declared leaves no trace. -/
theorem declareAll_perm {declarations others : List (ScopeId × String × Kind)}
    (hperm : declarations.Perm others)
    (hnodup : (declarations.map fun (id, name, _) ↦ (id, name)).Nodup) :
    tree.declareAll others = tree.declareAll declarations := by
  symm
  apply hperm.foldl_eq'
  rintro ⟨id, name, kind⟩ hmem ⟨id', name', kind'⟩ hmem' tree
  by_cases hsame : (id, name) = (id', name')
  · have heq := List.inj_on_of_nodup_map hnodup hmem hmem' hsame
    cases heq
    rfl
  · exact apply_declare_comm hsame

/-- How the list of all variables that are seen from a scope agrees with looking up each name. -/
structure ListsVisible (tree : ScopeTree) (id : ScopeId) : Prop where
  nodup : ((tree.bindings id).map Prod.fst).Nodup
  /-- What is listed is what is read. -/
  mem_iff : ∀ name value, (name, value) ∈ tree.bindings id ↔ tree.get? id name = some value
  /-- The distance of a name leads to its owner, parent by parent, past no scope that binds it. -/
  distance : ∀ name owner, tree.owner? id name = some owner →
    tree.outward (tree.distance id name) id = some owner ∧
      ∀ nearer < tree.distance id name, ∀ around, tree.outward nearer id = some around →
        tree.local? around name = none
  /-- Nearer owners come first, and the names of one owner are in the order of their bytes. -/
  ordered : (tree.bindings id).Pairwise fun a b ↦
    tree.distance id a.1 < tree.distance id b.1 ∨
      tree.owner? id a.1 = tree.owner? id b.1 ∧ a.1.toUTF8.toList < b.1.toUTF8.toList
  /-- It does not matter in what order the scopes give out what they bind. -/
  collected : ∀ contents, tree.GivesOut contents → tree.collect contents id = tree.bindings id
  /-- Nothing matters but what the scopes of the chain bind. -/
  settled : ∀ other : ScopeTree, other.ancestors id = tree.ancestors id →
    (∀ around ∈ tree.ancestors id, ∀ name, other.local? around name = tree.local? around name) →
    other.bindings id = tree.bindings id
  /-- It does not matter in what order different variables are declared. -/
  reordered : ∀ declarations others : List (ScopeId × String × Kind), declarations.Perm others →
    (declarations.map fun (id, name, _) ↦ (id, name)).Nodup →
    (tree.declareAll others).bindings id = (tree.declareAll declarations).bindings id

theorem Nested.local?_of_lt_distance (h : tree.Nested) (hid : id < tree.count) {nearer : Nat}
    (hlt : nearer < tree.distance id name) (haround : tree.outward nearer id = some around) :
    tree.local? around name = none := by
  rw [← h.getElem?_ancestors hid] at haround
  obtain ⟨hnearer, hget⟩ := List.getElem?_eq_some_iff.1 haround
  have hunbound := List.not_of_lt_findIdx hlt
  rw [hget] at hunbound
  exact Option.not_isSome_iff_eq_none.1 (by simpa [bindsName] using hunbound)

/-- Names that are read at the same distance have the same owner. -/
theorem Nested.owner?_eq_of_distance (h : tree.Nested) {a b : String}
    (ha : (tree.get? id a).isSome) (hb : (tree.get? id b).isSome)
    (hsame : tree.distance id a = tree.distance id b) : tree.owner? id a = tree.owner? id b := by
  have howner {name : String} (hname : (tree.get? id name).isSome) :
      tree.owner? id name = tree.outward (tree.distance id name) id := by
    cases howner : tree.owner? id name with
    | some owner => exact (h.outward_distance howner).symm
    | none =>
      rw [get?_eq_bind_owner?, howner] at hname
      cases hname
  rw [howner ha, howner hb, hsame]

/-- Every tree that edits lead to lists what is seen from its scopes in this way. -/
theorem listsVisible_of_built (h : tree.Built) (hid : id < tree.count) : tree.ListsVisible id where
  nodup := nodup_listed
  mem_iff _ _ := mem_listed_iff
  distance _ _ howner := ⟨h.chains.1.outward_distance howner, fun _ hlt _ haround ↦
    h.chains.1.local?_of_lt_distance hid hlt haround⟩
  ordered := by
    refine pairwise_listed.imp_of_mem ?_
    rintro ⟨a, value⟩ ⟨b, content⟩ ha hb (hlt | ⟨hsame, hlt⟩)
    · exact .inl hlt
    · refine .inr ⟨h.chains.1.owner?_eq_of_distance ?_ ?_ hsame, toUTF8_lt_iff.2 hlt⟩
      · exact Option.isSome_iff_exists.2 ⟨value, mem_listed_iff.1 ha⟩
      · exact Option.isSome_iff_exists.2 ⟨content, mem_listed_iff.1 hb⟩
  collected _ hcontents := collect_eq hcontents id
  settled other hancestors hlocal := by
    rw [bindings, bindings, hancestors]
    apply List.foldl_ext
    intro seen around haround
    rw [localEntries_congr (hlocal around haround)]
  reordered _ _ hperm hnodup := by rw [declareAll_perm hperm hnodup]

/-- A scope inside the program's, which binds one of the names of the program's again. -/
def shadowing : ScopeTree :=
  [.addChild 0, .declare 0 "é" .number, .declare 0 "x" .number, .declare 0 "z" .text,
    .declare 1 "x" .text].foldl (fun tree edit ↦ ScopeEdit.apply edit tree) .initial

theorem built_shadowing : shadowing.Built :=
  .edit (.declare 1 "x" .text) (.edit (.declare 0 "z" .text) (.edit (.declare 0 "x" .number)
    (.edit (.declare 0 "é" .number) (.edit (.addChild 0) .initial (by decide)) (by decide))
      (by decide)) (by decide)) (by decide)

/-- What the program's scope gives out backwards is listed in order, the name bound again first. -/
theorem listsVisible_shadowing : shadowing.Built ∧ 1 < shadowing.count ∧
    shadowing.distance 1 "x" = 0 ∧ shadowing.outward (shadowing.distance 1 "z") 1 = some 0 ∧
    (shadowing.bindings 1).map Prod.fst = ["x", "z", "é"] ∧
    ("x", .text "") ∈ shadowing.bindings 1 ∧
    shadowing.collect (fun id ↦ (shadowing.localEntries id).reverse) 1 = shadowing.bindings 1 := by
  have hlists := listsVisible_of_built built_shadowing (show 1 < shadowing.count by decide)
  refine ⟨built_shadowing, by decide, by decide, (hlists.distance "z" 0 (by decide)).1, by decide,
    (hlists.mem_iff _ _).2 (by decide), hlists.collected _ fun id ↦ ?_⟩
  rw [List.map_reverse, List.nodup_reverse]
  refine ⟨nodup_localEntries, fun name value ↦ ?_⟩
  rw [List.mem_reverse, mem_localEntries_iff]

end LineScript.ScopeTree
