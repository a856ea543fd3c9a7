import LineScript.File.Tree
import LineScript.Proofs.Chain
import Mathlib.Data.List.Basic

/-!
# Identities in directory trees

Including tells files apart by their identities, and takes two spellings of one path for one file.
In a directory tree the identity of a file is the place that its path leads to, written out. A path
never leads to a place with an empty name, or with a name that contains a separator, so the place
can be read off what is written, and one identity is one file.
-/

namespace LineScript

/-- A name that a file or a directory may have. -/
def IsFileName (name : String) : Prop :=
  name ≠ "" ∧ Path.separator ∉ name.toList

/-- All names on the way to a place are names of files or directories. -/
def Place.Named : Place → Prop
  | inside segments => ∀ name ∈ segments, IsFileName name
  | above => True

theorem segments_ne_nil (path : List Char) : Path.segments path ≠ [] := by
  cases path with
  | nil => exact List.cons_ne_nil _ _
  | cons c rest =>
    rw [Path.segments, List.foldr_cons, ← Path.segments]
    split
    · exact List.cons_ne_nil _ _
    · split <;> exact List.cons_ne_nil _ _

theorem separator_not_mem_of_mem_segments {path segment : List Char}
    (h : segment ∈ Path.segments path) : Path.separator ∉ segment := by
  induction path generalizing segment with
  | nil =>
    rw [List.mem_singleton.1 h]
    exact List.not_mem_nil
  | cons c rest ih =>
    rw [Path.segments, List.foldr_cons, ← Path.segments] at h
    cases hrest : Path.segments rest with
    | nil => exact absurd hrest (segments_ne_nil rest)
    | cons first others =>
      rw [hrest] at h ih
      dsimp only at h
      split at h
      · rcases List.mem_cons.1 h with rfl | hmem
        · exact List.not_mem_nil
        · exact ih hmem
      · rename_i hother
        rcases List.mem_cons.1 h with rfl | hmem
        · have hfirst := ih List.mem_cons_self
          exact fun hmem ↦ (List.mem_cons.1 hmem).elim (fun heq ↦ hother heq.symm) hfirst
        · exact ih (List.mem_cons_of_mem _ hmem)

namespace FileTree

variable {tree : FileTree} {place next : Place} {path path' segment : String}
  {document document' : Document}

/-- Going one segment on leads from named places to named places. -/
theorem named_of_enter (hplace : place.Named) (hsegment : Path.separator ∉ segment.toList)
    (h : tree.enter place segment = .ok next) : next.Named := by
  unfold enter at h
  split at h
  · cases h
  split at h
  · cases h
    exact hplace
  rename_i hplain
  have hnonempty : segment ≠ "" := fun hempty ↦ hplain (by simp [hempty])
  split at h
  · split at h
    · cases h
      exact fun name hmem ↦ hplace name (List.dropLast_subset _ hmem)
    · cases h
      trivial
  split at h
  · cases h
  split at h
  · cases h
  dsimp only at h
  split at h
  · cases h
    intro name hmem
    rcases List.mem_append.1 hmem with hmem | hmem
    · exact hplace name hmem
    · rw [List.mem_singleton.1 hmem]
      exact ⟨hnonempty, hsegment⟩
  · cases h

theorem named_of_foldlM {names : List String}
    (hnames : ∀ name ∈ names, Path.separator ∉ name.toList) (hplace : place.Named)
    (h : names.foldlM tree.enter place = .ok next) : next.Named := by
  induction names generalizing place with
  | nil =>
    cases h
    exact hplace
  | cons name others ih =>
    rw [List.foldlM_cons] at h
    obtain ⟨between, hbetween, h⟩ := Chain.bind_eq_ok_iff.1 h
    obtain ⟨hname, hothers⟩ := List.forall_mem_cons.1 hnames
    exact ih hothers (named_of_enter hplace hname hbetween) h

/-- Paths lead to named places. -/
theorem named_of_find (h : tree.find path = .ok place) : place.Named := by
  have hsegments : ∀ name ∈ (Path.segments path.toList).map String.ofList,
      Path.separator ∉ name.toList := by
    intro name hmem
    obtain ⟨segment, hsegment, rfl⟩ := List.mem_map.1 hmem
    rw [String.toList_ofList]
    exact separator_not_mem_of_mem_segments hsegment
  unfold find at h
  split at h
  · cases h
  split at h
  · cases h
  split at h
  · cases h
  · refine named_of_foldlM hsegments ?_ h
    split
    · trivial
    · exact fun name hmem ↦ by cases hmem

theorem eq_nil_of_intercalate_eq {names : List String} (hnames : ∀ name ∈ names, IsFileName name)
    (h : "/".intercalate names = "") : names = [] := by
  cases names with
  | nil => rfl
  | cons name others =>
    have hname := (hnames name List.mem_cons_self).1
    cases others with
    | nil =>
      rw [String.intercalate_singleton] at h
      exact absurd h hname
    | cons other rest =>
      rw [String.intercalate_cons_cons, String.append_eq_empty_iff, String.append_eq_empty_iff] at h
      exact absurd h.1.1 hname

/-- The names on the way to a place are what is written of it, cut at the separators. -/
theorem splitOn_intercalate {names : List String} (hnames : ∀ name ∈ names, IsFileName name)
    (hne : names ≠ []) :
    ("/".intercalate names).toList.splitOn Path.separator = names.map String.toList := by
  rw [String.toList_intercalate]
  refine List.splitOn_intercalate Path.separator ?_ (by simpa using hne)
  intro characters hmem
  obtain ⟨name, hname, rfl⟩ := List.mem_map.1 hmem
  exact (hnames name hname).2

/-- What is written of a place tells which place it is. -/
theorem eq_of_intercalate_eq {names others : List String} (hnames : ∀ name ∈ names, IsFileName name)
    (hothers : ∀ name ∈ others, IsFileName name)
    (h : "/".intercalate names = "/".intercalate others) : names = others := by
  by_cases hnil : names = []
  · rw [hnil, String.intercalate_nil] at h
    rw [hnil, eq_nil_of_intercalate_eq hothers h.symm]
  by_cases hnil' : others = []
  · rw [hnil', String.intercalate_nil] at h
    rw [hnil', eq_nil_of_intercalate_eq hnames h]
  have hsplit := splitOn_intercalate hnames hnil
  rw [h, splitOn_intercalate hothers hnil'] at hsplit
  exact (List.map_injective_iff.2 fun _ _ ↦ String.toList_inj.1) hsplit.symm

theorem read_eq_ok_iff : tree.read path = .ok document ↔ ∃ segments content text,
    tree.find path = .ok (.inside segments) ∧ tree.bytes? segments = some content ∧
      String.fromUTF8? content = some text ∧ document = ⟨"/".intercalate segments, text⟩ := by
  unfold read
  constructor
  · intro h
    split at h
    · cases h
    · cases h
    · rename_i segments hfind
      split at h
      · cases h
      · rename_i content hcontent
        split at h
        · cases h
        · rename_i text htext
          cases h
          exact ⟨segments, content, text, hfind, hcontent, htext, rfl⟩
  · rintro ⟨segments, content, text, hfind, hcontent, htext, rfl⟩
    simp only [hfind, hcontent, htext]

/-- Two paths under which a file of one identity is read lead to the same file. -/
theorem eq_of_identity_eq (h : tree.read path = .ok document)
    (h' : tree.read path' = .ok document') (hidentity : document.identity = document'.identity) :
    document = document' := by
  obtain ⟨segments, content, text, hfind, hcontent, htext, rfl⟩ := read_eq_ok_iff.1 h
  obtain ⟨segments', content', text', hfind', hcontent', htext', rfl⟩ := read_eq_ok_iff.1 h'
  obtain rfl := eq_of_intercalate_eq (named_of_find hfind) (named_of_find hfind') hidentity
  rw [hcontent] at hcontent'
  cases hcontent'
  rw [htext] at htext'
  cases htext'
  rfl

end FileTree

end LineScript
