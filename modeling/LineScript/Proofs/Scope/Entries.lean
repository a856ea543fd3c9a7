import LineScript.Scope.ScopeTree
import Mathlib.Data.List.Lemmas
import Mathlib.Tactic.Common

/-!
# Entries of scopes

Names ascend in what a scope binds, so an entry is found by its name, no name has two, and the
look-ups alone tell what the entries are.
-/

namespace LineScript

namespace Bindings

variable {α : Type} {bindings other : Bindings α} {name : String} {value : α}

/-- Names ascend, so each is found at the only entry that has it. -/
theorem mem_entries_iff : (name, value) ∈ bindings.entries ↔ bindings.get? name = some value := by
  obtain ⟨entries, hascending⟩ := bindings
  unfold get?
  induction entries with
  | nil => simp
  | cons head rest ih =>
    obtain ⟨other, content⟩ := head
    obtain ⟨habove, hrest⟩ := List.pairwise_cons.1 hascending
    rw [List.lookup_cons, List.mem_cons, ih hrest]
    by_cases hsame : name = other
    · subst hsame
      have hnone : rest.lookup name = none := by
        rw [List.lookup_eq_none_iff]
        intro entry hmem
        exact bne_iff_ne.2 (String.ne_of_lt (habove entry hmem))
      simp [hnone, eq_comm]
    · simp [beq_false_of_ne hsame, hsame]

theorem nodup_keys (bindings : Bindings α) : (bindings.entries.map Prod.fst).Nodup :=
  List.pairwise_map.2 (bindings.ascending.imp String.ne_of_lt)

/-- Lists with ascending names and the same entries are the same list. -/
theorem eq_of_ascending {entries others : List (String × α)}
    (h : entries.Pairwise fun a b ↦ a.1 < b.1) (hothers : others.Pairwise fun a b ↦ a.1 < b.1)
    (hmem : ∀ entry, entry ∈ entries ↔ entry ∈ others) : entries = others := by
  have hnodup {entries : List (String × α)} (h : entries.Pairwise fun a b ↦ a.1 < b.1) :
      entries.Nodup :=
    h.imp fun hlt heq ↦ String.ne_of_lt hlt (congrArg Prod.fst heq)
  have hperm := (List.perm_ext_iff_of_nodup (hnodup h) (hnodup hothers)).2 hmem
  apply hperm.eq_of_pairwise ?_ h hothers
  intro a b _ _ hlt hgt
  exact absurd (String.lt_trans hlt hgt) (String.lt_irrefl _)

/-- Two maps with the same look-ups are the same map. -/
theorem ext_get? (h : ∀ name, bindings.get? name = other.get? name) : bindings = other := by
  have hentries : bindings.entries = other.entries := by
    apply eq_of_ascending bindings.ascending other.ascending
    rintro ⟨name, value⟩
    rw [mem_entries_iff, mem_entries_iff, h]
  cases bindings
  cases other
  cases hentries
  rfl

end Bindings

namespace ScopeTree

variable {tree other : ScopeTree} {id : ScopeId} {name : String} {value : Value}

theorem mem_localEntries_iff :
    (name, value) ∈ tree.localEntries id ↔ tree.local? id name = some value := by
  unfold localEntries local?
  cases tree.scopes[id]? with
  | none => simp
  | some scope => exact Bindings.mem_entries_iff

theorem nodup_localEntries : ((tree.localEntries id).map Prod.fst).Nodup := by
  unfold localEntries
  cases tree.scopes[id]? with
  | none => exact .nil
  | some scope => exact scope.values.nodup_keys

theorem ascending_localEntries : (tree.localEntries id).Pairwise fun a b ↦ a.1 < b.1 := by
  unfold localEntries
  cases tree.scopes[id]? with
  | none => exact .nil
  | some scope => exact scope.values.ascending

theorem localEntries_congr (h : ∀ name, other.local? id name = tree.local? id name) :
    other.localEntries id = tree.localEntries id := by
  apply Bindings.eq_of_ascending ascending_localEntries ascending_localEntries
  rintro ⟨name, value⟩
  rw [mem_localEntries_iff, mem_localEntries_iff, h]

end ScopeTree

end LineScript
