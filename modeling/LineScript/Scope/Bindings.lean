/-!
# Bindings

A finite map from names, kept as a list of entries whose names ascend by code point. So the order
in which names were bound leaves no trace, and two maps with the same look-ups are the same map.
-/

namespace LineScript

/-- Entries with ascending names. -/
structure Bindings (α : Type) where
  entries : List (String × α)
  ascending : entries.Pairwise fun a b ↦ a.1 < b.1

namespace Bindings

variable {α : Type}

instance [DecidableEq α] : DecidableEq (Bindings α) := fun a b ↦
  decidable_of_iff (a.entries = b.entries) (by cases a; cases b; simp)

def empty : Bindings α :=
  ⟨[], .nil⟩

def get? (bindings : Bindings α) (name : String) : Option α :=
  bindings.entries.lookup name

def contains (bindings : Bindings α) (name : String) : Bool :=
  (bindings.get? name).isSome

/-- Puts an entry at its place, instead of one with the same name. -/
def insertEntry (name : String) (value : α) : List (String × α) → List (String × α)
  | [] => [(name, value)]
  | (other, content) :: rest =>
    if name < other then (name, value) :: (other, content) :: rest
    else if name = other then (name, value) :: rest
    else (other, content) :: insertEntry name value rest

theorem mem_insertEntry {name : String} {value : α} {entry : String × α}
    {entries : List (String × α)} (member : entry ∈ insertEntry name value entries) :
    entry = (name, value) ∨ entry ∈ entries := by
  induction entries with
  | nil => simpa [insertEntry] using member
  | cons head rest ih =>
    obtain ⟨other, content⟩ := head
    rw [insertEntry] at member
    split at member
    · simpa using member
    · split at member
      · rcases List.mem_cons.1 member with same | inside
        · exact .inl same
        · exact .inr (List.mem_cons_of_mem _ inside)
      · rcases List.mem_cons.1 member with same | inside
        · exact .inr (same ▸ List.mem_cons_self)
        · exact (ih inside).imp_right (List.mem_cons_of_mem _)

theorem pairwise_insertEntry (name : String) (value : α) {entries : List (String × α)}
    (ascending : entries.Pairwise fun a b ↦ a.1 < b.1) :
    (insertEntry name value entries).Pairwise fun a b ↦ a.1 < b.1 := by
  induction entries with
  | nil => simp [insertEntry]
  | cons head rest ih =>
    obtain ⟨other, content⟩ := head
    obtain ⟨above, ascendingRest⟩ := List.pairwise_cons.1 ascending
    rw [insertEntry]
    split
    · rename_i before
      refine .cons (fun entry member ↦ ?_) ascending
      rcases List.mem_cons.1 member with same | inside
      · exact same ▸ before
      · exact String.lt_trans before (above entry inside)
    · split
      · rename_i same
        exact .cons (fun entry member ↦ same ▸ above entry member) ascendingRest
      · rename_i notBefore different
        refine .cons (fun entry member ↦ ?_) (ih ascendingRest)
        rcases mem_insertEntry member with same | inside
        · subst same
          exact Std.lt_of_le_of_ne (String.not_lt.1 notBefore) (Ne.symm different)
        · exact above entry inside

/-- Gives a name a value, instead of the one it has. -/
def insert (bindings : Bindings α) (name : String) (value : α) : Bindings α :=
  ⟨insertEntry name value bindings.entries, pairwise_insertEntry name value bindings.ascending⟩

theorem lookup_insertEntry (name other : String) (value : α) (entries : List (String × α)) :
    (insertEntry name value entries).lookup other =
      if other = name then some value else entries.lookup other := by
  induction entries with
  | nil =>
    by_cases same : other = name
    · simp [insertEntry, same]
    · simp [insertEntry, List.lookup_cons, beq_false_of_ne same, same]
  | cons head rest ih =>
    obtain ⟨first, content⟩ := head
    by_cases same : other = name
    · subst same
      rw [insertEntry]
      split
      · simp
      · split
        · simp
        · rename_i different
          simp [List.lookup_cons, beq_false_of_ne different, ih]
    · rw [insertEntry]
      split
      · simp [List.lookup_cons, beq_false_of_ne same]
      · split
        · rename_i equal
          subst equal
          simp [List.lookup_cons, beq_false_of_ne same]
        · simp [List.lookup_cons, ih, same]

theorem get?_insert (bindings : Bindings α) (name other : String) (value : α) :
    (bindings.insert name value).get? other =
      if other = name then some value else bindings.get? other :=
  lookup_insertEntry name other value bindings.entries

end Bindings

end LineScript
