import LineScript.Proofs.Bracket.Unmatched

/-!
# Open brackets

The brackets that are open at a position of a word, the innermost first: an opening bracket is put
in front of those that were open before it, and a closing one takes the first of them off. In a
balanced word a bracket is open exactly from the position after it to that of its partner.
-/

namespace LineScript.Bracket

/-- The positions of open brackets after a bracket at a position, given those before it. -/
def turn (bracket : Bracket) (position : Nat) (opened : List Nat) : List Nat :=
  match bracket with
  | opens => position :: opened
  | closes => opened.tail
  | plain => opened

/-- The positions of open brackets after a word, given where it starts and those before it. -/
def openFrom (position : Nat) (opened : List Nat) : List Bracket → List Nat
  | [] => opened
  | bracket :: rest => openFrom (position + 1) (bracket.turn position opened) rest

/-- The positions of the brackets that are open at a position of a word, the innermost first. -/
def openAt (word : List Bracket) (position : Nat) : List Nat :=
  openFrom 0 [] (word.take position)

theorem openFrom_append (position : Nat) (opened : List Nat) (left right : List Bracket) :
    openFrom position opened (left ++ right) =
      openFrom (position + left.length) (openFrom position opened left) right := by
  induction left generalizing position opened with
  | nil => rfl
  | cons bracket rest ih =>
    rw [List.cons_append, openFrom, ih, openFrom, List.length_cons]
    congr 1
    omega

/-- The brackets that are open at the next position. -/
theorem openAt_succ {word : List Bracket} {position : Nat} {bracket : Bracket}
    (h : word[position]? = some bracket) :
    openAt word (position + 1) = bracket.turn position (openAt word position) := by
  obtain ⟨hlt, -⟩ := List.getElem?_eq_some_iff.1 h
  rw [openAt, List.take_add_one, h, Option.toList_some, openFrom_append, List.length_take,
    Nat.min_eq_left (Nat.le_of_lt hlt), Nat.zero_add]
  rfl

theorem openAt_append_of_le {word : List Bracket} {position : Nat} (h : position ≤ word.length)
    (rest : List Bracket) : openAt (word ++ rest) position = openAt word position := by
  rw [openAt, List.take_append_of_le_length h, openAt]

/-- A balanced word leaves no bracket open, and closes none that was open before it. -/
theorem openFrom_of_balanced {word : List Bracket} (h : Balanced word) (position : Nat)
    (opened : List Nat) : openFrom position opened word = opened := by
  induction h generalizing position opened with
  | nil => rfl
  | plain _ ih => exact ih _ _
  | block _ _ ihInside ihRest =>
    rw [openFrom, openFrom_append, ihInside, openFrom, ihRest]
    rfl

/-- Where a scan does not stop, the brackets stay open that were open outside. -/
theorem exists_openFrom_append {word : List Bracket} (inner : List Nat)
    (h : distance? inner.length word = none) (position : Nat) (outer : List Nat) :
    ∃ opened, openFrom position (inner ++ outer) word = opened ++ outer := by
  induction word generalizing inner position with
  | nil => exact ⟨inner, rfl⟩
  | cons bracket rest ih =>
    cases bracket with
    | opens =>
      rw [distance?, Option.map_eq_none_iff] at h
      exact ih (position :: inner) h (position + 1)
    | plain =>
      rw [distance?, Option.map_eq_none_iff] at h
      exact ih inner h (position + 1)
    | closes =>
      cases inner with
      | nil => cases h
      | cons first inner =>
        rw [List.length_cons, distance?, Option.map_eq_none_iff] at h
        exact ih inner h (position + 1)

/-- What is open after a word was open before it, or is opened in it. -/
theorem mem_openFrom {word : List Bracket} {position header : Nat} {opened : List Nat}
    (h : header ∈ openFrom position opened word) :
    header ∈ opened ∨ ∃ offset, header = position + offset ∧ word[offset]? = some .opens := by
  induction word generalizing position opened with
  | nil => exact .inl h
  | cons bracket rest ih =>
    rcases ih h with hturn | ⟨offset, rfl, hoffset⟩
    · cases bracket with
      | opens =>
        rcases List.mem_cons.1 hturn with rfl | hmem
        · exact .inr ⟨0, rfl, rfl⟩
        · exact .inl hmem
      | closes => exact .inl (List.mem_of_mem_tail hturn)
      | plain => exact .inl hturn
    · exact .inr ⟨offset + 1, by omega, hoffset⟩

/-- Of the open brackets, those further in come later. -/
theorem pairwise_openFrom {word : List Bracket} {position : Nat} {opened : List Nat}
    (hopened : opened.Pairwise (· > ·)) (hlt : ∀ header ∈ opened, header < position) :
    (openFrom position opened word).Pairwise (· > ·) := by
  induction word generalizing position opened with
  | nil => exact hopened
  | cons bracket rest ih =>
    cases bracket with
    | opens =>
      refine ih (hopened.cons hlt) ?_
      rintro header (_ | ⟨_, hmem⟩)
      · exact Nat.lt_succ_self position
      · exact Nat.lt_succ_of_lt (hlt header hmem)
    | closes =>
      refine ih (hopened.sublist (List.tail_sublist opened)) fun header hmem ↦ ?_
      exact Nat.lt_succ_of_lt (hlt header (List.mem_of_mem_tail hmem))
    | plain => exact ih hopened fun header hmem ↦ Nat.lt_succ_of_lt (hlt header hmem)

theorem pairwise_openAt (word : List Bracket) (position : Nat) :
    (openAt word position).Pairwise (· > ·) :=
  pairwise_openFrom .nil (by simp)

theorem getElem?_of_mem_openAt {word : List Bracket} {position header : Nat}
    (h : header ∈ openAt word position) : header < position ∧ word[header]? = some .opens := by
  rcases mem_openFrom h with hnil | ⟨offset, rfl, hoffset⟩
  · cases hnil
  · rw [Nat.zero_add]
    rw [List.getElem?_take] at hoffset
    split at hoffset
    · exact ⟨‹_›, hoffset⟩
    · cases hoffset

/-- Inside a block, its bracket is open, and so are those that were open before the block. -/
theorem Pair.exists_openAt {word : List Bracket} {header close position : Nat}
    (h : Pair word header close) (hlt : header < position) (hle : position ≤ close) :
    ∃ inner, openAt word position = inner ++ header :: openAt word header := by
  obtain ⟨before, inside, after, rfl, hinside, rfl, rfl⟩ := h
  obtain ⟨length, rfl⟩ : ∃ length, position = before.length + 1 + length :=
    ⟨position - (before.length + 1), by omega⟩
  have htake : (before ++ Bracket.opens :: (inside ++ .closes :: after)).take
      (before.length + 1 + length) = before ++ .opens :: inside.take length := by
    rw [Nat.add_assoc, List.take_length_add_append, Nat.add_comm 1, List.take_succ_cons,
      List.take_append_of_le_length (by omega)]
  have hscan : distance? 0 (inside.take length) = none :=
    distance?_eq_none_iff.2 ((covered_of_balanced hinside).take length)
  rw [openAt, htake, openFrom_append, Nat.zero_add, openFrom, openAt, List.take_left]
  exact exists_openFrom_append [] hscan _ _

/-- After a block the brackets are open that were open before it. -/
theorem Pair.openAt_after {word : List Bracket} {header close : Nat} (h : Pair word header close) :
    openAt word (close + 1) = openAt word header := by
  obtain ⟨before, inside, after, rfl, hinside, rfl, rfl⟩ := h
  have hsplit : before ++ Bracket.opens :: (inside ++ .closes :: after) =
      (before ++ .opens :: (inside ++ [.closes])) ++ after := by
    simp
  have hlength : (before ++ Bracket.opens :: (inside ++ [.closes])).length =
      before.length + 1 + inside.length + 1 := by
    simp
    omega
  have hblock : Balanced (.opens :: (inside ++ [.closes])) := hinside.block .nil
  rw [openAt, hsplit, ← hlength, List.take_left, openFrom_append, openFrom_of_balanced hblock,
    openAt, List.append_assoc, List.take_left]

/-- In a balanced word a bracket is open from the position after it to its partner. -/
theorem mem_openAt_iff {word : List Bracket} (hbalanced : Balanced word) {position header : Nat} :
    header ∈ openAt word position ↔
      ∃ close, Pair word header close ∧ header < position ∧ position ≤ close := by
  constructor
  · intro hmem
    obtain ⟨hlt, hopens⟩ := getElem?_of_mem_openAt hmem
    obtain ⟨close, hpair⟩ := (hbalanced.exists_pair header).1 hopens
    refine ⟨close, hpair, hlt, ?_⟩
    -- Behind the partner only brackets are open that were open before, or were opened since.
    by_contra hafter
    obtain ⟨length, rfl⟩ : ∃ length, position = close + 1 + length :=
      ⟨position - (close + 1), by omega⟩
    have hclose := hpair.lt_length
    rw [openAt, List.take_add, openFrom_append] at hmem
    rcases mem_openFrom hmem with hbefore | ⟨offset, hoffset, -⟩
    · change header ∈ openAt word (close + 1) at hbefore
      rw [hpair.openAt_after] at hbefore
      exact Nat.lt_irrefl _ (getElem?_of_mem_openAt hbefore).1
    · have hpairLt := hpair.lt
      rw [List.length_take, Nat.min_eq_left (by omega)] at hoffset
      omega
  · rintro ⟨close, hpair, hlt, hle⟩
    obtain ⟨inner, hinner⟩ := hpair.exists_openAt hlt hle
    rw [hinner]
    simp

end LineScript.Bracket
