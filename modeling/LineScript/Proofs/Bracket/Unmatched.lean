import LineScript.Proofs.Bracket.Outline
import Mathlib.Data.Nat.Find

/-!
# Brackets without a partner

A word that is not balanced has a first bracket that is to blame: a closing bracket at which, for
the first time, more blocks are closed than were opened, or, where there is none, the first opening
bracket whose block is never closed. The counting scans fail exactly at brackets without a partner,
since a scan fails exactly where no part of what it reads closes more than it opens.
-/

namespace LineScript.Bracket

variable {word : List Bracket}

/-- No beginning of a word closes more blocks than it opens, some others being open before it. -/
def Covered (depth : Nat) (word : List Bracket) : Prop :=
  ∀ count, (word.take count).count .closes ≤ depth + (word.take count).count .opens

/-- A bracket that closes a block where none is open, for the first time in a word. -/
def FirstSurplus (word : List Bracket) (close : Nat) : Prop :=
  word[close]? = some .closes ∧
    (word.take (close + 1)).count .opens < (word.take (close + 1)).count .closes ∧
    Covered 0 (word.take close)

/-- A bracket that opens a block that is never closed, for the first time in a word. -/
def FirstUnclosed (word : List Bracket) (header : Nat) : Prop :=
  word[header]? = some .opens ∧ (∀ close, ¬ Pair word header close) ∧
    ∀ earlier < header, word[earlier]? = some .opens → ∃ close, Pair word earlier close

theorem covered_cons {depth : Nat} {bracket : Bracket} : Covered depth (bracket :: word) ↔
    ∀ count, (bracket :: word.take count).count .closes ≤
      depth + (bracket :: word.take count).count .opens := by
  constructor
  · exact fun h count ↦ h (count + 1)
  · intro h count
    cases count with
    | zero => simp
    | succ count => exact h count

theorem Covered.take {depth : Nat} (h : Covered depth word) (length : Nat) :
    Covered depth (word.take length) := by
  intro count
  rw [List.take_take]
  exact h _

/-- A scan fails where no beginning of what it reads closes more blocks than are open. -/
theorem distance?_eq_none_iff {depth : Nat} : distance? depth word = none ↔ Covered depth word := by
  induction word generalizing depth with
  | nil => simp [distance?, Covered]
  | cons bracket rest ih =>
    rw [covered_cons]
    cases bracket with
    | plain =>
      rw [distance?, Option.map_eq_none_iff, ih]
      simp [Covered]
    | opens =>
      rw [distance?, Option.map_eq_none_iff, ih]
      simp only [Covered, List.count_cons]
      refine forall_congr' fun count ↦ ?_
      simp
      omega
    | closes =>
      cases depth with
      | zero =>
        rw [distance?]
        refine iff_of_false (by simp) fun h ↦ ?_
        have hfirst := h 0
        simp at hfirst
      | succ inner =>
        rw [distance?, Option.map_eq_none_iff, ih]
        simp only [Covered, List.count_cons]
        refine forall_congr' fun count ↦ ?_
        simp
        omega

theorem covered_of_balanced (h : Balanced word) : Covered 0 word :=
  distance?_eq_none_iff.1 (distance?_of_balanced h)

/--
What a scan passes before it stops: a balanced word, and the bracket that closes the innermost
block. Where others are open the scan goes on from there.
-/
theorem exists_split_of_distance? {depth distance : Nat}
    (h : distance? depth word = some distance) :
    ∃ inside rest, word = inside ++ .closes :: rest ∧ Balanced inside ∧
      match depth with
      | 0 => distance = inside.length
      | outer + 1 => ∃ further, distance? outer rest = some further ∧
          distance = inside.length + 1 + further := by
  induction hlength : word.length using Nat.strongRecOn generalizing word depth distance with
  | ind length ih =>
    subst hlength
    cases word with
    | nil => cases h
    | cons bracket rest =>
      cases bracket with
      | plain =>
        obtain ⟨found, hfound, rfl⟩ := Option.map_eq_some_iff.1 h
        obtain ⟨inside, after, rfl, hinside, hdistance⟩ := ih _ (by simp) hfound rfl
        refine ⟨.plain :: inside, after, rfl, hinside.plain, ?_⟩
        cases depth with
        | zero => simpa using hdistance
        | succ outer =>
          obtain ⟨further, hfurther, rfl⟩ := hdistance
          exact ⟨further, hfurther, by simp; omega⟩
      | closes =>
        refine ⟨[], rest, rfl, .nil, ?_⟩
        cases depth with
        | zero =>
          cases h
          rfl
        | succ outer =>
          obtain ⟨further, hfurther, rfl⟩ := Option.map_eq_some_iff.1 h
          exact ⟨further, hfurther, by simp; omega⟩
      | opens =>
        -- The scan closes the block that opens here first, and then reads on at the same depth.
        obtain ⟨found, hfound, rfl⟩ := Option.map_eq_some_iff.1 h
        obtain ⟨block, middle, rfl, hblock, further, hfurther, rfl⟩ := ih _ (by simp) hfound rfl
        obtain ⟨inside, after, rfl, hinside, hdistance⟩ := ih _ (by simp; omega) hfurther rfl
        refine ⟨.opens :: (block ++ .closes :: inside), after, by simp, hblock.block hinside, ?_⟩
        cases depth with
        | zero =>
          obtain rfl : further = inside.length := hdistance
          simp
          omega
        | succ outer =>
          obtain ⟨last, hlast, rfl⟩ := hdistance
          exact ⟨last, hlast, by simp; omega⟩

/-- What the forward scan finds is the partner. -/
theorem pair_of_closing? {header close : Nat} (hopens : word[header]? = some .opens)
    (hclose : closing? word header = some close) : Pair word header close := by
  obtain ⟨distance, hdistance, rfl⟩ := Option.map_eq_some_iff.1 hclose
  obtain ⟨inside, rest, hrest, hinside, hlength⟩ := exists_split_of_distance? hdistance
  obtain ⟨hlt, hheader⟩ := List.getElem?_eq_some_iff.1 hopens
  refine ⟨word.take header, inside, rest, ?_, hinside, by simp; omega, ?_⟩
  · rw [← hrest, ← hheader, ← List.drop_eq_getElem_cons hlt, List.take_append_drop]
  · rw [show distance = inside.length from hlength]

theorem count_flip (word : List Bracket) :
    (mirror word).count .closes = word.count .opens ∧
      (mirror word).count .opens = word.count .closes := by
  induction word with
  | nil => exact ⟨rfl, rfl⟩
  | cons bracket rest ih =>
    rw [mirror_cons, List.count_append, List.count_append, ih.1, ih.2]
    cases bracket <;> simp [flip]

/-- The backward scan finds a partner where not more blocks are closed than were opened. -/
theorem isSome_opening? {close : Nat} (hcloses : word[close]? = some .closes)
    (hcount : (word.take (close + 1)).count .closes ≤ (word.take (close + 1)).count .opens) :
    (opening? word close).isSome := by
  rw [List.take_add_one, hcloses, Option.toList_some, List.count_append, List.count_append]
    at hcount
  cases hscan : distance? 0 (mirror (word.take close)) with
  | some distance =>
    change ((distance? 0 (mirror (word.take close))).map _).isSome = true
    rw [hscan]
    rfl
  | none =>
    have hcovered := distance?_eq_none_iff.1 hscan (mirror (word.take close)).length
    rw [List.take_length, (count_flip _).1, (count_flip _).2] at hcovered
    simp at hcount
    omega

/-- A word is balanced if no bracket closes too much and every block is closed. -/
theorem balanced_of_covered (hcovered : Covered 0 word)
    (hclosed : ∀ header, word[header]? = some .opens → ∃ close, Pair word header close) :
    Balanced word := by
  obtain ⟨outline, houtline⟩ : ∃ outline, Outline.ofBrackets word = some outline := by
    apply Outline.exists_ofBrackets
    · intro header hopens
      obtain ⟨close, hpair⟩ := hclosed header hopens
      rw [hpair.closing?_eq]
      rfl
    · intro close hcloses
      have hcount := hcovered (close + 1)
      rw [Nat.zero_add] at hcount
      exact isSome_opening? hcloses hcount
  rw [← Outline.word_of_ofBrackets houtline]
  exact outline.balanced_word

theorem exists_first {p : Nat → Prop} (h : ∃ n, p n) : ∃ n, p n ∧ ∀ m < n, ¬ p m := by
  classical
  exact ⟨Nat.find h, Nat.find_spec h, fun m hm ↦ Nat.find_min h hm⟩

/-- A beginning that closes too much ends, at first, with a bracket that does so. -/
theorem exists_firstSurplus (h : ¬ Covered 0 word) : ∃ close, FirstSurplus word close := by
  obtain ⟨count, hcount, hfirst⟩ := exists_first (not_forall.1 h)
  simp only [Nat.zero_add, not_le, not_lt] at hcount hfirst
  cases count with
  | zero => simp at hcount
  | succ close =>
    have hbefore := hfirst close (Nat.lt_succ_self close)
    refine ⟨close, ?_, hcount, ?_⟩
    · rw [List.take_add_one] at hcount
      cases hbracket : word[close]? with
      | none =>
        rw [hbracket, Option.toList_none, List.append_nil] at hcount
        omega
      | some bracket =>
        rw [hbracket, Option.toList_some, List.count_append, List.count_append] at hcount
        cases bracket with
        | closes => rfl
        | opens | plain =>
          simp at hcount
          omega
    · intro shorter
      rw [List.take_take, Nat.zero_add]
      exact hfirst _ (by omega)

/-- A word that is not balanced has a first bracket that is to blame. -/
theorem exists_firstSurplus_or_firstUnclosed (h : ¬ Balanced word) :
    (∃ close, FirstSurplus word close) ∨ Covered 0 word ∧ ∃ header, FirstUnclosed word header := by
  by_cases hcovered : Covered 0 word
  · right
    refine ⟨hcovered, ?_⟩
    have hopen : ∃ header, word[header]? = some .opens ∧ ∀ close, ¬ Pair word header close := by
      by_contra hnone
      refine h (balanced_of_covered hcovered fun header hopens ↦ ?_)
      by_contra hpair
      exact hnone ⟨header, hopens, not_exists.1 hpair⟩
    obtain ⟨header, ⟨hopens, hunclosed⟩, hfirst⟩ := exists_first hopen
    refine ⟨header, hopens, hunclosed, fun earlier hlt hearlier ↦ ?_⟩
    by_contra hpair
    exact hfirst earlier hlt ⟨hearlier, not_exists.1 hpair⟩
  · exact .inl (exists_firstSurplus hcovered)

theorem FirstSurplus.not_covered {close : Nat} (h : FirstSurplus word close) :
    ¬ Covered 0 word := by
  intro hcovered
  have hcount := hcovered (close + 1)
  have hsurplus := h.2.1
  omega

end LineScript.Bracket
