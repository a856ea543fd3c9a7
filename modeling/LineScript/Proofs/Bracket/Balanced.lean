import LineScript.Program.Bracket
import Mathlib.Data.List.Basic

/-!
# Balanced brackets

A word of brackets is balanced when every block that it opens it also closes, blocks inside blocks
included. Two positions of a word are a pair when they hold the two brackets of one block, that is,
when the word between them is balanced. In a balanced word every bracket has exactly one partner,
two pairs are nested or disjoint, and the two counting scans, which know nothing of each other,
both find the partner.
-/

namespace LineScript.Bracket

/-- Words that close every block they open. -/
inductive Balanced : List Bracket → Prop where
  | nil : Balanced []
  | plain {rest : List Bracket} : Balanced rest → Balanced (.plain :: rest)
  | block {inside rest : List Bracket} : Balanced inside → Balanced rest →
      Balanced (.opens :: (inside ++ .closes :: rest))

/-- Two positions hold the brackets of one block. -/
def Pair (word : List Bracket) (header close : Nat) : Prop :=
  ∃ before inside after, word = before ++ .opens :: (inside ++ .closes :: after) ∧
    Balanced inside ∧ before.length = header ∧ header + 1 + inside.length = close

theorem Balanced.append {left right : List Bracket} (hleft : Balanced left)
    (hright : Balanced right) : Balanced (left ++ right) := by
  induction hleft with
  | nil => exact hright
  | plain _ ih => exact ih.plain
  | block hinside _ _ ih =>
    simp only [List.cons_append, List.append_assoc]
    exact hinside.block ih

/-- A word read backwards, each bracket as it is seen from the other side. -/
def mirror (word : List Bracket) : List Bracket :=
  word.reverse.map flip

@[simp]
theorem length_mirror (word : List Bracket) : (mirror word).length = word.length := by
  simp [mirror]

@[simp]
theorem mirror_cons (bracket : Bracket) (word : List Bracket) :
    mirror (bracket :: word) = mirror word ++ [bracket.flip] := by
  simp [mirror]

@[simp]
theorem mirror_append (left right : List Bracket) :
    mirror (left ++ right) = mirror right ++ mirror left := by
  simp [mirror]

theorem Balanced.mirror {word : List Bracket} (h : Balanced word) : Balanced (mirror word) := by
  induction h with
  | nil => exact .nil
  | plain _ ih =>
    rw [mirror_cons]
    exact ih.append (.plain .nil)
  | block _ _ ihInside ihRest =>
    rw [mirror_cons, mirror_append, mirror_cons, List.append_assoc, List.append_assoc]
    exact ihRest.append (ihInside.block .nil)

/-- A scan passes over a balanced word, at whatever depth it is. -/
theorem distance?_append_of_balanced {word : List Bracket} (h : Balanced word) (depth : Nat)
    (rest : List Bracket) :
    distance? depth (word ++ rest) = (distance? depth rest).map (· + word.length) := by
  induction h generalizing depth rest with
  | nil => simp
  | plain _ ih =>
    rw [List.cons_append, distance?, ih, Option.map_map]
    rfl
  | block _ _ ihInside ihRest =>
    rw [List.cons_append, List.append_assoc, List.cons_append, distance?, ihInside, distance?,
      ihRest, Option.map_map, Option.map_map, Option.map_map]
    congr 1
    funext distance
    simp only [Function.comp_apply, List.length_cons, List.length_append]
    omega

theorem distance?_of_balanced {word : List Bracket} (h : Balanced word) :
    distance? 0 word = none := by
  have hscan := distance?_append_of_balanced h 0 []
  rwa [List.append_nil] at hscan

theorem distance?_of_balanced_closes {word : List Bracket} (h : Balanced word)
    (rest : List Bracket) : distance? 0 (word ++ .closes :: rest) = some word.length := by
  rw [distance?_append_of_balanced h, distance?]
  simp

theorem drop_header (before rest : List Bracket) :
    (before ++ Bracket.opens :: rest).drop (before.length + 1) = rest := by
  rw [List.drop_append]
  simp

/-- The forward scan finds the partner of an opening bracket. -/
theorem Pair.closing?_eq {word : List Bracket} {header close : Nat} (h : Pair word header close) :
    closing? word header = some close := by
  obtain ⟨before, inside, after, rfl, hinside, rfl, rfl⟩ := h
  rw [closing?, drop_header, distance?_of_balanced_closes hinside, Option.map_some]

/-- The backward scan finds the partner of a closing bracket. -/
theorem Pair.opening?_eq {word : List Bracket} {header close : Nat} (h : Pair word header close) :
    opening? word close = some header := by
  obtain ⟨before, inside, after, rfl, hinside, rfl, rfl⟩ := h
  have htake : (before ++ Bracket.opens :: (inside ++ .closes :: after)).take
      (before.length + 1 + inside.length) = before ++ .opens :: inside := by
    have hsplit : before ++ Bracket.opens :: (inside ++ .closes :: after) =
        (before ++ .opens :: inside) ++ .closes :: after := by
      simp
    rw [hsplit]
    apply List.take_left'
    simp
    omega
  have hmirror : mirror (before ++ .opens :: inside) =
      mirror inside ++ .closes :: mirror before := by
    simp [Bracket.flip]
  rw [opening?, htake]
  change (distance? 0 (mirror (before ++ .opens :: inside))).map _ = _
  rw [hmirror, distance?_of_balanced_closes hinside.mirror, length_mirror, Option.map_some]
  congr 1
  omega

theorem Pair.lt {word : List Bracket} {header close : Nat} (h : Pair word header close) :
    header < close := by
  obtain ⟨before, inside, after, -, -, -, rfl⟩ := h
  omega

theorem Pair.opens {word : List Bracket} {header close : Nat} (h : Pair word header close) :
    word[header]? = some .opens := by
  obtain ⟨before, inside, after, rfl, -, rfl, -⟩ := h
  simp

theorem Pair.closes {word : List Bracket} {header close : Nat} (h : Pair word header close) :
    word[close]? = some .closes := by
  obtain ⟨before, inside, after, rfl, -, rfl, rfl⟩ := h
  rw [List.getElem?_append_right (by omega), List.getElem?_cons]
  have hne : before.length + 1 + inside.length - before.length ≠ 0 := by omega
  have hindex : before.length + 1 + inside.length - before.length - 1 = inside.length := by omega
  rw [if_neg hne, hindex]
  simp

theorem Pair.lt_length {word : List Bracket} {header close : Nat} (h : Pair word header close) :
    close < word.length :=
  (List.getElem?_eq_some_iff.1 h.closes).1

/-- The word strictly between two partners is balanced. -/
theorem Pair.balanced_between {word : List Bracket} {header close : Nat}
    (h : Pair word header close) :
    Balanced ((word.drop (header + 1)).take (close - (header + 1))) := by
  obtain ⟨before, inside, after, rfl, hinside, rfl, rfl⟩ := h
  rw [drop_header, Nat.add_sub_cancel_left, List.take_left]
  exact hinside

theorem Pair.close_unique {word : List Bracket} {header close other : Nat}
    (h : Pair word header close) (hother : Pair word header other) : close = other := by
  apply Option.some.inj
  calc
    some close = closing? word header := h.closing?_eq.symm
    _ = some other := hother.closing?_eq

theorem Pair.header_unique {word : List Bracket} {header other close : Nat}
    (h : Pair word header close) (hother : Pair word other close) : header = other := by
  apply Option.some.inj
  calc
    some header = opening? word close := h.opening?_eq.symm
    _ = some other := hother.opening?_eq

/-- A pair of a part of a word is a pair of the word. -/
theorem Pair.extend {word : List Bracket} {header close : Nat} (h : Pair word header close)
    (left right : List Bracket) :
    Pair (left ++ (word ++ right)) (left.length + header) (left.length + close) := by
  obtain ⟨before, inside, after, rfl, hinside, rfl, rfl⟩ := h
  refine ⟨left ++ before, inside, after ++ right, by simp, hinside, by simp, by omega⟩

theorem Pair.cons {word : List Bracket} {header close : Nat} (h : Pair word header close)
    (bracket : Bracket) : Pair (bracket :: word) (header + 1) (close + 1) := by
  have hextend := h.extend [bracket] []
  simpa [Nat.add_comm] using hextend

/-- The outermost pair of a block, and the pairs of what is inside it and after it. -/
theorem Pair.ofBlock {inside rest : List Bracket} (hinside : Balanced inside) :
    Pair (.opens :: (inside ++ .closes :: rest)) 0 (inside.length + 1) :=
  ⟨[], inside, rest, rfl, hinside, rfl, by omega⟩

theorem Pair.inBlock {inside rest : List Bracket} {header close : Nat}
    (h : Pair inside header close) :
    Pair (.opens :: (inside ++ .closes :: rest)) (header + 1) (close + 1) := by
  have hextend := h.extend [.opens] (.closes :: rest)
  simpa [Nat.add_comm] using hextend

theorem Pair.afterBlock {inside rest : List Bracket} {header close : Nat}
    (h : Pair rest header close) :
    Pair (.opens :: (inside ++ .closes :: rest)) (inside.length + 2 + header)
      (inside.length + 2 + close) := by
  have hextend := h.extend (.opens :: (inside ++ [.closes])) []
  simpa [Nat.add_comm, Nat.add_left_comm] using hextend

/-- Where a position of a block stands: at one of its brackets, inside it, or after it. -/
theorem getElem?_block {inside rest : List Bracket} {position : Nat} {bracket : Bracket}
    (h : (Bracket.opens :: (inside ++ .closes :: rest))[position]? = some bracket) :
    (position = 0 ∧ bracket = .opens) ∨
      (∃ i, position = i + 1 ∧ inside[i]? = some bracket) ∨
      (position = inside.length + 1 ∧ bracket = .closes) ∨
      ∃ i, position = inside.length + 2 + i ∧ rest[i]? = some bracket := by
  cases position with
  | zero => exact .inl ⟨rfl, (Option.some.inj h).symm⟩
  | succ i =>
    rw [List.getElem?_cons_succ, List.getElem?_append] at h
    split at h
    · exact .inr (.inl ⟨i, rfl, h⟩)
    · rename_i hge
      obtain ⟨d, rfl⟩ : ∃ d, i = inside.length + d := ⟨i - inside.length, by omega⟩
      rw [Nat.add_sub_cancel_left] at h
      cases d with
      | zero => exact .inr (.inr (.inl ⟨rfl, (Option.some.inj h).symm⟩))
      | succ d => exact .inr (.inr (.inr ⟨d, by omega, h⟩))

/-- In a balanced word every bracket has a partner. -/
theorem Balanced.exists_pair {word : List Bracket} (h : Balanced word) (position : Nat) :
    (word[position]? = some .opens → ∃ close, Pair word position close) ∧
      (word[position]? = some .closes → ∃ header, Pair word header position) := by
  induction h generalizing position with
  | nil => simp
  | plain _ ih =>
    cases position with
    | zero => simp
    | succ position =>
      rw [List.getElem?_cons_succ]
      obtain ⟨hopens, hcloses⟩ := ih position
      exact ⟨fun hp ↦ (hopens hp).imp' _ fun _ h ↦ h.cons _,
        fun hp ↦ (hcloses hp).imp' _ fun _ h ↦ h.cons _⟩
  | block hinside _ ihInside ihRest =>
    constructor
    · intro hp
      rcases getElem?_block hp with ⟨rfl, -⟩ | ⟨i, rfl, hi⟩ | ⟨-, hne⟩ | ⟨i, rfl, hi⟩
      · exact ⟨_, .ofBlock hinside⟩
      · exact ((ihInside i).1 hi).imp' _ fun _ h ↦ h.inBlock
      · exact absurd hne (by decide)
      · exact ((ihRest i).1 hi).imp' _ fun _ h ↦ h.afterBlock
    · intro hp
      rcases getElem?_block hp with ⟨-, hne⟩ | ⟨i, rfl, hi⟩ | ⟨rfl, -⟩ | ⟨i, rfl, hi⟩
      · exact absurd hne (by decide)
      · exact ((ihInside i).2 hi).imp' _ fun _ h ↦ h.inBlock
      · exact ⟨_, .ofBlock hinside⟩
      · exact ((ihRest i).2 hi).imp' _ fun _ h ↦ h.afterBlock

/-- Of two pairs, the one that opens later is nested in the other or comes after it. -/
theorem Pair.nested_or_disjoint {word : List Bracket} {header close header' close' : Nat}
    (h : Pair word header close) (h' : Pair word header' close') (hlt : header < header') :
    close' < close ∨ close < header' := by
  rcases Nat.lt_trichotomy header' close with hinside | heq | hafter
  · left
    have hbetween := h
    obtain ⟨before, inside, after, rfl, hbalanced, rfl, rfl⟩ := h
    obtain ⟨i, rfl⟩ : ∃ i, header' = before.length + 1 + i :=
      ⟨header' - (before.length + 1), by omega⟩
    have hi : inside[i]? = some .opens := by
      have hopens := h'.opens
      rw [List.getElem?_append_right (by omega), List.getElem?_cons] at hopens
      rw [if_neg (by omega), List.getElem?_append_left (by omega)] at hopens
      rwa [show before.length + 1 + i - before.length - 1 = i by omega] at hopens
    obtain ⟨j, hpair⟩ := (hbalanced.exists_pair i).1 hi
    have hj := hpair.lt_length
    have hwhole := hpair.extend (before ++ [.opens]) (.closes :: after)
    rw [List.append_assoc, List.singleton_append, List.length_append, List.length_singleton]
      at hwhole
    have hclose := h'.close_unique hwhole
    omega
  · have hopens := h'.opens
    rw [heq, h.closes] at hopens
    exact absurd (Option.some.inj hopens) (by decide)
  · exact .inr hafter

end LineScript.Bracket
