import TintempPlusPlus.Library.AlternatingMarks

/-!
# Line games with missed turns

Two sides have the turn alternately. The side that has it marks a place or
misses the turn. The game is won when the marks of one side fill a line, and
it is drawn when enough turns have passed without that; a draw leaves the
turn where it is. Nothing stops the play after the end. Places and lines are
arbitrary, and the outcome is a function of the position alone.
-/

namespace TintempPlusPlus.LineGame

open AlternatingMarks

variable {ι : Type*}

/-- The other side. -/
def opponent : Side → Side
  | .first => .second
  | .second => .first

/-- A position of the game. -/
structure Position (ι : Type*) where
  /-- The mark on each place. -/
  marks : ι → Option Side := fun _ => none
  /-- The side that has the turn. -/
  side : Side := .first
  /-- Number of finished turns. -/
  turns : ℕ := 0

/-- All places of the line carry the mark of one side. -/
def Fills (marks : ι → Option Side) (line : List ι) : Prop :=
  ∃ side, ∀ i ∈ line, marks i = some side

/-- Some line is filled. -/
def Decided (lines : List (List ι)) (p : Position ι) : Prop := ∃ line ∈ lines, Fills p.marks line

/-- Enough turns have passed without a filled line. -/
def Drawn (lines : List (List ι)) (limit : ℕ) (p : Position ι) : Prop :=
  ¬ Decided lines p ∧ limit ≤ p.turns

instance decidableFills (marks : ι → Option Side) (line : List ι) : Decidable (Fills marks line) :=
  decidable_of_iff ((∀ i ∈ line, marks i = some .first) ∨ ∀ i ∈ line, marks i = some .second)
    ⟨fun h => h.elim (fun h => ⟨_, h⟩) (fun h => ⟨_, h⟩), fun ⟨side, h⟩ =>
      match side, h with
      | .first, h => Or.inl h
      | .second, h => Or.inr h⟩

instance decidableDecided (lines : List (List ι)) (p : Position ι) : Decidable (Decided lines p) :=
  inferInstanceAs (Decidable (∃ line ∈ lines, Fills p.marks line))

instance decidableDrawn (lines : List (List ι)) (limit : ℕ) (p : Position ι) :
    Decidable (Drawn lines limit p) :=
  inferInstanceAs (Decidable (¬ Decided lines p ∧ limit ≤ p.turns))

/-- The turn is counted, and it passes unless the game is drawn. -/
def Position.finish (lines : List (List ι)) (limit : ℕ) (p : Position ι) : Position ι :=
  let counted := { p with turns := p.turns + 1 }
  if Drawn lines limit counted then counted else { counted with side := opponent p.side }

variable {lines : List (List ι)} {limit : ℕ} {p q : Position ι} {line : List ι} {i j : ι}

/-- Finishing a turn keeps the marks. -/
@[simp] theorem finish_marks (p : Position ι) : (p.finish lines limit).marks = p.marks := by
  unfold Position.finish
  dsimp only
  split_ifs <;> rfl

/-- Finishing a turn counts it. -/
@[simp] theorem finish_turns (p : Position ι) : (p.finish lines limit).turns = p.turns + 1 := by
  unfold Position.finish
  dsimp only
  split_ifs <;> rfl

/-- Whether a line is filled depends on the marks alone. -/
theorem decided_congr (h : q.marks = p.marks) : Decided lines q ↔ Decided lines p := by
  unfold Decided
  rw [h]

/-- The side changes unless the game ends undecided. -/
theorem finish_side (p : Position ι) : (p.finish lines limit).side =
    if ¬ Decided lines p ∧ limit ≤ p.turns + 1 then p.side else opponent p.side := by
  have hdrawn : Drawn lines limit { p with turns := p.turns + 1 } ↔
      ¬ Decided lines p ∧ limit ≤ p.turns + 1 := Iff.rfl
  unfold Position.finish
  dsimp only
  by_cases h : Drawn lines limit { p with turns := p.turns + 1 }
  · rw [if_pos h, if_pos (hdrawn.mp h)]
  · rw [if_neg h, if_neg (fun hn => h (hdrawn.mpr hn))]

variable [DecidableEq ι]

/-- The side that has the turn marks a place. -/
def Position.put (p : Position ι) (i : ι) : Position ι :=
  { p with marks := Function.update p.marks i (some p.side) }

/-- A mark counts no turn. -/
@[simp] theorem put_turns (p : Position ι) (i : ι) : (p.put i).turns = p.turns := rfl

/-- The mark is that of the side that moves. -/
@[simp] theorem put_marks_self (p : Position ι) (i : ι) : (p.put i).marks i = some p.side :=
  Function.update_self _ _ _

/-- Other places keep their marks. -/
theorem put_marks_of_ne (p : Position ι) (h : j ≠ i) : (p.put i).marks j = p.marks j :=
  Function.update_of_ne h _ _

/-- A filled line stays filled when a free place is marked. -/
theorem Fills.put (h : Fills p.marks line) (hi : p.marks i = none) :
    Fills (p.put i).marks line := by
  obtain ⟨side, hside⟩ := h
  refine ⟨side, fun j hj => ?_⟩
  have hne : j ≠ i := by
    intro he
    have hm := hside j hj
    rw [he, hi] at hm
    cases hm
  rw [put_marks_of_ne p hne]
  exact hside j hj

/-- A decided game stays decided. -/
theorem Decided.put (h : Decided lines p) (hi : p.marks i = none) : Decided lines (p.put i) := by
  obtain ⟨line, hl, hf⟩ := h
  exact ⟨line, hl, hf.put hi⟩

/-- A play by the rules and the position it leads to: every turn marks a free
place, and nobody plays after the end. -/
inductive Played (lines : List (List ι)) (limit : ℕ) : List ι → Position ι → Prop
  /-- The beginning. -/
  | nil : Played lines limit [] {}
  /-- One more turn. -/
  | snoc {places : List ι} {p : Position ι} {i : ι} (before : Played lines limit places p)
    (free : p.marks i = none) (undecided : ¬ Decided lines p) (left : p.turns < limit) :
    Played lines limit (places ++ [i]) ((p.put i).finish lines limit)

end TintempPlusPlus.LineGame
