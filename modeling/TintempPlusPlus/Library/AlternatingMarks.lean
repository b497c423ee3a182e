import Mathlib

/-!
# Two sides marking squares in turn

A play is the list of squares in the order in which they were marked, and
the sides alternate. Squares and lines are arbitrary. The facts here are
what a game of this kind owes to the alternation alone: how many squares
each side holds, that completed lines stay completed, and that the side
which completes the first line is the one that moved last.
-/

namespace TintempPlusPlus.AlternatingMarks

variable {ι : Type*} [DecidableEq ι]

/-- The two sides in the order in which they move. -/
inductive Side where
  | first
  | second
  deriving DecidableEq, Repr

/-- The side that makes the move after `n` moves. -/
def sideAt (n : ℕ) : Side := if n % 2 = 0 then .first else .second

/-- The mark that a play leaves on a square. -/
def mark (moves : List ι) (i : ι) : Option Side :=
  if i ∈ moves then some (sideAt (moves.idxOf i)) else none

variable {moves : List ι} {i j : ι} {line : List ι}

/-- In the beginning nothing is marked. -/
@[simp] theorem mark_nil : mark [] i = none := rfl

/-- A place has no mark when no move took it. -/
theorem mark_eq_none : mark moves i = none ↔ i ∉ moves := by
  simp only [mark, ite_eq_right_iff, reduceCtorEq, imp_false]

/-- A place has a mark when a move took it. -/
theorem mark_ne_none : mark moves i ≠ none ↔ i ∈ moves := by
  rw [Ne, mark_eq_none, not_not]

/-- A new move leaves the mark of the side to move. -/
theorem mark_concat_self (h : i ∉ moves) :
    mark (moves ++ [i]) i = some (sideAt moves.length) := by
  simp [mark, List.idxOf_append_of_notMem h]

/-- A move leaves all other squares as they were. -/
theorem mark_concat_of_ne (h : j ≠ i) : mark (moves ++ [i]) j = mark moves j := by
  by_cases hj : j ∈ moves
  · simp [mark, hj, List.idxOf_append_of_mem hj]
  · simp [mark, hj, h]

/-- Marks are never changed or removed. -/
theorem mark_concat_of_mem (h : i ∉ moves) (hj : j ∈ moves) :
    mark (moves ++ [i]) j = mark moves j :=
  mark_concat_of_ne (fun he => h (he ▸ hj))

/-- All squares of the line carry the mark of one side. -/
def Complete (moves : List ι) (line : List ι) : Prop :=
  ∃ side, ∀ j ∈ line, mark moves j = some side

/-- A completed line stays completed. -/
theorem Complete.concat (h : Complete moves line) (hi : i ∉ moves) :
    Complete (moves ++ [i]) line := by
  obtain ⟨side, hside⟩ := h
  refine ⟨side, ?_⟩
  intro j hj
  have hm : j ∈ moves := mark_ne_none.mp (by rw [hside j hj]; exact Option.some_ne_none _)
  rw [mark_concat_of_mem hi hm, hside j hj]

/-- A move that completes a line lies on it, so the whole line carries the
mark of the side that moved. -/
theorem complete_by_mover (hi : i ∉ moves) (hbefore : ¬ Complete moves line)
    (hafter : Complete (moves ++ [i]) line) :
    ∀ j ∈ line, mark (moves ++ [i]) j = some (sideAt moves.length) := by
  obtain ⟨side, hside⟩ := hafter
  have hmem : i ∈ line := by
    by_contra hni
    refine hbefore ⟨side, ?_⟩
    intro j hj
    have hji : j ≠ i := fun he => hni (he ▸ hj)
    rw [← mark_concat_of_ne hji, hside j hj]
  have hs : some side = some (sideAt moves.length) := by
    rw [← hside i hmem, mark_concat_self hi]
  intro j hj
  rw [hside j hj, hs]

section Counting

variable [Fintype ι]

/-- The squares a side has marked. -/
def held (moves : List ι) (side : Side) : Finset ι :=
  Finset.univ.filter fun i => mark moves i = some side

/-- The squares either side has marked. -/
def taken (moves : List ι) : Finset ι :=
  Finset.univ.filter fun i => mark moves i ≠ none

/-- The taken places are those of the moves. -/
theorem taken_eq_toFinset : taken moves = moves.toFinset := by
  ext i
  simp only [taken, Finset.mem_filter, Finset.mem_univ, true_and, mark_ne_none, List.mem_toFinset]

/-- Every move takes one square. -/
theorem card_taken (h : moves.Nodup) : (taken moves).card = moves.length := by
  rw [taken_eq_toFinset, List.toFinset_card_of_nodup h]

/-- There are no more moves than places. -/
theorem length_le_card (h : moves.Nodup) : moves.length ≤ Fintype.card ι := by
  rw [← card_taken h]
  exact Finset.card_le_univ _

/-- The board is full after as many moves as there are squares. -/
theorem all_taken_iff (h : moves.Nodup) :
    (∀ i, mark moves i ≠ none) ↔ moves.length = Fintype.card ι := by
  rw [← card_taken h, Finset.card_eq_iff_eq_univ, Finset.eq_univ_iff_forall]
  simp only [taken, Finset.mem_filter, Finset.mem_univ, true_and]

/-- A new move adds its place to those of the side that moves. -/
theorem held_concat (h : i ∉ moves) (side : Side) :
    held (moves ++ [i]) side =
      if sideAt moves.length = side then insert i (held moves side) else held moves side := by
  ext j
  by_cases hj : j = i
  · subst hj
    have hn : mark moves j = none := mark_eq_none.mpr h
    split_ifs with hs <;> simp [held, mark_concat_self h, hn, hs]
  · split_ifs with hs <;> simp [held, mark_concat_of_ne hj, hj]

/-- No side holds a place that was not taken. -/
theorem notMem_held (h : i ∉ moves) (side : Side) : i ∉ held moves side := by
  simp [held, mark_eq_none.mpr h]

/-- The side that moves first holds the larger half, rounded up, and the
other side the smaller half. -/
theorem card_held (h : moves.Nodup) :
    (held moves .first).card = (moves.length + 1) / 2 ∧
      (held moves .second).card = moves.length / 2 := by
  induction moves using List.reverseRecOn with
  | nil => simp [held]
  | append_singleton moves i ih =>
    have hi : i ∉ moves := fun hm => List.disjoint_of_nodup_append h hm (by simp)
    obtain ⟨hfirst, hsecond⟩ := ih (List.Nodup.of_append_left h)
    rw [held_concat hi, held_concat hi, List.length_append, List.length_singleton]
    by_cases hp : moves.length % 2 = 0
    · have hs : sideAt moves.length = .first := by simp [sideAt, hp]
      rw [hs, if_pos rfl, if_neg (by decide), Finset.card_insert_of_notMem (notMem_held hi _),
        hfirst, hsecond]
      omega
    · have hs : sideAt moves.length = .second := by simp [sideAt, hp]
      rw [hs, if_neg (by decide), if_pos rfl, Finset.card_insert_of_notMem (notMem_held hi _),
        hfirst, hsecond]
      omega

end Counting

end TintempPlusPlus.AlternatingMarks
