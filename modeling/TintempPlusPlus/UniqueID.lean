import Mathlib

/-!
# The shared counter and the custom ids made from it

One counter serves sessions, confirm buttons and board squares. The custom
ids embed a drawn number between a fixed prefix and a fixed suffix, so they
are equal only for equal numbers, and ids of different kinds never meet.
Signed overflow of the counter is undefined in the source; the numbers here
are unbounded and agree with it on every run that stays in range.
-/

namespace TintempPlusPlus.UniqueID

/-- A row index and a column index of the board. -/
abbrev Square := Fin 3 × Fin 3

/-- The numerals of a row or a column index are read through this instance. -/
instance three_neZero : NeZero 3 := ⟨by decide⟩

/-- The constructor of `UniqueID`: the new id, which is also the counter. -/
def draw (nextID : ℕ) : ℕ := nextID + 1

/-- Custom id of a YES button. -/
def confirmYesId (n : ℕ) : String := "confm_" ++ toString n ++ "_y"

/-- Custom id of a Nah button. -/
def confirmNoId (n : ℕ) : String := "confm_" ++ toString n ++ "_n"

/-- The position texts "000", "001", ..., "202" given to the squares. -/
def position (square : Square) : String :=
  toString square.1.val ++ "0" ++ toString square.2.val

/-- Custom id of a board button. -/
def pairId (square : Square) (n : ℕ) : String :=
  "p_" ++ position square ++ "_" ++ toString n

/-- A YES id determines its number. -/
theorem confirmYesId_inj {m n : ℕ} : confirmYesId m = confirmYesId n ↔ m = n := by
  simp only [confirmYesId, String.append_left_inj, String.append_right_inj]
  exact Nat.repr_inj

/-- A Nah id determines its number. -/
theorem confirmNoId_inj {m n : ℕ} : confirmNoId m = confirmNoId n ↔ m = n := by
  simp only [confirmNoId, String.append_left_inj, String.append_right_inj]
  exact Nat.repr_inj

/-- The last character tells the two confirm buttons apart. -/
theorem confirmYesId_ne_confirmNoId (m n : ℕ) : confirmYesId m ≠ confirmNoId n := by
  intro h
  have hl := congrArg (fun s => s.toList.reverse.head?) h
  simp [confirmYesId, confirmNoId, String.toList_append] at hl

/-- The first character tells a board button from a confirm button. -/
theorem pairId_ne_confirmYesId (square : Square) (m n : ℕ) :
    pairId square m ≠ confirmYesId n := by
  intro h
  have hl := congrArg (fun s => s.toList.head?) h
  simp [pairId, confirmYesId, String.toList_append] at hl

/-- A board button is no Nah button. -/
theorem pairId_ne_confirmNoId (square : Square) (m n : ℕ) :
    pairId square m ≠ confirmNoId n := by
  intro h
  have hl := congrArg (fun s => s.toList.head?) h
  simp [pairId, confirmNoId, String.toList_append] at hl

/-- No YES id is empty. -/
theorem confirmYesId_ne_empty (n : ℕ) : confirmYesId n ≠ "" := by
  intro h
  have hl := congrArg (fun s => s.toList.head?) h
  simp [confirmYesId, String.toList_append] at hl

/-- No Nah id is empty. -/
theorem confirmNoId_ne_empty (n : ℕ) : confirmNoId n ≠ "" := by
  intro h
  have hl := congrArg (fun s => s.toList.head?) h
  simp [confirmNoId, String.toList_append] at hl

/-- No board id is empty. -/
theorem pairId_ne_empty (square : Square) (n : ℕ) : pairId square n ≠ "" := by
  intro h
  have hl := congrArg (fun s => s.toList.head?) h
  simp [pairId, String.toList_append] at hl

/-- Positions are three characters long, so the position can be read off. -/
theorem position_toList (square : Square) :
    (position square).toList = [(toString square.1.val).toList.head!, '0',
      (toString square.2.val).toList.head!] := by
  revert square
  decide

/-- A position determines its square. -/
theorem position_inj {a b : Square} : position a = position b ↔ a = b := by
  have h : ∀ a b : Square, position a = position b ↔ a = b := by decide
  exact h a b

/-- A board id determines both its square and its number. -/
theorem pairId_inj {a b : Square} {m n : ℕ} : pairId a m = pairId b n ↔ a = b ∧ m = n := by
  constructor
  · intro h
    have hl := congrArg String.toList h
    simp only [pairId, String.toList_append, position_toList] at hl
    have hp : position a = position b := by
      rw [← String.toList_inj, position_toList, position_toList]
      simp only [List.append_assoc, List.append_cancel_left_eq, List.cons_append,
        List.nil_append, List.cons.injEq] at hl
      rw [hl.1, hl.2.2.1]
    have hab := position_inj.mp hp
    subst hab
    refine ⟨rfl, ?_⟩
    simp only [pairId, String.append_right_inj] at h
    exact Nat.repr_inj.mp h
  · rintro ⟨rfl, rfl⟩
    rfl

end TintempPlusPlus.UniqueID
