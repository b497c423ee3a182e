import TintempPlusPlus.Ttt
import TintempPlusPlus.Library.AlternatingMarks

/-!
# What the board functions compute

The winner search marks exactly the filled rows, columns and diagonals. A
game whose clicks all hit idle squares is an alternating play on nine
squares: board, flags, turn, counter and result are functions of the list
of squares clicked so far.
-/

namespace TintempPlusPlus.BoardLaws

open Discord UniqueID Ttt AlternatingMarks

/-- The squares of a row. -/
def row (i : Fin 3) : List Square := [(i, 0), (i, 1), (i, 2)]

/-- The squares of a column. -/
def column (k : Fin 3) : List Square := [(0, k), (1, k), (2, k)]

/-- The rows, the columns and the two diagonals. -/
def lines : List (List Square) :=
  (List.finRange 3).map row ++ (List.finRange 3).map column ++
    [[(0, 0), (1, 1), (2, 2)], [(0, 2), (1, 1), (2, 0)]]

/-- All squares of the line carry the same mark. -/
def Filled (board : Board) (line : List Square) : Prop :=
  ∃ status, status ≠ Status.idle ∧ ∀ square ∈ line, (board square).status = status

/-- Boards with the same marks have the same filled lines. -/
theorem filled_congr {board board' : Board} {line : List Square}
    (h : ∀ square, (board' square).status = (board square).status) :
    Filled board' line ↔ Filled board line := by
  simp only [Filled, h]

/-- The test made by one `checkLine`. -/
def Passes (board : Board) (probe a b c : Square) : Prop :=
  (board probe).status ≠ .idle ∧ (board a).status = (board b).status ∧
    (board b).status = (board c).status

/-- Three equal marks fill the line, whichever square of the pair is probed.
-/
theorem passes_iff_filled {board : Board} {probe a b c : Square}
    (h : probe = a ∨ probe = b) : Passes board probe a b c ↔ Filled board [a, b, c] := by
  constructor
  · rintro ⟨hp, hab, hbc⟩
    refine ⟨(board b).status, ?_, ?_⟩
    · rcases h with rfl | rfl
      · rwa [← hab]
      · exact hp
    · simp [hab, hbc]
  · rintro ⟨status, hs, hall⟩
    have ha := hall a (by simp)
    have hb := hall b (by simp)
    have hc := hall c (by simp)
    refine ⟨?_, ha.trans hb.symm, hb.trans hc.symm⟩
    rcases h with rfl | rfl
    · rwa [ha]
    · rwa [hb]

/-- One line test: the fields it leaves alone, the flags it sets and the
result it announces. -/
theorem checkLine_spec (probe a b c : Square) (t : Game) :
    (∀ square, ((t.checkLine probe a b c).board square).status = (t.board square).status ∧
      ((t.checkLine probe a b c).board square).id = (t.board square).id ∧
      (((t.checkLine probe a b c).board square).won = true ↔
        (t.board square).won = true ∨ (Passes t.board probe a b c ∧ square ∈ [a, b, c]))) ∧
    ((t.checkLine probe a b c).result = .won ↔ t.result = .won ∨ Passes t.board probe a b c) ∧
    (¬ Passes t.board probe a b c → (t.checkLine probe a b c).result = t.result) ∧
    t.checkLine probe a b c =
      { t with
        board := (t.checkLine probe a b c).board
        result := (t.checkLine probe a b c).result } := by
  by_cases h : Passes t.board probe a b c
  · have he : t.checkLine probe a b c =
        { t with board := markWon t.board a b c, result := .won } := if_pos h
    rw [he]
    refine ⟨?_, by simp [h], fun hn => absurd h hn, rfl⟩
    intro square
    simp only [markWon, List.mem_cons, List.not_mem_nil, or_false, h, true_and]
    split_ifs with hs <;> simp [hs]
  · have he : t.checkLine probe a b c = t := if_neg h
    rw [he]
    refine ⟨?_, by simp [h], fun _ => rfl, rfl⟩
    intro square
    simp [h]

/-- The four squares given to a line test. -/
abbrev Check := Square × Square × Square × Square

/-- The line test with its four squares packed. -/
def runCheck (t : Game) (check : Check) : Game :=
  t.checkLine check.1 check.2.1 check.2.2.1 check.2.2.2

/-- The eight tests in the order of `fetch_winner`. -/
def checks : List Check :=
  [((0, 0), (0, 0), (0, 1), (0, 2)), ((0, 0), (0, 0), (1, 0), (2, 0)),
    ((1, 0), (1, 0), (1, 1), (1, 2)), ((0, 1), (0, 1), (1, 1), (2, 1)),
    ((2, 0), (2, 0), (2, 1), (2, 2)), ((0, 2), (0, 2), (1, 2), (2, 2)),
    ((1, 1), (0, 0), (1, 1), (2, 2)), ((1, 1), (0, 2), (1, 1), (2, 0))]

/-- `fetchWinner` runs the checks one after another. -/
theorem fetchWinner_eq_foldl (t : Game) : t.fetchWinner = checks.foldl runCheck t := by
  have hrange : List.finRange 3 = [0, 1, 2] := by decide
  simp only [Game.fetchWinner, hrange, checks, List.foldl_cons, List.foldl_nil, runCheck,
    Game.checkRow, Game.checkColumn, Game.checkDiagonal, Game.checkAntidiagonal]

/-- The three squares of a test. -/
def Check.line (check : Check) : List Square := [check.2.1, check.2.2.1, check.2.2.2]

/-- The tests cover exactly the lines of the board. -/
theorem exists_check_iff (p : List Square → Prop) :
    (∃ check ∈ checks, p check.line) ↔ ∃ line ∈ lines, p line := by
  have hl : checks.map Check.line ⊆ lines := by decide
  have hr : lines ⊆ checks.map Check.line := by decide
  constructor
  · rintro ⟨check, hc, hp⟩
    exact ⟨check.line, hl (List.mem_map_of_mem hc), hp⟩
  · rintro ⟨line, hline, hp⟩
    obtain ⟨check, hc, rfl⟩ := List.mem_map.mp (hr hline)
    exact ⟨check, hc, hp⟩

/-- A check sets no marks. -/
theorem runCheck_status (t : Game) (check : Check) (square : Square) :
    ((runCheck t check).board square).status = (t.board square).status :=
  ((checkLine_spec _ _ _ _ t).1 square).1

/-- A run of tests: marks and ids stay, flags are the old ones and those of
the filled lines, and the result turns to a win at a filled line. -/
theorem foldl_runCheck_spec (cs : List Check) (hcs : ∀ check ∈ cs, check.1 ∈ check.line.take 2)
    (t : Game) :
    (∀ square, ((cs.foldl runCheck t).board square).status = (t.board square).status ∧
      ((cs.foldl runCheck t).board square).id = (t.board square).id ∧
      (((cs.foldl runCheck t).board square).won = true ↔ (t.board square).won = true ∨
        ∃ check ∈ cs, Filled t.board check.line ∧ square ∈ check.line)) ∧
    ((cs.foldl runCheck t).result = .won ↔
      t.result = .won ∨ ∃ check ∈ cs, Filled t.board check.line) ∧
    ((∀ check ∈ cs, ¬ Filled t.board check.line) → (cs.foldl runCheck t).result = t.result) ∧
    cs.foldl runCheck t =
      { t with
        board := (cs.foldl runCheck t).board
        result := (cs.foldl runCheck t).result } := by
  induction cs generalizing t with
  | nil => simp
  | cons check cs ih =>
    have hhead : Passes t.board check.1 check.2.1 check.2.2.1 check.2.2.2 ↔
        Filled t.board check.line :=
      passes_iff_filled (by simpa [Check.line] using hcs check List.mem_cons_self)
    obtain ⟨hb, hr, hn, he⟩ := checkLine_spec check.1 check.2.1 check.2.2.1 check.2.2.2 t
    obtain ⟨ihb, ihr, ihn, ihe⟩ :=
      ih (fun c hc => hcs c (List.mem_cons_of_mem _ hc)) (runCheck t check)
    have hfill : ∀ line, Filled (runCheck t check).board line ↔ Filled t.board line :=
      fun line => filled_congr (runCheck_status t check)
    simp only [List.foldl_cons, List.exists_mem_cons_iff, hfill] at ihb ihr ihn ⊢
    refine ⟨?_, ?_, ?_, ?_⟩
    · intro square
      obtain ⟨h1, h2, h3⟩ := ihb square
      obtain ⟨g1, g2, g3⟩ := hb square
      refine ⟨h1.trans g1, h2.trans g2, ?_⟩
      rw [h3]
      simp only [runCheck, g3, hhead, or_assoc]
      rfl
    · rw [ihr]
      simp only [runCheck, hr, hhead, or_assoc]
    · intro hall
      rw [List.forall_mem_cons] at hall
      rw [ihn hall.2]
      exact hn (fun hp => hall.1 (hhead.mp hp))
    · rw [ihe]
      simp only [runCheck]
      rw [he]

/-- The winner search marks exactly the squares on filled lines and
announces a win exactly when there is one; it changes nothing else. -/
theorem fetchWinner_spec (t : Game) :
    (∀ square, (t.fetchWinner.board square).status = (t.board square).status ∧
      (t.fetchWinner.board square).id = (t.board square).id ∧
      ((t.fetchWinner.board square).won = true ↔ (t.board square).won = true ∨
        ∃ line ∈ lines, Filled t.board line ∧ square ∈ line)) ∧
    (t.fetchWinner.result = .won ↔ t.result = .won ∨ ∃ line ∈ lines, Filled t.board line) ∧
    ((∀ line ∈ lines, ¬ Filled t.board line) → t.fetchWinner.result = t.result) ∧
    t.fetchWinner =
      { t with board := t.fetchWinner.board, result := t.fetchWinner.result } := by
  obtain ⟨hb, hr, hn, he⟩ := foldl_runCheck_spec checks (by decide) t
  rw [fetchWinner_eq_foldl]
  refine ⟨?_, ?_, ?_, he⟩
  · intro square
    rw [← exists_check_iff (fun line => Filled t.board line ∧ square ∈ line)]
    exact hb square
  · rw [← exists_check_iff (Filled t.board)]
    exact hr
  · intro hall
    apply hn
    intro check hc hf
    obtain ⟨line, hl, hfl⟩ := (exists_check_iff (Filled t.board)).mp ⟨check, hc, hf⟩
    exact hall line hl hfl

/-- The search for a line only ever wins the game. -/
theorem fetchWinner_result (t : Game) :
    t.fetchWinner.result = t.result ∨ t.fetchWinner.result = .won := by
  by_cases hline : ∃ line ∈ lines, Filled t.board line
  · exact Or.inr ((fetchWinner_spec t).2.1.mpr (Or.inr hline))
  · exact Or.inl ((fetchWinner_spec t).2.2.1 fun line hl hf => hline ⟨line, hl, hf⟩)

section Fields

variable (t : Game)

/-- Only the flags and the result change. -/
private theorem fetchWinner_eq :
    t.fetchWinner = { t with board := t.fetchWinner.board, result := t.fetchWinner.result } :=
  (fetchWinner_spec t).2.2.2

/-- The number stays. -/
@[simp] theorem fetchWinner_uid : t.fetchWinner.uid = t.uid := by rw [fetchWinner_eq t]

/-- The challenge message stays. -/
@[simp] theorem fetchWinner_origin : t.fetchWinner.origin = t.origin := by rw [fetchWinner_eq t]

/-- The game message stays. -/
@[simp] theorem fetchWinner_game : t.fetchWinner.game = t.game := by rw [fetchWinner_eq t]

/-- The turn stays. -/
@[simp] theorem fetchWinner_turn : t.fetchWinner.turn = t.turn := by rw [fetchWinner_eq t]

/-- The challenger stays. -/
@[simp] theorem fetchWinner_player1 : t.fetchWinner.player1 = t.player1 := by
  rw [fetchWinner_eq t]

/-- The challenged player stays. -/
@[simp] theorem fetchWinner_player2 : t.fetchWinner.player2 = t.player2 := by
  rw [fetchWinner_eq t]

/-- Whether the challenge message was stored stays. -/
@[simp] theorem fetchWinner_haveOrigin : t.fetchWinner.haveOrigin = t.haveOrigin := by
  rw [fetchWinner_eq t]

/-- The counter stays. -/
@[simp] theorem fetchWinner_turns : t.fetchWinner.turns = t.turns := by rw [fetchWinner_eq t]

/-- The marks stay. -/
@[simp] theorem fetchWinner_status (square : Square) :
    (t.fetchWinner.board square).status = (t.board square).status :=
  ((fetchWinner_spec t).1 square).1

/-- The ids of the squares stay. -/
@[simp] theorem fetchWinner_id (square : Square) :
    (t.fetchWinner.board square).id = (t.board square).id :=
  ((fetchWinner_spec t).1 square).2.1

end Fields

end TintempPlusPlus.BoardLaws
