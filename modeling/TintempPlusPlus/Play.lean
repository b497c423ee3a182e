import TintempPlusPlus.BoardLaws

/-!
# The game object as an alternating play

The abstract side is a list of squares without repetitions and the marks it
leaves. The faithful side is the game object with its separately updated
board, flags, turn, counter and result. A move on an idle square extends the
list by that square and keeps the two sides in step.
-/

namespace TintempPlusPlus.Play

open Discord UniqueID Ttt BoardLaws AlternatingMarks

/-- The status that stores a mark. -/
def statusOf : Option Side → Status
  | none => .idle
  | some .first => .x
  | some .second => .o

/-- Two sides have different marks. -/
theorem statusOf_inj {a b : Option Side} : statusOf a = statusOf b ↔ a = b := by
  rcases a with _ | _ | _ <;> rcases b with _ | _ | _ <;> simp [statusOf]

/-- A square is idle when no side holds it. -/
theorem statusOf_ne_idle {a : Option Side} : statusOf a ≠ .idle ↔ a ≠ none := by
  rcases a with _ | _ | _ <;> simp [statusOf]

/-- The player and mark of a side. -/
def sideTurn (t : Game) : Side → Snowflake × Status
  | .first => (t.player1, .x)
  | .second => (t.player2, .o)

/-- The turns of the sides are those of the two players. -/
theorem sideTurn_congr {t u : Game} (h1 : u.player1 = t.player1) (h2 : u.player2 = t.player2)
    (side : Side) : sideTurn u side = sideTurn t side := by
  cases side <;> simp [sideTurn, h1, h2]

/-- A side moves with its own mark. -/
theorem sideTurn_snd (t : Game) (side : Side) : (sideTurn t side).2 = statusOf (some side) := by
  cases side <;> rfl

/-- The game object stands for the play with these moves. -/
structure Represents (t : Game) (moves : List Square) : Prop where
  /-- No square is clicked successfully twice. -/
  nodup : moves.Nodup
  /-- The board carries the marks of the play. -/
  status : ∀ square, (t.board square).status = statusOf (mark moves square)
  /-- The counter counts the moves. -/
  turns : t.turns = moves.length
  /-- The game is won as soon as a line is complete. -/
  won_iff : t.result = .won ↔ ∃ line ∈ lines, Complete moves line
  /-- The game is drawn when the board is full without a complete line. -/
  draw_iff : t.result = .draw ↔ moves.length = 9 ∧ ∀ line ∈ lines, ¬ Complete moves line
  /-- No other result occurs. -/
  ongoing : t.result ≠ .won → t.result ≠ .draw → t.result = .inProgress
  /-- The flags mark the complete lines. -/
  flag : ∀ square, (t.board square).won = true ↔
    ∃ line ∈ lines, Complete moves line ∧ square ∈ line
  /-- The turn belongs to the side that moves next. -/
  turn : t.result ≠ .draw → t.turn = sideTurn t (sideAt moves.length)
  /-- A draw leaves the turn where the ninth move found it. -/
  drawTurn : t.result = .draw → t.turn = sideTurn t .first

/-- No line is empty. -/
theorem lines_ne_nil : ∀ line ∈ lines, line ≠ [] := by decide

/-- A filled line of the board is a complete line of the play. -/
theorem filled_iff_complete {board : Board} {moves : List Square}
    (h : ∀ square, (board square).status = statusOf (mark moves square))
    {line : List Square} (hl : line ∈ lines) : Filled board line ↔ Complete moves line := by
  constructor
  · rintro ⟨status, hs, hall⟩
    obtain ⟨first, hfirst⟩ := List.exists_mem_of_ne_nil line (lines_ne_nil line hl)
    have hm : mark moves first ≠ none := by
      rw [← statusOf_ne_idle, ← h first, hall first hfirst]
      exact hs
    obtain ⟨side, hside⟩ := Option.ne_none_iff_exists'.mp hm
    refine ⟨side, ?_⟩
    intro square hsq
    rw [← hside, ← statusOf_inj, ← h, ← h, hall _ hsq, hall _ hfirst]
  · rintro ⟨side, hall⟩
    refine ⟨statusOf (some side), statusOf_ne_idle.mpr (Option.some_ne_none side), ?_⟩
    intro square hsq
    rw [h, hall square hsq]

/-- The first moment of a game: idle squares, the challenger to move. -/
theorem represents_nil {t : Game} (hstatus : ∀ square, (t.board square).status = .idle)
    (hwon : ∀ square, (t.board square).won = false) (hturns : t.turns = 0)
    (hresult : t.result = .inProgress) (hturn : t.turn = (t.player1, .x)) :
    Represents t [] := by
  have hnone : ∀ line ∈ lines, ¬ Complete ([] : List Square) line := by
    rintro line hl ⟨side, hside⟩
    obtain ⟨first, hfirst⟩ := List.exists_mem_of_ne_nil line (lines_ne_nil line hl)
    simpa using hside first hfirst
  refine ⟨List.nodup_nil, by simpa [statusOf] using hstatus, hturns, ?_, ?_, ?_, ?_, ?_, ?_⟩
  · simpa [hresult] using hnone
  · simp [hresult]
  · exact fun _ _ => hresult
  · intro square
    simp only [hwon, Bool.false_eq_true, false_iff]
    rintro ⟨line, hl, hc, -⟩
    exact hnone line hl hc
  · intro _
    exact hturn
  · intro hd
    exact hturn

/-- A square carries a mark exactly when it was clicked. -/
theorem Represents.idle_iff {t : Game} {moves : List Square} (h : Represents t moves)
    (square : Square) : (t.board square).status = .idle ↔ square ∉ moves := by
  rw [h.status, ← mark_eq_none, ← statusOf_inj]
  rfl

/-- There is no idle square after nine moves. -/
theorem Represents.length_lt {t : Game} {moves : List Square} (h : Represents t moves)
    {square : Square} (hi : (t.board square).status = .idle) : moves.length < 9 := by
  have hle := length_le_card h.nodup
  have hcard : Fintype.card Square = 9 := by decide
  refine lt_of_le_of_ne (hcard ▸ hle) ?_
  intro hfull
  have hall := (all_taken_iff h.nodup).mpr (hfull.trans hcard.symm)
  exact (h.idle_iff square).mp hi (mark_ne_none.mp (hall square))

/-- A drawn game has no idle square. -/
theorem Represents.not_draw {t : Game} {moves : List Square} (h : Represents t moves)
    {square : Square} (hi : (t.board square).status = .idle) : t.result ≠ .draw := by
  intro hd
  have hlt := h.length_lt hi
  have hlen := (h.draw_iff.mp hd).1
  omega

/-- The ninth turn without a win is a draw, and the turn stays. -/
theorem swapTurn_draw {t : Game} (hn : 9 ≤ t.turns + 1) (hw : t.result ≠ .won) :
    t.swapTurn = { t with turns := t.turns + 1, result := .draw } := by
  simp only [Game.swapTurn]
  rw [if_pos ⟨hn, hw⟩]

/-- Every other turn passes to the opponent. -/
theorem swapTurn_pass {t : Game} (h : ¬ (9 ≤ t.turns + 1 ∧ t.result ≠ .won)) :
    t.swapTurn =
      { t with
        turns := t.turns + 1
        turn := (if t.turn.1 = t.player1 then t.player2 else t.player1,
          if t.turn.2 = .x then .o else .x) } := by
  simp only [Game.swapTurn]
  rw [if_neg h]

/-- The turn is passed to a player or stays. -/
theorem swapTurn_player (t : Game) : t.swapTurn.turn.1 = t.turn.1 ∨
    t.swapTurn.turn.1 = t.player1 ∨ t.swapTurn.turn.1 = t.player2 := by
  by_cases h : 9 ≤ t.turns + 1 ∧ t.result ≠ .won
  · rw [swapTurn_draw h.1 h.2]
    exact Or.inl rfl
  · rw [swapTurn_pass h]
    dsimp only
    split_ifs
    · exact Or.inr (Or.inr rfl)
    · exact Or.inr (Or.inl rfl)

/-- Passing the turn only ever draws the game. -/
theorem swapTurn_result (t : Game) : t.swapTurn.result = t.result ∨ t.swapTurn.result = .draw := by
  by_cases h : 9 ≤ t.turns + 1 ∧ t.result ≠ .won
  · rw [swapTurn_draw h.1 h.2]
    exact Or.inr rfl
  · rw [swapTurn_pass h]
    exact Or.inl rfl

/-- Passing the turn touches the turn, the counter and the result. -/
theorem swapTurn_eq (t : Game) : t.swapTurn =
    { t with turn := t.swapTurn.turn, turns := t.turns + 1, result := t.swapTurn.result } := by
  by_cases h : 9 ≤ t.turns + 1 ∧ t.result ≠ .won
  · rw [swapTurn_draw h.1 h.2]
  · rw [swapTurn_pass h]

section Fields

variable (t : Game)

/-- The number stays. -/
@[simp] theorem swapTurn_uid : t.swapTurn.uid = t.uid := by rw [swapTurn_eq t]

/-- The challenge message stays. -/
@[simp] theorem swapTurn_origin : t.swapTurn.origin = t.origin := by rw [swapTurn_eq t]

/-- The game message stays. -/
@[simp] theorem swapTurn_game : t.swapTurn.game = t.game := by rw [swapTurn_eq t]

/-- The challenger stays. -/
@[simp] theorem swapTurn_player1 : t.swapTurn.player1 = t.player1 := by rw [swapTurn_eq t]

/-- The challenged player stays. -/
@[simp] theorem swapTurn_player2 : t.swapTurn.player2 = t.player2 := by rw [swapTurn_eq t]

/-- Whether the challenge message was stored stays. -/
@[simp] theorem swapTurn_haveOrigin : t.swapTurn.haveOrigin = t.haveOrigin := by
  rw [swapTurn_eq t]

/-- The turn is counted. -/
@[simp] theorem swapTurn_turns : t.swapTurn.turns = t.turns + 1 := by rw [swapTurn_eq t]

/-- The board stays. -/
@[simp] theorem swapTurn_board : t.swapTurn.board = t.board := by rw [swapTurn_eq t]

end Fields

/-- The turn belongs to a player after the end of the board handler. -/
theorem pass_player {t : Game} (h : t.turn.1 = t.player1 ∨ t.turn.1 = t.player2) :
    t.fetchWinner.swapTurn.turn.1 = t.player1 ∨ t.fetchWinner.swapTurn.turn.1 = t.player2 := by
  have hs := swapTurn_player t.fetchWinner
  rw [fetchWinner_turn, fetchWinner_player1, fetchWinner_player2] at hs
  rcases hs with hs | hs
  · rwa [hs]
  · exact hs

/-- Passing the turn moves on to the other side. -/
theorem swap_sideTurn {t : Game} (hp : t.player1 ≠ t.player2) {n : ℕ}
    (ht : t.turn = sideTurn t (sideAt n)) :
    (if t.turn.1 = t.player1 then t.player2 else t.player1,
      if t.turn.2 = .x then Status.o else Status.x) = sideTurn t (sideAt (n + 1)) := by
  rw [ht]
  by_cases hn : n % 2 = 0
  · have h1 : sideAt n = .first := by simp [sideAt, hn]
    have h2 : sideAt (n + 1) = .second := by simp [sideAt]; omega
    simp [h1, h2, sideTurn]
  · have h1 : sideAt n = .second := by simp [sideAt, hn]
    have h2 : sideAt (n + 1) = .first := by simp [sideAt]; omega
    simp [h1, h2, sideTurn, hp.symm]

/-- The board after a status was set is the board of the extended play. -/
theorem Represents.setStatus {t : Game} {moves : List Square} (h : Represents t moves)
    {square : Square} (hi : (t.board square).status = .idle) (other : Square) :
    ((t.setStatus square t.turn.2).board other).status =
      statusOf (mark (moves ++ [square]) other) := by
  have hnew := (h.idle_iff square).mp hi
  by_cases ho : other = square
  · subst ho
    rw [mark_concat_self hnew, ← sideTurn_snd t, ← h.turn (h.not_draw hi)]
    simp [Game.setStatus]
  · rw [mark_concat_of_ne ho, ← h.status]
    simp [Game.setStatus, Function.update_of_ne ho]

/-- Setting a status flags nothing. -/
theorem setStatus_won (t : Game) (square other : Square) (status : Status) :
    ((t.setStatus square status).board other).won = (t.board other).won := by
  by_cases ho : other = square
  · subst ho
    simp [Game.setStatus]
  · simp [Game.setStatus, Function.update_of_ne ho]

/-- Setting a status keeps the ids. -/
theorem setStatus_id (t : Game) (square other : Square) (status : Status) :
    ((t.setStatus square status).board other).id = (t.board other).id := by
  by_cases ho : other = square
  · subst ho
    simp [Game.setStatus]
  · simp [Game.setStatus, Function.update_of_ne ho]

/-- One accepted move: mark, winner search, turn. -/
def Game.move (t : Game) (square : Square) : Game :=
  (t.setStatus square t.turn.2).fetchWinner.swapTurn

/-- Every move counts. -/
@[simp] theorem move_turns (t : Game) (square : Square) :
    (Game.move t square).turns = t.turns + 1 := by
  simp [Game.move, Game.setStatus]

/-- The turn belongs to a player after a move. -/
theorem move_player {t : Game} (h : t.turn.1 = t.player1 ∨ t.turn.1 = t.player2)
    (square : Square) :
    (Game.move t square).turn.1 = t.player1 ∨ (Game.move t square).turn.1 = t.player2 := by
  have hset : (t.setStatus square t.turn.2).turn.1 = (t.setStatus square t.turn.2).player1 ∨
      (t.setStatus square t.turn.2).turn.1 = (t.setStatus square t.turn.2).player2 := h
  unfold Game.move
  exact pass_player hset

/-- A game between the search for a winner and the passing of the turn: the
last move is on the board, and the turn is still with the side that made
it. -/
structure Searched (u : Game) (moves : List Square) : Prop where
  /-- No square is clicked successfully twice. -/
  nodup : moves.Nodup
  /-- The board carries the marks of the play. -/
  status : ∀ square, (u.board square).status = statusOf (mark moves square)
  /-- The last move has not been counted. -/
  turns : u.turns + 1 = moves.length
  /-- The game is won as soon as a line is complete. -/
  won_iff : u.result = .won ↔ ∃ line ∈ lines, Complete moves line
  /-- The game has not been drawn. -/
  ongoing : u.result ≠ .won → u.result = .inProgress
  /-- The flags mark the complete lines. -/
  flag : ∀ square, (u.board square).won = true ↔
    ∃ line ∈ lines, Complete moves line ∧ square ∈ line
  /-- Two players play. -/
  versus : u.player1 ≠ u.player2
  /-- The turn belongs to the side that has moved. -/
  turn : u.turn = sideTurn u (sideAt u.turns)

/-- The search after a move on an idle square. -/
theorem Represents.search {t : Game} {moves : List Square} (h : Represents t moves)
    (hp : t.player1 ≠ t.player2) {square : Square} (hi : (t.board square).status = .idle) :
    Searched (t.setStatus square t.turn.2).fetchWinner (moves ++ [square]) := by
  have hnew := (h.idle_iff square).mp hi
  have hstatus := h.setStatus hi
  obtain ⟨hb, hr, hn, -⟩ := fetchWinner_spec (t.setStatus square t.turn.2)
  have hfill : ∀ line ∈ lines, Filled (t.setStatus square t.turn.2).board line ↔
      Complete (moves ++ [square]) line := fun line hl => filled_iff_complete hstatus hl
  have hmono : ∀ line, Complete moves line → Complete (moves ++ [square]) line :=
    fun line hc => hc.concat hnew
  have hturns : (t.setStatus square t.turn.2).fetchWinner.turns = moves.length :=
    (fetchWinner_turns _).trans h.turns
  refine ⟨?_, fun other => (hb other).1.trans (hstatus other), ?_, ?_, ?_, ?_, ?_, ?_⟩
  · exact h.nodup.append (List.nodup_singleton _) (List.disjoint_singleton.mpr hnew)
  · rw [hturns, List.length_append, List.length_singleton]
  · rw [hr]
    constructor
    · rintro (hw | ⟨line, hl, hf⟩)
      · obtain ⟨line, hl, hc⟩ := h.won_iff.mp hw
        exact ⟨line, hl, hmono line hc⟩
      · exact ⟨line, hl, (hfill line hl).mp hf⟩
    · rintro ⟨line, hl, hc⟩
      exact Or.inr ⟨line, hl, (hfill line hl).mpr hc⟩
  · intro hw
    have hnone : ∀ line ∈ lines, ¬ Filled (t.setStatus square t.turn.2).board line :=
      fun line hl hf => hw (hr.mpr (Or.inr ⟨line, hl, hf⟩))
    rw [hn hnone]
    refine h.ongoing ?_ (h.not_draw hi)
    exact fun hw' => hw (hr.mpr (Or.inl hw'))
  · intro other
    rw [(hb other).2.2, setStatus_won, h.flag other]
    constructor
    · rintro (⟨line, hl, hc, ho⟩ | ⟨line, hl, hf, ho⟩)
      · exact ⟨line, hl, hmono line hc, ho⟩
      · exact ⟨line, hl, (hfill line hl).mp hf, ho⟩
    · rintro ⟨line, hl, hc, ho⟩
      exact Or.inr ⟨line, hl, (hfill line hl).mpr hc, ho⟩
  · rw [fetchWinner_player1, fetchWinner_player2]
    exact hp
  · rw [hturns, fetchWinner_turn, sideTurn_congr (fetchWinner_player1 _) (fetchWinner_player2 _)]
    exact h.turn (h.not_draw hi)

/-- The ninth move without a line draws the game and leaves the turn with the
side that moved. -/
theorem Searched.draw {u : Game} {moves : List Square} (h : Searched u moves)
    (hd : 9 ≤ u.turns + 1 ∧ u.result ≠ .won) : Represents u.swapTurn moves := by
  have hnone : ¬ ∃ line ∈ lines, Complete moves line := fun hc => hd.2 (h.won_iff.mpr hc)
  have hle := length_le_card h.nodup
  have hcard : Fintype.card Square = 9 := by decide
  have hturns := h.turns
  have hlen : moves.length = 9 := by omega
  have height : u.turns = 8 := by omega
  rw [swapTurn_draw hd.1 hd.2]
  refine ⟨h.nodup, h.status, h.turns, ?_, ?_, ?_, h.flag, ?_, ?_⟩
  · simpa using hnone
  · simpa [hlen] using hnone
  · intro _ hne
    exact absurd rfl hne
  · intro hne
    exact absurd rfl hne
  · intro _
    have hturn := h.turn
    rw [height] at hturn
    exact hturn

/-- Every other move passes the turn on. -/
theorem Searched.pass {u : Game} {moves : List Square} (h : Searched u moves)
    (hd : ¬ (9 ≤ u.turns + 1 ∧ u.result ≠ .won)) : Represents u.swapTurn moves := by
  have hdraw : u.result ≠ .draw := by
    intro hdraw
    have hgo := h.ongoing (by rw [hdraw]; decide)
    rw [hdraw] at hgo
    cases hgo
  rw [swapTurn_pass hd]
  refine ⟨h.nodup, h.status, h.turns, h.won_iff, ?_, ?_, h.flag, ?_, ?_⟩
  · constructor
    · exact fun hresult => absurd hresult hdraw
    · rintro ⟨hlen, hnone⟩
      have hw : u.result ≠ .won := by
        intro hw
        obtain ⟨line, hl, hc⟩ := h.won_iff.mp hw
        exact hnone line hl hc
      have hturns := h.turns
      exact absurd ⟨by omega, hw⟩ hd
  · exact fun hw _ => h.ongoing hw
  · intro _
    rw [← h.turns]
    exact swap_sideTurn h.versus h.turn
  · exact fun hresult => absurd hresult hdraw

/-- An accepted move on an idle square extends the play by that square. -/
theorem Represents.move {t : Game} {moves : List Square} (h : Represents t moves)
    (hp : t.player1 ≠ t.player2) {square : Square} (hi : (t.board square).status = .idle) :
    Represents (Game.move t square) (moves ++ [square]) := by
  have hsearch := h.search hp hi
  unfold Game.move
  by_cases hd : 9 ≤ (t.setStatus square t.turn.2).fetchWinner.turns + 1 ∧
      (t.setStatus square t.turn.2).fetchWinner.result ≠ .won
  · exact hsearch.draw hd
  · exact hsearch.pass hd

end TintempPlusPlus.Play
