import TintempPlusPlus.TurnDiscipline

/-!
# Results

The result of a started game is what the board says: won with a line of one
mark, drawn when full without a line, in progress otherwise. The won flags
mark exactly the lines, and the click that wins is made by their owner.
-/

namespace TintempPlusPlus.Outcome

open Discord UniqueID Ttt Handlers ScanLoop BoardLaws AlternatingMarks Play HandlerLaws Program
  OneEntry EventRuns Invariant Steps Reachable Views Lives TurnDiscipline

/-- Some line of the board is filled with one mark. -/
def HasLine (board : Board) : Prop := ∃ line ∈ lines, Filled board line

/-- No square is idle. -/
def Full (board : Board) : Prop := ∀ square, (board square).status ≠ .idle

/-- The result and the flags are those of the board. -/
structure ExactOutcome (t : Game) : Prop where
  /-- Won with a line. -/
  won : t.result = .won ↔ HasLine t.board
  /-- Drawn when full without a line. -/
  draw : t.result = .draw ↔ Full t.board ∧ ¬ HasLine t.board
  /-- In progress otherwise. -/
  inProgress : t.result = .inProgress ↔ ¬ Full t.board ∧ ¬ HasLine t.board
  /-- The flags mark the lines. -/
  flag : ∀ square, (t.board square).won = true ↔
    ∃ line ∈ lines, Filled t.board line ∧ square ∈ line

/-- The mark of a user in a game. -/
def OwnMark (t : Game) (user : Snowflake) (status : Status) : Prop :=
  user = t.player1 ∧ status = .x ∨ user = t.player2 ∧ status = .o

variable {node : ℕ} {w : World}

/-- The board has a line when the moves complete one. -/
theorem hasLine_iff {t : Game} {moves : List Square} (h : Represents t moves) :
    HasLine t.board ↔ ∃ line ∈ lines, Complete moves line := by
  refine exists_congr fun line => and_congr_right fun hl => ?_
  exact filled_iff_complete h.status hl

/-- The board is full after nine moves. -/
theorem full_iff {t : Game} {moves : List Square} (h : Represents t moves) :
    Full t.board ↔ moves.length = 9 := by
  have hcard : Fintype.card Square = 9 := by decide
  rw [← hcard, ← all_taken_iff h.nodup]
  refine forall_congr' fun square => ?_
  rw [h.status, statusOf_ne_idle]

/-- A game in step with its moves has the result of its board. -/
theorem exactOutcome_of_represents {t : Game} {moves : List Square} (h : Represents t moves) :
    ExactOutcome t := by
  have hwon : t.result = .won ↔ HasLine t.board := by
    rw [hasLine_iff h]
    exact h.won_iff
  have hdraw : t.result = .draw ↔ Full t.board ∧ ¬ HasLine t.board := by
    rw [hasLine_iff h, full_iff h, h.draw_iff]
    simp only [not_exists, not_and]
  refine ⟨hwon, hdraw, ?_, ?_⟩
  · constructor
    · intro hp
      have hnl : ¬ HasLine t.board := fun hl => by
        rw [hwon.mpr hl] at hp
        cases hp
      refine ⟨fun hf => ?_, hnl⟩
      rw [hdraw.mpr ⟨hf, hnl⟩] at hp
      cases hp
    · rintro ⟨hf, hnl⟩
      exact h.ongoing (fun hw => hnl (hwon.mp hw)) (fun hd => hf (hdraw.mp hd).1)
  · intro square
    rw [h.flag]
    refine exists_congr fun line => and_congr_right fun hl => and_congr_left fun _ => ?_
    exact (filled_iff_complete h.status hl).symm

/-- The confirm handler makes no moves. -/
theorem movesOf_confirm {click : Click} {u v : View} (h : Touch w node (.confirm click) u v) :
    movesOf v.trace = movesOf u.trace := by
  cases h <;> simp [movesOf, placedSquare]

/-- The board handler makes one move at most. -/
theorem movesOf_board {click : Click} {u v : View} (h : Touch w node (.board click) u v) :
    movesOf v.trace = movesOf u.trace ∨ ∃ square status,
      movesOf v.trace = movesOf u.trace ++ [square] ∧
        .placed node click square status ∈ v.trace := by
  cases h with
  | @played click square pre s post pending trace =>
    exact Or.inr ⟨square, s.ttt.turn.2, by simp [movesOf, placedSquare, moveEffects], by simp⟩
  | strayed => exact Or.inl (by simp [movesOf, placedSquare, moveEffects])

/-- The moves recorded by one click are the moves before it, or those and one
more square that the click marked. -/
theorem movesOf_click (events : List Event) (click : Click) (node : ℕ) :
    movesOf (effectsOf node (run (events ++ [.click click])).trace) =
        movesOf (effectsOf node (run events).trace) ∨
      ∃ square status, movesOf (effectsOf node (run (events ++ [.click click])).trace) =
          movesOf (effectsOf node (run events).trace) ++ [square] ∧
        .placed node click square status ∈
          effectsOf node (run (events ++ [.click click])).trace := by
  have hi := inv_run events
  have hi' : Inv ((run events).confirmClick click) := change_inv hi (confirm_change hi click)
  have hconfirm : movesOf (view ((run events).confirmClick click) node).trace =
      movesOf (view (run events) node).trace := by
    rcases change_view hi (confirm_change hi click) node with hsame | ht
    · rw [hsame]
    · exact movesOf_confirm ht
  rw [run_click]
  rcases change_view hi' (board_change hi' click) node with hsame | ht
  · refine Or.inl ?_
    rw [← hsame] at hconfirm
    exact hconfirm
  · have hboard := movesOf_board ht
    rw [hconfirm] at hboard
    exact hboard

/-- The mark of a side is the mark of its player. -/
theorem ownMark_of_side {t : Game} {user : Snowflake} {status : Status} {side : Side}
    (h : (user, status) = sideTurn t side) : OwnMark t user (statusOf (some side)) := by
  cases side with
  | first => exact Or.inl ⟨(Prod.mk.inj h).1, rfl⟩
  | second => exact Or.inr ⟨(Prod.mk.inj h).1, rfl⟩

/-- The click that wins a game completes a line of its user's marks. -/
theorem winner_owns_line {events : List Event} {click : Click}
    (h : Along World.step (OnlyBoardIds node) World.init (events ++ [.click click]))
    {s t : Session} (ht : t ∈ (run events).tttListG) (htn : t.node = node)
    (hs : s ∈ (run (events ++ [.click click])).tttListG) (hsn : s.node = node)
    (hbefore : t.ttt.result ≠ .won) (hwon : s.ttt.result = .won) {square : Square}
    (hflag : (s.ttt.board square).won = true) :
    OwnMark s.ttt click.user (s.ttt.board square).status := by
  have hpt := played_run h.front ht htn
  have hps := played_run h hs hsn
  have hstarted : .initGame node ∈ effectsOf node (run (events ++ [.click click])).trace := by
    by_contra hn
    have hl := listed_reached (reached_run (events ++ [.click click])) hs
    rw [hsn] at hl
    rw [(hl.untouched hn).result] at hwon
    cases hwon
  have hreps := hps.represents hstarted
  have hnotyet : ∀ line ∈ lines, ¬ Complete (movesOf (effectsOf node (run events).trace)) line := by
    intro line hl hc
    by_cases hn : .initGame node ∈ effectsOf node (run events).trace
    · exact hbefore ((hpt.represents hn).won_iff.mpr ⟨line, hl, hc⟩)
    · rw [hpt.before hn] at hc
      obtain ⟨side, hside⟩ := hc
      obtain ⟨first, hfirst⟩ := List.exists_mem_of_ne_nil line (lines_ne_nil line hl)
      simpa using hside first hfirst
  obtain ⟨line, hline, hcomplete, hmem⟩ := (hreps.flag square).mp hflag
  rcases movesOf_click events click node with hsame | ⟨last, status, hmoves, hplaced⟩
  · rw [hsame] at hcomplete
    exact absurd hcomplete (hnotyet line hline)
  · rw [hmoves] at hcomplete
    have hnodup := hreps.nodup
    rw [hmoves] at hnodup
    have hnew : last ∉ movesOf (effectsOf node (run events).trace) :=
      fun hm => List.disjoint_of_nodup_append hnodup hm (by simp)
    have hmover := complete_by_mover hnew (hnotyet line hline) hcomplete
    obtain ⟨side, hside, howner⟩ := hps.owner click last status hplaced
    rw [hmoves, mark_concat_self hnew] at hside
    rw [hreps.status, hmoves, hmover square hmem, hside]
    exact ownMark_of_side howner

/-- In every run in which the clicks on the session's game message carry ids
of its board, the started session has the result and the flags of its board,
and if the last click of the run wins the game, every won square carries the
mark of its user. -/
theorem exactOutcome_run {events : List Event}
    (h : Along World.step (OnlyBoardIds node) World.init events) {s : Session}
    (hs : s ∈ (run events).tttListG) (hn : s.node = node)
    (hi : .initGame node ∈ (run events).trace) :
    ExactOutcome s.ttt ∧ ∀ before click, events = before ++ [.click click] →
      ∀ t ∈ (run before).tttListG, t.node = node → t.ttt.result = .inProgress →
        s.ttt.result = .won → ∀ square, (s.ttt.board square).won = true →
          OwnMark s.ttt click.user (s.ttt.board square).status := by
  refine ⟨?_, ?_⟩
  · have hp := played_run h hs hn
    exact exactOutcome_of_represents (hp.represents (mem_effectsOf.mpr ⟨hi, rfl⟩))
  · rintro before click rfl t ht htn hprogress hwon square hflag
    refine winner_owns_line h ht htn hs hn ?_ hwon hflag
    rw [hprogress]
    exact fun he => by cases he

/-- The outcome of the game in which user 11 takes the top row. The last click
wins it. -/
theorem exactOutcome_topRow : ∃ s ∈ (run topRow).tttListG,
    s.ttt.result = .won ∧ (s.ttt.board (0, 1)).won = true ∧ ExactOutcome s.ttt ∧
      ∀ square, (s.ttt.board square).won = true →
        OwnMark s.ttt 11 (s.ttt.board square).status := by
  have hbefore : ∃ t ∈ (run topRow.dropLast).tttListG,
      t.node = 0 ∧ t.ttt.result = .inProgress := by decide
  have hwins : ∃ s ∈ (run topRow).tttListG,
      s.node = 0 ∧ s.ttt.result = .won ∧ (s.ttt.board (0, 1)).won = true := by decide
  have hclicks : Along World.step (OnlyBoardIds 0) World.init topRow := by decide
  obtain ⟨t, ht, htn, hgoing⟩ := hbefore
  obtain ⟨s, hs, hn, hwon, hflag⟩ := hwins
  obtain ⟨hexact, hline⟩ := exactOutcome_run hclicks hs hn (by decide)
  exact ⟨s, hs, hwon, hflag, hexact,
    hline topRow.dropLast (clickBy 11 101 "p_002_6") rfl t ht htn hgoing hwon⟩

end TintempPlusPlus.Outcome
