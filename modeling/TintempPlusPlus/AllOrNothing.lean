import TintempPlusPlus.StartedGames

/-!
# A click fills a square or does nothing

The board handler passes the turn whenever no taken square was found, which
is also the case when the custom id belongs to no square. Nor does it look at
the result: in a game that is a draw already, a mark that fills no line counts
a turn and leaves it where it is. All other clicks fill a square and pass the
turn, or change nothing, and these are exactly the clicks that keep the law.
-/

namespace TintempPlusPlus.AllOrNothing

open Discord UniqueID Ttt Handlers ScanLoop BoardLaws Play HandlerLaws Program OneEntry EventRuns
  Invariant Steps Reachable Views Lives Frozen StartedGames

/-- The click fills one square of the game. -/
structure Fills (click : Click) (square : Square) (t u : Game) : Prop where
  /-- The square was free. -/
  idle : (t.board square).status = .idle
  /-- It carries the mark of the current turn. -/
  filled : (u.board square).status = t.turn.2
  /-- The current turn has a mark. -/
  mark : t.turn.2 ≠ .idle
  /-- No other square changes. -/
  others : ∀ other, other ≠ square → (u.board other).status = (t.board other).status
  /-- The clicker is the current player. -/
  user : click.user = t.turn.1
  /-- The custom id is the id of the square. -/
  addressed : click.customId = (t.board square).id
  /-- The counter grows by one. -/
  turns : u.turns = t.turns + 1
  /-- The turn passes to the other player, or the game becomes a draw. -/
  passed : (t.result ≠ .draw ∧ u.result = .draw) ∨ Passed t u

/-- What an event may do to a started session. -/
structure WholeStep (w : World) (e : Event) (s : Session) : Prop where
  /-- A click on the game message fills one square or leaves the session. -/
  whole : ∀ click, e = .click click → click.messageId = s.ttt.game.id →
    ∃ s' ∈ (w.step e).tttListG, s'.node = s.node ∧
      (s' = s ∨ ∃ square, Fills click square s.ttt s'.ttt)
  /-- Counter, turn and result change only when a square is filled. -/
  advance : ∀ s' ∈ (w.step e).tttListG, s'.node = s.node →
    (s'.ttt.turns ≠ s.ttt.turns ∨ s'.ttt.turn ≠ s.ttt.turn ∨ s'.ttt.result ≠ s.ttt.result) →
    ∃ square, (s.ttt.board square).status = .idle ∧ (s'.ttt.board square).status ≠ .idle

/-- The mark of the current turn on this square fills a line. -/
def Completes (t : Game) (square : Square) : Prop :=
  ∃ line ∈ lines, Filled (t.setStatus square t.turn.2).board line

/-- A click on the game message by the user who has the turn carries the id
of a square. If the game is a draw already and the square is free, the mark
fills a line. -/
def PressesSquare : Event → Session → Prop
  | .click click, s => click.messageId = s.ttt.game.id → click.user = s.ttt.turn.1 →
    ∃ square, click.customId = (s.ttt.board square).id ∧
      (s.ttt.result = .draw → (s.ttt.board square).status = .idle → Completes s.ttt square)
  | _, _ => True

variable {w : World} {s : Session} {click : Click}

/-- A move sets the status of its own square only. -/
theorem move_board_status (t : Game) (square other : Square) :
    ((Game.move t square).board other).status =
      if other = square then t.turn.2 else (t.board other).status := by
  unfold Game.move
  rw [swapTurn_board, fetchWinner_status]
  by_cases h : other = square
  · simp [Game.setStatus, h]
  · simp [Game.setStatus, h]

/-- A mark that fills a line passes the turn. -/
theorem passed_of_completes {t : Game} {square : Square} (hp : t.player1 ≠ t.player2)
    (ht : t.turn.1 = t.player1 ∨ t.turn.1 = t.player2) (h : Completes t square) :
    Passed t (Game.move t square) := by
  refine (move_passed hp ht square).resolve_left fun hdraw => ?_
  have hwon : (t.setStatus square t.turn.2).fetchWinner.result = .won :=
    (fetchWinner_spec _).2.1.mpr (Or.inr h)
  have hresult : (Game.move t square).result = .won := by
    unfold Game.move
    generalize (t.setStatus square t.turn.2).fetchWinner = u at hwon
    rw [swapTurn_pass fun hd => hd.2 hwon]
    exact hwon
  rw [hresult] at hdraw
  cases hdraw

/-- In a drawn game a mark that fills no line leaves the turn where it is. -/
theorem turn_of_drawn {t : Game} {square : Square} (h : Sound t) (hd : t.result = .draw)
    (hno : ¬ Completes t square) : (Game.move t square).turn = t.turn := by
  have hdraw : (t.setStatus square t.turn.2).fetchWinner.result = .draw :=
    ((fetchWinner_spec _).2.2.1 fun line hl hf => hno ⟨line, hl, hf⟩).trans hd
  have hlate : 9 ≤ (t.setStatus square t.turn.2).fetchWinner.turns + 1 := by
    rw [fetchWinner_turns]
    exact (h.drawn hd).trans (Nat.le_succ _)
  have hnot : (t.setStatus square t.turn.2).fetchWinner.result ≠ .won := by
    rw [hdraw]
    decide
  have hturn : (t.setStatus square t.turn.2).fetchWinner.turn = t.turn := fetchWinner_turn _
  unfold Game.move
  generalize (t.setStatus square t.turn.2).fetchWinner = u at hlate hnot hturn
  rw [swapTurn_draw hlate hnot]
  exact hturn

/-- A move fills its square, unless the game is a draw and stays one. -/
theorem fills_move {square : Square} (hs : SessionInv w s) (hstarted : Started w.nextID s)
    (hsound : Sound s.ttt) (hu : click.user = s.ttt.turn.1)
    (hsq : click.customId = (s.ttt.board square).id)
    (hidle : (s.ttt.board square).status = .idle)
    (hline : s.ttt.result = .draw → Completes s.ttt square) :
    Fills click square s.ttt (Game.move s.ttt square) := by
  have hpassed : (s.ttt.result ≠ .draw ∧ (Game.move s.ttt square).result = .draw) ∨
      Passed s.ttt (Game.move s.ttt square) := by
    by_cases hd : s.ttt.result = .draw
    · exact Or.inr (passed_of_completes hs.versus hstarted.turn (hline hd))
    · exact (move_passed hs.versus hstarted.turn square).imp_left fun hdraw => ⟨hd, hdraw⟩
  refine ⟨hidle, ?_, hsound.mark, ?_, hu, hsq, move_turns _ _, hpassed⟩
  · rw [move_board_status, if_pos rfl]
  · intro other ho
    rw [move_board_status, if_neg ho]

/-- A click that presses a square as it should, or is not made by the user who
has the turn, keeps the law. -/
theorem wholeStep_click (hw : Reached w) (hs : s ∈ w.tttListG)
    (hi : .initGame s.node ∈ w.trace) (hc : PressesSquare (.click click) s) :
    WholeStep w (.click click) s := by
  have hstarted := started_of_trace hw hs hi
  have hsound := sound_reached hw hs hi
  have hw' := reached_part hw (.confirm click)
  have hkept := confirmClick_keeps hw.inv click hs hstarted
  have hafter := (reached_part hw' (.board click)).inv
  have hcases : ∃ s' ∈ (w.step (.click click)).tttListG, s'.node = s.node ∧
      (s' = s ∨ ∃ square, Fills click square s.ttt s'.ttt) := by
    rcases boardClick_started hw'.inv click hkept with hsame | ⟨hm, hu, hmove | ⟨hno, -⟩⟩
    · exact ⟨s, hsame, rfl, Or.inl rfl⟩
    · obtain ⟨square, hsq, hidle, hmem⟩ := hmove
      refine ⟨_, hmem, rfl, Or.inr ⟨square, ?_⟩⟩
      dsimp only
      obtain ⟨pressed, hpressed, hline⟩ := hc hm hu
      rw [hstarted.ids.distinctIds pressed square (hpressed.symm.trans hsq)] at hline
      exact fills_move (hw.inv.sessions s hs) hstarted hsound hu hsq hidle fun hd => hline hd hidle
    · obtain ⟨square, hsq, -⟩ := hc hm hu
      exact absurd hsq (hno square)
  refine ⟨?_, ?_⟩
  · rintro other ⟨⟩ -
    exact hcases
  · intro s' hs' hn hchange
    obtain ⟨u, hu, hun, hfill⟩ := hcases
    rw [node_inj hafter hs' hu (hn.trans hun.symm)] at hchange ⊢
    rcases hfill with rfl | ⟨square, hf⟩
    · simp at hchange
    · exact ⟨square, hf.idle, hf.filled ▸ hf.mark⟩

/-- A click by the user who has the turn that carries no id of a square
passes the turn without filling one. -/
theorem not_wholeStep (hw : Reached w) (hs : s ∈ w.tttListG) (hi : .initGame s.node ∈ w.trace)
    (hm : click.messageId = s.ttt.game.id) (hu : click.user = s.ttt.turn.1)
    (hno : ∀ square, click.customId ≠ (s.ttt.board square).id) :
    ¬ WholeStep w (.click click) s := by
  intro hwhole
  have hstarted := started_of_trace hw hs hi
  have hw' : Reached (w.confirmClick click) := reached_part hw (.confirm click)
  have hkept := confirmClick_keeps hw.inv click hs hstarted
  obtain ⟨pre, post, hl⟩ := List.mem_iff_append.mp hkept
  have hturn : Turn (w.confirmClick click) click pre s post :=
    ⟨hl, hm, hu, started_of_trace hw' hkept (List.mem_append_left _ hi)⟩
  have hmem : { s with ttt := s.ttt.fetchWinner.swapTurn } ∈
      (w.step (.click click)).tttListG := by
    simp only [World.step]
    rw [boardClick_strayed hw'.inv hturn hno]
    exact List.mem_append_cons_self
  obtain ⟨square, hidle, hfilled⟩ := hwhole.advance _ hmem rfl (Or.inl (by simp))
  simp [hidle] at hfilled

/-- In a game that is a draw, a mark that fills no line counts a turn and
passes none. -/
theorem not_wholeStep_drawn {square : Square} (hw : Reached w) (hs : s ∈ w.tttListG)
    (hi : .initGame s.node ∈ w.trace) (hm : click.messageId = s.ttt.game.id)
    (hu : click.user = s.ttt.turn.1) (hsq : click.customId = (s.ttt.board square).id)
    (hidle : (s.ttt.board square).status = .idle) (hd : s.ttt.result = .draw)
    (hno : ¬ Completes s.ttt square) : ¬ WholeStep w (.click click) s := by
  intro hwhole
  have hstarted := started_of_trace hw hs hi
  have hw' : Reached (w.confirmClick click) := reached_part hw (.confirm click)
  have hafter : Inv (w.step (.click click)) := (reached_part hw' (.board click)).inv
  have hkept := confirmClick_keeps hw.inv click hs hstarted
  obtain ⟨pre, post, hl⟩ := List.mem_iff_append.mp hkept
  have hturn : Turn (w.confirmClick click) click pre s post :=
    ⟨hl, hm, hu, started_of_trace hw' hkept (List.mem_append_left _ hi)⟩
  have hmem : { s with ttt := Game.move s.ttt square } ∈ (w.step (.click click)).tttListG := by
    simp only [World.step]
    rw [boardClick_played hw'.inv hturn hsq hidle]
    exact List.mem_append_cons_self
  have hturns : (Game.move s.ttt square).turns = s.ttt.turns + 1 := move_turns _ _
  have hstays := turn_of_drawn (sound_reached hw hs hi) hd hno
  obtain ⟨s', hs', hn, hcase⟩ := hwhole.whole click rfl hm
  generalize Game.move s.ttt square = u at hmem hturns hstays
  rw [node_inj hafter hs' hmem hn] at hcase
  rcases hcase with hsame | ⟨other, hfills⟩
  · have hcount : u.turns = s.ttt.turns := congrArg (fun t : Session => t.ttt.turns) hsame
    omega
  · rcases hfills.passed with ⟨hnot, -⟩ | hpassed
    · exact hnot hd
    · exact hpassed.player (congrArg Prod.fst hstays)

/-- An event fills a square of a started game and passes the turn or ends the
game in a draw, or it leaves the session as it is, if and only if it is no
click on the game message by the user who has the turn with an id of no
square, or on a free square of a drawn game where the mark fills no line. -/
theorem wholeStep_iff (events : List Event) (e : Event) (hs : s ∈ (run events).tttListG)
    (hi : .initGame s.node ∈ (run events).trace) :
    WholeStep (run events) e s ↔ PressesSquare e s := by
  have hw := reached_run events
  constructor
  · intro hwhole
    cases e with
    | click click =>
      intro hm hu
      by_cases hsq : ∃ square, click.customId = (s.ttt.board square).id
      · obtain ⟨square, hsq⟩ := hsq
        refine ⟨square, hsq, fun hd hidle => ?_⟩
        by_contra hno
        exact not_wholeStep_drawn hw hs hi hm hu hsq hidle hd hno hwhole
      · exact absurd hwhole (not_wholeStep hw hs hi hm hu (not_exists.mp hsq))
    | command => trivial
    | callback => trivial
  · intro hc
    by_cases hclick : ∃ click, e = .click click
    · obtain ⟨click, rfl⟩ := hclick
      exact wholeStep_click hw hs hi hc
    · have hother := not_exists.mp hclick
      refine ⟨fun click he => absurd he (hother click), fun s' hs' hn hchange => ?_⟩
      have hsame := samePlay_other hw hother hs hs' hn
      simp [hsame.turns, hsame.turn, hsame.result] at hchange

/-- The third mark fills its square and passes the turn. -/
theorem wholeStep_twoMarks : ∃ s ∈ (run twoMarks).tttListG, s.ttt.turns = 2 ∧
    WholeStep (run twoMarks) (.click (clickBy 11 101 "p_001_5")) s := by
  have hmem : ("p_001_5", Result.inProgress, 2) ∈ (run twoMarks).tttListG.map
      fun s => ((s.ttt.board (0, 1)).id, s.ttt.result, s.ttt.turns) := by decide
  have hstarted : ∀ node ∈ (run twoMarks).tttListG.map Session.node,
      .initGame node ∈ (run twoMarks).trace := by decide
  obtain ⟨s, hs, hplay⟩ := List.mem_map.mp hmem
  simp only [Prod.mk.injEq] at hplay
  obtain ⟨hid, hresult, hturns⟩ := hplay
  refine ⟨s, hs, hturns, (wholeStep_iff twoMarks _ hs (hstarted _ (List.mem_map_of_mem hs))).mpr ?_⟩
  intro _ _
  refine ⟨(0, 1), hid.symm, fun hd => ?_⟩
  rw [hresult] at hd
  cases hd

/-- User 11 sends an id of no button of the game message, and the turn goes
to user 22. -/
theorem strayId_not_wholeStep : ∃ s ∈ (run handshake).tttListG,
    .initGame s.node ∈ (run handshake).trace ∧
      ¬ WholeStep (run handshake) (.click (clickBy 11 101 "stray")) s := by
  have hbefore : (0, 0) ∈ (run handshake).tttListG.map fun s => (s.node, s.ttt.turns) := by
    decide
  have hafter : (0, 1, squares.map fun _ => Status.idle) ∈
      (run (handshake ++ [.click (clickBy 11 101 "stray")])).tttListG.map
        fun s => (s.node, s.ttt.turns, squares.map fun square => (s.ttt.board square).status) := by
    decide
  obtain ⟨s, hs, hplay⟩ := List.mem_map.mp hbefore
  obtain ⟨s', hs', hplay'⟩ := List.mem_map.mp hafter
  simp only [Prod.mk.injEq] at hplay hplay'
  refine ⟨s, hs, ?_, fun hwhole => ?_⟩
  · rw [hplay.1]
    decide
  · rw [run_concat] at hs'
    have hturns : s'.ttt.turns ≠ s.ttt.turns := by omega
    obtain ⟨square, -, hfilled⟩ :=
      hwhole.advance s' hs' (hplay'.1.trans hplay.1.symm) (Or.inl hturns)
    exact hfilled (List.map_inj_left.mp hplay'.2.2 square (mem_squares square))

end TintempPlusPlus.AllOrNothing
