import TintempPlusPlus.AllOrNothing

/-!
# The rendered board and its clicks

Each button of the rendered board carries the id of the square at its place,
so a click on it by the named user reaches that square. The message that
answers an accepted click shows the new state and names the next player.
-/

namespace TintempPlusPlus.Rendering

open Discord UniqueID Ttt Handlers ScanLoop BoardLaws Play HandlerLaws Program OneEntry EventRuns
  Invariant Steps Reachable Views Lives Frozen StartedGames AllOrNothing

/-- The button in a column of a row of a message. -/
def buttonAt (message : Message) (square : Square) : Option Button :=
  message.components[square.1.val]?.bind fun row => row.components[square.2.val]?

/-- The text that gives the turn to a user. -/
def Names (message : Message) (user : Snowflake) : Prop :=
  message.content = "its " ++ mention user ++ "'s turn"

/-- The label of a status. -/
def labelOf : Status → String
  | .idle => "-"
  | .x => "X"
  | .o => "O"

/-- The board handler accepts the click and answers with a message. -/
def BoardReplies (w : World) (click : Click) (node : ℕ) (message : Message) : Prop :=
  .reply click .updateMessage message (.boardReply click node) ∈
    (onTttInteraction click w.tttListG).emitted

/-- The button of a square and what it shows. -/
structure ShowsSquare (before after : Game) (square : Square) (button : Button) : Prop where
  /-- The id of the square is the old one. -/
  id : button.customId = (before.board square).id
  /-- The label tells the status. -/
  label : button.label = labelOf (after.board square).status
  /-- The success style tells the won squares. -/
  style : button.style = .success ↔ (after.board square).won = true
  /-- The buttons of ended games are disabled. -/
  disabled : button.disabled = true ↔ Ended after

/-- The message shows the new state of the session. -/
structure Shows (w : World) (s s' : Session) (message : Message) : Prop where
  /-- The message consists of three rows of three buttons. -/
  rows : message.components.map (fun row => row.components.length) = [3, 3, 3]
  /-- Each button shows its square. -/
  squares : ∀ square, ∃ button, buttonAt message square = some button ∧
    ShowsSquare s.ttt s'.ttt square button
  /-- Ended games have no text. -/
  blank : message.content = "** **" ↔ Ended s'.ttt
  /-- Otherwise the text names the only user whose click is accepted next. -/
  named : ¬ Ended s'.ttt → ∃ user, Names message user ∧
    (∃ click next, click.user = user ∧ BoardReplies w click s.node next) ∧
    ∀ click next, BoardReplies w click s.node next → click.user = user

/-- Rendering a started session and clicking on it agree. -/
structure Renders (w : World) (s : Session) : Prop where
  /-- A click on a button by the named user fills its square, when that is
  idle, and no other; else the session stays as it is. -/
  roundTrip : s.ttt.result = .inProgress → ∀ base, base.components = [] → ∀ square,
    ∃ button, buttonAt (s.ttt.fetchTttTurn base) square = some button ∧
      button.customId = (s.ttt.board square).id ∧
      ∀ click, click.messageId = s.ttt.game.id → click.customId = button.customId →
        Names (s.ttt.fetchTttTurn base) click.user →
          ((s.ttt.board square).status = .idle → ∃ s' ∈ (w.boardClick click).tttListG,
            s'.node = s.node ∧ ∀ other,
              (s'.ttt.board other).status ≠ (s.ttt.board other).status ↔ other = square) ∧
          ((s.ttt.board square).status ≠ .idle → s ∈ (w.boardClick click).tttListG)
  /-- The answer to an accepted click shows the new state. -/
  shows : ∀ click message, BoardReplies w click s.node message →
    ∀ s' ∈ (w.boardClick click).tttListG, s'.node = s.node →
      Shows (w.boardClick click) s s' message

variable {w : World} {s : Session} {click : Click}

/-- The rendered button of a square. -/
theorem buttonAt_fetchTttTurn (t : Game) {base : Message} (h : base.components = [])
    (square : Square) :
    buttonAt (t.fetchTttTurn base) square = some (t.tttButton t.board square) := by
  obtain ⟨i, k⟩ := square
  unfold buttonAt
  rw [fetchTttTurn_components, h, List.nil_append]
  fin_cases i <;> fin_cases k <;> rfl

/-- The text of a rendered game. -/
theorem fetchTttTurn_content (t : Game) (base : Message) :
    (t.fetchTttTurn base).content =
      if Ended t then "** **" else "its " ++ mention t.turn.1 ++ "'s turn" := by
  unfold Game.fetchTttTurn
  by_cases h : Ended t
  · rw [if_pos h, if_pos h.symm]
  · rw [if_neg h, if_neg (mt Or.symm h)]
    rfl

/-- The text of a turn tells its user. -/
theorem turnText_inj {u v : Snowflake} :
    "its " ++ mention u ++ "'s turn" = "its " ++ mention v ++ "'s turn" ↔ u = v := by
  rw [String.append_left_inj, String.append_right_inj, mention_inj]

/-- The text of a turn is not blank. -/
theorem turnText_ne_blank (u : Snowflake) : "its " ++ mention u ++ "'s turn" ≠ "** **" := by
  intro h
  have hl := congrArg (fun s => s.toList.head?) h
  simp [String.toList_append] at hl

/-- The text of a game that goes on names the user who has the turn. -/
theorem names_iff {t : Game} (h : ¬ Ended t) (base : Message) (user : Snowflake) :
    Names (t.fetchTttTurn base) user ↔ user = t.turn.1 := by
  rw [Names, fetchTttTurn_content, if_neg h, turnText_inj, eq_comm]

/-- The rendered button shows its square. -/
theorem tttButton_shows {t u : Game} (hu : Sound u)
    (hids : ∀ square, (u.board square).id = (t.board square).id) (square : Square) :
    ShowsSquare t u square (u.tttButton u.board square) := by
  have hicon : (fetchBtnIcon (u.board square)).1 = labelOf (u.board square).status ∧
      ((fetchBtnIcon (u.board square)).2 = .success ↔ (u.board square).won = true) := by
    have hwon := hu.won square
    unfold fetchBtnIcon
    cases hs : (u.board square).status with
    | idle =>
      have hno : (u.board square).won ≠ true := fun hw => hwon hw hs
      simp [labelOf, hno]
    | x => cases hw : (u.board square).won <;> simp [labelOf]
    | o => cases hw : (u.board square).won <;> simp [labelOf]
  refine ⟨hids square, ?_, hicon.2, ?_⟩
  · simp only [Game.tttButton, if_pos hu.result, hicon.1]
  · simp only [Game.tttButton, decide_eq_true_eq, Ended]

/-- What a run of the board handler recorded. -/
theorem emitted_of_boardClick {effects : List Effect} {list : List Session}
    (h : w.boardClick click = { w with tttListG := list }.emit effects) :
    (onTttInteraction click w.tttListG).emitted = effects :=
  List.append_cancel_left (congrArg World.trace h)

/-- An accepted click was made by the user who has the turn, and the answer
renders the game that it leaves. -/
theorem boardReplies_turn (hi : Inv w) {node : ℕ} {message : Message}
    (h : BoardReplies w click node message) :
    ∃ pre s post t, Turn w click pre s post ∧ s.node = node ∧
      ((∃ square, (s.ttt.board square).status = .idle ∧ t = Game.move s.ttt square) ∨
        t = s.ttt.fetchWinner.swapTurn) ∧
      { s with ttt := t } ∈ (w.boardClick click).tttListG ∧ message = t.fetchTttTurn {} := by
  have hchange := board_change hi click
  have htrace : (w.boardClick click).trace =
      w.trace ++ (onTttInteraction click w.tttListG).emitted := rfl
  unfold BoardReplies at h
  generalize (onTttInteraction click w.tttListG).emitted = emitted at h htrace
  generalize w.boardClick click = w' at hchange htrace ⊢
  cases hchange with
  | quiet hwarn =>
    rw [← List.append_cancel_left htrace] at h
    cases hwarn _ h
  | @played _ square pre s post hturn hsq hidle =>
    rw [← List.append_cancel_left htrace] at h
    have hmem : message = (Game.move s.ttt square).fetchTttTurn {} ∧ node = s.node := by
      simpa [moveEffects] using h
    exact ⟨pre, s, post, _, hturn, hmem.2.symm, Or.inl ⟨square, hidle, rfl⟩,
      List.mem_append_cons_self, hmem.1⟩
  | @strayed _ pre s post hturn hsq =>
    rw [← List.append_cancel_left htrace] at h
    have hmem : message = s.ttt.fetchWinner.swapTurn.fetchTttTurn {} ∧ node = s.node := by
      simpa [moveEffects] using h
    exact ⟨pre, s, post, _, hturn, hmem.2.symm, Or.inr rfl, List.mem_append_cons_self, hmem.1⟩

/-- A move keeps the ids of the squares. -/
theorem move_id (t : Game) (square other : Square) :
    ((Game.move t square).board other).id = (t.board other).id := by
  unfold Game.move
  rw [swapTurn_board, fetchWinner_id, setStatus_id]

/-- An accepted click leaves the ids and the game message alone. -/
theorem accepted_ids {t u : Game}
    (h : (∃ square, (t.board square).status = .idle ∧ u = Game.move t square) ∨
      u = t.fetchWinner.swapTurn) :
    (∀ square, (u.board square).id = (t.board square).id) ∧ u.game = t.game := by
  rcases h with ⟨square, -, hu⟩ | hu
  · rw [hu]
    exact ⟨move_id t square, by simp [Game.move, Game.setStatus]⟩
  · rw [hu]
    simp

/-- A click on a rendered button by the named user reaches its square. -/
theorem roundTrip_of_turn (hi : Inv w) {pre post : List Session} (hsound : Sound s.ttt)
    {square : Square} (hturn : Turn w click pre s post)
    (hsq : click.customId = (s.ttt.board square).id) :
    ((s.ttt.board square).status = .idle → ∃ s' ∈ (w.boardClick click).tttListG,
      s'.node = s.node ∧ ∀ other,
        (s'.ttt.board other).status ≠ (s.ttt.board other).status ↔ other = square) ∧
    ((s.ttt.board square).status ≠ .idle → s ∈ (w.boardClick click).tttListG) := by
  constructor
  · intro hidle
    refine ⟨{ s with ttt := Game.move s.ttt square }, ?_, rfl, fun other => ?_⟩
    · rw [boardClick_played hi hturn hsq hidle]
      exact List.mem_append_cons_self
    · dsimp only
      rw [move_board_status]
      by_cases ho : other = square
      · simp only [ho, if_true, hidle, ne_eq, hsound.mark, not_false_eq_true]
      · simp only [ho, if_false, ne_eq, not_true_eq_false]
  · intro htaken
    rw [boardClick_taken hi hturn hsq htaken]
    exact hturn.mem

/-- The user who has the turn of a game that goes on can make an accepted
click. -/
theorem exists_boardReplies (hw : Reached w) (hs : s ∈ w.tttListG)
    (hinit : .initGame s.node ∈ w.trace) (hgame : s.ttt.game.id ≠ 0) (he : ¬ Ended s.ttt) :
    ∃ click next, click.user = s.ttt.turn.1 ∧ BoardReplies w click s.node next := by
  have hsound := sound_reached hw hs hinit
  have hstarted := started_of_trace hw hs hinit
  obtain ⟨hwon, hdraw⟩ := not_or.mp he
  have hgoing : s.ttt.result = .inProgress := by
    cases hr : s.ttt.result with
    | inProgress => rfl
    | expired => exact absurd hr hsound.result
    | draw => exact absurd hr hdraw
    | won => exact absurd hr hwon
  obtain ⟨square, hidle⟩ := hsound.exists_idle hgoing
  have huser : s.ttt.turn.1 ≠ 0 := (listed_reached hw hs).begun (mem_effectsOf.mpr ⟨hinit, rfl⟩)
  obtain ⟨pre, post, hl⟩ := List.mem_iff_append.mp hs
  have hturn : Turn w ⟨s.ttt.turn.1, s.ttt.game.id, 0, (s.ttt.board square).id, huser, hgame⟩
      pre s post := ⟨hl, rfl, rfl, hstarted⟩
  refine ⟨_, (Game.move s.ttt square).fetchTttTurn {}, hturn.user, ?_⟩
  rw [BoardReplies, emitted_of_boardClick (boardClick_played hw.inv hturn rfl hidle)]
  simp [moveEffects]

/-- The answer to an accepted click shows the state that the click leaves. -/
theorem shows_of_replies (hw : Reached w) (hs : s ∈ w.tttListG)
    (hinit : .initGame s.node ∈ w.trace) {message : Message}
    (h : BoardReplies w click s.node message) {s' : Session}
    (hs' : s' ∈ (w.boardClick click).tttListG) (hn : s'.node = s.node) :
    Shows (w.boardClick click) s s' message := by
  have hw' : Reached (w.boardClick click) := reached_part hw (.board click)
  obtain ⟨pre, u, post, t, hturn, hun, ht, hmem, rfl⟩ := boardReplies_turn hw.inv h
  have hus := node_inj hw.inv hturn.mem hs hun
  subst hus
  have hs't := node_inj hw'.inv hs' hmem hn
  subst hs't
  have hinit' : .initGame u.node ∈ (w.boardClick click).trace := List.mem_append_left _ hinit
  have hsound : Sound t := sound_reached hw' hs' hinit'
  obtain ⟨hids, hkept⟩ := accepted_ids ht
  have hgame : t.game.id ≠ 0 := by
    rw [hkept, ← hturn.message]
    exact click.messageIssued
  refine ⟨?_, fun square => ⟨_, buttonAt_fetchTttTurn t rfl square,
    tttButton_shows hsound hids square⟩, ?_, fun he => ⟨t.turn.1, ?_, ?_, ?_⟩⟩
  · rw [fetchTttTurn_components]
    rfl
  · rw [fetchTttTurn_content]
    split_ifs with he
    · exact iff_of_true rfl he
    · exact iff_of_false (turnText_ne_blank _) he
  · exact (names_iff he _ _).mpr rfl
  · exact exists_boardReplies hw' hs' hinit' hgame he
  · intro other next hnext
    obtain ⟨pre', v, post', t', hturn', hvn, -⟩ := boardReplies_turn hw'.inv hnext
    have hv := node_inj hw'.inv hturn'.mem hs' hvn
    rw [hturn'.user, hv]

/-- Rendering and clicking agree for every started session that a run lists. -/
theorem renders_run (events : List Event) (hs : s ∈ (run events).tttListG)
    (hinit : .initGame s.node ∈ (run events).trace) : Renders (run events) s := by
  have hw := reached_run events
  have hstarted := started_of_trace hw hs hinit
  refine ⟨fun hgoing base hbase square => ⟨_, buttonAt_fetchTttTurn _ hbase square, rfl, ?_⟩, ?_⟩
  · intro click hm hsq hnames
    have hu := (names_iff (not_ended hgoing) base click.user).mp hnames
    obtain ⟨pre, post, hl⟩ := List.mem_iff_append.mp hs
    exact roundTrip_of_turn hw.inv (sound_reached hw hs hinit) ⟨hl, hm, hu, hstarted⟩ hsq
  · exact fun click message h s' hs' hn => shows_of_replies hw hs hinit h hs' hn

/-- The board of the first game in the middle, rendered and clicked on. -/
theorem renders_twoMarks : ∃ s ∈ (run twoMarks).tttListG,
    s.ttt.result = .inProgress ∧ (s.ttt.board (0, 0)).status = .x ∧
      (s.ttt.board (1, 0)).status = .o ∧ (s.ttt.board (0, 1)).status = .idle ∧
        Renders (run twoMarks) s := by
  have hboard : ∃ s ∈ (run twoMarks).tttListG, s.node = 0 ∧ s.ttt.result = .inProgress ∧
      (s.ttt.board (0, 0)).status = .x ∧ (s.ttt.board (1, 0)).status = .o ∧
        (s.ttt.board (0, 1)).status = .idle := by decide
  obtain ⟨s, hs, hn, hgoing, hcross, hnought, hidle⟩ := hboard
  refine ⟨s, hs, hgoing, hcross, hnought, hidle, renders_run twoMarks hs ?_⟩
  rw [hn]
  decide

end TintempPlusPlus.Rendering
