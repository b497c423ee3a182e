import TintempPlusPlus.Lives

/-!
# Turns and marks

As long as the clicks on a session's game message carry ids of its board,
every turn is a move on an idle square, and the session is in step with the
list of its moves. Counter, marks and turn are then functions of the number
of marked squares, and every mark was set by the player it belongs to.
-/

namespace TintempPlusPlus.TurnDiscipline

open Discord UniqueID Ttt Handlers ScanLoop BoardLaws AlternatingMarks Play HandlerLaws Program
  OneEntry EventRuns Invariant Steps Reachable Views Lives

/-- Clicks on the game message of the session carry an id of its board. -/
def OnlyBoardIds (node : ℕ) (w : World) : Event → Prop
  | .click click => ∀ s ∈ w.tttListG, s.node = node → click.messageId = s.ttt.game.id →
    ∃ square, click.customId = (s.ttt.board square).id
  | _ => True

instance (node : ℕ) (w : World) : ∀ e, Decidable (OnlyBoardIds node w e)
  | .click click => inferInstanceAs (Decidable (∀ s ∈ w.tttListG, s.node = node →
      click.messageId = s.ttt.game.id → ∃ square, click.customId = (s.ttt.board square).id))
  | .command _ _ => inferInstanceAs (Decidable True)
  | .callback _ _ => inferInstanceAs (Decidable True)

/-- The square that an effect set, if it set one. -/
def placedSquare : Effect → Option Square
  | .placed _ _ square _ => some square
  | _ => none

/-- The squares set so far, in order. -/
def movesOf (trace : List Effect) : List Square := trace.filterMap placedSquare

/-- The moves of two parts follow one another. -/
theorem movesOf_append (a b : List Effect) : movesOf (a ++ b) = movesOf a ++ movesOf b :=
  List.filterMap_append

/-- The session is in step with its moves, and each mark was set by the
player it belongs to. -/
structure Played (node : ℕ) (s : Session) (trace : List Effect) : Prop where
  /-- Nothing is marked before the start. -/
  before : .initGame node ∉ trace → movesOf trace = []
  /-- The game stands for the play with the recorded moves. -/
  represents : .initGame node ∈ trace → Represents s.ttt (movesOf trace)
  /-- A mark belongs to the player who clicked. -/
  owner : ∀ click square status, .placed node click square status ∈ trace →
    ∃ side, mark (movesOf trace) square = some side ∧
      (click.user, status) = sideTurn s.ttt side

/-- The same, read at a view. -/
def ViewPlayed (node : ℕ) (v : View) : Prop := ∀ s, v.session = some s → Played node s v.trace

variable {w : World} {click : Click} {node : ℕ}

/-- What the play depends on. -/
theorem Represents.congr {t u : Game} {moves : List Square} (h : Represents t moves)
    (hboard : u.board = t.board) (hturns : u.turns = t.turns) (hresult : u.result = t.result)
    (hturn : u.turn = t.turn) (h1 : u.player1 = t.player1) (h2 : u.player2 = t.player2) :
    Represents u moves := by
  have hside : ∀ side, sideTurn u side = sideTurn t side := sideTurn_congr h1 h2
  refine ⟨h.nodup, ?_, ?_, ?_, ?_, ?_, ?_, ?_, ?_⟩ <;>
    simp only [hboard, hturns, hresult, hturn, hside]
  · exact h.status
  · exact h.turns
  · exact h.won_iff
  · exact h.draw_iff
  · exact h.ongoing
  · exact h.flag
  · exact h.turn
  · exact h.drawTurn

/-- Nothing happens to the play when neither the board nor the trace of moves
changes. -/
theorem Played.keep {s s' : Session} {trace trace' : List Effect} (h : Played node s trace)
    (hinit : .initGame node ∈ trace' ↔ .initGame node ∈ trace)
    (hmoves : movesOf trace' = movesOf trace)
    (hplaced : ∀ click square status, .placed node click square status ∈ trace' →
      .placed node click square status ∈ trace)
    (hboard : s'.ttt.board = s.ttt.board) (hturns : s'.ttt.turns = s.ttt.turns)
    (hresult : s'.ttt.result = s.ttt.result) (hturn : s'.ttt.turn = s.ttt.turn)
    (h1 : s'.ttt.player1 = s.ttt.player1) (h2 : s'.ttt.player2 = s.ttt.player2) :
    Played node s' trace' := by
  refine ⟨?_, ?_, ?_⟩
  · rw [hinit, hmoves]
    exact h.before
  · rw [hinit, hmoves]
    exact fun hi => Represents.congr (h.represents hi) hboard hturns hresult hturn h1 h2
  · intro click square status hp
    rw [hmoves]
    obtain ⟨side, hm, hs⟩ := h.owner click square status (hplaced click square status hp)
    exact ⟨side, hm, hs.trans (sideTurn_congr h1 h2 side).symm⟩

/-- A started game is in step with no moves. -/
theorem played_start {s : Session} {trace : List Effect} {player : Player} {nextID : ℕ}
    (h : Played node s trace) (hw : Waiting s.ttt) (hn : .initGame node ∉ trace) :
    Played node ((s.flag player).start nextID).1
      (trace ++ [.answered node player .yes, .initGame node]) := by
  have hmoves : movesOf (trace ++ [.answered node player .yes, .initGame node]) = [] := by
    rw [movesOf_append, h.before hn]
    rfl
  refine ⟨fun hni => absurd (by simp) hni, fun _ => ?_, ?_⟩
  · rw [hmoves]
    exact represents_nil (fun _ => rfl) (fun _ => rfl) hw.turns hw.result rfl
  · intro click square status hp
    obtain ⟨side, hm, -⟩ := h.owner click square status (by simpa using hp)
    rw [h.before hn] at hm
    cases hm

/-- A move extends the play by its square. -/
theorem played_move {s : Session} {trace : List Effect} {square : Square}
    (h : Played node s trace) (hi : .initGame node ∈ trace)
    (hp : s.ttt.player1 ≠ s.ttt.player2) (hu : click.user = s.ttt.turn.1)
    (hidle : (s.ttt.board square).status = .idle) :
    Played node { s with ttt := Game.move s.ttt square }
      (trace ++ .placed node click square s.ttt.turn.2 ::
        moveEffects click node (Game.move s.ttt square)) := by
  have hrep := h.represents hi
  have hnew := (hrep.idle_iff square).mp hidle
  have hmoves : movesOf (trace ++ .placed node click square s.ttt.turn.2 ::
      moveEffects click node (Game.move s.ttt square)) = movesOf trace ++ [square] := by
    rw [movesOf_append]
    rfl
  have hside : ∀ side, sideTurn (Game.move s.ttt square) side = sideTurn s.ttt side :=
    sideTurn_congr (by simp [Game.move, Game.setStatus]) (by simp [Game.move, Game.setStatus])
  refine ⟨fun hni => absurd (List.mem_append_left _ hi) hni, fun _ => ?_, ?_⟩
  · rw [hmoves]
    dsimp only
    exact hrep.move hp hidle
  · intro other sq status hplaced
    rw [hmoves]
    simp only [hside]
    rcases List.mem_append.mp hplaced with hold | hlast
    · obtain ⟨side, hm, hs⟩ := h.owner other sq status hold
      have hmem : sq ∈ movesOf trace := mark_ne_none.mp (by rw [hm]; simp)
      exact ⟨side, (mark_concat_of_mem hnew hmem).trans hm, hs⟩
    · have hself : other = click ∧ sq = square ∧ status = s.ttt.turn.2 := by
        simpa [moveEffects] using hlast
      obtain ⟨rfl, rfl, rfl⟩ := hself
      refine ⟨sideAt (movesOf trace).length, mark_concat_self hnew, ?_⟩
      rw [← hrep.turn (hrep.not_draw hidle), hu]

/-- The session clicked on carries the id of the click when its clicks carry
ids of its board. -/
theorem clicked_board {pre post : List Session} {s : Session}
    (hc : Within (OnlyBoardIds s.node) w (.board click)) (h : Turn w click pre s post) :
    ∃ square, click.customId = (s.ttt.board square).id := by
  obtain ⟨before, hw, rfl, hcond⟩ := hc
  have hmem := h.mem
  have hchange := confirm_change hw.inv click
  generalize before.confirmClick click = w' at hchange hmem
  cases hchange with
  | quiet => exact hcond s hmem rfl h.message
  | @accepted click player pre' t post' hacc =>
    obtain ⟨ht, -⟩ := hw.inv.focus hacc.list
    have hlist : ∀ u ∈ pre' ++ t :: post', u ∈ before.tttListG := by
      rw [hacc.list]
      exact fun u hu => hu
    rcases mem_entry.mp hmem with rfl | hother
    · -- the session was started by this very click, whose id is no board id
      have hgame := h.message.trans (accept_ids click player before.nextID t).1
      obtain ⟨square, hsq⟩ := hcond t (hlist t (by simp)) (accept_kin _ _ _ _).node.symm hgame
      rw [(accepts_waiting hacc ht).board] at hsq
      rcases hacc.addressed with ha | ha <;> rw [ht.btnId] at ha <;> rw [hsq] at ha
      · exact absurd ha.symm (confirmYesId_ne_empty _)
      · exact absurd ha.symm (confirmNoId_ne_empty _)
    · exact hcond s (hlist s (mem_entry.mpr (Or.inr hother))) rfl h.message

/-- Every touch keeps the session in step with its moves when the clicks on
its game message carry ids of its board. -/
theorem viewPlayed_touch {p : Part} {v : View} (hw : Reached w)
    (hc : Within (OnlyBoardIds node) w p) (h : ViewPlayed node (view w node))
    (ht : Touch w node p (view w node) v) : ViewPlayed node v := by
  have hlived := lived_reached hw node
  generalize view w node = u at h ht hlived
  cases ht with
  | created hf =>
    rintro t ⟨⟩
    exact ⟨fun _ => rfl, fun hi => absurd hi List.not_mem_nil,
      fun _ _ _ hp => absurd hp List.not_mem_nil⟩
  | @started click player pre s post pending trace hacc hs hy ho =>
    rintro t ⟨⟩
    have hwait := accepts_waiting hacc hs
    refine played_start (h s rfl) hwait ?_
    exact fun hinit => (lived_some.mp hlived).begun hinit (congrArg Prod.fst hwait.turn)
  | @played click square pre s post pending trace hturn hs hsq hidle =>
    rintro t ⟨⟩
    exact played_move (h s rfl) ((lived_some.mp hlived).playing hturn).1 hs.versus hturn.user hidle
  | @strayed click pre s post pending trace hturn hs hsq =>
    obtain ⟨square, hin⟩ := clicked_board hc hturn
    exact absurd hin (hsq square)
  | @confirmed click player pre s post pending trace hacc hs hy ho =>
    rintro t ⟨⟩
    exact (h s rfl).keep (by simp) (by simp [movesOf, placedSquare]) (by simp) rfl rfl rfl rfl rfl
      rfl
  | @declined click player pre s post pending trace hacc hs hn =>
    rintro t ⟨⟩
    exact (h s rfl).keep (by simp) (by simp [movesOf, placedSquare]) (by simp) rfl rfl rfl rfl rfl
      rfl
  | @originSet uid posted deployment s pending trace hcb hfresh hs huid hno =>
    rintro t ⟨⟩
    exact (h s rfl).keep Iff.rfl rfl (fun _ _ _ => id) rfl rfl rfl rfl rfl rfl
  | dropped => exact h
  | @asked node click response session pending trace hcb =>
    intro s hs
    exact (h s hs).keep (by simp) (by simp [movesOf, placedSquare]) (by simp) rfl rfl rfl rfl rfl
      rfl
  | orphaned => exact h
  | @stored click deployment s pending trace hcb hfresh hs =>
    rintro t ⟨⟩
    exact (h s rfl).keep Iff.rfl rfl (fun _ _ _ => id) rfl rfl rfl rfl rfl rfl
  | @announced click deployment s embed pending trace hcb hs hr =>
    rintro t ⟨⟩
    exact (h s rfl).keep (by simp) (by simp [movesOf, placedSquare]) (by simp) rfl rfl rfl rfl rfl
      rfl
  | erased => exact fun s hs => by cases hs

/-- A listed session is in step with its moves. -/
theorem played_run {events : List Event}
    (h : Along World.step (OnlyBoardIds node) World.init events) {s : Session}
    (hs : s ∈ (run events).tttListG) (hn : s.node = node) :
    Played node s (effectsOf node (run events).trace) := by
  have hview := view_run (I := fun n v => n = node → ViewPlayed n v) h
    (fun n _ s hs => by cases hs) ?_ node rfl
  · rw [← hn, view_of_mem (inv_run events) hs, hn] at hview
    exact hview s rfl
  · rintro w n p v hw hc hv ht rfl
    exact viewPlayed_touch hw hc (hv rfl) ht

/-- The squares that carry a mark. -/
def marked (board : Board) : Finset Square :=
  Finset.univ.filter fun square => (board square).status ≠ .idle

/-- The squares that carry a certain status. -/
def withStatus (board : Board) (status : Status) : Finset Square :=
  Finset.univ.filter fun square => (board square).status = status

/-- The bookkeeping of a started game. -/
structure Disciplined (trace : List Effect) (s : Session) : Prop where
  /-- The counter counts the marked squares. -/
  turns : s.ttt.turns = (marked s.ttt.board).card
  /-- The challenger holds the larger half. -/
  crosses : (withStatus s.ttt.board .x).card = ((marked s.ttt.board).card + 1) / 2
  /-- The challenged player holds the smaller half. -/
  noughts : (withStatus s.ttt.board .o).card = (marked s.ttt.board).card / 2
  /-- Every mark was set by a click. -/
  set : ∀ square ∈ marked s.ttt.board,
    ∃ click, .placed s.node click square (s.ttt.board square).status ∈ trace
  /-- A click that set a mark was made by the player of that mark. -/
  owner : ∀ click square status, .placed s.node click square status ∈ trace →
    (s.ttt.board square).status = status ∧
      (status = .x ∧ click.user = s.ttt.player1 ∨ status = .o ∧ click.user = s.ttt.player2)
  /-- The challenger moves on an even number of marks. -/
  even : s.ttt.result ≠ .draw → (marked s.ttt.board).card % 2 = 0 →
    s.ttt.turn = (s.ttt.player1, .x)
  /-- The challenged player moves on an odd number of marks. -/
  odd : s.ttt.result ≠ .draw → (marked s.ttt.board).card % 2 = 1 →
    s.ttt.turn = (s.ttt.player2, .o)
  /-- A draw fills the board and stops the turn. -/
  draw : s.ttt.result = .draw →
    (marked s.ttt.board).card = 9 ∧ s.ttt.turn = (s.ttt.player1, .x)

/-- The marked squares are those that the moves took. -/
theorem marked_eq_taken {t : Game} {moves : List Square} (h : Represents t moves) :
    marked t.board = AlternatingMarks.taken moves := by
  ext square
  simp only [marked, AlternatingMarks.taken, Finset.mem_filter, Finset.mem_univ, true_and, h.status,
    statusOf_ne_idle]

/-- The squares with a mark are those that its side holds. -/
theorem withStatus_eq_held {t : Game} {moves : List Square} (h : Represents t moves)
    (side : Side) : withStatus t.board (statusOf (some side)) = held moves side := by
  ext square
  simp only [withStatus, held, Finset.mem_filter, Finset.mem_univ, true_and, h.status,
    statusOf_inj]

/-- A session in step with its moves keeps its books. -/
theorem disciplined_of_played {s : Session}
    (h : Played s.node s (effectsOf s.node w.trace)) (hi : .initGame s.node ∈ w.trace) :
    Disciplined w.trace s := by
  have hrep := h.represents (mem_effectsOf.mpr ⟨hi, rfl⟩)
  have hcard : (marked s.ttt.board).card = (movesOf (effectsOf s.node w.trace)).length := by
    rw [marked_eq_taken hrep, card_taken hrep.nodup]
  obtain ⟨hfirst, hsecond⟩ := card_held hrep.nodup
  have howner : ∀ click square status, .placed s.node click square status ∈ w.trace →
      ∃ side, (s.ttt.board square).status = statusOf (some side) ∧
        (click.user, status) = sideTurn s.ttt side := by
    intro click square status hp
    obtain ⟨side, hm, hs⟩ := h.owner click square status (mem_effectsOf.mpr ⟨hp, rfl⟩)
    exact ⟨side, by rw [hrep.status, hm], hs⟩
  refine ⟨?_, ?_, ?_, ?_, ?_, ?_, ?_, ?_⟩
  · rw [hcard, hrep.turns]
  · rw [hcard, ← hfirst]
    exact congrArg Finset.card (withStatus_eq_held hrep .first)
  · rw [hcard, ← hsecond]
    exact congrArg Finset.card (withStatus_eq_held hrep .second)
  · intro square hsq
    rw [marked_eq_taken hrep, taken_eq_toFinset, List.mem_toFinset] at hsq
    obtain ⟨effect, he, hplaced⟩ := List.mem_filterMap.mp hsq
    obtain ⟨hmem, hnode⟩ := mem_effectsOf.mp he
    cases effect with
    | placed node click other status =>
      cases hplaced
      cases hnode
      obtain ⟨side, hst, hs⟩ := howner click square status hmem
      rw [hst, ← sideTurn_snd s.ttt, ← hs]
      exact ⟨click, hmem⟩
    | _ => cases hplaced
  · intro click square status hp
    obtain ⟨side, hst, hs⟩ := howner click square status hp
    cases side with
    | first =>
      obtain ⟨hu, rfl⟩ := Prod.mk.inj hs
      exact ⟨hst, Or.inl ⟨rfl, hu⟩⟩
    | second =>
      obtain ⟨hu, rfl⟩ := Prod.mk.inj hs
      exact ⟨hst, Or.inr ⟨rfl, hu⟩⟩
  · intro hd heven
    rw [hrep.turn hd, ← hcard, sideAt, if_pos heven]
    rfl
  · intro hd hodd
    rw [hrep.turn hd, ← hcard, sideAt, if_neg (by omega)]
    rfl
  · intro hd
    exact ⟨hcard.trans (hrep.draw_iff.mp hd).1, hrep.drawTurn hd⟩

/-- In every run in which the clicks on the session's game message carry ids
of its board, the started session keeps its books. -/
theorem disciplined_run {events : List Event}
    (h : Along World.step (OnlyBoardIds node) World.init events) {s : Session}
    (hs : s ∈ (run events).tttListG) (hn : s.node = node)
    (hi : .initGame node ∈ (run events).trace) : Disciplined (run events).trace s := by
  subst hn
  exact disciplined_of_played (played_run h hs rfl) hi

/-- The books of the game in which user 11 takes the top row. -/
theorem disciplined_topRow : ∃ s ∈ (run topRow).tttListG,
    s.ttt.turns = 5 ∧ s.ttt.turn = (22, .o) ∧ (s.ttt.board (0, 2)).status = .x ∧
      Disciplined (run topRow).trace s := by
  have hbooks : ∃ s ∈ (run topRow).tttListG, s.node = 0 ∧ s.ttt.turns = 5 ∧
      s.ttt.turn = (22, .o) ∧ (s.ttt.board (0, 2)).status = .x := by decide
  have hclicks : Along World.step (OnlyBoardIds 0) World.init topRow := by decide
  obtain ⟨s, hs, hn, hturns, hturn, hmark⟩ := hbooks
  exact ⟨s, hs, hturns, hturn, hmark, disciplined_run hclicks hs hn (by decide)⟩

end TintempPlusPlus.TurnDiscipline
