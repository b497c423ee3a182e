import TintempPlusPlus.TurnDiscipline
import TintempPlusPlus.Frozen
import TintempPlusPlus.Histories

/-!
# What a started game allows

A started game has a mark to set, flags on marked squares only, and no more
marks than turns. Whatever happens, its play changes through a click on its
game message by the user who has the turn, as a move on an idle square or as
a turn passed without a move.
-/

namespace TintempPlusPlus.StartedGames

open Discord UniqueID Ttt Handlers ScanLoop BoardLaws Play HandlerLaws Program OneEntry EventRuns
  Invariant Steps Reachable Views Lives Frozen TurnDiscipline Histories

/-- What holds of a started game, with any ids clicked. -/
structure Sound (t : Game) : Prop where
  /-- The player to move has a mark to set. -/
  mark : t.turn.2 ≠ .idle
  /-- Flags are set on marked squares. -/
  won : ∀ square, (t.board square).won = true → (t.board square).status ≠ .idle
  /-- No game expires. -/
  result : t.result ≠ .expired
  /-- There are no more marks than turns. -/
  count : (marked t.board).card ≤ t.turns
  /-- A game in progress has turns left. -/
  going : t.result = .inProgress → t.turns < 9
  /-- A drawn game has had its nine turns. -/
  drawn : t.result = .draw → 9 ≤ t.turns

variable {w : World} {node : ℕ} {s : Session} {click : Click}

/-- A square is marked when it is not idle. -/
theorem mem_marked {board : Board} {square : Square} :
    square ∈ marked board ↔ (board square).status ≠ .idle := by
  simp only [marked, Finset.mem_filter, Finset.mem_univ, true_and]

/-- The same statuses mark the same squares. -/
theorem marked_congr {a b : Board} (h : ∀ square, (b square).status = (a square).status) :
    marked b = marked a := by
  ext square
  simp only [mem_marked, h]

/-- Setting a status marks at most one square more. -/
theorem marked_setStatus (t : Game) (square : Square) (status : Status) :
    (marked (t.setStatus square status).board).card ≤ (marked t.board).card + 1 := by
  have hsub : marked (t.setStatus square status).board ⊆ insert square (marked t.board) := by
    intro other ho
    by_cases he : other = square
    · exact he ▸ Finset.mem_insert_self _ _
    · refine Finset.mem_insert_of_mem ?_
      simpa only [mem_marked, Game.setStatus, Function.update_of_ne he] using ho
  exact (Finset.card_le_card hsub).trans (Finset.card_insert_le _ _)

/-- Flags stay on marked squares when the winner is searched. -/
theorem fetchWinner_flags {t : Game}
    (h : ∀ square, (t.board square).won = true → (t.board square).status ≠ .idle) :
    ∀ square, (t.fetchWinner.board square).won = true →
      (t.fetchWinner.board square).status ≠ .idle := by
  intro square hwon
  rw [fetchWinner_status]
  rcases ((fetchWinner_spec t).1 square).2.2.mp hwon with hold | ⟨line, hl, hf, hmem⟩
  · exact h square hold
  · obtain ⟨status, hne, hall⟩ := hf
    rw [hall square hmem]
    exact hne

/-- A passed turn leaves a game that is either over or has turns left. -/
theorem swapTurn_going (t : Game) (h : t.swapTurn.result = .inProgress) :
    t.swapTurn.turns < 9 := by
  rw [swapTurn_turns]
  by_contra hn
  by_cases hw : t.result = .won
  · rcases swapTurn_result t with hs | hs
    · rw [hs, hw] at h
      cases h
    · rw [hs] at h
      cases h
  · rw [swapTurn_draw (not_lt.mp hn) hw] at h
    cases h

/-- A passed turn leaves a draw after nine turns only. -/
theorem swapTurn_drawn {t : Game} (h : t.result = .draw → 9 ≤ t.turns)
    (hr : t.swapTurn.result = .draw) : 9 ≤ t.swapTurn.turns := by
  rw [swapTurn_turns]
  by_cases hd : 9 ≤ t.turns + 1 ∧ t.result ≠ .won
  · exact hd.1
  · rw [swapTurn_pass hd] at hr
    exact (h hr).trans (Nat.le_succ _)

/-- Who has the turn has a mark also after it passes. -/
theorem swapTurn_mark {t : Game} (h : t.turn.2 ≠ .idle) : t.swapTurn.turn.2 ≠ .idle := by
  by_cases hd : 9 ≤ t.turns + 1 ∧ t.result ≠ .won
  · rw [swapTurn_draw hd.1 hd.2]
    exact h
  · rw [swapTurn_pass hd]
    dsimp only
    split_ifs <;> simp

/-- The end of the board handler leaves a sound game. -/
theorem sound_pass {t : Game} (hmark : t.turn.2 ≠ .idle)
    (hwon : ∀ square, (t.board square).won = true → (t.board square).status ≠ .idle)
    (hresult : t.result ≠ .expired) (hcount : (marked t.board).card ≤ t.turns + 1)
    (hdrawn : t.result = .draw → 9 ≤ t.turns) : Sound t.fetchWinner.swapTurn := by
  have hturn : t.fetchWinner.turn.2 ≠ .idle := by rwa [fetchWinner_turn]
  have hlate : t.fetchWinner.result = .draw → 9 ≤ t.fetchWinner.turns := by
    intro hd
    rw [fetchWinner_turns]
    rcases fetchWinner_result t with hf | hf <;> rw [hf] at hd
    · exact hdrawn hd
    · cases hd
  refine ⟨swapTurn_mark hturn, ?_, ?_, ?_, swapTurn_going _, swapTurn_drawn hlate⟩
  · rw [swapTurn_board]
    exact fetchWinner_flags hwon
  · rcases swapTurn_result t.fetchWinner with hs | hs <;> rw [hs]
    · rcases fetchWinner_result t with hf | hf <;> rw [hf]
      · exact hresult
      · decide
    · decide
  · rw [swapTurn_board, swapTurn_turns, fetchWinner_turns, marked_congr (fetchWinner_status t)]
    exact hcount

/-- A move leaves a sound game. -/
theorem sound_move {t : Game} (h : Sound t) (square : Square) : Sound (Game.move t square) := by
  have hcount := (marked_setStatus t square t.turn.2).trans (Nat.succ_le_succ h.count)
  have hwon : ∀ other, ((t.setStatus square t.turn.2).board other).won = true →
      ((t.setStatus square t.turn.2).board other).status ≠ .idle := by
    intro other hw
    rw [setStatus_won] at hw
    by_cases he : other = square
    · subst he
      simpa [Game.setStatus] using h.mark
    · simpa [Game.setStatus, Function.update_of_ne he] using h.won other hw
  exact sound_pass h.mark hwon h.result hcount h.drawn

/-- The facts at a view, from the start of the game on. -/
def ViewSound (node : ℕ) (v : View) : Prop :=
  ∀ s, v.session = some s → .initGame node ∈ v.trace → Sound s.ttt

/-- What does not change the play keeps the facts. -/
theorem Sound.congr {t u : Game} (h : Sound t) (hboard : u.board = t.board)
    (hturn : u.turn = t.turn) (hturns : u.turns = t.turns) (hresult : u.result = t.result) :
    Sound u := by
  refine ⟨?_, ?_, ?_, ?_, ?_, ?_⟩ <;> simp only [hboard, hturn, hturns, hresult]
  · exact h.mark
  · exact h.won
  · exact h.result
  · exact h.count
  · exact h.going
  · exact h.drawn

/-- A game is sound when it starts. -/
theorem sound_start {player : Player} {nextID : ℕ} (hw : Waiting s.ttt) :
    Sound ((s.flag player).start nextID).1.ttt := by
  refine ⟨by simp [Session.start, Game.initGame], fun _ hwon => ?_, ?_, ?_, fun _ => ?_, ?_⟩
  · cases hwon
  · exact fun he => by cases hw.result.symm.trans he
  · have hnone : marked ((s.flag player).start nextID).1.ttt.board = ∅ := by
      ext square
      simp [mem_marked, Session.start, Game.initGame]
    rw [hnone]
    exact Nat.zero_le _
  · exact hw.turns.trans_lt (by decide)
  · exact fun he => by cases hw.result.symm.trans he

/-- Every touch keeps a started game sound. -/
theorem viewSound_touch {p : Part} {v v' : View} (hlived : Lived node v) (h : ViewSound node v)
    (ht : Touch w node p v v') : ViewSound node v' := by
  cases ht with
  | created hf => rintro t ⟨⟩ hi; cases hi
  | @started click player pre s post pending trace hacc hs hy ho =>
    rintro t ⟨⟩ -
    exact sound_start (accepts_waiting hacc hs)
  | @played click square pre s post pending trace hturn hs hsq hidle =>
    rintro t ⟨⟩ -
    have hsound := h s rfl ((lived_some.mp hlived).playing hturn).1
    dsimp only
    exact sound_move hsound square
  | @strayed click pre s post pending trace hturn hs hsq =>
    rintro t ⟨⟩ -
    have hsound := h s rfl ((lived_some.mp hlived).playing hturn).1
    dsimp only
    exact sound_pass hsound.mark hsound.won hsound.result (hsound.count.trans (Nat.le_succ _))
      hsound.drawn
  | @confirmed click player pre s post pending trace hacc hs hy ho =>
    rintro t ⟨⟩ hi
    exact h s rfl (by simpa using hi)
  | @declined click player pre s post pending trace hacc hs hn =>
    rintro t ⟨⟩ hi
    exact (h s rfl (by simpa using hi)).congr rfl rfl rfl rfl
  | @originSet uid posted deployment s pending trace hcb hfresh hs huid hno =>
    rintro t ⟨⟩ hi
    exact (h s rfl hi).congr rfl rfl rfl rfl
  | dropped => exact h
  | @asked node click response session pending trace hcb =>
    intro s hs hi
    exact h s hs (by simpa using hi)
  | orphaned => exact h
  | @stored click deployment s pending trace hcb hfresh hs =>
    rintro t ⟨⟩ hi
    exact (h s rfl hi).congr rfl rfl rfl rfl
  | @announced click deployment s embed pending trace hcb hs hr =>
    rintro t ⟨⟩ hi
    exact (h s rfl (by simpa using hi)).congr rfl rfl rfl rfl
  | erased => exact fun s hs => by cases hs

/-- Started games are sound in every reached world. -/
theorem sound_reached (hw : Reached w) (hs : s ∈ w.tttListG) (hi : .initGame s.node ∈ w.trace) :
    Sound s.ttt := by
  have hview := view_reached (I := ViewSound) (fun _ s hs => by cases hs)
    (fun w n p v hw hv ht => viewSound_touch (lived_reached hw n) hv ht) hw s.node
  rw [view_of_mem hw.inv hs] at hview
  exact hview s rfl (mem_effectsOf.mpr ⟨hi, rfl⟩)

/-- A game in progress has a free square. -/
theorem Sound.exists_idle {t : Game} (h : Sound t) (hr : t.result = .inProgress) :
    ∃ square, (t.board square).status = .idle := by
  by_contra hn
  have hall : marked t.board = Finset.univ := by
    ext square
    simpa [mem_marked] using not_exists.mp hn square
  have hcount := h.count
  rw [hall, Finset.card_univ] at hcount
  have hcard : Fintype.card Square = 9 := by decide
  have hgoing := h.going hr
  omega

/-- A session whose game was started is well formed as such. -/
theorem started_of_trace (hw : Reached w) (hs : s ∈ w.tttListG)
    (hi : .initGame s.node ∈ w.trace) : Started w.nextID s := by
  refine (hw.inv.sessions s hs).stage.resolve_left fun hwait => ?_
  have hbegun := (listed_reached hw hs).begun (mem_effectsOf.mpr ⟨hi, rfl⟩)
  exact hbegun (congrArg Prod.fst hwait.turn)

/-- The confirm handler leaves started sessions alone. -/
theorem confirmClick_keeps (hi : Inv w) (click : Click) (hs : s ∈ w.tttListG)
    (hstarted : Started w.nextID s) : s ∈ (w.confirmClick click).tttListG := by
  have h := confirm_change hi click
  generalize w.confirmClick click = w' at h
  cases h with
  | quiet => exact hs
  | @accepted click player pre t post hacc =>
    have hst : s ≠ t := by
      rintro rfl
      have hc := hstarted.confm player
      rw [hacc.unanswered] at hc
      cases hc
    rw [hacc.list] at hs
    exact mem_entry.mpr (Or.inr ((mem_entry.mp hs).resolve_left hst))

/-- What the board handler does with a started session. -/
theorem boardClick_started (hi : Inv w) (click : Click) (hs : s ∈ w.tttListG) :
    s ∈ (w.boardClick click).tttListG ∨
      (click.messageId = s.ttt.game.id ∧ click.user = s.ttt.turn.1 ∧
        ((∃ square, click.customId = (s.ttt.board square).id ∧
            (s.ttt.board square).status = .idle ∧
            { s with ttt := Game.move s.ttt square } ∈ (w.boardClick click).tttListG) ∨
          (∀ square, click.customId ≠ (s.ttt.board square).id) ∧
            { s with ttt := s.ttt.fetchWinner.swapTurn } ∈ (w.boardClick click).tttListG)) := by
  have h := board_change hi click
  generalize w.boardClick click = w' at h
  cases h with
  | quiet => exact Or.inl hs
  | @played click square pre t post hturn hsq hidle =>
    rw [hturn.list] at hs
    rcases mem_entry.mp hs with rfl | hs
    · exact Or.inr ⟨hturn.message, hturn.user, Or.inl ⟨square, hsq, hidle,
        List.mem_append_cons_self⟩⟩
    · exact Or.inl (mem_entry.mpr (Or.inr hs))
  | @strayed click pre t post hturn hsq =>
    rw [hturn.list] at hs
    rcases mem_entry.mp hs with rfl | hs
    · exact Or.inr ⟨hturn.message, hturn.user, Or.inr ⟨hsq, List.mem_append_cons_self⟩⟩
    · exact Or.inl (mem_entry.mpr (Or.inr hs))

/-- The turn has gone to the other player, with the other mark. -/
structure Passed (t u : Game) : Prop where
  /-- Another user has the turn. -/
  player : u.turn.1 ≠ t.turn.1
  /-- This user is a player. -/
  versus : u.turn.1 = t.player1 ∨ u.turn.1 = t.player2
  /-- The other mark is set next. -/
  mark : u.turn.2 ≠ t.turn.2

/-- The player to move is one of the two, and the turn goes to the other one
or the game is a draw. -/
theorem passed_turn {t : Game} (hp : t.player1 ≠ t.player2)
    (ht : t.turn.1 = t.player1 ∨ t.turn.1 = t.player2) :
    t.swapTurn.result = .draw ∨ Passed t t.swapTurn := by
  by_cases hd : 9 ≤ t.turns + 1 ∧ t.result ≠ .won
  · rw [swapTurn_draw hd.1 hd.2]
    exact Or.inl rfl
  · rw [swapTurn_pass hd]
    have hmark : (if t.turn.2 = .x then Status.o else Status.x) ≠ t.turn.2 := by
      cases t.turn.2 <;> decide
    rcases ht with ht | ht
    · rw [if_pos ht]
      exact Or.inr ⟨fun he => hp (ht.symm.trans he.symm), Or.inr rfl, hmark⟩
    · have hne : t.turn.1 ≠ t.player1 := fun he => hp (he.symm.trans ht)
      rw [if_neg hne]
      exact Or.inr ⟨hne.symm, Or.inl rfl, hmark⟩

/-- A move passes the turn to the other player or ends in a draw. -/
theorem move_passed {t : Game} (hp : t.player1 ≠ t.player2)
    (ht : t.turn.1 = t.player1 ∨ t.turn.1 = t.player2) (square : Square) :
    (Game.move t square).result = .draw ∨ Passed t (Game.move t square) := by
  have hturn : (t.setStatus square t.turn.2).fetchWinner.turn = t.turn := fetchWinner_turn _
  have h1 : (t.setStatus square t.turn.2).fetchWinner.player1 = t.player1 :=
    fetchWinner_player1 _
  have h2 : (t.setStatus square t.turn.2).fetchWinner.player2 = t.player2 :=
    fetchWinner_player2 _
  unfold Game.move
  generalize (t.setStatus square t.turn.2).fetchWinner = u at hturn h1 h2
  rw [← h1, ← h2] at hp ht
  rw [← hturn] at ht
  refine (passed_turn hp ht).imp_right fun hpassed => ?_
  obtain ⟨hplayer, hversus, hmark⟩ := hpassed
  rw [hturn] at hplayer hmark
  rw [h1, h2] at hversus
  exact ⟨hplayer, hversus, hmark⟩

/-- A touch that is no click changes no play. -/
theorem touch_samePlay {p : Part} {v v' : View} (ht : Touch w node p v v')
    (hp : ∀ click, p ≠ .confirm click ∧ p ≠ .board click) {s' : Session}
    (hs : v.session = some s) (hs' : v'.session = some s') : SamePlay s.ttt s'.ttt := by
  cases ht with
  | created => cases hs
  | @confirmed click => exact absurd rfl (hp click).1
  | @started click => exact absurd rfl (hp click).1
  | @declined click => exact absurd rfl (hp click).1
  | @played click => exact absurd rfl (hp click).2
  | @strayed click => exact absurd rfl (hp click).2
  | dropped => exact Option.some.inj (hs.symm.trans hs') ▸ SamePlay.refl _
  | asked => exact Option.some.inj (hs.symm.trans hs') ▸ SamePlay.refl _
  | orphaned => cases hs
  | erased => cases hs'
  | _ =>
    cases hs
    cases hs'
    exact ⟨fun _ => rfl, fun _ => rfl, rfl, rfl, rfl⟩

/-- Commands and callbacks change no play. -/
theorem samePlay_other (hw : Reached w) {e : Event} (he : ∀ click, e ≠ .click click)
    (hs : s ∈ w.tttListG) {s' : Session} (hs' : s' ∈ (w.step e).tttListG)
    (hn : s'.node = s.node) : SamePlay s.ttt s'.ttt := by
  have hpart : ∀ p, w.part p = w.step e → (∀ click, p ≠ .confirm click ∧ p ≠ .board click) →
      SamePlay s.ttt s'.ttt := by
    intro p hp hclick
    have hfind := find_of_mem hw.inv hs
    have hfind' := find_of_mem (reached_part hw p).inv (hp ▸ hs')
    rw [hn] at hfind'
    rcases change_view hw.inv (part_change hw.inv p) s.node with hsame | htouch
    · have heq := congrArg View.session hsame
      simp only [view, hfind, hfind', Option.some.injEq] at heq
      exact heq ▸ SamePlay.refl _
    · exact touch_samePlay htouch hclick hfind hfind'
  cases e with
  | click click => exact absurd rfl (he click)
  | command message order => exact hpart (.command message order) rfl (by simp)
  | callback callback response => exact hpart (.callback callback response) rfl (by simp)

end TintempPlusPlus.StartedGames
