import TintempPlusPlus.Display

/-!
# The frame of a click

A click on a shown button changes one session at most, and that session was
clicked on by one of its players. Clicks on two different games therefore
commute.
-/

namespace TintempPlusPlus.Frame

open Discord UniqueID Ttt Handlers ScanLoop Play HandlerLaws Program OneEntry EventRuns Invariant
  Steps Reachable Views Lives Display

/-- What a click may change. -/
structure Framed (w w' : World) (click : Click) : Prop where
  /-- One session at most is changed in its place, by one of its players and
  from one of its messages. -/
  change : w'.tttListG = w.tttListG ∨ ∃ pre s s' post, w.tttListG = pre ++ s :: post ∧
    w'.tttListG = pre ++ s' :: post ∧ s'.node = s.node ∧
    (click.user = s.ttt.player1 ∨ click.user = s.ttt.player2) ∧
    (click.messageId = s.ttt.origin.id ∨ click.messageId = s.ttt.game.id)
  /-- A click on a challenge message changes no started board. -/
  board : (∃ t ∈ w.tttListG, click.messageId = t.ttt.origin.id) →
    ∀ s ∈ w.tttListG, ∀ s' ∈ w'.tttListG, s'.node = s.node → .initGame s.node ∈ w.trace →
      s'.ttt.board = s.ttt.board
  /-- A click on a game message changes no confirm flag. -/
  flags : (∃ t ∈ w.tttListG, click.messageId = t.ttt.game.id) →
    ∀ s ∈ w.tttListG, ∀ s' ∈ w'.tttListG, s'.node = s.node → s'.confirm = s.confirm

/-- The click is made on a game by the user who has the turn. -/
structure Plays (w : World) (click : Click) (s : Session) : Prop where
  /-- The session is listed. -/
  listed : s ∈ w.tttListG
  /-- The click is made on its game message. -/
  message : click.messageId = s.ttt.game.id
  /-- The user has the turn. -/
  user : click.user = s.ttt.turn.1

variable {w : World} {click other : Click} {s t : Session}

/-- No message is the challenge message of one session and the game message of
one. -/
theorem origin_ne_game (hi : Inv w) (hs : s ∈ w.tttListG) (ht : t ∈ w.tttListG)
    (hm : click.messageId = s.ttt.origin.id) : click.messageId ≠ t.ttt.game.id := by
  intro hg
  have hne := click.messageIssued
  by_cases hst : t = s
  · subst hst
    have hseparate := (hi.sessions t ht).separate
    rw [messageIds, ← hg, ← hm] at hseparate
    simp [hne] at hseparate
  · obtain ⟨pre, post, hl⟩ := List.mem_iff_append.mp hs
    have hrest : t ∈ pre ++ post := by
      rw [hl] at ht
      exact (mem_entry.mp ht).resolve_left hst
    refine ((hi.focus hl).2 t hrest).2.messages (a := click.messageId) ?_ ?_
    · exact mem_messageIds.mpr ⟨hne, Or.inr hm⟩
    · exact mem_messageIds.mpr ⟨hne, Or.inl hg⟩

/-- A confirm button is shown on the challenge message of its session. -/
theorem own_message (hd : Displayed w) (hshown : Shown w click) (hs : s ∈ w.tttListG)
    (ha : Addressed click s) : click.messageId = s.ttt.origin.id := by
  obtain ⟨shown, hmem, hid, hin⟩ := hshown
  rw [← hid]
  refine hd.own shown hmem (hid ▸ click.messageIssued) s hs ?_
  rcases ha with ha | ha
  · exact Or.inl (ha ▸ hin)
  · exact Or.inr (ha ▸ hin)

/-- The list after the confirm handler. -/
theorem confirmClick_list (hi : Inv w) (click : Click) :
    (w.confirmClick click).tttListG = w.tttListG ∨ ∃ player pre s post,
      Accepts w click player pre s post ∧
        (w.confirmClick click).tttListG = pre ++ (accept click player w.nextID s).1 :: post := by
  have h := confirm_change hi click
  generalize w.confirmClick click = w' at h
  cases h with
  | quiet => exact Or.inl rfl
  | @accepted click player pre s post hacc => exact Or.inr ⟨player, pre, s, post, hacc, rfl⟩

/-- The list after the board handler. -/
theorem boardClick_list (hi : Inv w) (click : Click) :
    (w.boardClick click).tttListG = w.tttListG ∨ ∃ pre s s' post,
      Turn w click pre s post ∧ (w.boardClick click).tttListG = pre ++ s' :: post ∧
        s'.node = s.node := by
  have h := board_change hi click
  generalize w.boardClick click = w' at h
  cases h with
  | quiet => exact Or.inl rfl
  | played hturn hsq hidle => exact Or.inr ⟨_, _, _, _, hturn, rfl, rfl⟩
  | strayed hturn hsq => exact Or.inr ⟨_, _, _, _, hturn, rfl, rfl⟩

/-- The confirm handler leaves a click on a game message alone. -/
theorem confirmClick_game (hd : Displayed w) (hi : Inv w) (hshown : Shown w click)
    (ht : t ∈ w.tttListG) (hm : click.messageId = t.ttt.game.id) :
    (w.confirmClick click).tttListG = w.tttListG := by
  refine (confirmClick_list hi click).resolve_right ?_
  rintro ⟨player, pre, s, post, hacc, -⟩
  exact origin_ne_game hi hacc.mem ht (own_message hd hshown hacc.mem hacc.addressed) hm

/-- The board handler leaves a click on a challenge message alone. -/
theorem boardClick_origin (hi : Inv w) (hs : s ∈ w.tttListG)
    (hm : click.messageId = s.ttt.origin.id) : (w.boardClick click).tttListG = w.tttListG := by
  refine (boardClick_list hi click).resolve_right ?_
  rintro ⟨pre, u, u', post, hturn, -⟩
  exact origin_ne_game hi hs hturn.mem hm hturn.message

/-- A click on a challenge message is left to the confirm handler. -/
theorem click_origin (hi : Inv w) (hs : s ∈ w.tttListG) (hm : click.messageId = s.ttt.origin.id) :
    (w.step (.click click)).tttListG = (w.confirmClick click).tttListG := by
  have hi' := change_inv hi (confirm_change hi click)
  rcases confirmClick_list hi click with hsame | ⟨player, pre, u, post, hacc, hl⟩
  · exact boardClick_origin hi' (hsame ▸ hs) hm
  · rw [hacc.list] at hs
    rcases mem_entry.mp hs with rfl | hs
    · refine boardClick_origin hi' (s := (accept click player w.nextID s).1) ?_ ?_
      · rw [hl]
        simp
      · exact hm.trans (accept_ids click player w.nextID s).2.symm
    · refine boardClick_origin hi' (s := s) ?_ hm
      rw [hl]
      exact mem_entry.mpr (Or.inr hs)

/-- A click on a game message is left to the board handler. -/
theorem click_game (hd : Displayed w) (hi : Inv w) (hshown : Shown w click)
    (ht : t ∈ w.tttListG) (hm : click.messageId = t.ttt.game.id) :
    (w.step (.click click)).tttListG = (w.boardClick click).tttListG := by
  have hsame := confirmClick_game hd hi hshown ht hm
  simp only [World.step, World.boardClick, hsame, World.emit]

/-- A click on a shown button changes one session at most. -/
theorem click_change (hd : Displayed w) (hi : Inv w) (hshown : Shown w click) :
    (w.step (.click click)).tttListG = w.tttListG ∨ ∃ pre s s' post,
      w.tttListG = pre ++ s :: post ∧ (w.step (.click click)).tttListG = pre ++ s' :: post ∧
      s'.node = s.node ∧ (click.user = s.ttt.player1 ∨ click.user = s.ttt.player2) ∧
      (click.messageId = s.ttt.origin.id ∨ click.messageId = s.ttt.game.id) := by
  rcases confirmClick_list hi click with hsame | ⟨player, pre, s, post, hacc, hl⟩
  · have hboard : (w.step (.click click)).tttListG = (w.boardClick click).tttListG := by
      simp only [World.step, World.boardClick, hsame, World.emit]
    rw [hboard]
    rcases boardClick_list hi click with hquiet | ⟨pre, s, s', post, hturn, hl, hn⟩
    · exact Or.inl hquiet
    · refine Or.inr ⟨pre, s, s', post, hturn.list, hl, hn, ?_, Or.inr hturn.message⟩
      rw [hturn.user]
      exact hturn.started.turn
  · have hm := own_message hd hshown hacc.mem hacc.addressed
    rw [click_origin hi hacc.mem hm]
    refine Or.inr ⟨pre, s, _, post, hacc.list, hl, (accept_kin _ _ _ _).node, ?_, Or.inl hm⟩
    refine (hi.sessions s hacc.mem).isPlayer.mp ?_
    unfold IsPlayer
    rw [hacc.user]
    rfl

/-- A click on a challenge message changes no started board. -/
theorem click_origin_board (hw : Reached w) (ht : t ∈ w.tttListG)
    (hm : click.messageId = t.ttt.origin.id) (hs : s ∈ w.tttListG) {s' : Session}
    (hs' : s' ∈ (w.step (.click click)).tttListG) (hn : s'.node = s.node)
    (hinit : .initGame s.node ∈ w.trace) : s'.ttt.board = s.ttt.board := by
  have hi := hw.inv
  rw [click_origin hi ht hm] at hs'
  rcases confirmClick_list hi click with hsame | ⟨player, pre, u, post, hacc, hl⟩
  · rw [hsame] at hs'
    rw [node_inj hi hs' hs hn]
  · rw [hl] at hs'
    rcases mem_entry.mp hs' with rfl | hs'
    · -- the accepted session had not been started
      have hus : u = s := node_inj hi hacc.mem hs ((accept_kin _ _ _ _).node.symm.trans hn)
      subst hus
      have hbegun := (listed_reached hw hs).begun (mem_effectsOf.mpr ⟨hinit, rfl⟩)
      exact absurd (congrArg Prod.fst (accepts_waiting hacc (hi.sessions u hs)).turn) hbegun
    · have hold : s' ∈ w.tttListG := by
        rw [hacc.list]
        exact mem_entry.mpr (Or.inr hs')
      rw [node_inj hi hold hs hn]

/-- A click on a game message changes no confirm flag. -/
theorem click_game_confirm (hd : Displayed w) (hi : Inv w) (hshown : Shown w click)
    (ht : t ∈ w.tttListG) (hm : click.messageId = t.ttt.game.id) (hs : s ∈ w.tttListG)
    {s' : Session} (hs' : s' ∈ (w.step (.click click)).tttListG) (hn : s'.node = s.node) :
    s'.confirm = s.confirm := by
  rw [click_game hd hi hshown ht hm] at hs'
  obtain ⟨u, hu, hun, huc⟩ := boardClick_confirm hi click hs
  rw [node_inj (change_inv hi (board_change hi click)) hs' hu (hn.trans hun.symm), huc]

/-- What a click on a game does to a list element. -/
def playing (click : Click) (node : ℕ) (s : Session) : Session :=
  if s.node = node then (boardBody click () s).item else s

/-- A round of the board handler keeps the list element. -/
theorem boardBody_node (s : Session) : (boardBody click () s).item.node = s.node := by
  simp only [boardBody]
  split_ifs <;> simp only

/-- A click by the user who has the turn reaches its game only. -/
theorem click_plays (hd : Displayed w) (hi : Inv w) (hshown : Shown w click)
    (hp : Plays w click s) : (w.step (.click click)).tttListG =
      w.tttListG.map (playing click s.node) := by
  obtain ⟨pre, post, hl⟩ := List.mem_iff_append.mp hp.listed
  have hstarted := (hi.sessions s hp.listed).started hp.user
  rw [click_game hd hi hshown hp.listed hp.message,
    boardClick_turn hi ⟨hl, hp.message, hp.user, hstarted⟩, hl]
  exact (map_entry (hi.keys hl) fun u => (boardBody click () u).item).symm

/-- What was shown is shown after a click. -/
theorem shown_step (h : Shown w other) : Shown (w.step (.click click)) other := by
  obtain ⟨shown, hm, hrest⟩ := h
  exact ⟨shown, mem_shows_emit.mpr (Or.inl (mem_shows_emit.mpr (Or.inl hm))), hrest⟩

/-- A click on one game leaves a click on another game possible. -/
theorem plays_step (hd : Displayed w) (hi : Inv w) (hshown : Shown w click)
    (hp : Plays w click s) (hq : Plays w other t) (hne : s.node ≠ t.node) :
    Plays (w.step (.click click)) other t := by
  refine ⟨?_, hq.message, hq.user⟩
  rw [click_plays hd hi hshown hp]
  refine List.mem_map.mpr ⟨t, hq.listed, ?_⟩
  rw [playing, if_neg hne.symm]

/-- In every run whose clicks are made on shown buttons, a click on a shown
button is framed, and two clicks by the users who have the turn of two
different games give the same list in either order. -/
theorem framed_run {events : List Event} (h : Along World.step ClicksShown World.init events) :
    (∀ click, Shown (run events) click →
      Framed (run events) ((run events).step (.click click)) click) ∧
    ∀ click other s t, Plays (run events) click s → Plays (run events) other t →
      s.node ≠ t.node → Shown (run events) click → Shown (run events) other →
      (run (events ++ [.click click, .click other])).tttListG =
        (run (events ++ [.click other, .click click])).tttListG := by
  have hw := reached_run events
  have hd := displayed_run h
  refine ⟨fun click hshown => ⟨click_change hd hw.inv hshown, ?_, ?_⟩, ?_⟩
  · rintro ⟨t, ht, hm⟩ s hs s' hs' hn hinit
    exact click_origin_board hw ht hm hs hs' hn hinit
  · rintro ⟨t, ht, hm⟩ s hs s' hs' hn
    exact click_game_confirm hd hw.inv hshown ht hm hs hs' hn
  · have hboth : ∀ click other s t, Plays (run events) click s → Plays (run events) other t →
        s.node ≠ t.node → Shown (run events) click → Shown (run events) other →
        (run (events ++ [.click click, .click other])).tttListG =
          ((run events).tttListG.map (playing click s.node)).map (playing other t.node) := by
      intro click other s t hp hq hne hc ho
      have hsplit : events ++ [.click click, .click other] =
          (events ++ [.click click]) ++ [.click other] := by simp
      have hd' : Displayed (run (events ++ [.click click])) :=
        displayed_run (along_concat.mpr ⟨h, hc⟩)
      have hi' := inv_run (events ++ [.click click])
      rw [hsplit, run_concat]
      rw [run_concat] at hd' hi' ⊢
      rw [click_plays hd' hi' (shown_step ho) (plays_step hd hw.inv hc hp hq hne),
        click_plays hd hw.inv hc hp]
    intro click other s t hp hq hne hc ho
    rw [hboth click other s t hp hq hne hc ho, hboth other click t s hq hp hne.symm ho hc]
    exact map_map_other Session.node hne boardBody_node boardBody_node

/-- User 11 has the turn of two games, and the order of the two clicks does
not matter. -/
theorem framed_twoGames :
    Framed (run twoGames) ((run twoGames).step (.click (clickBy 11 101 "p_000_4")))
      (clickBy 11 101 "p_000_4") ∧
    (run (twoGames ++
      [.click (clickBy 11 101 "p_000_4"), .click (clickBy 11 201 "p_000_16")])).tttListG =
    (run (twoGames ++
      [.click (clickBy 11 201 "p_000_16"), .click (clickBy 11 101 "p_000_4")])).tttListG := by
  have hclicks : Along World.step ClicksShown World.init twoGames := by decide
  have hfirst : (0, 101, 11) ∈ (run twoGames).tttListG.map
      fun s => (s.node, s.ttt.game.id, s.ttt.turn.1) := by decide
  have hsecond : (1, 201, 11) ∈ (run twoGames).tttListG.map
      fun s => (s.node, s.ttt.game.id, s.ttt.turn.1) := by decide
  obtain ⟨s, hs, hplays⟩ := List.mem_map.mp hfirst
  obtain ⟨t, ht, hplayt⟩ := List.mem_map.mp hsecond
  simp only [Prod.mk.injEq] at hplays hplayt
  have hne : s.node ≠ t.node := by
    rw [hplays.1, hplayt.1]
    decide
  refine ⟨(framed_run hclicks).1 _ (by decide), (framed_run hclicks).2 _ _ s t ?_ ?_ hne
    (by decide) (by decide)⟩
  · exact ⟨hs, hplays.2.1.symm, hplays.2.2.symm⟩
  · exact ⟨ht, hplayt.2.1.symm, hplayt.2.2.symm⟩

end TintempPlusPlus.Frame
