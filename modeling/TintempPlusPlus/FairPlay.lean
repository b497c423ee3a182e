import TintempPlusPlus.Matches
import TintempPlusPlus.Progress
import TintempPlusPlus.Frame

/-!
# Fair play

A user sees a message as it was sent last, and presses the buttons on it that
are enabled. As long as everybody does only that, every started game is
played by the rules of the line game: each turn marks a free square, and
nobody plays after the end.
-/

namespace TintempPlusPlus.FairPlay

open Discord UniqueID Ttt Handlers ScanLoop BoardLaws LineGame Play HandlerLaws Program OneEntry
  EventRuns Invariant Steps Reachable Views Lives Frozen StartedGames Display Deployment Matches
  Progress

/-- The message that is shown under an id now. -/
def current (w : World) (id : Snowflake) : Option Message := (shows w).reverse.lookup id

/-- The message has an enabled button with this id. -/
def Enabled (message : Message) (customId : String) : Prop :=
  ∃ row ∈ message.components, ∃ button ∈ row.components,
    button.customId = customId ∧ button.disabled = false

/-- The click presses an enabled button of the message as it is shown now. -/
def Pressed (w : World) (click : Click) : Prop :=
  ∃ message ∈ current w click.messageId, Enabled message click.customId

/-- Users press enabled buttons only. -/
def Pressing (w : World) : Event → Prop
  | .click click => Pressed w click
  | _ => True

/-- Users press enabled buttons only, and confirm buttons are shown on their own
messages. -/
def PressingFairly (w : World) (e : Event) : Prop := Pressing w e ∧ Displayed w

instance (message : Message) (customId : String) : Decidable (Enabled message customId) :=
  inferInstanceAs (Decidable (∃ row ∈ message.components, ∃ button ∈ row.components,
    button.customId = customId ∧ button.disabled = false))

instance (w : World) (click : Click) : Decidable (Pressed w click) :=
  inferInstanceAs (Decidable (∃ message ∈ current w click.messageId, _))

instance (w : World) : ∀ e, Decidable (Pressing w e)
  | .click click => inferInstanceAs (Decidable (Pressed w click))
  | .command _ _ => inferInstanceAs (Decidable True)
  | .callback _ _ => inferInstanceAs (Decidable True)

variable {w w' : World} {s t : Session} {click : Click} {id : Snowflake} {message : Message}
  {p : Part}

/-! ## What is shown now -/

/-- A message is shown as new effects show it last, and else as before. -/
theorem current_emit (w : World) (effects : List Effect) (id : Snowflake) :
    current (w.emit effects) id =
      ((effects.filterMap shows?).reverse.lookup id).or (current w id) := by
  have hshows : shows (w.emit effects) = shows w ++ effects.filterMap shows? := by
    simp [shows, World.emit]
  rw [current, hshows, List.reverse_append, List.lookup_append]
  rfl

/-- Nothing is shown anew under the id. -/
theorem current_emit_of_ne {effects : List Effect}
    (h : ∀ effect ∈ effects, ∀ shown, shows? effect = some shown → shown.1 ≠ id) :
    current (w.emit effects) id = current w id := by
  have hnone : (effects.filterMap shows?).reverse.lookup id = none := by
    refine List.lookup_eq_none_iff.mpr fun shown hm => ?_
    obtain ⟨effect, he, hs⟩ := List.mem_filterMap.mp (List.mem_reverse.mp hm)
    exact bne_iff_ne.mpr (h effect he shown hs).symm
  rw [current_emit, hnone, Option.none_or]

/-- Warnings change no shown message. -/
theorem current_warnings {effects : List Effect} (h : ∀ effect ∈ effects, Warning effect) :
    current (w.emit effects) id = current w id := by
  refine current_emit_of_ne fun effect he shown hs => ?_
  rw [warning_shows (h effect he)] at hs
  cases hs

/-- A returned message is shown unless its id was shown already. -/
theorem current_receive (w : World) (message : Message) (id : Snowflake) :
    current (w.receive message) id =
      (current w id).or (if id = message.id then some message else none) := by
  have hshows : shows (w.receive message) = (message.id, message) :: shows w := rfl
  have hlast : [(message.id, message)].lookup id =
      if id = message.id then some message else none := by
    split_ifs with h
    · rw [h]
      exact List.lookup_cons_self
    · simpa using h
  rw [current, hshows, List.reverse_cons, List.lookup_append, hlast]
  rfl

/-- A returned message changes nothing under other ids. -/
theorem current_receive_of_ne (w : World) (message : Message) (h : id ≠ message.id) :
    current (w.receive message) id = current w id := by
  rw [current_receive, if_neg h, Option.or_none]

/-- The answer to a move shows the board. -/
theorem current_marked {node : ℕ} {square : Square} {status : Status} {t : Game}
    (hm : click.messageId = id) : current (w.emit (.placed node click square status ::
      moveEffects click node t)) id = some (t.fetchTttTurn {}) := by
  have hlast : (.placed node click square status :: moveEffects click node t).filterMap shows? =
      [(id, t.fetchTttTurn {})] := by
    rw [← hm]
    rfl
  rw [current_emit, hlast, List.reverse_singleton, List.lookup_cons_self, Option.some_or]

/-- What is shown now was shown. -/
theorem shown_of_current (h : current w id = some message) : (id, message) ∈ shows w := by
  obtain ⟨before, behind, hsplit, -⟩ := List.lookup_eq_some_iff.mp h
  refine List.mem_reverse.mp ?_
  rw [hsplit]
  exact List.mem_append_right _ List.mem_cons_self

/-- An enabled button is a shown one. -/
theorem Pressed.shown (h : Pressed w click) : Shown w click := by
  obtain ⟨message, hmessage, row, hrow, button, hbutton, hid, -⟩ := h
  refine ⟨_, shown_of_current hmessage, rfl, ?_⟩
  exact List.mem_flatMap.mpr ⟨row, hrow, List.mem_map.mpr ⟨button, hbutton, hid⟩⟩

/-- An enabled button is a shown one. -/
theorem pressing_shown : ∀ (w : World) (e : Event), Pressing w e → ClicksShown w e
  | _, .command _ _, _ => trivial
  | _, .click _, h => Pressed.shown h
  | _, .callback _ _, _ => trivial

/-! ## Games go on -/

/-- The message shown under the game message of a session is its board. -/
def OnBoard (w : World) (s : Session) : Prop :=
  ∃ message ∈ current w s.ttt.game.id, message.components = (s.ttt.fetchTttTurn {}).components

/-- What becomes of a started session. -/
inductive GoesOn (w : World) (p : Part) (w' : World) (s : Session) : Prop
  /-- Its play stays as it is. -/
  | kept {t : Session} (ht : t ∈ w'.tttListG) (hn : t.node = s.node)
    (hplay : SamePlay s.ttt t.ttt)
    (hids : ∀ square, (t.ttt.board square).id = (s.ttt.board square).id)
    (h1 : t.ttt.player1 = s.ttt.player1) (h2 : t.ttt.player2 = s.ttt.player2)
    (hgame : Deployed s → t.ttt.game = s.ttt.game)
    (hboard : Deployed s → current w' s.ttt.game.id = current w s.ttt.game.id)
  /-- A square is marked. -/
  | marked {click : Click} {square : Square} {pre post : List Session} (hp : p = .board click)
    (hturn : Turn w click pre s post) (hsq : click.customId = (s.ttt.board square).id)
    (hidle : (s.ttt.board square).status = .idle)
    (ht : { s with ttt := Game.move s.ttt square } ∈ w'.tttListG)
    (hboard : current w' s.ttt.game.id = some ((Game.move s.ttt square).fetchTttTurn {}))
  /-- A turn is missed. -/
  | missed {click : Click} {pre post : List Session} (hp : p = .board click)
    (hturn : Turn w click pre s post) (hsq : ∀ square, click.customId ≠ (s.ttt.board square).id)
  /-- It is erased. -/
  | gone (hgone : ∀ t ∈ w'.tttListG, t.node ≠ s.node)

/-- A deployed game has a game message. -/
theorem deployed_ne_zero (h : Deployed s) : s.ttt.game.id ≠ 0 := by
  rw [h.message]
  exact h.posted

/-- What an accepted answer of another session shows is shown elsewhere. -/
theorem accepted_elsewhere {player : Player} {pre post : List Session} (hi : Inv w)
    (hd : Displayed w) (hshown : Shown w click) (hacc : Accepts w click player pre t post)
    (hs : s ∈ w.tttListG) (hne : s.ttt.game.id ≠ 0) (hst : s ≠ t) :
    ∀ effect ∈ (accept click player w.nextID t).2.2 ++ warnings click post, ∀ shown,
      shows? effect = some shown → shown.1 ≠ s.ttt.game.id := by
  obtain ⟨hother, horigin⟩ := game_apart hi hs hne hacc.mem
  intro effect he shown hm
  rcases List.mem_append.mp he with he | he
  · rcases accept_shown effect he shown hm with h | ⟨h, -⟩ | ⟨hy, h⟩
    · rw [h]
      exact horigin
    · rw [h]
      exact fun hsame => hst (hother hsame).symm
    · -- the YES was shown on the challenge message
      obtain ⟨known, hknown, hk, hin⟩ := hshown
      have hown := hd.own known hknown (hk ▸ click.messageIssued) t hacc.mem (Or.inl (hy ▸ hin))
      rw [h, ← hk, hown]
      exact horigin
  · rw [warning_shows (warning_of_mem_warnings effect he)] at hm
    cases hm

/-- Every started session goes on while users click on shown buttons. -/
theorem goesOn_change (hw : Reached w) (hd : Displayed w) (hc : Within ClicksShown w p)
    (h : Change w p w') (hs : s ∈ w.tttListG) (hinit : .initGame s.node ∈ w.trace) :
    GoesOn w p w' s := by
  have hi := hw.inv
  have hstarted := started_of_trace hw hs hinit
  have hstays : s ∈ w'.tttListG →
      (Deployed s → current w' s.ttt.game.id = current w s.ttt.game.id) → GoesOn w p w' s :=
    fun hs' hboard => .kept hs' rfl (SamePlay.refl _) (fun _ => rfl) rfl rfl (fun _ => rfl) hboard
  have hother : ∀ {pre post : List Session} {u u' : Session}, w.tttListG = pre ++ u :: post →
      s ≠ u → s ∈ pre ++ u' :: post := by
    intro pre post u u' hl hne
    rw [hl] at hs
    exact mem_entry.mpr (Or.inr ((mem_entry.mp hs).resolve_left hne))
  have hfresh : ∀ {posted : Message}, posted.id ∉ w.issued → Deployed s →
      s.ttt.game.id ≠ posted.id := by
    intro posted hnew hdep he
    have hknown := (hi.sessions s hs).known _
      (mem_messageIds.mpr ⟨deployed_ne_zero hdep, Or.inl rfl⟩)
    exact hnew (he ▸ hknown)
  have hmove : ∀ (effects : List Effect) {u : Session} {click : Click} {t : Game} {node : ℕ},
      u ∈ w.tttListG → s ≠ u → click.messageId = u.ttt.game.id →
      (∀ effect ∈ effects, shows? effect = none) → Deployed s →
      ∀ effect ∈ effects ++ moveEffects click node t, ∀ shown, shows? effect = some shown →
        shown.1 ≠ s.ttt.game.id := by
    intro effects u click t node hu hne hm hnone hdep effect he shown hshown
    rcases List.mem_append.mp he with he | he
    · rw [hnone effect he] at hshown
      cases hshown
    · simp only [moveEffects, List.mem_cons, List.not_mem_nil, or_false] at he
      rcases he with rfl | rfl <;> cases hshown
      have hapart := (game_apart hi hs (deployed_ne_zero hdep) hu).1
      exact fun hsame => hne (hapart (hm.symm.trans hsame)).symm
  cases h with
  | quiet hwarn => exact hstays hs fun _ => current_warnings hwarn
  | challenged =>
    refine hstays (List.mem_append_left _ hs) fun _ => current_emit_of_ne ?_
    simp [shows?]
  | @accepted click player pre u post hacc =>
    have hne : s ≠ u := by
      rintro rfl
      have hset := hstarted.confm player
      rw [hacc.unanswered] at hset
      cases hset
    exact hstays (hother hacc.list hne) fun hdep =>
      current_emit_of_ne (accepted_elsewhere hi hd hc hacc hs (deployed_ne_zero hdep) hne)
  | @played click square pre u post hturn hsq hidle =>
    by_cases he : s = u
    · subst he
      exact .marked rfl hturn hsq hidle List.mem_append_cons_self (current_marked hturn.message)
    · refine hstays (hother hturn.list he) fun hdep => current_emit_of_ne ?_
      exact hmove [.placed u.node click square u.ttt.turn.2] hturn.mem he hturn.message
        (by simp [shows?]) hdep
  | @strayed click pre u post hturn hsq =>
    by_cases he : s = u
    · subst he
      exact .missed rfl hturn hsq
    · refine hstays (hother hturn.list he) fun hdep => current_emit_of_ne ?_
      exact hmove [] hturn.mem he hturn.message (by simp) hdep
  | dropped => exact hstays hs fun _ => rfl
  | received hcb hnew => exact hstays hs fun hdep => current_receive_of_ne _ _ (hfresh hnew hdep)
  | asked =>
    refine hstays hs fun _ => ?_
    refine (current_emit_of_ne (w := taken w _) ?_).trans rfl
    simp [shows?]
  | @originSet uid posted deployment pre u post hcb hnew hl huid hno =>
    have hboard : Deployed s → _ := fun hdep =>
      current_receive_of_ne w (posted.deployed deployment) (hfresh hnew hdep)
    by_cases he : s = u
    · subst he
      exact .kept List.mem_append_cons_self rfl ⟨fun _ => rfl, fun _ => rfl, rfl, rfl, rfl⟩
        (fun _ => rfl) rfl rfl (fun _ => rfl) hboard
    · exact hstays (hother hl he) hboard
  | @stored click deployment pre u post hcb hnew hl =>
    by_cases he : s = u
    · subst he
      have hundone : ¬ Deployed s := by
        intro hdep
        have hmem := mem_awaiting.mpr ⟨mem_callbacksOf.mpr ⟨hcb, rfl⟩, rfl⟩
        rw [(listed_reached hw hs).done hdep.replied] at hmem
        cases hmem
      exact .kept List.mem_append_cons_self rfl ⟨fun _ => rfl, fun _ => rfl, rfl, rfl, rfl⟩
        (fun _ => rfl) rfl rfl (fun hdep => absurd hdep hundone) fun hdep => absurd hdep hundone
    · exact hstays (hother hl he) fun hdep =>
        current_receive_of_ne w ((confirmedReply click).deployed deployment) (hfresh hnew hdep)
  | @announced click deployment pre u post embed hcb hl hr =>
    have hboard : Deployed s → current (w.emit
        [.messageCreate (resultMessage click u embed) (.resultMessage u.node),
          .messageEdit (u.ttt.setOriginEmbed (endedEmbed u.ttt)).origin .log]) s.ttt.game.id =
        current w s.ttt.game.id := by
      intro hdep
      refine current_emit_of_ne fun effect he shown hshown => ?_
      simp only [List.mem_cons, List.not_mem_nil, or_false] at he
      rcases he with rfl | rfl <;> cases hshown
      exact (game_apart hi hs (deployed_ne_zero hdep) (mem_of_split hl)).2
    by_cases he : s = u
    · subst he
      exact .kept List.mem_append_cons_self rfl ⟨fun _ => rfl, fun _ => rfl, rfl, rfl, rfl⟩
        (fun _ => rfl) rfl rfl (fun _ => rfl) hboard
    · exact hstays (hother hl he) hboard
  | @erased deployment pre u post hcb hl =>
    by_cases he : s = u
    · subst he
      exact .gone (hi.keys hl)
    · refine hstays ?_ fun _ => rfl
      rw [hl] at hs
      exact (mem_entry.mp hs).resolve_left he

/-! ## Fair games -/

/-- The session has been played by the rules, and its board is shown. -/
structure Fair (w : World) (s : Session) : Prop where
  /-- The position is that of a play by the rules. -/
  legal : ∃ places p, Played lines 9 places p ∧ Shows s.ttt p
  /-- The board is shown on the stored reply. -/
  board : Deployed s → OnBoard w s

/-- The buttons of a board are those of its squares. -/
theorem board_buttons {t : Game} {row : Component} {button : Button}
    (hrow : row ∈ (t.fetchTttTurn {}).components) (hbutton : button ∈ row.components) :
    ∃ square, button = t.tttButton t.board square := by
  rw [fetchTttTurn_components] at hrow
  simp only [Game.fetchTttComponents, Component.addComponent, List.nil_append, List.mem_cons,
    List.not_mem_nil, or_false] at hrow
  rcases hrow with rfl | rfl | rfl <;>
    · simp only [List.nil_append, List.cons_append, List.mem_cons, List.not_mem_nil,
        or_false] at hbutton
      rcases hbutton with rfl | rfl | rfl <;> exact ⟨_, rfl⟩

/-- Boards that look the same have the same buttons. -/
theorem components_congr {t u : Game} (hplay : SamePlay t u)
    (hids : ∀ square, (u.board square).id = (t.board square).id) :
    (u.fetchTttTurn {}).components = (t.fetchTttTurn {}).components := by
  have hboard : u.board = t.board := by
    funext square
    have hid := hids square
    have hstatus := hplay.status square
    have hwon := hplay.won square
    generalize u.board square = a at hid hstatus hwon
    generalize t.board square = b at hid hstatus hwon
    obtain ⟨id, status, won⟩ := a
    obtain ⟨id', status', won'⟩ := b
    simp_all
  simp only [fetchTttTurn_components, Game.fetchTttComponents, Game.tttButton, hboard,
    hplay.result]

/-- An enabled button of a board that is shown is a square of a game in
progress. -/
theorem pressed_square (h : OnBoard w s) (hpressed : Pressed w click)
    (hm : click.messageId = s.ttt.game.id) : ¬ Ended s.ttt ∧
      ∃ square, click.customId = (s.ttt.board square).id := by
  obtain ⟨message, hcurrent, hcomponents⟩ := h
  obtain ⟨shown, hshown, row, hrow, button, hbutton, hid, hable⟩ := hpressed
  rw [hm] at hshown
  cases Option.some.inj (hshown.symm.trans hcurrent)
  rw [hcomponents] at hrow
  obtain ⟨square, rfl⟩ := board_buttons hrow hbutton
  exact ⟨of_decide_eq_false hable, square, hid.symm⟩

/-- A button that is pressed on a game message is still shown when the second
handler of the click runs. -/
theorem pressed_board {pre post : List Session}
    (hc : Within PressingFairly w (.board click))
    (hturn : Turn w click pre s post) : Pressed w click := by
  obtain ⟨before, hb, hw, hpressed, hd⟩ := hc
  have hchange := confirm_change hb.inv click
  have hi := change_inv hb.inv hchange
  rw [← hw] at hchange hi
  cases hchange with
  | quiet hwarn =>
    rw [Pressed, current_warnings hwarn]
    exact hpressed
  | @accepted click player front u behind hacc =>
    have horigin := Frame.own_message hd hpressed.shown hacc.mem hacc.addressed
    rw [← (accept_ids click player before.nextID u).2] at horigin
    exact absurd hturn.message
      (Frame.origin_ne_game hi List.mem_append_cons_self hturn.mem horigin)

/-- The game message of every started session is shown as it is stored. -/
def GamesShown (w : World) : Prop :=
  ∀ s ∈ w.tttListG, .initGame s.node ∈ w.trace → (s.ttt.game.id, s.ttt.game) ∈ shows w

/-- What is shown stays shown. -/
theorem shows_emit_subset (effects : List Effect) : shows w ⊆ shows (w.emit effects) :=
  fun _ h => mem_shows_emit.mpr (Or.inl h)

/-- Nothing is started and no game message is changed. -/
theorem GamesShown.keep (h : GamesShown w)
    (hlist : ∀ t ∈ w'.tttListG, ∃ s ∈ w.tttListG, t.node = s.node ∧ t.ttt.game = s.ttt.game)
    (htrace : ∀ node, .initGame node ∈ w'.trace → .initGame node ∈ w.trace)
    (hshows : shows w ⊆ shows w') : GamesShown w' := by
  intro t ht hi
  obtain ⟨s, hs, hn, hg⟩ := hlist t ht
  rw [hn] at hi
  rw [hg]
  exact hshows (h s hs (htrace _ hi))

/-- One session is replaced. -/
theorem GamesShown.replace {pre post : List Session} (h : GamesShown w)
    (hl : w.tttListG = pre ++ s :: post) (hl' : w'.tttListG = pre ++ t :: post)
    (htrace : ∀ node, node ≠ s.node → .initGame node ∈ w'.trace → .initGame node ∈ w.trace)
    (hkeys : ∀ u ∈ pre ++ post, u.node ≠ s.node)
    (hself : .initGame t.node ∈ w'.trace → (t.ttt.game.id, t.ttt.game) ∈ shows w')
    (hshows : shows w ⊆ shows w') : GamesShown w' := by
  intro u hu hi
  rw [hl'] at hu
  rcases mem_entry.mp hu with rfl | hu
  · exact hself hi
  · refine hshows (h u ?_ (htrace _ (hkeys u hu) hi))
    rw [hl]
    exact mem_entry.mpr (Or.inr hu)

/-- An accepted answer shows the game that it starts. -/
theorem accept_game {player : Player} {nextID : ℕ} (s : Session)
    (hi : .initGame s.node ∈ (accept click player nextID s).2.2) :
    .messageEdit (accept click player nextID s).1.ttt.game .log ∈
      (accept click player nextID s).2.2 := by
  unfold accept at hi ⊢
  split_ifs at hi ⊢
  · simp at hi
  · simp
  · dsimp only at hi
    split_ifs at hi <;> simp at hi

/-- Every change keeps the started games shown. -/
theorem gamesShown_change {p : Part} (hw : Reached w) (h : GamesShown w) (hc : Change w p w') :
    GamesShown w' := by
  have hi := hw.inv
  have hsame : ∀ list ⊆ w.tttListG, ∀ t ∈ list, ∃ s ∈ w.tttListG, t.node = s.node ∧
      t.ttt.game = s.ttt.game := fun list hsub t ht => ⟨t, hsub ht, rfl, rfl⟩
  cases hc with
  | @quiet p effects hwarn =>
    refine h.keep (hsame _ (List.Subset.refl _)) (fun node hm => ?_) (shows_emit_subset _)
    refine (List.mem_append.mp hm).resolve_right fun hin => ?_
    have hnone := (hwarn _ hin).node
    cases hnone
  | @challenged message order mentioned hne =>
    obtain ⟨hf, -⟩ := newSession_fresh w order message.author mentioned.id
    intro t ht hinit
    have hold : .initGame t.node ∈ w.trace := by simpa [World.challenge, World.emit] using hinit
    rcases List.mem_append.mp ht with ht | ht
    · exact shows_emit_subset _ (h t ht hold)
    · rw [List.mem_singleton.mp ht] at hold
      have hlt := hi.traced _ hold _ rfl
      rw [hf.node] at hlt
      exact absurd hlt (lt_irrefl _)
  | @accepted click player pre s post hacc =>
    obtain ⟨hs, -⟩ := hi.focus hacc.list
    have hwait := accepts_waiting hacc hs
    have hnot : .initGame s.node ∉ w.trace := fun hin =>
      (listed_reached hw hacc.mem).begun (mem_effectsOf.mpr ⟨hin, rfl⟩)
        (congrArg Prod.fst hwait.turn)
    have hnode := (accept_kin click player w.nextID s).node
    have hwarn : ∀ node, .initGame node ∉ warnings click post := fun node hin => by
      have hnone := (warning_of_mem_warnings _ hin).node
      cases hnone
    refine h.replace hacc.list rfl ?_ (hi.keys hacc.list) ?_ (shows_emit_subset _)
    · intro node hne hm
      refine (List.mem_append.mp hm).resolve_right fun hin => ?_
      rcases List.mem_append.mp hin with hin | hin
      · rcases accept_effects click player w.nextID s _ hin with hn | hn
        · exact hne (Option.some.inj hn)
        · cases hn
      · exact hwarn node hin
    · rw [hnode]
      intro hm
      have hin : .initGame s.node ∈ (accept click player w.nextID s).2.2 := by
        rcases List.mem_append.mp hm with hin | hin
        · exact absurd hin hnot
        · exact (List.mem_append.mp hin).resolve_right (hwarn _)
      refine mem_shows_emit.mpr (Or.inr ⟨_, List.mem_append_left _ (accept_game s hin), rfl⟩)
  | @played click square pre s post hturn hsq hidle =>
    have hgame : (Game.move s.ttt square).game = s.ttt.game := by
      simp [Game.move, Game.setStatus]
    refine h.keep ?_ (fun node hm => by simpa [World.emit, moveEffects] using hm)
      (shows_emit_subset _)
    intro t ht
    rcases mem_entry.mp ht with rfl | ht
    · exact ⟨s, hturn.mem, rfl, hgame⟩
    · exact ⟨t, hturn.list ▸ mem_entry.mpr (Or.inr ht), rfl, rfl⟩
  | @strayed click pre s post hturn hsq =>
    have hgame : s.ttt.fetchWinner.swapTurn.game = s.ttt.game := by simp
    refine h.keep ?_ (fun node hm => by simpa [World.emit, moveEffects] using hm)
      (shows_emit_subset _)
    intro t ht
    rcases mem_entry.mp ht with rfl | ht
    · exact ⟨s, hturn.mem, rfl, hgame⟩
    · exact ⟨t, hturn.list ▸ mem_entry.mpr (Or.inr ht), rfl, rfl⟩
  | dropped hcb hidle =>
    exact h.keep (hsame _ (List.Subset.refl _)) (fun _ hm => hm) (List.Subset.refl _)
  | received hcb hfresh hmessage horphan =>
    exact h.keep (hsame _ (List.Subset.refl _)) (fun _ hm => hm)
      fun _ hm => mem_shows_receive.mpr (Or.inr hm)
  | @originSet uid posted deployment pre s post hcb hfresh hl huid hno =>
    refine h.keep ?_ (fun _ hm => hm) fun _ hm => mem_shows_receive.mpr (Or.inr hm)
    intro t ht
    rcases mem_entry.mp ht with rfl | ht
    · exact ⟨s, mem_of_split hl, rfl, rfl⟩
    · exact ⟨t, hl ▸ mem_entry.mpr (Or.inr ht), rfl, rfl⟩
  | asked hcb =>
    exact h.keep (hsame _ (List.Subset.refl _)) (fun _ hm => by simpa [World.emit] using hm)
      (shows_emit_subset (w := taken w _) _)
  | @stored click deployment pre s post hcb hfresh hl =>
    refine h.replace hl rfl (fun _ _ hm => hm) (hi.keys hl) (fun _ => ?_)
      fun _ hm => mem_shows_receive.mpr (Or.inr hm)
    exact mem_shows_receive.mpr (Or.inl rfl)
  | @announced click deployment pre s post embed hcb hl hr =>
    refine h.keep ?_ (fun _ hm => by simpa [World.emit] using hm) (shows_emit_subset _)
    intro t ht
    rcases mem_entry.mp ht with rfl | ht
    · exact ⟨s, mem_of_split hl, rfl, rfl⟩
    · exact ⟨t, hl ▸ mem_entry.mpr (Or.inr ht), rfl, rfl⟩
  | @erased deployment pre s post hcb hl =>
    refine h.keep (hsame _ fun t ht => ?_) (fun _ hm => hm) (List.Subset.refl _)
    exact hl ▸ mem_entry.mpr (Or.inr ht)

/-- In every reached world the games are shown on their messages. -/
theorem gamesShown_reached (hw : Reached w) : GamesShown w :=
  invariant_reached (I := GamesShown) (fun s hs => by cases hs)
    (fun _ p hw h => gamesShown_change hw h (part_change hw.inv p)) hw

/-- A stranded game is not shown on the stored reply. -/
theorem not_deployed (hw : Reached w) (hs : s ∈ w.tttListG) (h : Stranded always w s) :
    ¬ Deployed s := by
  intro hd
  have hmem := gamesShown_reached hw s hs h.begun
  rw [← seen_always] at hmem
  have hblank := h.blank (deployed_ne_zero hd) _ hmem rfl
  rw [hd.buttons] at hblank
  exact absurd hblank (by simp [squares])

/-- The second YES starts the game. -/
theorem accept_second {player : Player} {nextID : ℕ} (hy : click.customId = s.confirm.btnId.1)
    (ho : s.confirm.st.confm player.other = true) :
    accept click player nextID s =
      (((s.flag player).start nextID).1, ((s.flag player).start nextID).2,
        [.answered s.node player .yes, .initGame s.node,
          .reply click .updateMessage ((s.flag player).start nextID).1.ttt.origin .log,
          .messageEdit ((s.flag player).start nextID).1.ttt.game .log]) := by
  unfold accept
  rw [if_pos hy, if_neg (by simp [ho])]

/-- A second YES begins a fair game. -/
theorem fair_start {player : Player} (hw : Reached w) (hs : s ∈ w.tttListG)
    (h : SecondYes w p s player) :
    Fair (w.part p) ((s.flag player).start w.nextID).1 := by
  refine ⟨⟨[], {}, .nil, shows_start h.waiting⟩, fun hd => ?_⟩
  obtain ⟨click, pre, post, rfl, hacc, hy⟩ := h.accepted
  have hplain : s.ttt.game.components = [] := by
    have hl := listed_reached hw hs
    rw [hl.plain fun hi => hl.begun hi (congrArg Prod.fst h.waiting.turn)]
    exact hl.blank
  have hwarn : (warnings click post).filterMap shows? = [] :=
    List.filterMap_eq_nil_iff.mpr fun effect he => warning_shows (warning_of_mem_warnings effect he)
  refine ⟨((s.flag player).start w.nextID).1.ttt.game, ?_, ?_⟩
  · have hpart : w.part (.confirm click) = w.confirmClick click := rfl
    rw [hpart, confirmClick_accepts hw.inv hacc, current_emit, List.filterMap_append, hwarn,
      List.append_nil, accept_second hy h.other]
    dsimp only
    generalize ((s.flag player).start w.nextID).1 = u
    have hlast : [Effect.answered s.node player .yes, .initGame s.node,
        .reply click .updateMessage u.ttt.origin .log, .messageEdit u.ttt.game .log].filterMap shows? =
          [(click.messageId, u.ttt.origin), (u.ttt.game.id, u.ttt.game)] := rfl
    rw [hlast, List.reverse_cons, List.reverse_singleton, List.singleton_append,
      List.lookup_cons_self, Option.some_or]
    exact Option.mem_some_self _
  · have hgame : ((s.flag player).start w.nextID).1.ttt.game.components =
        s.ttt.game.components ++
          (((s.flag player).start w.nextID).1.ttt.fetchTttTurn {}).components := by
      simp only [Session.start, Game.initGame, fetchTttTurn_components]
      rfl
    rw [hgame, hplain, List.nil_append]

/-- A fair game stays fair. -/
theorem fair_goesOn (hw : Reached w) (hs : s ∈ w.tttListG) (hf : Fair w s)
    (hd : Deployed s ∨ Stranded always w s) (hfair : ClicksFair always w)
    (hc : Within PressingFairly w p) (hinit : .initGame s.node ∈ w.trace)
    (ht : t ∈ (w.part p).tttListG) (hn : t.node = s.node) : Fair (w.part p) t := by
  have hchange := part_change hw.inv p
  have hw' := reached_part hw p
  have hshown : Within ClicksShown w p := hc.mono fun w e h => pressing_shown w e h.1
  have hseen : Within (ClicksSeen always) w p := hshown.mono clicksSeen_of_shown
  obtain ⟨places, position, hplayed, hshows⟩ := hf.legal
  cases goesOn_change hw hfair.displayed hshown hchange hs hinit with
  | @kept u hu hnode hplay hids h1 h2 hgame hboard =>
    cases node_inj hw'.inv ht hu (hn.trans hnode.symm)
    refine ⟨⟨places, position, hplayed, hshows.congr hplay h1 h2⟩, fun hdep => ?_⟩
    have hdeployed : Deployed s := by
      refine hd.resolve_right fun hst => ?_
      obtain ⟨v, hv, hvn, hstranded, -⟩ :=
        stranded_change hst hw hfair.displayed hfair.known hseen hchange hs
      cases node_inj hw'.inv ht hv (hn.trans hvn.symm)
      exact not_deployed hw' ht hstranded hdep
    obtain ⟨message, hcurrent, hcomponents⟩ := hf.board hdeployed
    refine ⟨message, ?_, hcomponents.trans (components_congr hplay hids).symm⟩
    rw [hgame hdeployed, hboard hdeployed]
    exact hcurrent
  | @marked click square pre post hp hturn hsq hidle hu hboard =>
    obtain rfl := node_inj hw'.inv ht hu hn
    subst hp
    have hdeployed : Deployed s :=
      hd.resolve_right fun hst => hst.no_turn (seen_board hseen) hturn
    obtain ⟨hgoing, -⟩ :=
      pressed_square (hf.board hdeployed) (pressed_board hc hturn) hturn.message
    rw [Ended, hshows.result, outcome_won_iff, outcome_draw_iff, not_or, not_and, not_le] at hgoing
    have hmoved := hshows.move (hw.inv.sessions s hs).versus hidle
    have hgame : (Game.move s.ttt square).game = s.ttt.game := by
      simp [Game.move, Game.setStatus]
    rw [← hgame] at hboard
    generalize Game.move s.ttt square = u at hmoved hboard
    exact ⟨⟨places ++ [square], _, .snoc hplayed (hshows.free_iff.mpr hidle) hgoing.1
      (hgoing.2 hgoing.1), hmoved⟩, fun _ => ⟨_, hboard, rfl⟩⟩
  | @missed click pre post hp hturn hsq =>
    subst hp
    have hdeployed : Deployed s :=
      hd.resolve_right fun hst => hst.no_turn (seen_board hseen) hturn
    obtain ⟨-, square, hin⟩ :=
      pressed_square (hf.board hdeployed) (pressed_board hc hturn) hturn.message
    exact absurd hin (hsq square)
  | gone hgone => exact absurd hn (hgone t ht)

/-- Who presses enabled buttons clicks on what was seen. -/
theorem pressing_seen (w : World) (e : Event) (h : PressingFairly w e) : ClicksSeen always w e :=
  clicksSeen_of_shown w e (pressing_shown w e h.1)

/-- Every started game is fair, and what its users can see is fair. -/
structure FairWorld (w : World) : Prop where
  /-- What is shown is fair. -/
  clicks : ClicksFair always w
  /-- The started games are fair. -/
  games : ∀ s ∈ w.tttListG, .initGame s.node ∈ w.trace → Fair w s

/-- Every piece of a run with enabled buttons keeps the world fair. -/
theorem fairWorld_part (hw : Reached w) (h : FairWorld w) (hc : Within PressingFairly w p) :
    FairWorld (w.part p) := by
  have hchange := part_change hw.inv p
  have hw' := reached_part hw p
  refine ⟨clicksFair_part hw h.clicks (hc.mono pressing_seen), fun t ht hi => ?_⟩
  have hold : ∀ s ∈ w.tttListG, t.node = s.node → .initGame s.node ∈ w.trace →
      Fair (w.part p) t := by
    intro s hs hn hinit
    have hd : Deployed s ∨ Stranded always w s :=
      (h.clicks.split s hs).imp And.left fun hhidden => ⟨hhidden, hinit⟩
    exact fair_goesOn hw hs (h.games s hs hinit) hd h.clicks hc hinit ht hn
  have hit : .initGame t.node ∈ (view (w.part p) t.node).trace := mem_effectsOf.mpr ⟨hi, rfl⟩
  have hst : (view (w.part p) t.node).session = some t := by rw [view_of_mem hw'.inv ht]
  rcases change_view hw.inv hchange t.node with hsame | htouch
  · rw [hsame] at hit hst
    exact hold t (find_mem hst).1 rfl (mem_effectsOf.mp hit).1
  · rcases started_touch htouch hst hit with ⟨s, hs, hinit⟩ | ⟨s, player, hs, hyes, rfl⟩
    · obtain ⟨hmem, hn⟩ := find_mem hs
      exact hold s hmem hn.symm (hn ▸ (mem_effectsOf.mp hinit).1)
    · exact fair_start hw (find_mem hs).1 hyes

/-- While users press enabled buttons only, every started game is played by
the rules. -/
theorem fair_run {events : List Event} (h : Along World.step Pressing World.init events)
    (hs : s ∈ (run events).tttListG) (hi : .initGame s.node ∈ (run events).trace) :
    ∃ places p, Played lines 9 places p ∧ Shows s.ttt p := by
  have hfairly : Along World.step PressingFairly World.init events := by
    rintro before e behind rfl
    have hfront : Along World.step ClicksShown World.init before := h.front.mono pressing_shown
    exact ⟨h before e behind rfl, displayed_run hfront⟩
  rw [run_eq_parts] at hs hi
  have hall := invariant_along (I := FairWorld) reached_init (along_parts reached_init hfairly)
    ⟨clicksFair_init, fun s hs => by cases hs⟩ fun w p hw hc hf => fairWorld_part hw hf hc
  exact (hall.games s hs hi).legal

/-- The first user has taken the top row. -/
theorem fair_topRow : ∃ s ∈ (run topRow).tttListG,
    ∃ places p, Played lines 9 places p ∧ Shows s.ttt p := by
  have hnode : 0 ∈ (run topRow).tttListG.map Session.node := by decide
  obtain ⟨s, hs, hn⟩ := List.mem_map.mp hnode
  have hpressing : Along World.step Pressing World.init topRow := by decide
  exact ⟨s, hs, fair_run hpressing hs (by rw [hn]; decide)⟩

end TintempPlusPlus.FairPlay
