import TintempPlusPlus.StartedGames
import TintempPlusPlus.Display
import TintempPlusPlus.Deployment
import TintempPlusPlus.Handles
import TintempPlusPlus.LiveList

/-!
# Which games can be played to their end

Discord may fail to carry out an edit, and then nobody sees what it was to
show. A started game in progress whose board is seen on the stored reply can
be brought to its end from every reachable world, by clicks of the users whose
turn it is on idle squares they see, and by requests that end well; its session
is erased then. A game that was started without a message to show it on, or
whose board was never shown, is stranded: as long as clicks are made on buttons
that are seen, nobody ever plays it.
-/

namespace TintempPlusPlus.Progress

open Discord UniqueID Ttt Handlers ScanLoop Play HandlerLaws Program OneEntry EventRuns Invariant
  Steps Reachable Views Lives Frozen StartedGames Display Deployment Handles LiveList

/-- Every requested edit is carried out. -/
def always : ℕ → Bool := fun _ => true

/-- The messages that were seen under each message id, where `carried` tells
by its place in the trace which requested edit Discord carries out. -/
def seen (carried : ℕ → Bool) (w : World) : List (Snowflake × Message) :=
  w.returned.map (fun message => (message.id, message)) ++
    w.trace.zipIdx.filterMap fun effect => if carried effect.2 then shows? effect.1 else none

/-- The custom id of the click was seen on the clicked message. -/
def Seen (carried : ℕ → Bool) (w : World) (click : Click) : Prop :=
  ∃ shown ∈ seen carried w, shown.1 = click.messageId ∧ click.customId ∈ shown.2.customIds

/-- Users click only on what they have seen. -/
def ClicksSeen (carried : ℕ → Bool) (w : World) : Event → Prop
  | .click click => Seen carried w click
  | _ => True

/-- The board of the session was seen on its game message. -/
def Visible (carried : ℕ → Bool) (w : World) (s : Session) : Prop :=
  ∃ shown ∈ seen carried w, shown.1 = s.ttt.game.id ∧
    ∀ square, (s.ttt.board square).id ∈ shown.2.customIds

instance (carried : ℕ → Bool) (w : World) (click : Click) : Decidable (Seen carried w click) :=
  inferInstanceAs (Decidable (∃ shown ∈ seen carried w, _))

instance (carried : ℕ → Bool) (w : World) : ∀ e, Decidable (ClicksSeen carried w e)
  | .click click => inferInstanceAs (Decidable (Seen carried w click))
  | .command _ _ => inferInstanceAs (Decidable True)
  | .callback _ _ => inferInstanceAs (Decidable True)

instance (carried : ℕ → Bool) (w : World) (s : Session) : Decidable (Visible carried w s) :=
  inferInstanceAs (Decidable (∃ shown ∈ seen carried w, _))

variable {w w' : World} {s t : Session} {click : Click} {node : ℕ} {carried : ℕ → Bool}

/-! ## What is seen -/

/-- What was shown was seen when every edit is carried out. -/
theorem seen_always (w : World) : seen always w = shows w := by
  have hplaces := congrArg (List.filterMap shows?) (List.zipIdx_map_fst 0 w.trace)
  rw [List.filterMap_map] at hplaces
  exact congrArg _ hplaces

/-- New effects add what they show, where it is carried out. -/
theorem seen_emit (w : World) (effects : List Effect) : seen carried (w.emit effects) =
    seen carried w ++ (effects.zipIdx w.trace.length).filterMap
      fun effect => if carried effect.2 then shows? effect.1 else none := by
  simp [seen, World.emit, List.zipIdx_append]

/-- What was seen stays seen. -/
theorem seen_emit_subset (effects : List Effect) :
    seen carried w ⊆ seen carried (w.emit effects) := by
  rw [seen_emit]
  exact List.subset_append_left _ _

/-- What is seen after some effects was seen before or is shown by one of
them. -/
theorem mem_seen_emit {effects : List Effect} {shown : Snowflake × Message}
    (h : shown ∈ seen carried (w.emit effects)) :
    shown ∈ seen carried w ∨ ∃ effect ∈ effects, shows? effect = some shown := by
  rw [seen_emit] at h
  refine (List.mem_append.mp h).imp_right fun hnew => ?_
  obtain ⟨effect, hm, hs⟩ := List.mem_filterMap.mp hnew
  split_ifs at hs
  exact ⟨effect.1, List.fst_mem_of_mem_zipIdx hm, hs⟩

/-- A returned message is seen. -/
theorem mem_seen_receive {message : Message} {shown : Snowflake × Message} :
    shown ∈ seen carried (w.receive message) ↔
      shown = (message.id, message) ∨ shown ∈ seen carried w := by
  simp [seen, World.receive]

/-- What is seen was requested. -/
theorem seen_subset_shows : seen carried w ⊆ shows w := by
  intro shown h
  rcases List.mem_append.mp h with h | h
  · exact List.mem_append_left _ h
  · obtain ⟨effect, hm, hs⟩ := List.mem_filterMap.mp h
    split_ifs at hs
    exact List.mem_append_right _
      (List.mem_filterMap.mpr ⟨effect.1, List.fst_mem_of_mem_zipIdx hm, hs⟩)

/-- What was seen was shown. -/
theorem Seen.shown (h : Seen carried w click) : Shown w click := by
  obtain ⟨shown, hshown, hid, hin⟩ := h
  exact ⟨shown, seen_subset_shows hshown, hid, hin⟩

/-- A click on a seen button is one on a shown button. -/
theorem clicksShown_of_seen : ∀ (w : World) (e : Event), ClicksSeen carried w e → ClicksShown w e
  | _, .click _, h => Seen.shown h
  | _, .command _ _, _ => trivial
  | _, .callback _ _, _ => trivial

/-- When every edit is carried out, a click on a shown button is one on a seen
button. -/
theorem clicksSeen_of_shown : ∀ (w : World) (e : Event), ClicksShown w e → ClicksSeen always w e
  | w, .click _, ⟨shown, hshown, hrest⟩ => ⟨shown, seen_always w ▸ hshown, hrest⟩
  | _, .command _ _, _ => trivial
  | _, .callback _ _, _ => trivial

/-- A visible board stays visible while its message and its ids stay. -/
theorem Visible.keep (h : Visible carried w s) (hseen : seen carried w ⊆ seen carried w')
    (hgame : t.ttt.game.id = s.ttt.game.id)
    (hids : ∀ square, (t.ttt.board square).id = (s.ttt.board square).id) :
    Visible carried w' t := by
  obtain ⟨shown, hshown, hid, hboard⟩ := h
  refine ⟨shown, hseen hshown, hid.trans hgame.symm, fun square => ?_⟩
  rw [hids]
  exact hboard square

/-! ## Games that are seen -/

/-- A move keeps a shown game shown. -/
theorem deployed_move (hd : Deployed s) (square : Square) :
    Deployed { s with ttt := Game.move s.ttt square } := by
  refine hd.congr rfl ?_ fun other => ?_
  · simp [Game.move, Game.setStatus]
  · simp [Game.move, setStatus_id]

/-- The user who has the turn can click on any square. -/
theorem exists_click (hw : Reached w) (hs : s ∈ w.tttListG) (hi : .initGame s.node ∈ w.trace)
    (hd : Deployed s) (square : Square) : ∃ click : Click, click.user = s.ttt.turn.1 ∧
      click.messageId = s.ttt.game.id ∧ click.customId = (s.ttt.board square).id := by
  have hinv := hw.inv.sessions s hs
  have huser : s.ttt.turn.1 ≠ 0 := by
    rcases (started_of_trace hw hs hi).turn with h1 | h2
    · rw [h1]
      exact hinv.issued1
    · rw [h2]
      exact hinv.issued2
  have hmessage : s.ttt.game.id ≠ 0 := by
    rw [hd.message]
    exact hd.posted
  exact ⟨⟨s.ttt.turn.1, s.ttt.game.id, 0, (s.ttt.board square).id, huser, hmessage⟩, rfl, rfl, rfl⟩

/-- The world after a click that marks a square. -/
theorem step_played (hw : Reached w) (hs : s ∈ w.tttListG) (hi : .initGame s.node ∈ w.trace)
    (hu : click.user = s.ttt.turn.1) (hm : click.messageId = s.ttt.game.id) {square : Square}
    (hsq : click.customId = (s.ttt.board square).id) (hidle : (s.ttt.board square).status = .idle) :
    ∃ pre post, w.step (.click click) =
      { w.confirmClick click with
        tttListG := pre ++ { s with ttt := Game.move s.ttt square } :: post }.emit
        (.placed s.node click square s.ttt.turn.2 ::
          moveEffects click s.node (Game.move s.ttt square)) := by
  have hw' : Reached (w.confirmClick click) := reached_part hw (.confirm click)
  have hkept := confirmClick_keeps hw.inv click hs (started_of_trace hw hs hi)
  obtain ⟨pre, post, hl⟩ := List.mem_iff_append.mp hkept
  have hi' : .initGame s.node ∈ (w.confirmClick click).trace := List.mem_append_left _ hi
  have hturn : Turn (w.confirmClick click) click pre s post :=
    ⟨hl, hm, hu, started_of_trace hw' hkept hi'⟩
  exact ⟨pre, post, boardClick_played hw'.inv hturn hsq hidle⟩

/-- A piece of an event that starts the game of a session or takes a turn in
it. -/
def Acts (w : World) (p : Part) (s : Session) : Prop :=
  (∃ click player pre post, p = .confirm click ∧ Accepts w click player pre s post ∧
    click.customId = s.confirm.btnId.1 ∧ s.confirm.st.confm player.other = true) ∨
    ∃ click pre post, p = .board click ∧ Turn w click pre s post

/-- What an accepted answer shows is shown on the messages of its session, the
board of a game that it starts on the game message, or on the clicked one. -/
theorem accept_shown {player : Player} {nextID : ℕ} : ∀ effect ∈ (accept click player nextID s).2.2,
    ∀ shown, shows? effect = some shown → shown.1 = s.ttt.origin.id ∨
      (shown.1 = s.ttt.game.id ∧ click.customId = s.confirm.btnId.1 ∧
        s.confirm.st.confm player.other = true ∧
        ∀ square, ((accept click player nextID s).1.ttt.board square).id ∈ shown.2.customIds) ∨
      click.customId = s.confirm.btnId.1 ∧ shown.1 = click.messageId := by
  have hgame : ((s.flag player).start nextID).1.ttt.game.id = s.ttt.game.id := by
    simp only [Session.start, Game.initGame]
    rw [fetchTttTurn_eq]
    rfl
  unfold accept
  split_ifs with hy ho
  · simp [shows?]
  · intro effect hm shown hs
    simp only [List.mem_cons, List.not_mem_nil, or_false] at hm
    rcases hm with rfl | rfl | rfl | rfl
    · cases hs
    · cases hs
    · cases hs
      exact Or.inr (Or.inr ⟨hy, rfl⟩)
    · cases hs
      refine Or.inr (Or.inl ⟨hgame, hy, Bool.eq_true_of_not_eq_false ho, fun square => ?_⟩)
      dsimp only
      rw [start_customIds]
      exact List.mem_append_right _ (List.mem_map_of_mem (mem_squares square))
  · intro effect hm shown hs
    rcases List.mem_append.mp hm with hm | hm
    · simp only [List.mem_cons, List.not_mem_nil, or_false] at hm
      rcases hm with rfl | rfl
      · cases hs
      · cases hs
        exact Or.inl rfl
    · split_ifs at hm
      · cases List.mem_singleton.mp hm
        cases hs
      · cases hm

/-- What a turn shows is the board, on the clicked message. -/
theorem moveEffects_board {n : ℕ} {u : Game} : ∀ effect ∈ moveEffects click n u,
    ∀ shown, shows? effect = some shown →
      shown.1 = click.messageId ∧ ∀ square, (u.board square).id ∈ shown.2.customIds := by
  intro effect hm shown hs
  simp only [moveEffects, List.mem_cons, List.not_mem_nil, or_false] at hm
  rcases hm with rfl | rfl <;> cases hs
  refine ⟨rfl, fun square => ?_⟩
  dsimp only
  rw [fetchTttTurn_customIds]
  exact List.mem_append_right _ (List.mem_map_of_mem (mem_squares square))

/-- A message is seen for the first time: it is new, or it is a message of a
session in a certain way. -/
inductive NewlySeen (w : World) (p : Part) (w' : World) (shown : Snowflake × Message) : Prop
  /-- The message has just been posted. -/
  | posted (hfresh : shown.1 ∉ w.issued) (hissued : shown.1 ∈ w'.issued)
  /-- It is the challenge message of a session. -/
  | origin {s : Session} (hs : s ∈ w.tttListG) (hid : shown.1 = s.ttt.origin.id)
  /-- It is the game message of a session that is acted on, with its board. -/
  | game {s t : Session} (hs : s ∈ w.tttListG) (ht : t ∈ w'.tttListG) (hn : t.node = s.node)
    (hid : shown.1 = s.ttt.game.id) (hacts : Acts w p s)
    (hboard : ∀ square, (t.ttt.board square).id ∈ shown.2.customIds)

/-- Where something can be seen for the first time. -/
theorem change_seen {p : Part} (hd : Displayed w) (hc : Within ClicksShown w p)
    (h : Change w p w') : ∀ shown ∈ seen carried w',
      shown ∈ seen carried w ∨ NewlySeen w p w' shown := by
  cases h with
  | quiet hwarn =>
    intro shown hm
    refine (mem_seen_emit hm).imp_right ?_
    rintro ⟨effect, he, hs⟩
    rw [warning_shows (hwarn effect he)] at hs
    cases hs
  | challenged hne =>
    intro shown hm
    refine Or.inl ((mem_seen_emit hm).resolve_right ?_)
    simp [shows?]
  | @accepted click player pre s post hacc =>
    intro shown hm
    refine (mem_seen_emit hm).imp_right ?_
    rintro ⟨effect, he, hs⟩
    rcases List.mem_append.mp he with he | he
    · rcases accept_shown effect he shown hs with horigin | ⟨hgame, hy, ho, hboard⟩ | ⟨hy, hid⟩
      · exact .origin hacc.mem horigin
      · exact .game hacc.mem List.mem_append_cons_self (accept_kin _ _ _ _).node hgame
          (Or.inl ⟨click, player, pre, post, rfl, hacc, hy, ho⟩) hboard
      · -- the YES was shown on the challenge message
        obtain ⟨known, hknown, hk, hin⟩ := hc
        have hne : known.1 ≠ 0 := hk ▸ click.messageIssued
        refine .origin hacc.mem ?_
        rw [hid, ← hk]
        exact hd.own known hknown hne s hacc.mem (Or.inl (hy ▸ hin))
    · rw [warning_shows (warning_of_mem_warnings effect he)] at hs
      cases hs
  | @played click square pre s post hturn hsq hidle =>
    generalize Game.move s.ttt square = u
    intro shown hm
    refine (mem_seen_emit hm).imp_right ?_
    rintro ⟨effect, he, hs⟩
    rcases List.mem_cons.mp he with rfl | he
    · cases hs
    · obtain ⟨hid, hboard⟩ := moveEffects_board effect he shown hs
      exact .game hturn.mem List.mem_append_cons_self rfl (hid.trans hturn.message)
        (Or.inr ⟨click, pre, post, rfl, hturn⟩) hboard
  | @strayed click pre s post hturn hsq =>
    generalize s.ttt.fetchWinner.swapTurn = u
    intro shown hm
    refine (mem_seen_emit hm).imp_right ?_
    rintro ⟨effect, he, hs⟩
    obtain ⟨hid, hboard⟩ := moveEffects_board effect he shown hs
    exact .game hturn.mem List.mem_append_cons_self rfl (hid.trans hturn.message)
      (Or.inr ⟨click, pre, post, rfl, hturn⟩) hboard
  | dropped hcb hidle => exact fun shown hm => Or.inl hm
  | received hcb hfresh hmessage horphan =>
    intro shown hm
    rcases mem_seen_receive.mp hm with rfl | hm
    · exact Or.inr (.posted hfresh List.mem_cons_self)
    · exact Or.inl hm
  | originSet hcb hfresh hl huid hno =>
    intro shown hm
    rcases mem_seen_receive.mp hm with rfl | hm
    · exact Or.inr (.posted hfresh List.mem_cons_self)
    · exact Or.inl hm
  | asked hcb =>
    intro shown hm
    refine Or.inl ((mem_seen_emit hm).resolve_right ?_)
    simp [shows?]
  | stored hcb hfresh hl =>
    intro shown hm
    rcases mem_seen_receive.mp hm with rfl | hm
    · exact Or.inr (.posted hfresh List.mem_cons_self)
    · exact Or.inl hm
  | @announced click deployment pre s post embed hcb hl hr =>
    intro shown hm
    refine (mem_seen_emit hm).imp_right ?_
    rintro ⟨effect, he, hs⟩
    simp only [List.mem_cons, List.not_mem_nil, or_false] at he
    rcases he with rfl | rfl <;> cases hs
    exact .origin (mem_of_split hl) rfl
  | erased hcb hl => exact fun shown hm => Or.inl hm

/-- Only posted messages are shown. -/
def KnownShown (w : World) : Prop := ∀ shown ∈ shows w, shown.1 ≠ 0 → shown.1 ∈ w.issued

/-- Every piece of a run with clicks on shown buttons keeps the shown messages
known. -/
theorem knownShown_change {p : Part} (hd : Displayed w) (hi : Inv w) (hk : KnownShown w)
    (hc : Within ClicksShown w p) (h : Change w p w') : KnownShown w' := by
  intro shown hm hne
  have hgrows := change_issued h
  rw [← seen_always] at hm
  rcases change_seen hd hc h shown hm with hold | hnew
  · exact hgrows (hk shown (seen_subset_shows hold) hne)
  · cases hnew with
    | posted hfresh hissued => exact hissued
    | origin hs hid =>
      refine hgrows ((hi.sessions _ hs).known _ (mem_messageIds.mpr ⟨hne, Or.inr hid⟩))
    | game hs ht hn hid hacts hboard =>
      refine hgrows ((hi.sessions _ hs).known _ (mem_messageIds.mpr ⟨hne, Or.inl hid⟩))

/-- A game without a result whose board is seen nowhere. -/
structure Hidden (carried : ℕ → Bool) (w : World) (s : Session) : Prop where
  /-- It has no result. -/
  going : s.ttt.result = .inProgress
  /-- No button is seen on its message. -/
  blank : s.ttt.game.id ≠ 0 → ∀ shown ∈ seen carried w, shown.1 = s.ttt.game.id →
    shown.2.customIds = []

/-- A started game in progress that is seen nowhere. -/
structure Stranded (carried : ℕ → Bool) (w : World) (s : Session) : Prop
    extends Hidden carried w s where
  /-- The game has been started. -/
  begun : .initGame s.node ∈ w.trace

/-- Nobody can take a turn in a hidden game by a click on a button that is
seen. -/
theorem Hidden.no_turn {pre post : List Session} (h : Hidden carried w s)
    (hseen : Seen carried w click) (ht : Turn w click pre s post) : False := by
  obtain ⟨known, hknown, hk, hin⟩ := hseen
  have hne : s.ttt.game.id ≠ 0 := ht.message ▸ click.messageIssued
  rw [h.blank hne known hknown (hk.trans ht.message)] at hin
  cases hin

/-- What is seen before a click is seen when its second handler runs. -/
theorem seen_board (hc : Within (ClicksSeen carried) w (.board click)) : Seen carried w click := by
  obtain ⟨before, -, rfl, hseen⟩ := hc
  obtain ⟨known, hknown, hk, hin⟩ := hseen
  exact ⟨known, seen_emit_subset _ hknown, hk, hin⟩

/-- A started session has no second YES to come. -/
theorem not_starts {player : Player} {pre post : List Session} (hw : Reached w)
    (hs : s ∈ w.tttListG) (hi : .initGame s.node ∈ w.trace)
    (hacc : Accepts w click player pre s post) : False := by
  have hset := (started_of_trace hw hs hi).confm player
  rw [hacc.unanswered] at hset
  cases hset

/-- No other session and no challenge message has the id of a game message. -/
theorem game_apart (hi : Inv w) (hs : s ∈ w.tttListG) (hne : s.ttt.game.id ≠ 0)
    (ht : t ∈ w.tttListG) :
    (t.ttt.game.id = s.ttt.game.id → t = s) ∧ t.ttt.origin.id ≠ s.ttt.game.id := by
  have hmem : s.ttt.game.id ∈ messageIds s := mem_messageIds.mpr ⟨hne, Or.inl rfl⟩
  have hown : s.ttt.game.id ∈ messageIds t → t = s := by
    intro hin
    obtain ⟨pre, post, hl⟩ := List.mem_iff_append.mp hs
    rw [hl] at ht
    refine (mem_entry.mp ht).resolve_right fun hrest => ?_
    exact ((hi.focus hl).2 t hrest).2.messages hmem hin
  refine ⟨fun he => hown (mem_messageIds.mpr ⟨hne, Or.inl he.symm⟩), fun he => ?_⟩
  cases hown (mem_messageIds.mpr ⟨hne, Or.inr he.symm⟩)
  have hseparate := (hi.sessions s hs).separate
  have hids : messageIds s = [s.ttt.game.id, s.ttt.origin.id] := by
    rw [messageIds, List.filter_eq_self]
    simp [he, hne]
  rw [hids, he] at hseparate
  simp at hseparate

/-- A message of a session is not seen anew while nobody acts on it. -/
theorem not_newlySeen {p : Part} {shown : Snowflake × Message} (hi : Inv w)
    (hs : s ∈ w.tttListG) (hne : s.ttt.game.id ≠ 0) (hid : shown.1 = s.ttt.game.id)
    (hacts : ¬ Acts w p s) : ¬ NewlySeen w p w' shown := by
  intro hnew
  cases hnew with
  | posted hfresh hissued =>
    rw [hid] at hfresh
    exact hfresh ((hi.sessions s hs).known _ (mem_messageIds.mpr ⟨hne, Or.inl rfl⟩))
  | origin ht ho => exact (game_apart hi hs hne ht).2 (ho.symm.trans hid)
  | game ht _ _ hg hact _ =>
    cases (game_apart hi hs hne ht).1 (hg.symm.trans hid)
    exact hacts hact

/-- A hidden game stays hidden when its message stays the same and nobody acts
on it. -/
theorem Hidden.keep {p : Part} (h : Hidden carried w s) (hw : Reached w) (hd : Displayed w)
    (hc : Within ClicksShown w p) (hchange : Change w p w') (hs : s ∈ w.tttListG)
    (hacts : ¬ Acts w p s) (hgame : t.ttt.game = s.ttt.game)
    (hr : t.ttt.result = s.ttt.result) : Hidden carried w' t := by
  refine ⟨hr.trans h.going, ?_⟩
  rw [hgame]
  intro hne shown hm hid
  rcases change_seen hd hc hchange shown hm with hold | hnew
  · exact h.blank hne shown hold hid
  · exact absurd hnew (not_newlySeen hw.inv hs hne hid hacts)

/-- The second YES of a session. -/
structure SecondYes (w : World) (p : Part) (s : Session) (player : Player) : Prop where
  /-- The click is accepted. -/
  accepted : ∃ click pre post, p = .confirm click ∧ Accepts w click player pre s post ∧
    click.customId = s.confirm.btnId.1
  /-- The other player has answered before. -/
  other : s.confirm.st.confm player.other = true
  /-- The game is untouched. -/
  waiting : Waiting s.ttt

/-- A game is started by a second YES only. -/
theorem started_touch {p : Part} {v v' : View} (ht : Touch w node p v v')
    (hs : v'.session = some t) (hi : .initGame node ∈ v'.trace) :
    (∃ s, v.session = some s ∧ .initGame node ∈ v.trace) ∨
      ∃ s player, v.session = some s ∧ SecondYes w p s player ∧
        t = ((s.flag player).start w.nextID).1 := by
  cases ht with
  | created => cases hi
  | @started click player pre u post pending trace hacc hinv hy ho =>
    cases hs
    exact Or.inr ⟨u, player, rfl,
      ⟨⟨click, pre, post, rfl, hacc, hy⟩, ho, accepts_waiting hacc hinv⟩, rfl⟩
  | confirmed => exact Or.inl ⟨_, rfl, by simpa using hi⟩
  | declined => exact Or.inl ⟨_, rfl, by simpa using hi⟩
  | played => exact Or.inl ⟨_, rfl, by simpa [moveEffects] using hi⟩
  | strayed => exact Or.inl ⟨_, rfl, by simpa [moveEffects] using hi⟩
  | originSet => exact Or.inl ⟨_, rfl, hi⟩
  | dropped => exact Or.inl ⟨t, hs, hi⟩
  | asked => exact Or.inl ⟨t, hs, by simpa using hi⟩
  | orphaned => cases hs
  | stored => exact Or.inl ⟨_, rfl, hi⟩
  | announced => exact Or.inl ⟨_, rfl, by simpa using hi⟩
  | erased => cases hs

/-- An answer that starts no game leaves the play. -/
theorem accept_unstarted {player : Player} (nextID : ℕ)
    (h : ¬ (click.customId = s.confirm.btnId.1 ∧ s.confirm.st.confm player.other = true)) :
    (accept click player nextID s).1.ttt.game = s.ttt.game ∧
      (accept click player nextID s).1.ttt.result = s.ttt.result ∧
      SamePlay s.ttt (accept click player nextID s).1.ttt := by
  unfold accept
  split_ifs with hy ho
  · exact ⟨rfl, rfl, SamePlay.refl _⟩
  · exact absurd ⟨hy, Bool.eq_true_of_not_eq_false ho⟩ h
  · exact ⟨rfl, rfl, fun _ => rfl, fun _ => rfl, rfl, rfl, rfl⟩

/-- A hidden game stays hidden with its play as it is, unless it is started
now. -/
theorem hidden_change {p : Part} (h : Hidden carried w s) (hw : Reached w) (hd : Displayed w)
    (hk : KnownShown w) (hc : Within (ClicksSeen carried) w p) (hchange : Change w p w')
    (hs : s ∈ w.tttListG) :
    ∃ t ∈ w'.tttListG, t.node = s.node ∧ (Hidden carried w' t ∧ SamePlay s.ttt t.ttt ∨
      ∃ player, SecondYes w p s player ∧ t = ((s.flag player).start w.nextID).1) := by
  have hshown : Within ClicksShown w p := hc.mono clicksShown_of_seen
  have hturns : ∀ click pre post, p = .board click → ¬ Turn w click pre s post := by
    rintro click pre post rfl ht
    exact h.no_turn (seen_board hc) ht
  have hkeep : ∀ t : Session, ¬ Acts w p s → t.ttt.game = s.ttt.game →
      t.ttt.result = s.ttt.result → Hidden carried w' t :=
    fun t hacts hgame hr => h.keep hw hd hshown hchange hs hacts hgame hr
  have hquiet : (∀ click, p ≠ .confirm click) → ¬ Acts w p s := by
    rintro hno (⟨click, _, _, _, hp, -⟩ | ⟨click, pre, post, hp, ht⟩)
    · exact hno click hp
    · exact hturns click pre post hp ht
  have hstays : s ∈ w'.tttListG → ¬ Acts w p s → ∃ t ∈ w'.tttListG, t.node = s.node ∧
      (Hidden carried w' t ∧ SamePlay s.ttt t.ttt ∨
        ∃ player, SecondYes w p s player ∧ t = ((s.flag player).start w.nextID).1) :=
    fun hs' hacts => ⟨s, hs', rfl, Or.inl ⟨hkeep s hacts rfl rfl, SamePlay.refl _⟩⟩
  have hother : ∀ {pre post : List Session} {u u' : Session}, w.tttListG = pre ++ u :: post →
      s ≠ u → s ∈ pre ++ u' :: post := by
    intro pre post u u' hl hne
    rw [hl] at hs
    exact mem_entry.mpr (Or.inr ((mem_entry.mp hs).resolve_left hne))
  have hcopy := hchange
  cases hchange with
  | quiet hwarn =>
    refine ⟨s, hs, rfl, Or.inl ⟨⟨h.going, fun hne shown hm hid => ?_⟩, SamePlay.refl _⟩⟩
    rcases mem_seen_emit hm with hold | ⟨effect, he, hshows⟩
    · exact h.blank hne shown hold hid
    · rw [warning_shows (hwarn effect he)] at hshows
      cases hshows
  | challenged => exact hstays (List.mem_append_left _ hs) (hquiet fun _ he => by cases he)
  | @accepted click player pre u post hacc =>
    by_cases he : s = u
    · subst he
      by_cases hyes : click.customId = s.confirm.btnId.1 ∧ s.confirm.st.confm player.other = true
      · refine ⟨_, List.mem_append_cons_self, (accept_kin _ _ _ _).node, Or.inr ⟨player, ?_, ?_⟩⟩
        · exact ⟨⟨click, pre, post, rfl, hacc, hyes.1⟩, hyes.2,
            accepts_waiting hacc (hw.inv.sessions s hs)⟩
        · rw [accept, if_pos hyes.1, if_neg (by simp [hyes.2])]
      · have hacts : ¬ Acts w (.confirm click) s := by
          rintro (⟨_, other, _, _, hp, hacc', hy, ho⟩ | ⟨_, _, _, hp, -⟩)
          · cases hp
            cases Option.some.inj (hacc.user.symm.trans hacc'.user)
            exact hyes ⟨hy, ho⟩
          · cases hp
        obtain ⟨hgame, hr, hplay⟩ := accept_unstarted w.nextID hyes
        exact ⟨_, List.mem_append_cons_self, (accept_kin _ _ _ _).node,
          Or.inl ⟨hkeep _ hacts hgame hr, hplay⟩⟩
    · refine hstays (hother hacc.list he) ?_
      rintro (⟨_, _, _, _, hp, hacc', -⟩ | ⟨_, _, _, hp, -⟩)
      · cases hp
        have hrest := (hw.inv.focus hacc.list).2 s ((mem_entry.mp (hacc.list ▸ hs)).resolve_left he)
        exact not_addressed (hw.inv.sessions u hacc.mem) hrest.1 hrest.2 hacc.addressed
          hacc'.addressed
      · cases hp
  | @played click square pre u post hturn hsq hidle =>
    refine hstays (hother hturn.list ?_) (hquiet fun _ he => by cases he)
    rintro rfl
    exact hturns click pre post rfl hturn
  | @strayed click pre u post hturn hsq =>
    refine hstays (hother hturn.list ?_) (hquiet fun _ he => by cases he)
    rintro rfl
    exact hturns click pre post rfl hturn
  | dropped => exact hstays hs (hquiet fun _ he => by cases he)
  | received => exact hstays hs (hquiet fun _ he => by cases he)
  | asked => exact hstays hs (hquiet fun _ he => by cases he)
  | @originSet uid posted deployment pre u post hcb hfresh hl huid hno =>
    have hacts := hquiet fun _ he => by cases he
    by_cases he : s = u
    · subst he
      exact ⟨_, List.mem_append_cons_self, rfl, Or.inl ⟨hkeep _ hacts rfl rfl,
        fun _ => rfl, fun _ => rfl, rfl, rfl, rfl⟩⟩
    · exact hstays (hother hl he) hacts
  | @stored click deployment pre u post hcb hfresh hl =>
    have hacts := hquiet fun _ he => by cases he
    by_cases he : s = u
    · subst he
      refine ⟨_, List.mem_append_cons_self, rfl, Or.inl ⟨⟨h.going, ?_⟩,
        fun _ => rfl, fun _ => rfl, rfl, rfl, rfl⟩⟩
      intro _ shown hm hid
      rcases mem_seen_receive.mp hm with rfl | hm
      · rfl
      · -- nothing was seen before on a message that has just been posted
        have hissued := hk shown (seen_subset_shows hm) (hid ▸ deployment.issued)
        rw [hid] at hissued
        exact absurd hissued hfresh
    · exact hstays (hother hl he) hacts
  | @announced click deployment pre u post embed hcb hl hr =>
    refine hstays (hother hl ?_) (hquiet fun _ he => by cases he)
    rintro rfl
    exact not_ended h.going (ended_of_resultEmbed hr)
  | @erased deployment pre u post hcb hl =>
    have hne : s ≠ u := by
      rintro rfl
      have hfinish := viewFinish_reached hw s.node
      rw [view_of_mem hw.inv hs] at hfinish
      have hended := (hfinish.finished s rfl).mpr (hfinish.sent (mem_callbacksOf.mpr ⟨hcb, rfl⟩))
      exact not_ended h.going hended
    refine hstays ?_ (hquiet fun _ he => by cases he)
    rw [hl] at hs
    exact (mem_entry.mp hs).resolve_left hne

/-- What is seen stays seen. -/
theorem seen_change {p : Part} (h : Change w p w') : seen carried w ⊆ seen carried w' := by
  cases h with
  | quiet => exact seen_emit_subset _
  | challenged => exact seen_emit_subset _
  | accepted => exact seen_emit_subset _
  | played => exact seen_emit_subset _
  | strayed => exact seen_emit_subset _
  | dropped => exact List.Subset.refl _
  | received => exact fun _ hm => mem_seen_receive.mpr (Or.inr hm)
  | originSet => exact fun _ hm => mem_seen_receive.mpr (Or.inr hm)
  | asked => exact seen_emit_subset (w := taken w _) _
  | stored => exact fun _ hm => mem_seen_receive.mpr (Or.inr hm)
  | announced => exact seen_emit_subset _
  | erased => exact List.Subset.refl _

/-- A game that is shown on the stored reply has been started. -/
theorem begun_of_deployed (h : Deployed s) (hw : Reached w) (hs : s ∈ w.tttListG) :
    .initGame s.node ∈ effectsOf s.node w.trace := by
  have hl := listed_reached hw hs
  by_contra hno
  have hblank : s.ttt.game.customIds = [] := by
    rw [hl.plain hno, Message.customIds, hl.blank]
    rfl
  rw [h.buttons] at hblank
  exact absurd hblank (by simp [squares])

/-- A started game that is shown on the stored reply stays there with its
buttons. -/
theorem deployed_touch {p : Part} {v v' : View} (hlived : Lived node v) (ht : Touch w node p v v')
    (hs : v.session = some s) (hs' : v'.session = some t) (hi : .initGame node ∈ v.trace)
    (hd : Deployed s) : Deployed t ∧ t.ttt.game.id = s.ttt.game.id ∧
      ∀ square, (t.ttt.board square).id = (s.ttt.board square).id := by
  cases ht with
  | created => cases hs
  | @confirmed click player pre u post pending trace hacc hinv hy ho =>
    have hbegun := (lived_some.mp hlived).begun hi
    exact absurd (congrArg Prod.fst (accepts_waiting hacc hinv).turn) hbegun
  | @started click player pre u post pending trace hacc hinv hy ho =>
    have hbegun := (lived_some.mp hlived).begun hi
    exact absurd (congrArg Prod.fst (accepts_waiting hacc hinv).turn) hbegun
  | @declined click player pre u post pending trace hacc hinv hn =>
    have hbegun := (lived_some.mp hlived).begun hi
    exact absurd (congrArg Prod.fst (accepts_waiting hacc hinv).turn) hbegun
  | @played click square pre u post pending trace hturn hinv hsq hidle =>
    cases hs
    cases hs'
    refine ⟨deployed_move hd square, ?_, fun other => ?_⟩
    · simp [Game.move, Game.setStatus]
    · simp [Game.move, setStatus_id]
  | strayed =>
    cases hs
    cases hs'
    exact ⟨hd.congr rfl (by simp) (by simp), by simp, by simp⟩
  | originSet =>
    cases hs
    cases hs'
    exact ⟨hd.congr rfl rfl fun _ => rfl, rfl, fun _ => rfl⟩
  | dropped => exact Option.some.inj (hs.symm.trans hs') ▸ ⟨hd, rfl, fun _ => rfl⟩
  | asked => exact Option.some.inj (hs.symm.trans hs') ▸ ⟨hd, rfl, fun _ => rfl⟩
  | orphaned => cases hs
  | @stored click deployment u pending trace hcb hfresh hinv =>
    cases hs
    have hmem := mem_awaiting.mpr ⟨hcb, rfl⟩
    rw [(lived_some.mp hlived).done hd.replied] at hmem
    cases hmem
  | announced =>
    cases hs
    cases hs'
    exact ⟨hd.congr rfl rfl fun _ => rfl, rfl, fun _ => rfl⟩
  | erased => cases hs'

/-- A session that was not listed before is fresh. -/
theorem created_touch {p : Part} {v v' : View} (ht : Touch w node p v v')
    (hs : v.session = none) (hs' : v'.session = some t) :
    ∃ player1 player2, Fresh w player1 player2 t := by
  cases ht with
  | created hf =>
    cases hs'
    exact ⟨_, _, hf⟩
  | dropped => cases hs.symm.trans hs'
  | asked => cases hs.symm.trans hs'
  | orphaned => cases hs'
  | erased => cases hs'
  | _ => cases hs

/-- What holds in a run whose clicks are made on buttons that are seen. -/
structure ClicksFair (carried : ℕ → Bool) (w : World) : Prop where
  /-- Confirm buttons are shown on their own messages. -/
  displayed : Displayed w
  /-- Only posted messages are shown. -/
  known : KnownShown w
  /-- Every game is shown on the stored reply and seen there, or it is
  hidden. -/
  split : ∀ s ∈ w.tttListG, Deployed s ∧ Visible carried w s ∨ Hidden carried w s

/-- In the beginning nothing can be clicked on. -/
theorem clicksFair_init : ClicksFair carried World.init :=
  ⟨displayed_init, fun _ hm => absurd hm List.not_mem_nil, fun _ hs => absurd hs List.not_mem_nil⟩

/-- A started game that is not on the stored reply is stranded. -/
theorem ClicksFair.stranded (h : ClicksFair carried w) (hs : s ∈ w.tttListG)
    (hi : .initGame s.node ∈ w.trace) (hno : ¬ (Deployed s ∧ Visible carried w s)) :
    Stranded carried w s :=
  ⟨(h.split s hs).resolve_left hno, hi⟩

/-- A game that starts is seen on the stored reply, or it is hidden. -/
theorem split_start {p : Part} {player : Player} (hw : Reached w) (hd : Displayed w)
    (hc : Within ClicksShown w p) (hs : s ∈ w.tttListG) (h : Hidden carried w s)
    (hyes : SecondYes w p s player)
    (ht : ((s.flag player).start w.nextID).1 ∈ (w.part p).tttListG) :
    Deployed ((s.flag player).start w.nextID).1 ∧
        Visible carried (w.part p) ((s.flag player).start w.nextID).1 ∨
      Hidden carried (w.part p) ((s.flag player).start w.nextID).1 := by
  have hl := listed_reached hw hs
  have hgame : ((s.flag player).start w.nextID).1.ttt.game.id = s.ttt.game.id := by
    simp only [Session.start, Game.initGame]
    rw [fetchTttTurn_eq]
    rfl
  have hnode : ((s.flag player).start w.nextID).1.node = s.node := rfl
  have hgoing : ((s.flag player).start w.nextID).1.ttt.result = .inProgress := hyes.waiting.result
  have hhidden : (s.ttt.game.id ≠ 0 → ∀ shown ∈ seen carried (w.part p),
      shown.1 = s.ttt.game.id → shown.2.customIds = []) →
        Hidden carried (w.part p) ((s.flag player).start w.nextID).1 := by
    intro hblank
    refine ⟨hgoing, ?_⟩
    rwa [hgame]
  cases hr : s.confirm.st.replied with
  | false => exact Or.inr (hhidden fun hne => absurd (hl.missing hr) hne)
  | true =>
    have hdeployed : Deployed ((s.flag player).start w.nextID).1 :=
      deployed_start hl hr fun hinit => hl.begun hinit (congrArg Prod.fst hyes.waiting.turn)
    by_cases hblank : s.ttt.game.id ≠ 0 → ∀ shown ∈ seen carried (w.part p),
        shown.1 = s.ttt.game.id → shown.2.customIds = []
    · exact Or.inr (hhidden hblank)
    · refine Or.inl ⟨hdeployed, ?_⟩
      simp only [not_forall] at hblank
      obtain ⟨hne, shown, hm, hid, hfull⟩ := hblank
      -- what has buttons on the stored reply was put there by this start
      rcases change_seen hd hc (part_change hw.inv p) shown hm with hold | hnew
      · exact absurd (h.blank hne shown hold hid) hfull
      · cases hnew with
        | posted hfresh hissued =>
          rw [hid] at hfresh
          exact absurd ((hw.inv.sessions s hs).known _
            (mem_messageIds.mpr ⟨hne, Or.inl rfl⟩)) hfresh
        | origin hu ho => exact absurd (ho.symm.trans hid) (game_apart hw.inv hs hne hu).2
        | game hu hv hn hg hacts hboard =>
          cases (game_apart hw.inv hs hne hu).1 (hg.symm.trans hid)
          rw [node_inj (reached_part hw p).inv hv ht (hn.trans hnode.symm)] at hboard
          exact ⟨shown, hm, hid.trans hgame.symm, hboard⟩

/-- Every piece of a run with clicks on seen buttons keeps the clicks fair. -/
theorem clicksFair_part {p : Part} (hw : Reached w) (h : ClicksFair carried w)
    (hc : Within (ClicksSeen carried) w p) : ClicksFair carried (w.part p) := by
  have hchange := part_change hw.inv p
  have hw' := reached_part hw p
  have hshown : Within ClicksShown w p := hc.mono clicksShown_of_seen
  refine ⟨displayed_change h.displayed hw hshown hchange,
    knownShown_change h.displayed hw.inv h.known hshown hchange, fun t ht => ?_⟩
  have hsession' : (view (w.part p) t.node).session = some t := by rw [view_of_mem hw'.inv ht]
  cases hfind : w.find t.node with
  | none =>
    have hsession : (view w t.node).session = none := hfind
    rcases change_view hw.inv hchange t.node with hsame | htouch
    · rw [hsame, hsession] at hsession'
      cases hsession'
    · obtain ⟨player1, player2, hf⟩ := created_touch htouch hsession hsession'
      refine Or.inr ⟨by rw [hf.ttt], fun hne => absurd ?_ hne⟩
      rw [hf.ttt]
  | some s =>
    obtain ⟨hs, hn⟩ := find_mem hfind
    rcases h.split s hs with ⟨hdeployed, hvisible⟩ | hhidden
    · have hkept : Deployed t ∧ t.ttt.game.id = s.ttt.game.id ∧
          ∀ square, (t.ttt.board square).id = (s.ttt.board square).id := by
        have hsession : (view w t.node).session = some s := hfind
        rcases change_view hw.inv hchange t.node with hsame | htouch
        · rw [hsame, hsession] at hsession'
          cases hsession'
          exact ⟨hdeployed, rfl, fun _ => rfl⟩
        · exact deployed_touch (lived_reached hw t.node) htouch hsession hsession'
            (hn ▸ begun_of_deployed hdeployed hw hs) hdeployed
      exact Or.inl ⟨hkept.1, hvisible.keep (seen_change hchange) hkept.2.1 hkept.2.2⟩
    · obtain ⟨u, hu, hnode, hcase⟩ :=
        hidden_change hhidden hw h.displayed h.known hc hchange hs
      cases node_inj hw'.inv hu ht (hnode.trans hn)
      rcases hcase with ⟨hkept, -⟩ | ⟨player, hyes, rfl⟩
      · exact Or.inr hkept
      · exact split_start hw h.displayed hshown hs hhidden hyes ht

/-- In a run whose clicks are made on buttons that are seen every game is seen
on the stored reply or hidden. -/
theorem clicksFair_run {events : List Event}
    (h : Along World.step (ClicksSeen carried) World.init events) :
    ClicksFair carried (run events) := by
  rw [run_eq_parts]
  exact invariant_along reached_init (along_parts reached_init h) clicksFair_init
    fun _ _ hw hc hf => clicksFair_part hw hf hc

/-- A stranded game stays stranded with the same play. -/
theorem stranded_change {p : Part} (h : Stranded carried w s) (hw : Reached w) (hd : Displayed w)
    (hk : KnownShown w) (hc : Within (ClicksSeen carried) w p) (hchange : Change w p w')
    (hs : s ∈ w.tttListG) :
    ∃ t ∈ w'.tttListG, t.node = s.node ∧ Stranded carried w' t ∧ SamePlay s.ttt t.ttt := by
  obtain ⟨more, hmore⟩ := change_trace hchange
  obtain ⟨t, ht, hn, ⟨hkept, hplay⟩ | ⟨player, hyes, -⟩⟩ :=
    hidden_change h.toHidden hw hd hk hc hchange hs
  · refine ⟨t, ht, hn, ⟨hkept, ?_⟩, hplay⟩
    rw [hn, hmore]
    exact List.mem_append_left _ h.begun
  · obtain ⟨click, pre, post, -, hacc, -⟩ := hyes.accepted
    exact (not_starts hw hs h.begun hacc).elim

/-- A stranded session keeps its play in every continuation with clicks on
seen buttons. -/
theorem stranded_after {more : List Event} (hw : Reached w) (hf : ClicksFair carried w)
    (hs : s ∈ w.tttListG) (h : Stranded carried w s)
    (hc : Along World.step (ClicksSeen carried) w more) :
    ∃ t ∈ (after World.step w more).tttListG, t.node = s.node ∧ SamePlay s.ttt t.ttt := by
  rw [after_parts step_eq_parts]
  have hall := invariant_along (I := fun w => ClicksFair carried w ∧
    ∃ t ∈ w.tttListG, t.node = s.node ∧ Stranded carried w t ∧ SamePlay s.ttt t.ttt) hw
    (along_parts hw hc) ⟨hf, s, hs, rfl, h, SamePlay.refl _⟩ ?_
  · obtain ⟨-, t, ht, hn, -, hplay⟩ := hall
    exact ⟨t, ht, hn, hplay⟩
  · rintro w p hw hc ⟨hf, t, ht, hn, hst, hplay⟩
    obtain ⟨u, hu, hnode, hstranded, hsame⟩ :=
      stranded_change hst hw hf.displayed hf.known hc (part_change hw.inv p) ht
    exact ⟨clicksFair_part hw hf hc, u, hu, hnode.trans hn, hstranded, hplay.trans hsame⟩

/-- A started game that is not shown on the stored reply is never played:
however the run goes on with clicks on shown buttons, the session stays
listed, and its play stays as it is. As everywhere, a second erase of a
session is taken to leave the others where they are. -/
theorem stranded_run {before middle : List Event}
    (h : Along World.step ClicksShown World.init (before ++ middle))
    (hs : s ∈ (run before).tttListG) (hi : .initGame s.node ∈ (run before).trace)
    (hd : ¬ Deployed s) :
    ∃ t ∈ (run (before ++ middle)).tttListG, t.node = s.node ∧ SamePlay s.ttt t.ttt := by
  obtain ⟨hbefore, hmiddle⟩ := along_append.mp (h.mono clicksSeen_of_shown)
  have hfair := clicksFair_run hbefore
  have hst := hfair.stranded hs hi fun hboth => hd hboth.1
  have hlast := stranded_after (reached_run before) hfair hs hst hmiddle
  rwa [run, after_append]

/-- The first reply is stored after the second YES. -/
theorem stranded_quickYes : ∃ s ∈ (run quickYes).tttListG,
    ∃ t ∈ (run (quickYes ++ [.callback (.confirmReply firstYes 0) (succeeds 1),
      .callback (.originalResponse firstYes 0) (succeeds 101)])).tttListG,
      t.node = s.node ∧ SamePlay s.ttt t.ttt := by
  have hstate : (0, false) ∈ (run quickYes).tttListG.map
      fun s => (s.node, s.confirm.st.replied) := by decide
  obtain ⟨s, hs, hs'⟩ := List.mem_map.mp hstate
  obtain ⟨hnode, hreplied⟩ := Prod.mk.inj hs'
  refine ⟨s, hs, stranded_run (by decide) hs ?_ fun hd => ?_⟩
  · rw [hnode]
    decide
  · rw [hd.replied] at hreplied
    cases hreplied

end TintempPlusPlus.Progress
