import TintempPlusPlus.Reachable

/-!
# Every message that is sent can be sent

Discord refuses messages with too many rows or buttons, buttons without a
label or an id, two buttons with one id, and messages that say nothing. What
the program sends is never refused for one of these reasons, except that it
sends the default message on behalf of a session whose challenge or reply
has not been stored.
-/

namespace TintempPlusPlus.Validity

open Discord UniqueID Ttt Handlers ScanLoop Play HandlerLaws Program EventRuns Invariant Steps
  Reachable

/-- Discord accepts the message. -/
structure Valid (message : Message) : Prop where
  /-- At most five rows. -/
  rows : message.components.length ≤ 5
  /-- One to five buttons in a row. -/
  buttons : ∀ row ∈ message.components,
    1 ≤ row.components.length ∧ row.components.length ≤ 5
  /-- Every button has a label and an id. -/
  filled : ∀ row ∈ message.components, ∀ button ∈ row.components,
    button.label ≠ "" ∧ button.customId ≠ ""
  /-- No two buttons have one id. -/
  ids : message.customIds.Nodup
  /-- Something is said, or nothing was ever put into the message. -/
  substance : message = {} ∨ message.content ≠ "" ∨ message.embeds ≠ []

/-- The message that a request carries. -/
def message? : Effect → Option Message
  | .reply _ _ message _ => some message
  | .messageEdit message _ => some message
  | .messageCreate message _ => some message
  | _ => none

/-- Only valid messages are sent, and a challenge with its embed. -/
def Sendable (effect : Effect) : Prop :=
  (∀ message, message? effect = some message → Valid message) ∧
    ∀ uid posted, effect.callback? = some (.created uid posted) → Valid posted ∧ posted.embeds ≠ []

/-- The messages of a session are valid, and the board is shown from the
start of the game on. -/
structure Presentable (s : Session) : Prop where
  /-- The challenge message. -/
  origin : Valid s.ttt.origin
  /-- The game message. -/
  game : Valid s.ttt.game
  /-- The reply has no buttons before the start. -/
  unshown : Waiting s.ttt → s.ttt.game.components = []
  /-- The game is untouched or started. -/
  stage : Waiting s.ttt ∨ ∃ nextID, Started nextID s

variable {w : World} {s : Session} {click : Click} {player : Player} {message : Message}
  {t : Game} {effect : Effect} {callback : Callback}

/-- A message without buttons is valid if it says something. -/
theorem valid_of_plain (hc : message.components = [])
    (hs : message = {} ∨ message.content ≠ "" ∨ message.embeds ≠ []) : Valid message := by
  refine ⟨?_, ?_, ?_, ?_, hs⟩
  · simp [hc]
  · simp [hc]
  · simp [hc]
  · simp [Message.customIds, hc]

/-- The empty message keeps the limits. -/
theorem valid_default : Valid {} := valid_of_plain rfl (Or.inl rfl)

/-- Another first embed leaves a message valid. -/
theorem valid_setOriginEmbed (h : Valid t.origin) (embed : Embed) :
    Valid (t.setOriginEmbed embed).origin := by
  refine ⟨h.rows, h.buttons, h.filled, h.ids, ?_⟩
  rcases h.substance with hdefault | hcontent | hembeds
  · left
    simp [Game.setOriginEmbed, hdefault]
  · exact Or.inr (Or.inl hcontent)
  · right
    right
    simp only [Game.setOriginEmbed]
    cases he : t.origin.embeds with
    | nil => exact absurd he hembeds
    | cons first rest => exact List.cons_ne_nil _ _

/-- A text with a mention is not empty. -/
theorem mention_append_ne_empty (user : Snowflake) (text : String) : mention user ++ text ≠ "" := by
  intro h
  have hl := congrArg (fun s => s.toList.head?) h
  simp [mention, String.toList_append] at hl

/-- Every square has a label, whatever its state. -/
theorem label_ne_empty (t : Game) (board : Board) (square : Square) :
    (t.tttButton board square).label ≠ "" := by
  have hicon : (fetchBtnIcon (board square)).1 ≠ "" := by
    unfold fetchBtnIcon
    cases (board square).status
    · exact (by decide : "-" ≠ "")
    · dsimp only
      split_ifs <;> decide
    · dsimp only
      split_ifs <;> decide
  simp only [Game.tttButton]
  split_ifs
  · exact hicon
  · decide

/-- A rendered game has a text. -/
theorem content_ne_empty (t : Game) (message : Message) :
    (t.fetchTttTurn message).content ≠ "" := by
  have hturn : "its " ++ mention t.turn.1 ++ "'s turn" ≠ "" := by
    intro h
    have hl := congrArg (fun s => s.toList.head?) h
    simp [String.toList_append] at hl
  unfold Game.fetchTttTurn
  dsimp only
  split_ifs
  · exact (by decide : "** **" ≠ "")
  · exact hturn

/-- A board under a message without buttons. -/
theorem valid_fetchTttTurn {nextID : ℕ} (hb : Numbered nextID t.board)
    (hm : message.components = []) : Valid (t.fetchTttTurn message) := by
  have hcomponents := fetchTttTurn_components t message
  rw [hm, List.nil_append] at hcomponents
  have hid : ∀ square, (t.board square).id ≠ "" := fun square => by
    obtain ⟨n, -, hids⟩ := hb
    rw [hids]
    exact pairId_ne_empty _ _
  have hbutton : ∀ square, (t.tttButton t.board square).label ≠ "" ∧
      (t.tttButton t.board square).customId ≠ "" :=
    fun square => ⟨label_ne_empty t t.board square, hid square⟩
  refine ⟨?_, ?_, ?_, ?_, Or.inr (Or.inl (content_ne_empty t message))⟩
  · rw [hcomponents]
    exact Nat.le_add_left 3 2
  · rw [hcomponents]
    simp [Game.fetchTttComponents, Component.addComponent]
  · rw [hcomponents]
    simp [Game.fetchTttComponents, Component.addComponent, hbutton]
  · have hnone : message.customIds = [] := by simp [Message.customIds, hm]
    rw [fetchTttTurn_customIds, hnone, List.nil_append]
    exact squares_nodup.map fun a b hab => hb.distinctIds a b hab

/-- A message without buttons can be sent when it has a text or an embed. -/
theorem sendable_of_plain (h : ∀ message, message? effect = some message →
      message.components = [] ∧ (message.content ≠ "" ∨ message.embeds ≠ []))
    (hlog : ∀ uid posted, effect.callback? ≠ some (.created uid posted)) : Sendable effect := by
  refine ⟨fun message hm => ?_, fun uid posted hcb => absurd hcb (hlog uid posted)⟩
  obtain ⟨hc, hs⟩ := h message hm
  exact valid_of_plain hc (Or.inr hs)

/-- A request for a message with a callback that writes to the log. -/
theorem sendable_log (hm : message? effect = some message) (hv : Valid message)
    (hcb : effect.callback? = some .log) : Sendable effect := by
  refine ⟨fun m h => ?_, fun uid posted h => ?_⟩
  · rw [hm] at h
    exact Option.some.inj h ▸ hv
  · rw [hcb] at h
    cases h

/-- A record of a moment, or a deletion. -/
theorem sendable_silent (hm : message? effect = none) (hcb : effect.callback? = none) :
    Sendable effect := by
  refine ⟨fun m h => ?_, fun uid posted h => ?_⟩
  · rw [hm] at h
    cases h
  · rw [hcb] at h
    cases h

/-! ## Visits of a session -/

/-- A flag changes nothing that is shown. -/
theorem Presentable.flag (h : Presentable s) (player : Player) : Presentable (s.flag player) := by
  refine ⟨h.origin, h.game, h.unshown, h.stage.imp_right ?_⟩
  rintro ⟨nextID, hs⟩
  refine ⟨nextID, fun q => ?_, hs.turn, hs.ids⟩
  rcases Player.eq_or_other q player with rfl | rfl
  · simp [Session.flag]
  · simpa [Session.flag] using hs.confm player.other

/-- An embed may be replaced. -/
theorem Presentable.setOriginEmbed (h : Presentable s) (embed : Embed) :
    Presentable { s with ttt := s.ttt.setOriginEmbed embed } := by
  refine ⟨valid_setOriginEmbed h.origin embed, h.game, fun hw => ?_, ?_⟩
  · exact h.unshown ⟨hw.turn, hw.turns, hw.result, hw.board⟩
  · rcases h.stage with hw | ⟨nextID, hs⟩
    · exact Or.inl ⟨hw.turn, hw.turns, hw.result, hw.board⟩
    · exact Or.inr ⟨nextID, hs.confm, hs.turn, hs.ids⟩

/-- A game starts on a reply without buttons. -/
theorem Presentable.start (h : Presentable s) (hw : Waiting s.ttt)
    (hall : ∀ q, s.confirm.st.confm q = true) (nextID : ℕ) :
    Presentable (s.start nextID).1 := by
  have hstarted := start_started nextID hall
  have hne : ¬ Waiting (s.start nextID).1.ttt := fun hwaiting => by
    have hboard := congrFun hwaiting.board (0, 0)
    have hid := congrArg Pair.id hboard
    obtain ⟨n, -, hids⟩ := hstarted.ids
    rw [hids] at hid
    exact pairId_ne_empty _ _ hid
  refine ⟨?_, ?_, fun hwaiting => absurd hwaiting hne, Or.inr ⟨_, hstarted⟩⟩
  · exact valid_setOriginEmbed h.origin (startEmbed s.confirm)
  · simp only [Session.start, Game.initGame]
    exact valid_fetchTttTurn (t := { s.ttt.setOriginEmbed (startEmbed s.confirm) with
      turn := _, board := _ }) hstarted.ids (h.unshown hw)

/-- An unanswered session is untouched. -/
theorem Presentable.waiting (h : Presentable s) (hc : s.confirm.st.confm player = false) :
    Waiting s.ttt := by
  refine h.stage.resolve_right ?_
  rintro ⟨nextID, hs⟩
  have hset := hs.confm player
  rw [hc] at hset
  cases hset

/-- What a YES sends is valid. -/
theorem answeredYes_sendable (click : Click) (player : Player) (h : Presentable s) (nextID : ℕ) :
    Presentable (answeredYes click player nextID s).item ∧
      ∀ effect ∈ (answeredYes click player nextID s).emitted, Sendable effect := by
  have hanswered : Sendable (.answered s.node player .yes) := sendable_silent rfl rfl
  unfold answeredYes
  split_ifs with hy hset
  · exact ⟨h, List.forall_mem_nil _⟩
  · have hwait := h.waiting (Bool.eq_false_of_not_eq_true hset)
    dsimp only
    split_ifs with ho
    · refine ⟨h.flag player, List.forall_mem_cons.mpr ⟨hanswered, ?_⟩⟩
      refine List.forall_mem_singleton.mpr (sendable_of_plain (fun message hm => ?_) ?_)
      · cases hm
        exact ⟨rfl, Or.inl (mention_append_ne_empty _ _)⟩
      · exact fun uid posted hcb => by cases hcb
    · have hother : s.confirm.st.confm player.other = true := by
        simpa [Session.flag] using ho
      have hstarted := (h.flag player).start hwait (flag_all hother) nextID
      refine ⟨hstarted, ?_⟩
      simp only [List.forall_mem_cons]
      exact ⟨hanswered, sendable_silent rfl rfl, sendable_log rfl hstarted.origin rfl,
        sendable_log rfl hstarted.game rfl, List.forall_mem_nil _⟩
  · exact ⟨h, List.forall_mem_nil _⟩

/-- What a Nah sends is valid. -/
theorem answeredNo_sendable (click : Click) (player : Player) (h : Presentable s) (nextID : ℕ) :
    Presentable (answeredNo click player nextID s).item ∧
      ∀ effect ∈ (answeredNo click player nextID s).emitted, Sendable effect := by
  unfold answeredNo
  split_ifs with hn hset
  · exact ⟨h, List.forall_mem_nil _⟩
  · have hcancelled := (h.flag player).setOriginEmbed (cancelledEmbed click)
    refine ⟨hcancelled, List.forall_mem_append.mpr ⟨?_, fun effect he => ?_⟩⟩
    · simp only [List.forall_mem_cons]
      exact ⟨sendable_silent rfl rfl, sendable_log rfl hcancelled.origin rfl,
        List.forall_mem_nil _⟩
    · split_ifs at he with hr
      · rw [List.mem_singleton.mp he]
        exact sendable_silent rfl rfl
      · cases he
  · exact ⟨h, List.forall_mem_nil _⟩

/-- A text of the program to one user. -/
theorem sendable_text {type : ResponseType} (hc : message.components = [])
    (hs : message.content ≠ "") : Sendable (.reply click type message .log) :=
  sendable_log rfl (valid_of_plain hc (Or.inr (Or.inl hs))) rfl

/-- The warning to a stranger is valid. -/
theorem notYourButton_sendable (click : Click) : Sendable (notYourButton click) :=
  sendable_text rfl (mention_append_ne_empty _ _)

/-- What the confirm handler sends is valid. -/
theorem confirmBody_sendable (click : Click) (nextID : ℕ) (s : Session) (h : Presentable s) :
    Presentable (confirmBody click nextID s).item ∧
      ∀ effect ∈ (confirmBody click nextID s).emitted, Sendable effect := by
  unfold confirmBody
  cases s.playerOf click.user with
  | none => exact ⟨h, List.forall_mem_singleton.mpr (notYourButton_sendable click)⟩
  | some player =>
    have hyes := answeredYes_sendable click player h nextID
    have hno := answeredNo_sendable click player hyes.1 (answeredYes click player nextID s).shared
    dsimp only
    split_ifs
    · exact hyes
    · exact ⟨hno.1, List.forall_mem_append.mpr ⟨hyes.2, hno.2⟩⟩

/-- A turn keeps both messages. -/
theorem Presentable.play (h : Presentable s) (horigin : t.origin = s.ttt.origin)
    (hgame : t.game = s.ttt.game) {nextID : ℕ} (hs : Started nextID { s with ttt := t })
    (hturns : t.turns ≠ 0) : Presentable { s with ttt := t } := by
  refine ⟨?_, ?_, fun hw => absurd hw.turns hturns, Or.inr ⟨nextID, hs⟩⟩
  · simpa only [horigin] using h.origin
  · simpa only [hgame] using h.game

/-- What a move sends is valid. -/
theorem moveEffects_sendable {nextID : ℕ} (hb : Numbered nextID t.board) (node : ℕ) :
    ∀ effect ∈ moveEffects click node t, Sendable effect := by
  simp only [moveEffects, List.forall_mem_cons]
  refine ⟨sendable_silent rfl rfl, ⟨fun message hm => ?_, ?_⟩, List.forall_mem_nil _⟩
  · cases hm
    exact valid_fetchTttTurn hb rfl
  · exact fun uid posted hcb => by cases hcb

/-- What the board handler sends is valid. -/
theorem boardBody_sendable (click : Click) (s : Session) (h : Presentable s) :
    Presentable (boardBody click () s).item ∧
      ∀ effect ∈ (boardBody click () s).emitted, Sendable effect := by
  by_cases hm : click.messageId = s.ttt.game.id
  · by_cases ht : click.user = s.ttt.turn.1
    · obtain ⟨nextID, hs⟩ := h.stage.resolve_left fun hw =>
        click.userIssued (ht.trans (congrArg Prod.fst hw.turn))
      by_cases hsq : ∃ square, click.customId = (s.ttt.board square).id
      · obtain ⟨square, hsq⟩ := hsq
        by_cases hidle : (s.ttt.board square).status = .idle
        · have hmoved := started_move hs square
          have hturns := move_turns s.ttt square
          have horigin : (Game.move s.ttt square).origin = s.ttt.origin := by
            simp [Game.move, Game.setStatus]
          have hgame : (Game.move s.ttt square).game = s.ttt.game := by
            simp [Game.move, Game.setStatus]
          rw [boardBody_move hs.ids.distinctIds hm ht hsq hidle]
          generalize Game.move s.ttt square = t at hmoved hturns horigin hgame ⊢
          exact ⟨h.play horigin hgame hmoved (by omega), List.forall_mem_cons.mpr
            ⟨sendable_silent rfl rfl, moveEffects_sendable hmoved.ids _⟩⟩
        · rw [boardBody_taken hs.ids.distinctIds hm ht hsq hidle]
          exact ⟨h, List.forall_mem_singleton.mpr (sendable_text rfl (by decide))⟩
      · have hpassed := started_pass hs
        have hturns : s.ttt.fetchWinner.swapTurn.turns ≠ 0 := by simp
        have horigin : s.ttt.fetchWinner.swapTurn.origin = s.ttt.origin := by simp
        have hgame : s.ttt.fetchWinner.swapTurn.game = s.ttt.game := by simp
        rw [boardBody_stray hm ht (not_exists.mp hsq)]
        generalize s.ttt.fetchWinner.swapTurn = t at hpassed hturns horigin hgame ⊢
        exact ⟨h.play horigin hgame hpassed hturns, moveEffects_sendable hpassed.ids _⟩
    · rw [boardBody_waiting hm ht]
      refine ⟨h, ?_⟩
      dsimp only
      split_ifs
      · exact List.forall_mem_singleton.mpr (sendable_text rfl (by decide))
      · exact List.forall_mem_nil _
  · rw [show boardBody click () s = _ from boardBody_elsewhere hm]
    exact ⟨h, List.forall_mem_nil _⟩

/-! ## Runs -/

/-- Everything sent so far was valid, and so is what will be shown next. -/
structure Presented (w : World) : Prop where
  /-- The requests. -/
  trace : ∀ effect ∈ w.trace, Sendable effect
  /-- The challenges on their way. -/
  pending : ∀ uid posted, .created uid posted ∈ w.pending → Valid posted ∧ posted.embeds ≠ []
  /-- The sessions. -/
  sessions : ∀ s ∈ w.tttListG, Presentable s

/-- New valid effects keep everything presented. -/
theorem Presented.emit (h : Presented w) {effects : List Effect}
    (hsend : ∀ effect ∈ effects, Sendable effect) : Presented (w.emit effects) := by
  refine ⟨List.forall_mem_append.mpr ⟨h.trace, hsend⟩, fun uid posted hcb => ?_, h.sessions⟩
  rcases List.mem_append.mp hcb with hold | hnew
  · exact h.pending uid posted hold
  · obtain ⟨effect, he, hsome⟩ := List.mem_filterMap.mp hnew
    exact (hsend effect he).2 uid posted hsome

/-- A list of presentable sessions keeps everything presented. -/
theorem Presented.list (h : Presented w) {list : List Session}
    (hlist : ∀ s ∈ list, Presentable s) {nextID nextNode : ℕ} {returned : List Message} :
    Presented { w with
      nextID := nextID, nextNode := nextNode, tttListG := list, returned := returned } :=
  ⟨h.trace, h.pending, hlist⟩

/-- A callback that runs keeps everything presented. -/
theorem Presented.taken (h : Presented w) (callback : Callback) :
    Presented (taken w callback) :=
  ⟨h.trace, fun uid posted hcb => h.pending uid posted (List.mem_of_mem_erase hcb), h.sessions⟩

/-- A challenge shows two buttons below its embed. -/
theorem challengeMessage_valid {player1 player2 : Snowflake} (hf : Fresh w player1 player2 s)
    (incoming : Incoming) : Valid (challengeMessage incoming s) := by
  have hrow : s.confirm.component = {} := by
    rw [hf.confirm]
    rfl
  have hids : s.confirm.btnId = buttonIds s.confirm.id := by
    rw [hf.confirm]
    rfl
  have hcomponents : (challengeMessage incoming s).components =
      [⟨[⟨"YES", .success, confirmYesId s.confirm.id.1, false⟩,
        ⟨"Nah", .danger, confirmNoId s.confirm.id.2, false⟩]⟩] := by
    simp [challengeMessage, Message.addComponent, Component.addComponent, hrow, hids, buttonIds]
  refine ⟨?_, ?_, ?_, ?_, Or.inr (Or.inr (List.cons_ne_nil _ _))⟩
  · simp [hcomponents]
  · simp [hcomponents]
  · simp [hcomponents, confirmYesId_ne_empty, confirmNoId_ne_empty]
  · simp [Message.customIds, hcomponents, confirmYesId_ne_confirmNoId]

/-- A fresh session can be presented. -/
theorem fresh_presentable {player1 player2 : Snowflake} (hf : Fresh w player1 player2 s) :
    Presentable s := by
  have hwait := hf.waiting
  refine ⟨?_, ?_, fun _ => ?_, Or.inl hwait⟩
  · rw [hf.ttt]
    exact valid_default
  · rw [hf.ttt]
    exact valid_default
  · rw [hf.ttt]

/-- A command keeps everything presented. -/
theorem presented_command (h : Presented w) (message : Incoming) (order : DrawOrder) :
    Presented (w.command message order) := by
  have hrejection : ∀ content, content ≠ "" → Sendable (rejection message content) :=
    fun content hcontent =>
      sendable_log rfl (valid_of_plain rfl (Or.inr (Or.inl hcontent))) rfl
  unfold World.command
  split
  · exact h
  · rename_i mentioned rest hmentions
    split_ifs
    · exact h.emit (List.forall_mem_singleton.mpr (hrejection _ (by decide)))
    · exact h.emit (List.forall_mem_singleton.mpr (hrejection _ (by decide)))
    · obtain ⟨hf, -⟩ := newSession_fresh w order message.author mentioned.id
      have hvalid := challengeMessage_valid hf message
      have hlist := List.forall_mem_append.mpr
        ⟨h.sessions, List.forall_mem_singleton.mpr (fresh_presentable hf)⟩
      refine (h.list hlist).emit (List.forall_mem_singleton.mpr ⟨fun posted hm => ?_, ?_⟩)
      · exact Option.some.inj hm ▸ hvalid
      · intro uid posted hcb
        cases hcb
        exact ⟨hvalid, List.cons_ne_nil _ _⟩

/-- The confirm handler keeps everything presented. -/
theorem presented_confirm (h : Presented w) (click : Click) :
    Presented (w.confirmClick click) := by
  obtain ⟨hitems, hemitted⟩ := sweep_forall (t := w.nextID) (confirmBody_sendable click) h.sessions
  exact (h.list hitems).emit hemitted

/-- The board handler keeps everything presented. -/
theorem presented_board (h : Presented w) (click : Click) : Presented (w.boardClick click) := by
  obtain ⟨hitems, hemitted⟩ :=
    sweep_forall (t := ()) (fun _ => boardBody_sendable click) h.sessions
  exact (h.list hitems).emit hemitted

/-- A posted message with an embed stays valid when Discord returns it. -/
theorem valid_deployed (h : Valid message) (hs : message.content ≠ "" ∨ message.embeds ≠ [])
    (deployment : Deployment) : Valid (message.deployed deployment) :=
  ⟨h.rows, h.buttons, h.filled, h.ids, Or.inr hs⟩

/-- An announced result keeps everything presented. -/
theorem presented_announce (h : Presented w) (hs : s ∈ w.tttListG) (embed : Embed) :
    Presented (w.announce click s embed) := by
  have hlist : ∀ t ∈ (w.update s.node fun s =>
      { s with ttt := s.ttt.setOriginEmbed (endedEmbed s.ttt) }).tttListG, Presentable t := by
    refine List.forall_mem_map.mpr fun t ht => ?_
    split_ifs
    · exact (h.sessions t ht).setOriginEmbed _
    · exact h.sessions t ht
  refine (h.list hlist).emit ?_
  simp only [List.forall_mem_cons]
  refine ⟨⟨fun message hm => ?_, fun uid posted hcb => by cases hcb⟩, ?_, List.forall_mem_nil _⟩
  · cases hm
    exact valid_of_plain rfl (Or.inr (Or.inr (List.cons_ne_nil _ _)))
  · exact sendable_log rfl (valid_setOriginEmbed (h.sessions s hs).origin (endedEmbed s.ttt)) rfl

/-- A callback keeps everything presented. -/
theorem presented_runCallback (h : Presented w) (response : Response)
    (hposted : ∀ uid posted, callback = .created uid posted → Valid posted ∧ posted.embeds ≠ []) :
    Presented (w.runCallback response callback) := by
  cases callback with
  | log => exact h
  | created uid posted =>
    cases response with
    | error => exact h
    | success deployment =>
      obtain ⟨hvalid, hembeds⟩ := hposted uid posted rfl
      have hdeployed := valid_deployed hvalid (Or.inr hembeds) deployment
      refine h.list (List.forall_mem_map.mpr fun t ht => ?_)
      have hpresentable := h.sessions t ht
      split_ifs
      · refine ⟨hdeployed, hpresentable.game, fun hw => ?_, ?_⟩
        · exact hpresentable.unshown ⟨hw.turn, hw.turns, hw.result, hw.board⟩
        · rcases hpresentable.stage with hw | ⟨nextID, hs⟩
          · exact Or.inl ⟨hw.turn, hw.turns, hw.result, hw.board⟩
          · exact Or.inr ⟨nextID, hs.confm, hs.turn, hs.ids⟩
      · exact hpresentable
      · exact hpresentable
  | confirmReply click node =>
    refine h.emit (List.forall_mem_singleton.mpr ⟨fun message hm => ?_, ?_⟩)
    · cases hm
    · exact fun uid posted hcb => by cases hcb
  | originalResponse click node =>
    cases response with
    | error => exact h
    | success deployment =>
      have hcontent : (confirmedReply click).content ≠ "" := mention_append_ne_empty _ _
      refine h.list (List.forall_mem_map.mpr fun t ht => ?_)
      have hpresentable := h.sessions t ht
      split_ifs
      · refine ⟨hpresentable.origin, ?_, fun _ => rfl, ?_⟩
        · exact valid_of_plain rfl (Or.inr (Or.inl hcontent))
        · rcases hpresentable.stage with hw | ⟨nextID, hs⟩
          · exact Or.inl ⟨hw.turn, hw.turns, hw.result, hw.board⟩
          · exact Or.inr ⟨nextID, hs.confm, hs.turn, hs.ids⟩
      · exact hpresentable
  | boardReply click node =>
    cases response with
    | error => exact h
    | success deployment =>
      simp only [World.runCallback]
      split
      · exact h
      · rename_i s hfind
        split
        · exact h
        · exact presented_announce h (List.mem_of_find?_eq_some hfind) _
  | resultMessage node =>
    cases response with
    | error => exact h
    | success deployment => exact h.list fun s hs => h.sessions s (List.mem_of_mem_filter hs)

/-- Every event keeps everything presented. -/
theorem presented_step (h : Presented w) (e : Event) : Presented (w.step e) := by
  cases e with
  | command message order => exact presented_command h message order
  | click click => exact presented_board (presented_confirm h click) click
  | callback callback response =>
    simp only [World.step]
    split_ifs with ha
    · have hmem : callback ∈ w.pending := of_decide_eq_true (Bool.and_eq_true_iff.mp ha).1
      exact presented_runCallback (h.taken callback) response fun uid posted he =>
        h.pending uid posted (he ▸ hmem)
    · exact h

/-- In every run, whatever is clicked and however requests end, every message
in a request is one that Discord accepts. -/
theorem valid_run (events : List Event) : ∀ effect ∈ (run events).trace, ∀ message,
    message? effect = some message → Valid message := by
  have hall : Presented (run events) := by
    refine invariant ⟨?_, ?_, ?_⟩ fun w e hw => presented_step hw e
    · exact List.forall_mem_nil _
    · exact fun uid posted hcb => by cases hcb
    · exact List.forall_mem_nil _
  exact fun effect he => (hall.trace effect he).1

/-- A message with a board of three rows is sent while the top row is filled. -/
theorem valid_topRow : ∃ effect ∈ (run topRow).trace, ∃ message,
    message? effect = some message ∧ message.components.length = 3 ∧ Valid message := by
  have hrows : 3 ∈ ((run topRow).trace.filterMap message?).map fun message =>
      message.components.length := by decide
  obtain ⟨message, hm, hlength⟩ := List.mem_map.mp hrows
  obtain ⟨effect, he, hmessage⟩ := List.mem_filterMap.mp hm
  exact ⟨effect, he, message, hmessage, hlength, valid_run topRow effect he message hmessage⟩

end TintempPlusPlus.Validity
