import TintempPlusPlus.Invariant

/-!
# Everything one step can do

Each atomic piece of an event changes at most one session, and in one of a
few ways. The list of these ways is complete for worlds that satisfy the
invariant, and the invariant survives each of them.
-/

namespace TintempPlusPlus.Steps

open Discord UniqueID Ttt Handlers ScanLoop Play HandlerLaws Program OneEntry Invariant

/-- A message to one user about a click or a command that changes nothing. -/
inductive Warning : Effect → Prop
  | reply (click : Click) (message : Message) :
    Warning (.reply click .channelMessageWithSource message .log)
  | create (message : Message) : Warning (.messageCreate message .log)

/-- A warning is about no session. -/
theorem Warning.node {effect : Effect} (h : Warning effect) : effect.node? = none := by
  cases h <;> rfl

/-- The warnings of the confirm handler are warnings. -/
theorem warning_of_mem_warnings {click : Click} {list : List Session} :
    ∀ effect ∈ warnings click list, Warning effect := by
  intro effect h
  rw [mem_warnings h]
  exact Warning.reply _ _

/-- The click reaches a session and is the first answer of a player. -/
structure Accepts (w : World) (click : Click) (player : Player) (pre : List Session)
    (s : Session) (post : List Session) : Prop where
  /-- The session is listed. -/
  list : w.tttListG = pre ++ s :: post
  /-- The loop gets to the session. -/
  reach : ∀ t ∈ pre, IsPlayer click.user t
  /-- The user is this player of the session. -/
  user : s.playerOf click.user = some player
  /-- The button belongs to the session. -/
  addressed : Addressed click s
  /-- The player has not answered before. -/
  unanswered : s.confirm.st.confm player = false

/-- The click is made on a game message by the user whose turn it is. -/
structure Turn (w : World) (click : Click) (pre : List Session) (s : Session)
    (post : List Session) : Prop where
  /-- The session is listed. -/
  list : w.tttListG = pre ++ s :: post
  /-- The click was made on the session's game message. -/
  message : click.messageId = s.ttt.game.id
  /-- The user has the turn. -/
  user : click.user = s.ttt.turn.1
  /-- The game has been started. -/
  started : Started w.nextID s

/-- The session that accepts a click is listed. -/
theorem Accepts.mem {w : World} {click : Click} {player : Player} {pre post : List Session}
    {s : Session} (h : Accepts w click player pre s post) : s ∈ w.tttListG :=
  mem_of_split h.list

/-- The session whose turn it is is listed. -/
theorem Turn.mem {w : World} {click : Click} {pre post : List Session} {s : Session}
    (h : Turn w click pre s post) : s ∈ w.tttListG :=
  mem_of_split h.list

/-- The world in which a callback has been taken off the pending ones. -/
abbrev taken (w : World) (callback : Callback) : World :=
  { w with pending := w.pending.erase callback }

/-- The callback neither reads a result nor reaches a session. -/
def Idle (w : World) (response : Response) : Callback → Prop
  | .log => True
  | .boardReply click node => response = .error ∨
    ∀ s, w.find node = some s → resultEmbed click s.ttt.result = none
  | .resultMessage node => response = .error ∨ w.find node = none
  | .confirmReply _ _ => False
  | _ => response = .error

/-- The message that the callback brings has no session to go to. -/
def Orphan (w : World) : Callback → Prop
  | .created uid _ => ∀ s ∈ w.tttListG, s.ttt.uid = uid → s.ttt.haveOrigin = true
  | .originalResponse _ node => w.find node = none
  | _ => False

/-- The ways in which a piece of an event changes a world. -/
inductive Change (w : World) : Part → World → Prop
  /-- Nobody is changed, somebody may be warned. -/
  | quiet {p : Part} {effects : List Effect} (h : ∀ effect ∈ effects, Warning effect) :
    Change w p (w.emit effects)
  /-- A session is created. -/
  | challenged {message : Incoming} {order : DrawOrder} {mentioned : Mention}
    (h : mentioned.id ≠ message.author) :
    Change w (.command message order) (w.challenge message mentioned.id order)
  /-- A confirm click is accepted. -/
  | accepted {click : Click} {player : Player} {pre : List Session} {s : Session}
    {post : List Session} (h : Accepts w click player pre s post) :
    Change w (.confirm click)
      ({ w with
        nextID := (accept click player w.nextID s).2.1
        tttListG := pre ++ (accept click player w.nextID s).1 :: post }.emit
        ((accept click player w.nextID s).2.2 ++ warnings click post))
  /-- A square is marked. -/
  | played {click : Click} {square : Square} {pre : List Session} {s : Session}
    {post : List Session} (h : Turn w click pre s post)
    (hsq : click.customId = (s.ttt.board square).id)
    (hidle : (s.ttt.board square).status = .idle) :
    Change w (.board click)
      ({ w with tttListG := pre ++ { s with ttt := Game.move s.ttt square } :: post }.emit
        (.placed s.node click square s.ttt.turn.2 ::
          moveEffects click s.node (Game.move s.ttt square)))
  /-- The turn passes without a mark. -/
  | strayed {click : Click} {pre : List Session} {s : Session}
    {post : List Session} (h : Turn w click pre s post)
    (hsq : ∀ square, click.customId ≠ (s.ttt.board square).id) :
    Change w (.board click)
      ({ w with tttListG := pre ++ { s with ttt := s.ttt.fetchWinner.swapTurn } :: post }.emit
        (moveEffects click s.node s.ttt.fetchWinner.swapTurn))
  /-- A callback does nothing. -/
  | dropped {callback : Callback} {response : Response} (h : callback ∈ w.pending)
    (hidle : Idle w response callback) :
    Change w (.callback callback response) (taken w callback)
  /-- A posted message finds no session to go to. -/
  | received {callback : Callback} {deployment : Deployment} {message : Message}
    (h : callback ∈ w.pending) (hfresh : deployment.id ∉ w.issued)
    (hmessage : Callback.message? callback = some message) (horphan : Orphan w callback) :
    Change w (.callback callback (.success deployment))
      ((taken w callback).receive (message.deployed deployment))
  /-- The challenge message is stored. -/
  | originSet {uid : ℕ} {posted : Message} {deployment : Deployment} {pre : List Session}
    {s : Session} {post : List Session} (h : .created uid posted ∈ w.pending)
    (hfresh : deployment.id ∉ w.issued) (hl : w.tttListG = pre ++ s :: post)
    (huid : uid = s.ttt.uid) (hno : s.ttt.haveOrigin = false) :
    Change w (.callback (.created uid posted) (.success deployment))
      { (taken w (.created uid posted)).receive (posted.deployed deployment) with
        tttListG := pre ++ { s with ttt := s.ttt.setOrigin (posted.deployed deployment) } :: post }
  /-- The "(1/2)" reply is asked for. -/
  | asked {click : Click} {node : ℕ} {response : Response}
    (h : .confirmReply click node ∈ w.pending) :
    Change w (.callback (.confirmReply click node) response)
      ((taken w (.confirmReply click node)).emit
        [.getOriginalResponse click (.originalResponse click node)])
  /-- The "(1/2)" reply is stored. -/
  | stored {click : Click} {deployment : Deployment} {pre : List Session} {s : Session}
    {post : List Session} (h : .originalResponse click s.node ∈ w.pending)
    (hfresh : deployment.id ∉ w.issued) (hl : w.tttListG = pre ++ s :: post) :
    Change w (.callback (.originalResponse click s.node) (.success deployment))
      { (taken w (.originalResponse click s.node)).receive
          ((confirmedReply click).deployed deployment) with
        tttListG := pre ++ s.store ((confirmedReply click).deployed deployment) :: post }
  /-- The result is announced. -/
  | announced {click : Click} {deployment : Deployment} {pre : List Session} {s : Session}
    {post : List Session} {embed : Embed} (h : .boardReply click s.node ∈ w.pending)
    (hl : w.tttListG = pre ++ s :: post) (hr : resultEmbed click s.ttt.result = some embed) :
    Change w (.callback (.boardReply click s.node) (.success deployment))
      ({ taken w (.boardReply click s.node) with
        tttListG := pre ++ { s with ttt := s.ttt.setOriginEmbed (endedEmbed s.ttt) } :: post }.emit
        [.messageCreate (resultMessage click s embed) (.resultMessage s.node),
          .messageEdit (s.ttt.setOriginEmbed (endedEmbed s.ttt)).origin .log])
  /-- A session is erased. -/
  | erased {deployment : Deployment} {pre : List Session} {s : Session} {post : List Session}
    (h : .resultMessage s.node ∈ w.pending) (hl : w.tttListG = pre ++ s :: post) :
    Change w (.callback (.resultMessage s.node) (.success deployment))
      { taken w (.resultMessage s.node) with tttListG := pre ++ post }

variable {w : World} {click : Click}

/-- Nothing emitted is nothing changed. -/
@[simp] theorem emit_nil (w : World) : w.emit [] = w := by
  simp [World.emit]

/-- The world stays as it is. -/
theorem Change.same {p : Part} : Change w p w := by
  have h := @Change.quiet w p [] (by simp)
  rwa [emit_nil] at h

/-- A command adds a session or rejects the challenge. -/
theorem command_change (message : Incoming) (order : DrawOrder) :
    Change w (.command message order) (w.command message order) := by
  unfold World.command
  split
  · exact .same
  · split_ifs with hbot hself
    · exact .quiet (by simpa [rejection] using Warning.create _)
    · exact .quiet (by simpa [rejection] using Warning.create _)
    · exact .challenged hself

/-- What the confirm handler does with an accepted click. -/
theorem confirmClick_accepts (hi : Inv w) {player : Player} {pre : List Session} {s : Session}
    {post : List Session} (h : Accepts w click player pre s post) :
    w.confirmClick click =
      { w with
        nextID := (accept click player w.nextID s).2.1
        tttListG := pre ++ (accept click player w.nextID s).1 :: post }.emit
        ((accept click player w.nextID s).2.2 ++ warnings click post) := by
  obtain ⟨hs, hrest⟩ := hi.focus h.list
  have hothers : ∀ t ∈ pre ++ post, ¬ Addressed click t :=
    fun t ht => not_addressed hs (hrest t ht).1 (hrest t ht).2 h.addressed
  obtain ⟨hpre, hpost⟩ := List.forall_mem_append.mp hothers
  rw [World.confirmClick, h.list,
    onConfirmClick_accept hpre h.reach hs.buttons h.user h.addressed h.unanswered hpost]

/-- The confirm handler warns, or it accepts one answer. -/
theorem confirm_change (hi : Inv w) (click : Click) :
    Change w (.confirm click) (w.confirmClick click) := by
  rcases split_first (Addressed click) w.tttListG with hnone | ⟨pre, s, post, hl, ha, hpre⟩
  · rw [World.confirmClick, onConfirmClick_unaddressed _ hnone]
    exact .quiet warning_of_mem_warnings
  · have hwarn : Change w (.confirm click) (w.emit [notYourButton click]) :=
      .quiet (by simpa [notYourButton] using Warning.reply _ _)
    by_cases hreach : ∀ t ∈ pre, IsPlayer click.user t
    · cases hp : s.playerOf click.user with
      | none =>
        rw [World.confirmClick, hl, onConfirmClick_stranger hpre hreach hp, ← hl]
        exact hwarn
      | some player =>
        cases hf : s.confirm.st.confm player with
        | true =>
          rw [World.confirmClick, hl, onConfirmClick_answered hpre hreach hp ha hf, ← hl]
          exact .quiet (by simp)
        | false =>
          rw [confirmClick_accepts hi ⟨hl, hreach, hp, ha, hf⟩]
          exact .accepted ⟨hl, hreach, hp, ha, hf⟩
    · rw [World.confirmClick, hl, onConfirmClick_blocked hpre hreach, ← hl]
      exact hwarn

/-- Only the game clicked on changes. -/
theorem boardClick_turn (hi : Inv w) {pre : List Session} {s : Session} {post : List Session}
    (h : Turn w click pre s post) :
    w.boardClick click =
      { w with tttListG := pre ++ (boardBody click () s).item :: post }.emit
        (boardBody click () s).emitted := by
  have hothers : ∀ t ∈ pre ++ post, click.messageId ≠ t.ttt.game.id :=
    fun t ht => game_ne ((hi.focus h.list).2 t ht).2 h.message
  obtain ⟨hpre, hpost⟩ := List.forall_mem_append.mp hothers
  rw [World.boardClick, h.list, onTttInteraction_at hpre hpost]

/-- What the board handler does with a click on an idle square. -/
theorem boardClick_played (hi : Inv w) {square : Square} {pre : List Session} {s : Session}
    {post : List Session} (h : Turn w click pre s post)
    (hsq : click.customId = (s.ttt.board square).id)
    (hidle : (s.ttt.board square).status = .idle) :
    w.boardClick click =
      { w with tttListG := pre ++ { s with ttt := Game.move s.ttt square } :: post }.emit
        (.placed s.node click square s.ttt.turn.2 ::
          moveEffects click s.node (Game.move s.ttt square)) := by
  rw [boardClick_turn hi h, boardBody_move h.started.ids.distinctIds h.message h.user hsq hidle]

/-- What the board handler does with a click on a taken square. -/
theorem boardClick_taken (hi : Inv w) {square : Square} {pre : List Session} {s : Session}
    {post : List Session} (h : Turn w click pre s post)
    (hsq : click.customId = (s.ttt.board square).id)
    (htaken : (s.ttt.board square).status ≠ .idle) :
    w.boardClick click = w.emit [squareTaken click] := by
  rw [boardClick_turn hi h,
    boardBody_taken h.started.ids.distinctIds h.message h.user hsq htaken, ← h.list]

/-- What the board handler does with an id of no square. -/
theorem boardClick_strayed (hi : Inv w) {pre : List Session} {s : Session}
    {post : List Session} (h : Turn w click pre s post)
    (hsq : ∀ square, click.customId ≠ (s.ttt.board square).id) :
    w.boardClick click =
      { w with tttListG := pre ++ { s with ttt := s.ttt.fetchWinner.swapTurn } :: post }.emit
        (moveEffects click s.node s.ttt.fetchWinner.swapTurn) := by
  rw [boardClick_turn hi h, boardBody_stray h.message h.user hsq]

/-- The board handler warns, marks a square or passes the turn. -/
theorem board_change (hi : Inv w) (click : Click) :
    Change w (.board click) (w.boardClick click) := by
  rcases split_first (fun s : Session => click.messageId = s.ttt.game.id) w.tttListG with
    hnone | ⟨pre, s, post, hl, hm, hpre⟩
  · rw [World.boardClick, onTttInteraction_elsewhere hnone]
    exact .quiet (by simp)
  · obtain ⟨hs, hrest⟩ := hi.focus hl
    by_cases ht : click.user = s.ttt.turn.1
    · have hstarted := hs.started ht
      have hturn : Turn w click pre s post := ⟨hl, hm, ht, hstarted⟩
      by_cases hsq : ∃ square, click.customId = (s.ttt.board square).id
      · obtain ⟨square, hsq⟩ := hsq
        by_cases hidle : (s.ttt.board square).status = .idle
        · rw [boardClick_played hi hturn hsq hidle]
          exact .played hturn hsq hidle
        · rw [boardClick_taken hi hturn hsq hidle]
          exact .quiet (by simpa [squareTaken] using Warning.reply _ _)
      · have hsq' := not_exists.mp hsq
        rw [boardClick_strayed hi hturn hsq']
        exact .strayed hturn hsq'
    · have hpost : ∀ t ∈ post, click.messageId ≠ t.ttt.game.id :=
        fun t ht => game_ne (hrest t (List.mem_append_right _ ht)).2 hm
      rw [World.boardClick, hl, onTttInteraction_at hpre hpost, boardBody_waiting hm ht]
      split_ifs
      · dsimp only
        rw [← hl]
        exact .quiet (by simpa [notYourTurn] using Warning.reply _ _)
      · dsimp only
        rw [← hl]
        exact .quiet (by simp)

/-- The list element of a node, with the others around it. -/
theorem split_node (hi : Inv w) (node : ℕ) :
    (∀ s ∈ w.tttListG, s.node ≠ node) ∨
      ∃ pre s post, w.tttListG = pre ++ s :: post ∧ s.node = node ∧
        ∀ t ∈ pre ++ post, t.node ≠ s.node := by
  rcases split_first (fun s : Session => s.node = node) w.tttListG with
    hnone | ⟨pre, s, post, hl, hn, -⟩
  · exact Or.inl hnone
  · exact Or.inr ⟨pre, s, post, hl, hn, hi.keys hl⟩

/-- The challenge message is stored in every session of its number that has
none. -/
theorem setOrigin_eq_map (deployed : Message) (uid : ℕ) (list : List Session) :
    setOrigin deployed uid list = list.map fun s => if s.ttt.uid = uid then
      (if s.ttt.haveOrigin = false then { s with ttt := s.ttt.setOrigin deployed } else s)
      else s := by
  unfold setOrigin
  refine List.map_congr_left fun s _ => ?_
  by_cases hu : uid = s.ttt.uid
  · rw [if_pos hu, if_pos hu.symm]
  · rw [if_neg hu, if_neg (Ne.symm hu)]

/-- The callback of a posted challenge reaches at most one session. -/
theorem created_change (hi : Inv w) {uid : ℕ} {posted : Message} {deployment : Deployment}
    (h : .created uid posted ∈ w.pending) (hfresh : deployment.id ∉ w.issued) :
    Change w (.callback (.created uid posted) (.success deployment))
      ((taken w (.created uid posted)).runCallback (.success deployment)
        (.created uid posted)) := by
  have hnothing : setOrigin (posted.deployed deployment) uid w.tttListG = w.tttListG →
      Orphan w (.created uid posted) →
        Change w (.callback (.created uid posted) (.success deployment))
          ((taken w (.created uid posted)).runCallback (.success deployment)
            (.created uid posted)) := by
    intro hsame horphan
    simp only [World.runCallback, World.receive, hsame]
    exact .received h hfresh rfl horphan
  rcases split_first (fun s : Session => s.ttt.uid = uid) w.tttListG with
    hnone | ⟨pre, s, post, hl, hu, -⟩
  · exact hnothing (by rw [setOrigin_eq_map, map_elsewhere hnone])
      fun s hs hu => absurd hu (hnone s hs)
  · have hkeys : ∀ t ∈ pre ++ post, t.ttt.uid ≠ s.ttt.uid := by
      intro t ht he
      have hapart := ((hi.focus hl).2 t ht).2
      exact hapart.stamps (a := s.ttt.uid) (by simp [stamps]) (by simp [stamps, he])
    have hset : setOrigin (posted.deployed deployment) uid w.tttListG =
        pre ++ (if s.ttt.haveOrigin = false then
          { s with ttt := s.ttt.setOrigin (posted.deployed deployment) } else s) :: post := by
      rw [setOrigin_eq_map, hl, ← hu, map_entry hkeys]
    by_cases hno : s.ttt.haveOrigin = false
    · rw [if_pos hno] at hset
      simp only [World.runCallback, World.receive, hset]
      exact .originSet h hfresh hl hu.symm hno
    · rw [if_neg hno, ← hl] at hset
      refine hnothing hset fun t ht he => ?_
      rw [hl] at ht
      rcases mem_entry.mp ht with rfl | ht
      · exact Bool.eq_true_of_not_eq_false hno
      · exact absurd (he.trans hu.symm) (hkeys t ht)

/-- The callback of the stored reply reaches at most one session. -/
theorem originalResponse_change (hi : Inv w) {node : ℕ} {deployment : Deployment}
    (h : .originalResponse click node ∈ w.pending) (hfresh : deployment.id ∉ w.issued) :
    Change w (.callback (.originalResponse click node) (.success deployment))
      ((taken w (.originalResponse click node)).runCallback (.success deployment)
        (.originalResponse click node)) := by
  rcases split_node hi node with hnone | ⟨pre, s, post, hl, rfl, hkeys⟩
  · simp only [World.runCallback, World.update, World.receive, map_elsewhere hnone]
    exact .received h hfresh rfl (find_elsewhere hnone)
  · simp only [World.runCallback, World.update, World.receive, hl, map_entry hkeys]
    exact .stored h hfresh hl

/-- The callback of a redrawn board announces a result or does nothing. -/
theorem boardReply_change (hi : Inv w) {node : ℕ} {deployment : Deployment}
    (h : .boardReply click node ∈ w.pending) :
    Change w (.callback (.boardReply click node) (.success deployment))
      ((taken w (.boardReply click node)).runCallback (.success deployment)
        (.boardReply click node)) := by
  rcases split_node hi node with hnone | ⟨pre, s, post, hl, rfl, hkeys⟩
  · have hfind : w.find node = none := find_elsewhere hnone
    simp only [World.runCallback, World.find, find_elsewhere hnone]
    refine .dropped h (Or.inr fun s hs => ?_)
    rw [hfind] at hs
    cases hs
  · have hfind : w.find s.node = some s := by
      rw [World.find, hl]
      exact find_entry hkeys
    simp only [World.runCallback, World.find, hl, find_entry hkeys]
    cases hr : resultEmbed click s.ttt.result with
    | none =>
      refine .dropped h (Or.inr fun t ht => ?_)
      rw [hfind] at ht
      cases ht
      exact hr
    | some embed =>
      simp only [World.announce, World.update, hl, map_entry hkeys]
      exact .announced h hl hr

/-- The callback of the result message erases at most one session. -/
theorem resultMessage_change (hi : Inv w) {node : ℕ} {deployment : Deployment}
    (h : .resultMessage node ∈ w.pending) :
    Change w (.callback (.resultMessage node) (.success deployment))
      ((taken w (.resultMessage node)).runCallback (.success deployment)
        (.resultMessage node)) := by
  rcases split_node hi node with hnone | ⟨pre, s, post, hl, rfl, hkeys⟩
  · simp only [World.runCallback, eraseOneFromList, filter_elsewhere hnone]
    exact .dropped h (Or.inr (find_elsewhere hnone))
  · simp only [World.runCallback, eraseOneFromList, hl, filter_entry hkeys]
    exact .erased h hl

/-- A callback makes one of the listed changes. -/
theorem callback_change (hi : Inv w) (callback : Callback) (response : Response) :
    Change w (.callback callback response) (w.step (.callback callback response)) := by
  simp only [World.step]
  by_cases ha : w.admits callback response = true
  · rw [if_pos ha]
    unfold World.admits at ha
    obtain ⟨hmem, hresp⟩ := Bool.and_eq_true_iff.mp ha
    have hcb := of_decide_eq_true hmem
    cases callback with
    | log => exact .dropped hcb trivial
    | confirmReply click node => exact .asked hcb
    | created uid posted =>
      cases response with
      | error => exact .dropped hcb rfl
      | success deployment =>
        exact created_change hi hcb (by simpa [Callback.message?] using hresp)
    | originalResponse click node =>
      cases response with
      | error => exact .dropped hcb rfl
      | success deployment =>
        exact originalResponse_change hi hcb (by simpa [Callback.message?] using hresp)
    | boardReply click node =>
      cases response with
      | error => exact .dropped hcb (Or.inl rfl)
      | success deployment => exact boardReply_change hi hcb
    | resultMessage node =>
      cases response with
      | error => exact .dropped hcb (Or.inl rfl)
      | success deployment => exact resultMessage_change hi hcb
  · rw [if_neg ha]
    exact .same

/-- The list of ways is complete. -/
theorem part_change (hi : Inv w) (p : Part) : Change w p (w.part p) := by
  cases p with
  | command message order => exact command_change message order
  | confirm click => exact confirm_change hi click
  | board click => exact board_change hi click
  | callback callback response => exact callback_change hi callback response

end TintempPlusPlus.Steps
