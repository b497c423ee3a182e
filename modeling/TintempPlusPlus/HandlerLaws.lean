import TintempPlusPlus.Handlers
import TintempPlusPlus.Play

/-!
# What the click handlers do to the whole list

A confirm click is decided by the first session that is addressed by its
button or that its user does not play in. A board click is decided by the
session whose game message was clicked. Both handlers are computed here for
lists in which at most one session is meant.
-/

namespace TintempPlusPlus.HandlerLaws

open Discord UniqueID Ttt Handlers ScanLoop Play

/-- The user is one of the two players of the session. -/
def IsPlayer (user : Snowflake) (session : Session) : Prop :=
  (session.playerOf user).isSome = true

instance (user : Snowflake) (session : Session) : Decidable (IsPlayer user session) :=
  inferInstanceAs (Decidable (_ = true))

/-- The players of a session are the two users of its confirm button. -/
theorem isPlayer_iff {user : Snowflake} {session : Session} :
    IsPlayer user session ↔ user = session.confirm.player1 ∨ user = session.confirm.player2 := by
  unfold IsPlayer Session.playerOf
  split_ifs with h2 h1
  · simp [h2]
  · simp [h1]
  · simp [h1, h2]

/-- Who is no player has no seat. -/
theorem not_isPlayer_iff {user : Snowflake} {session : Session} :
    ¬ IsPlayer user session ↔ session.playerOf user = none := by
  simp [IsPlayer]

/-- The click was made on a confirm button of the session. -/
def Addressed (click : Click) (session : Session) : Prop :=
  click.customId = session.confirm.btnId.1 ∨ click.customId = session.confirm.btnId.2

instance (click : Click) (session : Session) : Decidable (Addressed click session) :=
  inferInstanceAs (Decidable (_ ∨ _))

/-- The warning issued somewhere along a list of sessions that the click
does not address. -/
def warnings (click : Click) (list : List Session) : List Effect :=
  if ∀ session ∈ list, IsPlayer click.user session then [] else [notYourButton click]

/-- The only warning of the confirm handler is the one to strangers. -/
theorem mem_warnings {click : Click} {list : List Session} {effect : Effect}
    (h : effect ∈ warnings click list) : effect = notYourButton click := by
  unfold warnings at h
  split at h
  · cases h
  · exact List.mem_singleton.mp h

variable {click : Click} {player : Player} {nextID : ℕ} {session : Session}

/-- A stranger is warned, and the loop ends. -/
theorem confirmBody_stranger (nextID : ℕ) (h : session.playerOf click.user = none) :
    confirmBody click nextID session = ⟨session, nextID, [notYourButton click], true⟩ := by
  simp only [confirmBody, h]

/-- A player who addresses another session passes. -/
theorem confirmBody_passes (hp : IsPlayer click.user session) (ha : ¬ Addressed click session) :
    Passes (confirmBody click) nextID session := by
  obtain ⟨player, hplayer⟩ := Option.isSome_iff_exists.mp hp
  obtain ⟨hy, hn⟩ := not_or.mp ha
  simp only [Passes, confirmBody, hplayer, answeredYes, answeredNo, if_neg hy, if_neg hn,
    Bool.false_eq_true, if_false, List.append_nil]

/-- A session that the click does not address keeps everything as it is. -/
theorem onConfirmClick_unaddressed (nextID : ℕ) {list : List Session}
    (h : ∀ session ∈ list, ¬ Addressed click session) :
    onConfirmClick click nextID list = ⟨list, nextID, warnings click list⟩ := by
  unfold onConfirmClick
  induction list with
  | nil => simp [sweep, warnings]
  | cons session list ih =>
    obtain ⟨hhead, htail⟩ := List.forall_mem_cons.mp h
    by_cases hp : IsPlayer click.user session
    · rw [sweep_pass (confirmBody_passes hp hhead), ih htail]
      simp [warnings, hp]
    · have hs := confirmBody_stranger nextID (not_isPlayer_iff.mp hp)
      rw [sweep_leave (by rw [hs]), hs]
      simp [warnings, hp]

/-- What the addressed session, the counter and the requests are after an
accepted click: the first YES, the second YES or a Nah. -/
def accept (click : Click) (player : Player) (nextID : ℕ) (session : Session) :
    Session × ℕ × List Effect :=
  if click.customId = session.confirm.btnId.1 then
    if session.confirm.st.confm player.other = false then
      (session.flag player, nextID,
        [.answered session.node player .yes,
          .reply click .channelMessageWithSource (confirmedReply click)
            (.confirmReply click session.node)])
    else
      let started := (session.flag player).start nextID
      (started.1, started.2,
        [.answered session.node player .yes, .initGame session.node,
          .reply click .updateMessage started.1.ttt.origin .log,
          .messageEdit started.1.ttt.game .log])
  else
    let cancelled :=
      { session.flag player with
        ttt := (session.flag player).ttt.setOriginEmbed (cancelledEmbed click) }
    (cancelled, nextID,
      [.answered session.node player .nah, .messageEdit cancelled.ttt.origin .log] ++
        (if cancelled.confirm.st.replied then
          [.messageDelete cancelled.confirm.repliedMsg.id cancelled.confirm.repliedMsg.channelId]
        else []))

/-- Who has answered before gets no second answer, and the loop ends. -/
theorem confirmBody_answered (nextID : ℕ) (hp : session.playerOf click.user = some player)
    (ha : Addressed click session) (hs : session.confirm.st.confm player = true) :
    confirmBody click nextID session = ⟨session, nextID, [], true⟩ := by
  by_cases hy : click.customId = session.confirm.btnId.1
  · simp [confirmBody, hp, answeredYes, hy, hs]
  · have hn := ha.resolve_left hy
    simp [confirmBody, hp, answeredYes, answeredNo, if_neg hy, if_pos hn, hs]

/-- The first answer of a player is accepted, and the loop goes on. -/
theorem confirmBody_accept (nextID : ℕ) (hk : session.confirm.btnId.1 ≠ session.confirm.btnId.2)
    (hp : session.playerOf click.user = some player)
    (ha : Addressed click session) (hs : session.confirm.st.confm player = false) :
    confirmBody click nextID session =
      ⟨(accept click player nextID session).1, (accept click player nextID session).2.1,
        (accept click player nextID session).2.2, false⟩ := by
  have hother : (session.flag player).confirm.st.confm player.other =
      session.confirm.st.confm player.other := by
    simp [Session.flag]
  by_cases hy : click.customId = session.confirm.btnId.1
  · have hn : click.customId ≠ session.confirm.btnId.2 := hy ▸ hk
    by_cases ho : session.confirm.st.confm player.other = false
    · have hn' : click.customId ≠ (session.flag player).confirm.btnId.2 := hn
      simp only [confirmBody, hp, answeredYes, accept, if_pos hy, hs, hother, ho,
        Bool.false_eq_true, if_false, if_true, answeredNo, if_neg hn', List.append_nil]
    · have hn' : click.customId ≠ ((session.flag player).start nextID).1.confirm.btnId.2 := hn
      simp only [confirmBody, hp, answeredYes, accept, if_pos hy, hs, hother, if_neg ho,
        Bool.false_eq_true, if_false, answeredNo, if_neg hn', List.append_nil]
  · have hn := ha.resolve_left hy
    simp only [confirmBody, hp, answeredYes, accept, if_neg hy, Bool.false_eq_true, if_false,
      answeredNo, if_pos hn, hs, List.nil_append]

section Split

variable {pre post : List Session} (hpre : ∀ s ∈ pre, ¬ Addressed click s)

include hpre

/-- A session of strangers in front of the addressed one ends the handler. -/
theorem onConfirmClick_blocked (hb : ¬ ∀ s ∈ pre, IsPlayer click.user s) :
    onConfirmClick click nextID (pre ++ session :: post) =
      ⟨pre ++ session :: post, nextID, [notYourButton click]⟩ := by
  unfold onConfirmClick
  induction pre with
  | nil => exact absurd (by simp) hb
  | cons first pre ih =>
    obtain ⟨hfirst, hrest⟩ := List.forall_mem_cons.mp hpre
    by_cases hp : IsPlayer click.user first
    · have hb' : ¬ ∀ s ∈ pre, IsPlayer click.user s :=
        fun h => hb (List.forall_mem_cons.mpr ⟨hp, h⟩)
      rw [List.cons_append, sweep_pass (confirmBody_passes hp hfirst), ih hrest hb']
    · have hs := confirmBody_stranger nextID (not_isPlayer_iff.mp hp)
      rw [List.cons_append, sweep_leave (by rw [hs]), hs]

variable (hreach : ∀ s ∈ pre, IsPlayer click.user s)

include hreach

/-- A click by a stranger on the addressed session is warned. -/
theorem onConfirmClick_stranger (hp : session.playerOf click.user = none) :
    onConfirmClick click nextID (pre ++ session :: post) =
      ⟨pre ++ session :: post, nextID, [notYourButton click]⟩ := by
  unfold onConfirmClick
  rw [sweep_pass_append (fun s hs => confirmBody_passes (hreach s hs) (hpre s hs))]
  have hb := confirmBody_stranger nextID hp
  rw [sweep_leave (by rw [hb]), hb]

/-- A second answer of the same player does nothing. -/
theorem onConfirmClick_answered (hp : session.playerOf click.user = some player)
    (ha : Addressed click session) (hs : session.confirm.st.confm player = true) :
    onConfirmClick click nextID (pre ++ session :: post) =
      ⟨pre ++ session :: post, nextID, []⟩ := by
  unfold onConfirmClick
  rw [sweep_pass_append (fun s hs => confirmBody_passes (hreach s hs) (hpre s hs))]
  have hb := confirmBody_answered nextID hp ha hs
  rw [sweep_leave (by rw [hb]), hb]

/-- An accepted click changes the addressed session and nothing else; the
loop goes on and may still warn about a later session. -/
theorem onConfirmClick_accept (hk : session.confirm.btnId.1 ≠ session.confirm.btnId.2)
    (hp : session.playerOf click.user = some player) (ha : Addressed click session)
    (hs : session.confirm.st.confm player = false)
    (hpost : ∀ s ∈ post, ¬ Addressed click s) :
    onConfirmClick click nextID (pre ++ session :: post) =
      ⟨pre ++ (accept click player nextID session).1 :: post,
        (accept click player nextID session).2.1,
        (accept click player nextID session).2.2 ++ warnings click post⟩ := by
  unfold onConfirmClick
  rw [sweep_pass_append (fun s hs => confirmBody_passes (hreach s hs) (hpre s hs))]
  have hb := confirmBody_accept nextID hk hp ha hs
  have hrest := onConfirmClick_unaddressed (accept click player nextID session).2.1 hpost
  unfold onConfirmClick at hrest
  rw [sweep_continue (by rw [hb]), hb, hrest]

end Split

/-! ## The board -/

/-- An id of no square presses nothing. -/
theorem foldl_pressSquare_of_ne {node : ℕ} (press : Press) {list : List Square}
    (h : ∀ square ∈ list, click.customId ≠ (press.ttt.board square).id) :
    list.foldl (pressSquare click node) press = press := by
  induction list with
  | nil => rfl
  | cons square list ih =>
    obtain ⟨hhead, htail⟩ := List.forall_mem_cons.mp h
    have hstep : pressSquare click node press square = press := by
      simp only [pressSquare, if_neg hhead]
    rw [List.foldl_cons, hstep]
    exact ih htail

/-- Different squares have different ids. -/
def DistinctIds (board : Board) : Prop :=
  ∀ a b, (board a).id = (board b).id → a = b

/-- An id of no square leaves the board alone. -/
theorem pressSquares_unknown (h : ∀ square, click.customId ≠ (session.ttt.board square).id) :
    pressSquares click session = { ttt := session.ttt } :=
  foldl_pressSquare_of_ne _ fun square _ => h square

/-- The search stops nowhere, but only the clicked square matches. -/
theorem pressSquares_eq (hd : DistinctIds session.ttt.board) {square : Square}
    (h : click.customId = (session.ttt.board square).id) :
    pressSquares click session =
      pressSquare click session.node { ttt := session.ttt } square := by
  obtain ⟨before, behind, hsplit⟩ := List.mem_iff_append.mp (mem_squares square)
  have hnodup := squares_nodup
  rw [hsplit, List.nodup_append] at hnodup
  have hfront : ∀ other ∈ before, click.customId ≠ (session.ttt.board other).id := by
    intro other ho he
    exact hnodup.2.2 other ho square List.mem_cons_self (hd other square (he.symm.trans h))
  have hback : ∀ other ∈ behind, click.customId ≠
      ((pressSquare click session.node { ttt := session.ttt } square).ttt.board other).id := by
    intro other ho he
    have hid : ((pressSquare click session.node { ttt := session.ttt } square).ttt.board
        other).id = (session.ttt.board other).id := by
      simp only [pressSquare]
      split_ifs
      · rfl
      · exact setStatus_id _ _ _ _
    have hs := hd other square ((he.trans hid).symm.trans h)
    subst hs
    exact (List.nodup_cons.mp hnodup.2.1).1 ho
  unfold pressSquares
  rw [hsplit, List.foldl_append, List.foldl_cons,
    foldl_pressSquare_of_ne { ttt := session.ttt } hfront,
    foldl_pressSquare_of_ne _ hback]

/-- A click on another message passes. -/
theorem boardBody_elsewhere (h : click.messageId ≠ session.ttt.game.id) :
    ScanLoop.Passes (boardBody click) () session := by
  simp only [ScanLoop.Passes, boardBody, if_neg h]

/-- A player whose turn it is not is told so. -/
theorem boardBody_waiting (hm : click.messageId = session.ttt.game.id)
    (ht : click.user ≠ session.ttt.turn.1) :
    boardBody click () session =
      ⟨session, (), if click.user = session.ttt.player1 ∨ click.user = session.ttt.player2 then
        [notYourTurn click] else [], false⟩ := by
  simp only [boardBody, if_pos hm, if_neg ht]
  split_ifs <;> rfl

/-- A taken square is refused. -/
theorem boardBody_taken (hd : DistinctIds session.ttt.board)
    (hm : click.messageId = session.ttt.game.id) (ht : click.user = session.ttt.turn.1)
    {square : Square} (h : click.customId = (session.ttt.board square).id)
    (hs : (session.ttt.board square).status ≠ .idle) :
    boardBody click () session = ⟨session, (), [squareTaken click], true⟩ := by
  simp only [boardBody, if_pos hm, if_pos ht, pressSquares_eq hd h, pressSquare, if_pos h,
    if_pos hs, List.nil_append, if_true]

/-- The requests of a click that reached the end of the board handler. -/
def moveEffects (click : Click) (node : ℕ) (t : Game) : List Effect :=
  [.moved node click t.result,
    .reply click .updateMessage (t.fetchTttTurn {}) (.boardReply click node)]

/-- An idle square is set, and the turn passes. -/
theorem boardBody_move (hd : DistinctIds session.ttt.board)
    (hm : click.messageId = session.ttt.game.id) (ht : click.user = session.ttt.turn.1)
    {square : Square} (h : click.customId = (session.ttt.board square).id)
    (hs : (session.ttt.board square).status = .idle) :
    boardBody click () session =
      ⟨{ session with ttt := Game.move session.ttt square }, (),
        .placed session.node click square session.ttt.turn.2 ::
          moveEffects click session.node (Game.move session.ttt square), false⟩ := by
  have hn : ¬ (session.ttt.board square).status ≠ .idle := not_not.mpr hs
  simp only [boardBody, if_pos hm, if_pos ht, pressSquares_eq hd h, pressSquare, if_pos h,
    if_neg hn, List.nil_append, Bool.false_eq_true, if_false, moveEffects, Game.move,
    List.cons_append]

/-- An id of no square passes the turn all the same. -/
theorem boardBody_stray (hm : click.messageId = session.ttt.game.id)
    (ht : click.user = session.ttt.turn.1)
    (h : ∀ square, click.customId ≠ (session.ttt.board square).id) :
    boardBody click () session =
      ⟨{ session with ttt := session.ttt.fetchWinner.swapTurn }, (),
        moveEffects click session.node session.ttt.fetchWinner.swapTurn, false⟩ := by
  simp only [boardBody, if_pos hm, if_pos ht, pressSquares_unknown h, Bool.false_eq_true,
    if_false, List.nil_append, moveEffects]

/-- A click on no game message of the list does nothing. -/
theorem onTttInteraction_elsewhere {list : List Session}
    (h : ∀ s ∈ list, click.messageId ≠ s.ttt.game.id) :
    onTttInteraction click list = ⟨list, (), []⟩ :=
  sweep_all_pass fun s hs => boardBody_elsewhere (h s hs)

/-- The only session whose game message was clicked decides. -/
theorem onTttInteraction_at {pre post : List Session}
    (hpre : ∀ s ∈ pre, click.messageId ≠ s.ttt.game.id)
    (hpost : ∀ s ∈ post, click.messageId ≠ s.ttt.game.id) :
    onTttInteraction click (pre ++ session :: post) =
      ⟨pre ++ (boardBody click () session).item :: post, (),
        (boardBody click () session).emitted⟩ := by
  unfold onTttInteraction
  rw [sweep_pass_append (fun s hs => boardBody_elsewhere (hpre s hs))]
  cases hl : (boardBody click () session).leaves with
  | true => rw [sweep_leave hl]
  | false =>
    rw [sweep_continue hl]
    have hrest : sweep (boardBody click) () post = ⟨post, (), []⟩ :=
      sweep_all_pass fun s hs => boardBody_elsewhere (hpost s hs)
    rw [hrest, List.append_nil]

end TintempPlusPlus.HandlerLaws
