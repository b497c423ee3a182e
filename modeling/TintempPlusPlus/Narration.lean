import TintempPlusPlus.Library.Interruptions
import TintempPlusPlus.Dispatch
import TintempPlusPlus.Steps

/-!
# What the handlers write to the log

Handlers and callbacks write to the log on their way, through `bot.log` or by
calling the logger themselves. A call of the logger throws when the logger
fails at its text, and the exception leaves the handler. Here every handler
runs up to the first call that throws. The texts of the program never make
the logger throw; only the reasons that Discord gives for a failed request
do, in the callback of that request. What then becomes of the process is up
to D++, which calls the callback: the bot may go on or end there, whatever
D++ does. As long as it goes on, the game behaves as if nothing was written,
and what is written tells what happened.
-/

namespace TintempPlusPlus.Narration

open Discord UniqueID Ttt Handlers ScanLoop Program EventRuns Steps FormatString Logger
  Reporting Commands Dispatch Interruptions

/-- A call that writes to the log. -/
inductive Call where
  /-- A function of the logger. -/
  | direct (level : Level) (text : Text)
  /-- `bot.log`; the handler of `on_log` catches what the logger throws. -/
  | event (severity : DppLevel) (text : Text)
  deriving DecidableEq

/-- The call throws. -/
def Call.refused (host : Host) : Call → Bool
  | .direct level text => (host.console.log (.inl level) text).isNone
  | .event _ _ => false

/-- What Discord says about a failed request. -/
structure Failure where
  /-- `get_error().message` -/
  message : Text
  /-- The reasons of `get_error().errors`. -/
  reasons : List Text

/-- A failed request is reported, and then its reasons one by one. -/
def Failure.report (failure : Failure) (host : Host) (first : Call) : List Call :=
  attempt (Call.refused host) (first :: failure.reasons.map (Call.direct .trace))

/-- The callbacks that only write to the log, by what they write. -/
inductive Closing where
  /-- Of a rejected challenge. -/
  | commandExit
  /-- Of the reply to a user who is no player. -/
  | warned
  /-- Of the reply that shows a started game on the challenge message. -/
  | updated
  /-- Of the edit that shows the board on the stored reply. -/
  | initialized
  /-- Of the edit of a challenge message, when it was declined or has ended. -/
  | edited
  /-- Of the reply to a click on a taken square. -/
  | taken
  /-- Of the reply to a click out of turn. -/
  | waiting

/-- What such a callback writes when its request has succeeded. -/
def Closing.success : Closing → Call
  | .commandExit => .event .trace "command exit: succeed".toList
  | .warned => .direct .comment "successfull warning message on event.reply()!".toList
  | .updated => .event .info "successfully edit message with event.reply()".toList
  | .initialized => .event .info "ttt game initialize: succeed".toList
  | .edited => .event .trace "succesfully bot.message_edit()!".toList
  | .taken => .direct .comment "successfull sent ttt warning message".toList
  | .waiting => .direct .comment "successfull sent ttt warning message".toList

/-- What such a callback writes when its request has failed. -/
def Closing.error (host : Host) (failure : Failure) : Closing → List Call
  | .commandExit => [.event .error ("command exit: ".toList ++ failure.message)]
  | .warned => failure.report host (.direct .error "error on event.reply(): ".toList)
  | .updated =>
    failure.report host (.event .error ("error on event.reply(): ".toList ++ failure.message))
  | .initialized =>
    failure.report host
      (.event .error ("error on get_original_response(): ".toList ++ failure.message))
  | .edited =>
    failure.report host (.event .error ("error on bot.message_edit(): ".toList ++ failure.message))
  | .taken => failure.report host (.direct .error "error on event.reply(): ".toList)
  | .waiting => failure.report host (.direct .error "2 error on event.reply(): ".toList)

/-! ## The handlers -/

/-- `ttt::pair::status_t` as a number. -/
def statusNumber : Status → ℕ
  | .idle => 0
  | .x => 1
  | .o => 2

/-- The line about a square whose status was set. -/
def editedButton (status : Status) : Call :=
  .direct .trace ("edited ttt button to [status:".toList ++ digits (statusNumber status) ++ [']'])

/-- The line about a stored challenge message. -/
def registered (id : Snowflake) (uid : ℕ) : Call :=
  .direct .comment ("registered ttt message origin: ".toList ++ digits id ++
    " to ttt id: ".toList ++ digits uid)

/-- `on_confirm_click` -/
def confirmTalk (host : Host) (click : Click) (w : World) : Left World Call :=
  if w.tttListG.isEmpty then ⟨w, []⟩
  else
    andThen (Call.refused host) ⟨w, [.direct .comment "entered on_confirm_click()".toList]⟩
      fun w => ⟨w.confirmClick click, []⟩

/-- One round of the search for the pressed button. The line is written after
the status has been set. -/
def squareTalk (click : Click) (node : ℕ) (press : Press) (square : Square) : Left Press Call where
  state := pressSquare click node press square
  calls :=
    if click.customId = (press.ttt.board square).id ∧ (press.ttt.board square).status = .idle then
      [editedButton press.ttt.turn.2]
    else []

/-- The search for the pressed button. -/
def squaresTalk (host : Host) (click : Click) (session : Session) : Left Press Call :=
  loop (Call.refused host) (squareTalk click session.node) ⟨{ ttt := session.ttt }, []⟩ squares

/-- Loop body of `on_ttt_interaction`. -/
def boardTalkBody (host : Host) (click : Click) (told : List Call) (session : Session) :
    Visit Session (List Call) Effect :=
  if click.messageId = session.ttt.game.id ∧ click.user = session.ttt.turn.1 then
    let search := squaresTalk host click session
    -- an exception leaves the status set and the turn where it was
    if search.calls.any (Call.refused host) then
      ⟨{ session with ttt := search.state.ttt }, told ++ search.calls, search.state.emitted, true⟩
    else { boardBody click () session with shared := told ++ search.calls }
  else { boardBody click () session with shared := told }

/-- `on_ttt_interaction` -/
def boardTalk (host : Host) (click : Click) (w : World) : Left World Call :=
  if w.tttListG.isEmpty then ⟨w, []⟩
  else
    andThen (Call.refused host) ⟨w, [.direct .comment "on_ttt_interaction()".toList]⟩ fun w =>
      let swept := sweep (boardTalkBody host click) [] w.tttListG
      ⟨{ w with tttListG := swept.items }.emit swept.emitted, swept.shared⟩

/-- The handler of `initButtons`. -/
def clickTalk (host : Host) (click : Click) (w : World) : Left World Call :=
  andThen (Call.refused host)
    (andThen (Call.refused host) ⟨w, [.event .info (pressed click)]⟩ (confirmTalk host click))
    (boardTalk host click)

/-- Loop body of `set_origin`. -/
def setOriginBody (host : Host) (deployed : Message) (uid : ℕ) (_ : Unit) (session : Session) :
    Visit Session Unit Call :=
  if uid = session.ttt.uid ∧ session.ttt.haveOrigin = false then
    ⟨{ session with ttt := session.ttt.setOrigin deployed }, (), [registered deployed.id uid],
      (registered deployed.id uid).refused host⟩
  else ⟨session, (), [], false⟩

/-- `set_origin` -/
def setOriginTalk (host : Host) (deployed : Message) (uid : ℕ) (w : World) : Left World Call :=
  let swept := sweep (setOriginBody host deployed uid) () w.tttListG
  ⟨{ w with tttListG := swept.items }, swept.emitted⟩

/-- A callback, with what Discord says when the request has failed. -/
def callbackTalk (host : Host) (failure : Failure) (closing : Closing) (response : Response)
    (w : World) : Callback → Left World Call
  | .log =>
    match response with
    | .error => ⟨w, closing.error host failure⟩
    | .success _ => ⟨w, [closing.success]⟩
  | .created uid posted =>
    match response with
    | .error => ⟨w, [.event .error ("command exit: ".toList ++ failure.message)]⟩
    | .success deployment =>
      andThen (Call.refused host)
        ⟨w.receive (posted.deployed deployment), [.event .trace "command exit: succeed".toList]⟩
        (setOriginTalk host (posted.deployed deployment) uid)
  | .confirmReply click node => ⟨w.runCallback response (.confirmReply click node), []⟩
  | .originalResponse click node =>
    match response with
    | .error =>
      ⟨w, failure.report host (.direct .error "error on get_original_response(): ".toList)⟩
    | .success _ =>
      ⟨w.runCallback response (.originalResponse click node),
        [.direct .comment "successfull get_original_response()!".toList]⟩
  | .boardReply click node =>
    match response with
    | .error =>
      ⟨w, failure.report host
        (.event .error ("1 error on event.reply(): ".toList ++ failure.message))⟩
    | .success _ =>
      andThen (Call.refused host) ⟨w, [.direct .comment "successfull event.reply()!".toList]⟩
        fun w => ⟨w.runCallback response (.boardReply click node), []⟩
  | .resultMessage node =>
    match response with
    | .error =>
      ⟨w, failure.report host
        (.event .error ("error on bot.message_create(): ".toList ++ failure.message))⟩
    | .success _ =>
      ⟨w.runCallback response (.resultMessage node),
        [.event .info "successfully deploy ttt result message".toList]⟩

/-! ## Runs -/

/-- What happens to the bot, with what Discord says about failed requests. -/
inductive Happening where
  /-- A message with its text. -/
  | message (content : List Char) (incoming : Incoming) (order : DrawOrder)
  /-- A click on a button. -/
  | click (click : Click)
  /-- A request of the game has finished. -/
  | callback (callback : Callback) (response : Response) (failure : Failure) (closing : Closing)

/-- What happens to a bot that writes nothing. -/
def Happening.incident : Happening → Incident
  | .message content incoming order => .message content incoming order
  | .click press => .click press
  | .callback request response _ _ => .callback request response

/-- The bot and everything it has tried to write. -/
structure Scene where
  /-- State of the game. -/
  world : World := World.init
  /-- Messages posted by `ping`, oldest first. -/
  pongs : List Message := []
  /-- The calls, oldest first. -/
  calls : List Call := []

/-- A handler of the game runs. -/
def Scene.goOn (scene : Scene) (left : Left World Call) : Scene :=
  { scene with world := left.state, calls := scene.calls ++ left.calls }

/-- One step. -/
def Scene.step (setup : Setup) (scene : Scene) : Happening → Scene
  | .message content incoming order =>
    let bot := Bot.step setup { world := scene.world, pongs := scene.pongs }
      (.message content incoming order)
    ⟨bot.world, bot.pongs, scene.calls ++ bot.logged.map fun event => .event event.1 event.2⟩
  | .click click => scene.goOn (clickTalk setup.host click scene.world)
  | .callback callback response failure closing =>
    if scene.world.admits callback response then
      scene.goOn (callbackTalk setup.host failure closing response
        { scene.world with pending := scene.world.pending.erase callback } callback)
    else scene

/-- The bot after a run, when it goes on behind every exception. -/
def scene (setup : Setup) (happenings : List Happening) : Scene :=
  after (Scene.step setup) {} happenings

/-- A call throws in the step, and the exception leaves the code of the bot. -/
def Scene.throws (setup : Setup) (scene : Scene) (happening : Happening) : Bool :=
  ((scene.step setup happening).calls.drop scene.calls.length).any (Call.refused setup.host)

/-- The step ends the process. Whether an exception that leaves the code of
the bot does so is up to D++; `survives` says it for each happening. -/
def Scene.ends (setup : Setup) (survives : Happening → Bool) (scene : Scene)
    (happening : Happening) : Bool :=
  scene.throws setup happening && !survives happening

/-- The bot after a run, or at the end of the process. -/
def course (setup : Setup) (survives : Happening → Bool) (happenings : List Happening) :
    Course Scene :=
  after (advance (Scene.step setup) (Scene.ends setup survives)) ⟨{}, false⟩ happenings

/-- The line that tells of an effect. -/
def markLine : Effect → Option Call
  | .placed _ _ _ status => some (editedButton status)
  | _ => none

/-- The call is a line about a square. -/
def Call.tellsMark (call : Call) : Bool :=
  decide (call ∈ [editedButton .idle, editedButton .x, editedButton .o])

/-- A reason that Discord gave for a failed request in these happenings. -/
def GivenReason (happenings : List Happening) (reason : Text) : Prop :=
  ∃ callback failure closing,
    .callback callback .error failure closing ∈ happenings ∧ reason ∈ failure.reasons

variable {host : Host} {failure : Failure} {closing : Closing} {call first : Call} {click : Click}
  {session : Session} {w : World} {level : Level} {text : Text} {response : Response}
  {callback : Callback} {setup : Setup}

/-! ## What throws -/

/-- The logger fails at the texts that are no format strings. -/
theorem refused_direct (h : host.console.Unbraced) (level : Level) (text : Text) :
    (Call.direct level text).refused host = (format [] text).isNone := by
  have hne : (Sum.inl level : Level ⊕ DppLevel) ≠ .inr .error := Sum.inl_ne_inr
  obtain ⟨pre, post, -, -, hline⟩ := line_split h hne
  rw [Call.refused, Console.log, hline]
  simp

/-- Texts without braces never throw. -/
theorem accepted_of_plain (h : host.console.Unbraced) (level : Level) (ht : Plain text) :
    (Call.direct level text).refused host = false := by
  rw [refused_direct h, format_plain ht]
  rfl

/-- The line about a square never throws. -/
theorem editedButton_accepted (h : host.console.Unbraced) (status : Status) :
    (editedButton status).refused host = false := by
  have hopen : Plain "edited ttt button to [status:".toList := by decide
  have hclose : Plain [']'] := by decide
  exact accepted_of_plain h _ (plain_append.mpr ⟨plain_append.mpr ⟨hopen, digits_plain _⟩, hclose⟩)

/-- The line about a stored challenge message never throws. -/
theorem registered_accepted (h : host.console.Unbraced) (id : Snowflake) (uid : ℕ) :
    (registered id uid).refused host = false := by
  have hfront : Plain "registered ttt message origin: ".toList := by decide
  have hmiddle : Plain " to ttt id: ".toList := by decide
  exact accepted_of_plain h _ (plain_append.mpr ⟨plain_append.mpr ⟨plain_append.mpr
    ⟨hfront, digits_plain _⟩, hmiddle⟩, digits_plain _⟩)

/-! ## Clicks -/

/-- The search for the pressed button finds what it would find, and writes one
line for each square that it sets. -/
theorem squaresTalk_eq (h : host.console.Unbraced) (click : Click) (session : Session) :
    squaresTalk host click session =
      ⟨pressSquares click session, (pressSquares click session).emitted.filterMap markLine⟩ := by
  refine loop_accepted (fun press : Press => press.emitted.filterMap markLine)
    (fun press square => ⟨rfl, ?_⟩) (fun press call hc => ?_) { ttt := session.ttt } squares
  · simp only [squareTalk, pressSquare]
    split_ifs <;> simp_all [markLine, squareTaken]
  · obtain ⟨effect, -, htold⟩ := List.mem_filterMap.mp hc
    cases effect <;> cases htold
    exact editedButton_accepted h _

/-- The loop body only adds the lines about the squares that it sets. -/
theorem boardTalkBody_eq (h : host.console.Unbraced) (click : Click) (told : List Call)
    (session : Session) :
    boardTalkBody host click told session = ⟨(boardBody click () session).item,
      told ++ (boardBody click () session).emitted.filterMap markLine,
      (boardBody click () session).emitted, (boardBody click () session).leaves⟩ := by
  unfold boardTalkBody
  by_cases hplays : click.messageId = session.ttt.game.id ∧ click.user = session.ttt.turn.1
  · obtain ⟨hm, hu⟩ := hplays
    have haccepted : ((pressSquares click session).emitted.filterMap markLine).any
        (Call.refused host) = false := by
      refine List.any_eq_false.mpr fun call hc => ?_
      obtain ⟨effect, -, htold⟩ := List.mem_filterMap.mp hc
      cases effect <;> cases htold
      rw [editedButton_accepted h]
      decide
    have hmarks : (boardBody click () session).emitted.filterMap markLine =
        (pressSquares click session).emitted.filterMap markLine := by
      simp only [boardBody, if_pos hm, if_pos hu]
      split_ifs <;> simp [markLine]
    rw [if_pos ⟨hm, hu⟩, squaresTalk_eq h]
    simp only [haccepted, Bool.false_eq_true, if_false, hmarks]
  · have hnone : (boardBody click () session).emitted.filterMap markLine = [] := by
      simp only [boardBody]
      split_ifs <;> simp_all [markLine, notYourTurn]
    rw [if_neg hplays, hnone, List.append_nil]

/-- What a click writes. -/
def clickLines (w : World) (click : Click) : List Call :=
  .event .info (pressed click) ::
    if w.tttListG.isEmpty then []
    else
      .direct .comment "entered on_confirm_click()".toList ::
        .direct .comment "on_ttt_interaction()".toList ::
          (onTttInteraction click (w.confirmClick click).tttListG).emitted.filterMap markLine

/-- The confirm handler does what it would do, and writes one line unless the
list is empty. -/
theorem confirmTalk_eq (h : host.console.Unbraced) (click : Click) (w : World) :
    confirmTalk host click w = ⟨w.confirmClick click, if w.tttListG.isEmpty then []
      else [.direct .comment "entered on_confirm_click()".toList]⟩ := by
  unfold confirmTalk
  by_cases he : w.tttListG.isEmpty = true
  · rw [if_pos he, if_pos he]
    have hlist := List.isEmpty_iff.mp he
    simp only [World.confirmClick, onConfirmClick, hlist, sweep, emit_nil]
    rw [← hlist]
  · rw [if_neg he, if_neg he, andThen_call (accepted_of_plain h _ (by decide))]

/-- The board handler does what it would do, and writes the lines about the
squares that it sets. -/
theorem boardTalk_eq (h : host.console.Unbraced) (click : Click) (w : World) :
    boardTalk host click w = ⟨w.boardClick click, if w.tttListG.isEmpty then []
      else .direct .comment "on_ttt_interaction()".toList ::
        (onTttInteraction click w.tttListG).emitted.filterMap markLine⟩ := by
  unfold boardTalk
  by_cases he : w.tttListG.isEmpty = true
  · rw [if_pos he, if_pos he]
    have hlist := List.isEmpty_iff.mp he
    simp only [World.boardClick, onTttInteraction, hlist, sweep, emit_nil]
    rw [← hlist]
  · have hswept := sweep_told (t := ()) (fun _ told => told)
      (fun _ told session => boardTalkBody_eq h click told session) [] w.tttListG
    rw [if_neg he, if_neg he, andThen_call (accepted_of_plain h _ (by decide))]
    simp only [hswept, List.nil_append]
    rfl

/-- Writing to the log does not disturb the click handlers. -/
theorem clickTalk_eq (h : host.console.Unbraced) (click : Click) (w : World) :
    clickTalk host click w = ⟨w.step (.click click), clickLines w click⟩ := by
  have hfirst : andThen (Call.refused host) ⟨w, [.event .info (pressed click)]⟩
      (confirmTalk host click) = ⟨w.confirmClick click, .event .info (pressed click) ::
        if w.tttListG.isEmpty then []
        else [.direct .comment "entered on_confirm_click()".toList]⟩ := by
    rw [andThen_call (by rfl), confirmTalk_eq h]
  have hempty : (w.confirmClick click).tttListG.isEmpty = w.tttListG.isEmpty :=
    sweep_isEmpty _ _
  rw [clickTalk, hfirst, andThen_accepted, boardTalk_eq h, hempty, clickLines]
  · by_cases he : w.tttListG.isEmpty = true
    · simp only [he, if_true, List.append_nil]
      rfl
    · simp only [if_neg he]
      rfl
  · refine List.forall_mem_cons.mpr ⟨rfl, ?_⟩
    split_ifs
    · exact List.forall_mem_nil _
    · exact List.forall_mem_singleton.mpr
        (accepted_of_plain h _ (show Plain "entered on_confirm_click()".toList by decide))

/-! ## Callbacks -/

/-- Storing a challenge message is reported once for every session that takes
it. -/
theorem setOriginTalk_eq (h : host.console.Unbraced) (deployed : Message) (uid : ℕ) (w : World) :
    setOriginTalk host deployed uid w = ⟨{ w with tttListG := setOrigin deployed uid w.tttListG },
      w.tttListG.flatMap fun session =>
        if uid = session.ttt.uid ∧ session.ttt.haveOrigin = false then
          [registered deployed.id uid] else []⟩ := by
  have hround : ∀ session ∈ w.tttListG, setOriginBody host deployed uid () session =
      ⟨if uid = session.ttt.uid then
          (if session.ttt.haveOrigin = false then
            { session with ttt := session.ttt.setOrigin deployed } else session)
        else session, (), if uid = session.ttt.uid ∧ session.ttt.haveOrigin = false then
          [registered deployed.id uid] else [], false⟩ := by
    intro session _
    unfold setOriginBody
    split_ifs <;> simp_all [registered_accepted h]
  simp only [setOriginTalk, sweep_map hround]
  rfl

/-- Writing to the log does not disturb the callbacks. -/
theorem callbackTalk_state (h : host.console.Unbraced) (failure : Failure) (closing : Closing)
    (response : Response) (w : World) (callback : Callback) :
    (callbackTalk host failure closing response w callback).state =
      w.runCallback response callback := by
  cases callback with
  | log => cases response <;> rfl
  | created uid posted =>
    cases response with
    | error => rfl
    | success deployment =>
      rw [callbackTalk, andThen_call (by rfl), setOriginTalk_eq h]
      rfl
  | confirmReply click node => rfl
  | originalResponse click node => cases response <;> rfl
  | boardReply click node =>
    cases response with
    | error => rfl
    | success deployment =>
      rw [callbackTalk, andThen_call (accepted_of_plain h _ (by decide))]
  | resultMessage node => cases response <;> rfl

/-- A call that neither throws nor tells of a square. -/
def Aside (host : Host) (call : Call) : Prop :=
  call.refused host = false ∧ call.tellsMark = false

/-- An aside, or a reason of the failed request. -/
def FromCallback (host : Host) (failure : Failure) (response : Response) (call : Call) : Prop :=
  Aside host call ∨ response = .error ∧ ∃ reason ∈ failure.reasons, call = .direct .trace reason

/-- What goes through `bot.log` is an aside. -/
theorem aside_event (host : Host) (severity : DppLevel) (text : Text) :
    Aside host (.event severity text) :=
  ⟨rfl, by simp [Call.tellsMark, editedButton]⟩

/-- A text without braces is an aside, unless it is a trace. -/
theorem aside_direct (h : host.console.Unbraced) (hl : level ≠ .trace) (ht : Plain text) :
    Aside host (.direct level text) :=
  ⟨accepted_of_plain h level ht, by simp [Call.tellsMark, editedButton, hl]⟩

/-- A report consists of its first line and the reasons. -/
theorem report_fromCallback (hfirst : Aside host first) :
    ∀ call ∈ failure.report host first, FromCallback host failure .error call := by
  intro call hc
  rcases List.mem_cons.mp (mem_of_mem_attempt hc) with rfl | hreason
  · exact Or.inl hfirst
  · obtain ⟨reason, hmem, rfl⟩ := List.mem_map.mp hreason
    exact Or.inr ⟨rfl, reason, hmem, rfl⟩

/-- The callbacks that only write add asides and reasons. -/
theorem closing_fromCallback (h : host.console.Unbraced) (failure : Failure) (closing : Closing) :
    Aside host closing.success ∧
      ∀ call ∈ closing.error host failure, FromCallback host failure .error call := by
  have hcomment : ∀ {text : Text}, Plain text → Aside host (.direct .comment text) :=
    fun ht => aside_direct h (by decide) ht
  have herror : ∀ {text : Text}, Plain text → ∀ call ∈ failure.report host (.direct .error text),
      FromCallback host failure .error call :=
    fun ht => report_fromCallback (aside_direct h (by decide) ht)
  have hreport : ∀ severity text, ∀ call ∈ failure.report host (.event severity text),
      FromCallback host failure .error call :=
    fun severity text => report_fromCallback (aside_event host severity text)
  cases closing with
  | commandExit =>
    exact ⟨aside_event _ _ _, List.forall_mem_singleton.mpr (Or.inl (aside_event _ _ _))⟩
  | warned => exact ⟨hcomment (by decide), herror (by decide)⟩
  | updated => exact ⟨aside_event _ _ _, hreport _ _⟩
  | initialized => exact ⟨aside_event _ _ _, hreport _ _⟩
  | edited => exact ⟨aside_event _ _ _, hreport _ _⟩
  | taken => exact ⟨hcomment (by decide), herror (by decide)⟩
  | waiting => exact ⟨hcomment (by decide), herror (by decide)⟩

/-- A callback writes nothing that throws but the reasons. -/
theorem callbackTalk_calls (h : host.console.Unbraced) (failure : Failure) (closing : Closing)
    (response : Response) (w : World) (callback : Callback) :
    ∀ call ∈ (callbackTalk host failure closing response w callback).calls,
      FromCallback host failure response call := by
  have hevent : ∀ response severity text,
      FromCallback host failure response (.event severity text) :=
    fun response severity text => Or.inl (aside_event host severity text)
  have hcomment : ∀ {text : Text}, Plain text → ∀ response,
      FromCallback host failure response (.direct .comment text) :=
    fun ht response => Or.inl (aside_direct h (by decide) ht)
  obtain ⟨hsuccess, herror⟩ := closing_fromCallback h failure closing
  cases callback with
  | log =>
    cases response with
    | error => exact herror
    | success deployment => exact List.forall_mem_singleton.mpr (Or.inl hsuccess)
  | created uid posted =>
    cases response with
    | error => exact List.forall_mem_singleton.mpr (hevent _ _ _)
    | success deployment =>
      rw [callbackTalk, andThen_call (by rfl), setOriginTalk_eq h]
      refine List.forall_mem_cons.mpr ⟨hevent _ _ _, fun call hc => ?_⟩
      obtain ⟨session, -, hline⟩ := List.mem_flatMap.mp hc
      split_ifs at hline
      · rw [List.mem_singleton.mp hline]
        exact Or.inl ⟨registered_accepted h _ _, by
          simp [Call.tellsMark, editedButton, registered]⟩
      · cases hline
  | confirmReply click node => exact List.forall_mem_nil _
  | originalResponse click node =>
    cases response with
    | error => exact report_fromCallback (aside_direct h (by decide) (by decide))
    | success deployment => exact List.forall_mem_singleton.mpr (hcomment (by decide) _)
  | boardReply click node =>
    cases response with
    | error => exact report_fromCallback (aside_event host _ _)
    | success deployment =>
      rw [callbackTalk, andThen_call (accepted_of_plain h _ (by decide))]
      exact List.forall_mem_singleton.mpr (hcomment (by decide) _)
  | resultMessage node =>
    cases response with
    | error => exact report_fromCallback (aside_event host _ _)
    | success deployment => exact List.forall_mem_singleton.mpr (hevent _ _ _)

/-! ## What is told -/

/-- The line about a square tells of a square. -/
theorem editedButton_tellsMark (status : Status) : (editedButton status).tellsMark = true := by
  cases status <;> simp [Call.tellsMark]

/-- An answer sets no square. -/
theorem answered_unmarked (click : Click) (player : Player) (nextID : ℕ) (session : Session) :
    (∀ effect ∈ (answeredYes click player nextID session).emitted, markLine effect = none) ∧
      ∀ effect ∈ (answeredNo click player nextID session).emitted, markLine effect = none := by
  constructor
  · unfold answeredYes
    dsimp only
    split_ifs <;> simp [markLine]
  · unfold answeredNo
    dsimp only
    split_ifs <;> simp [markLine]

/-- The confirm handler sets no square. -/
theorem confirmBody_unmarked (click : Click) (nextID : ℕ) (session : Session) :
    ∀ effect ∈ (confirmBody click nextID session).emitted, markLine effect = none := by
  unfold confirmBody
  cases session.playerOf click.user with
  | none => exact List.forall_mem_singleton.mpr rfl
  | some player =>
    have hyes := (answered_unmarked click player nextID session).1
    have hno := (answered_unmarked click player (answeredYes click player nextID session).shared
      (answeredYes click player nextID session).item).2
    dsimp only
    split_ifs
    · exact hyes
    · exact List.forall_mem_append.mpr ⟨hyes, hno⟩

/-- The squares that were set, by the lines about them. -/
def marksOf (w : World) : List Call := w.trace.filterMap markLine

/-- New effects add the squares that they set. -/
theorem marksOf_emit (w : World) (effects : List Effect) :
    marksOf (w.emit effects) = marksOf w ++ effects.filterMap markLine :=
  List.filterMap_append

/-- The confirm handler adds no mark. -/
theorem marksOf_confirmClick (w : World) (click : Click) :
    marksOf (w.confirmClick click) = marksOf w := by
  have hquiet : (∀ session ∈ (onConfirmClick click w.nextID w.tttListG).items, True) ∧
      ∀ effect ∈ (onConfirmClick click w.nextID w.tttListG).emitted, markLine effect = none :=
    sweep_forall (fun nextID session _ => ⟨trivial, confirmBody_unmarked click nextID session⟩)
      fun _ _ => trivial
  have hnone := List.filterMap_eq_nil_iff.mpr hquiet.2
  exact (marksOf_emit _ _).trans (by rw [hnone, List.append_nil]; rfl)

/-- A command adds no mark. -/
theorem marksOf_command (w : World) (incoming : Incoming) (order : DrawOrder) :
    marksOf (w.command incoming order) = marksOf w := by
  unfold World.command
  split
  · rfl
  · split_ifs <;> simp [marksOf, World.emit, World.challenge, rejection, markLine]

/-- A callback adds no mark. -/
theorem marksOf_runCallback (w : World) (response : Response) (callback : Callback) :
    marksOf (w.runCallback response callback) = marksOf w := by
  cases callback with
  | log => rfl
  | created uid posted => cases response <;> rfl
  | confirmReply click node =>
    simp [World.runCallback, marksOf, World.emit, markLine]
  | originalResponse click node => cases response <;> rfl
  | boardReply click node =>
    cases response with
    | error => rfl
    | success deployment =>
      simp only [World.runCallback]
      split
      · rfl
      · split
        · rfl
        · simp [marksOf, World.announce, World.emit, World.update, markLine]
  | resultMessage node => cases response <;> rfl

/-- The lines about the squares that a click sets are among its lines. -/
theorem clickLines_marks (w : World) (click : Click) :
    marksOf (w.step (.click click)) = marksOf w ++ (clickLines w click).filter Call.tellsMark := by
  have hboard : marksOf (w.step (.click click)) = marksOf w ++
      (onTttInteraction click (w.confirmClick click).tttListG).emitted.filterMap markLine := by
    rw [← marksOf_confirmClick w click]
    exact marksOf_emit _ _
  have hself : ((onTttInteraction click (w.confirmClick click).tttListG).emitted.filterMap
      markLine).filter Call.tellsMark =
        (onTttInteraction click (w.confirmClick click).tttListG).emitted.filterMap markLine := by
    refine List.filter_eq_self.mpr fun call hc => ?_
    obtain ⟨effect, -, htold⟩ := List.mem_filterMap.mp hc
    cases effect <;> cases htold
    exact editedButton_tellsMark _
  have hevent : (Call.event .info (pressed click)).tellsMark = false := by
    simp [Call.tellsMark, editedButton]
  have hcomment : ∀ text, (Call.direct .comment text).tellsMark = false := fun text => by
    simp [Call.tellsMark, editedButton]
  rw [hboard, clickLines]
  by_cases he : w.tttListG.isEmpty = true
  · have hempty : (w.confirmClick click).tttListG = [] :=
      List.isEmpty_iff.mp ((sweep_isEmpty _ _).trans he)
    simp [he, hempty, hevent, onTttInteraction, sweep]
  · simp only [if_neg he, List.filter_cons, hevent, hcomment, Bool.false_eq_true, if_false, hself]

/-! ## The bot that writes and the bot that does not -/

/-- Only a reason of these happenings throws. -/
def OnlyReasonsThrow (setup : Setup) (happenings : List Happening) (calls : List Call) : Prop :=
  ∀ call ∈ calls, call.refused setup.host = true →
    ∃ reason, GivenReason happenings reason ∧ call = .direct .trace reason

/-- Nothing that a click writes throws. -/
theorem clickLines_accepted (h : host.console.Unbraced) (w : World) (click : Click) :
    ∀ call ∈ clickLines w click, call.refused host = false := by
  unfold clickLines
  refine List.forall_mem_cons.mpr ⟨rfl, ?_⟩
  split_ifs
  · exact List.forall_mem_nil _
  · simp only [List.forall_mem_cons]
    refine ⟨accepted_of_plain h _ (by decide), accepted_of_plain h _ (by decide), ?_⟩
    intro call hc
    obtain ⟨effect, -, htold⟩ := List.mem_filterMap.mp hc
    cases effect <;> cases htold
    exact editedButton_accepted h _

/-- The handlers of a message add no mark. -/
theorem handlers_marks (incoming : Incoming) (order : DrawOrder) (commands : List Command)
    (bot : Bot) : marksOf (commands.foldl
      (fun bot command => bot.handle incoming order command) bot).world = marksOf bot.world := by
  induction commands generalizing bot with
  | nil => rfl
  | cons command commands ih =>
    refine (ih (bot.handle incoming order command)).trans ?_
    cases command with
    | ping => rfl
    | ttt => exact marksOf_command bot.world incoming order

/-- What one happening adds to the calls. -/
theorem step_calls (h : setup.host.console.Unbraced) (scene : Scene) (happening : Happening) :
    ∃ lines, (scene.step setup happening).calls = scene.calls ++ lines ∧
      OnlyReasonsThrow setup [happening] lines ∧
      ((∀ reason, GivenReason [happening] reason →
          (Call.direct .trace reason).tellsMark = false) →
        marksOf (scene.step setup happening).world =
          marksOf scene.world ++ lines.filter Call.tellsMark) := by
  cases happening with
  | message content incoming order =>
    refine ⟨_, rfl, fun call hc hrefused => ?_, fun _ => ?_⟩
    · obtain ⟨event, -, rfl⟩ := List.mem_map.mp hc
      cases hrefused
    · rw [List.filter_eq_nil_iff.mpr, List.append_nil]
      · exact handlers_marks incoming order _ { world := scene.world, pongs := scene.pongs }
      · intro call hc
        obtain ⟨event, -, rfl⟩ := List.mem_map.mp hc
        simp [Call.tellsMark, editedButton]
  | click click =>
    refine ⟨clickLines scene.world click, ?_, fun call hc hrefused => ?_, fun _ => ?_⟩
    · simp only [Scene.step, Scene.goOn, clickTalk_eq h]
    · rw [clickLines_accepted h _ _ call hc] at hrefused
      cases hrefused
    · simp only [Scene.step, Scene.goOn, clickTalk_eq h]
      exact clickLines_marks scene.world click
  | callback callback response failure closing =>
    have hgiven : response = .error → ∀ reason ∈ failure.reasons,
        GivenReason [.callback callback response failure closing] reason := by
      rintro rfl reason hr
      exact ⟨_, _, _, List.mem_singleton_self _, hr⟩
    simp only [Scene.step]
    split_ifs with ha
    · have hcalls := callbackTalk_calls h failure closing response
        { scene.world with pending := scene.world.pending.erase callback } callback
      refine ⟨_, rfl, fun call hc hrefused => ?_, fun hreasons => ?_⟩
      · rcases hcalls call hc with haside | ⟨herror, reason, hr, rfl⟩
        · rw [haside.1] at hrefused
          cases hrefused
        · exact ⟨reason, hgiven herror reason hr, rfl⟩
      · rw [List.filter_eq_nil_iff.mpr, List.append_nil]
        · simp only [Scene.goOn, callbackTalk_state h]
          exact marksOf_runCallback _ response callback
        · intro call hc
          rcases hcalls call hc with haside | ⟨herror, reason, hr, rfl⟩
          · exact Bool.eq_false_iff.mp haside.2
          · exact Bool.eq_false_iff.mp (hreasons reason (hgiven herror reason hr))
    · exact ⟨[], (List.append_nil _).symm, fun call hc => absurd hc List.not_mem_nil,
        fun _ => (List.append_nil _).symm⟩

/-! ## Whole runs -/

/-- A given reason stays given. -/
theorem GivenReason.mono {happenings more : List Happening} {reason : Text}
    (h : GivenReason happenings reason) (hsub : happenings ⊆ more) : GivenReason more reason := by
  obtain ⟨callback, failure, closing, hmem, hr⟩ := h
  exact ⟨callback, failure, closing, hsub hmem, hr⟩

/-- The last happening comes last. -/
theorem scene_concat (setup : Setup) (happenings : List Happening) (happening : Happening) :
    scene setup (happenings ++ [happening]) = (scene setup happenings).step setup happening :=
  after_concat _ _ _ _

/-- An event of the game as it reaches a bot with the prefix `!`, when no
request fails with a reason. -/
def exclaim : Event → Happening
  | .command incoming order => .message "!ttt".toList incoming order
  | .click click => .click click
  | .callback callback response => .callback callback response ⟨[], []⟩ .edited

/-- The lines about squares are the squares that were set, in their order. -/
def Narrated (scene : Scene) : Prop :=
  scene.calls.filter Call.tellsMark = scene.world.trace.filterMap markLine

/-- A bot that goes on behind every exception tells every mark. -/
theorem narrated_scene (h : setup.host.console.Unbraced) (happenings : List Happening)
    (hreasons : ∀ reason, GivenReason happenings reason →
      (Call.direct .trace reason).tellsMark = false) : Narrated (scene setup happenings) := by
  induction happenings using List.reverseRecOn with
  | nil => rfl
  | append_singleton happenings happening ih =>
    have hbefore := ih fun reason hr => hreasons reason (hr.mono (List.subset_append_left _ _))
    obtain ⟨lines, hcalls, -, hmarks⟩ := step_calls h (scene setup happenings) happening
    have hlast := hmarks fun reason hr => hreasons reason (hr.mono (List.subset_append_right _ _))
    rw [Narrated, scene_concat, hcalls, List.filter_append, hbefore]
    exact hlast.symm

/-- Unless Discord gives such a line as a reason, the log tells exactly which
marks were set in the run, also when an exception has ended the process. -/
theorem narrated_run (h : setup.host.console.Unbraced) (survives : Happening → Bool)
    (happenings : List Happening)
    (hreasons : ∀ reason, GivenReason happenings reason →
      (Call.direct .trace reason).tellsMark = false) :
    Narrated (course setup survives happenings).state := by
  obtain ⟨front, behind, hplace⟩ :=
    tookPlace_run (Scene.step setup) (Scene.ends setup survives) {} happenings
  rw [course, hplace.state]
  refine narrated_scene h front fun reason hr => hreasons reason (hr.mono ?_)
  rw [hplace.split]
  exact List.subset_append_left _ _

/-- The log tells the marks of the whole top row. -/
theorem topRow_narrated :
    Narrated (course exclaimed (fun _ => false) (topRow.map exclaim)).state := by
  refine narrated_run firstConsole_unbraced _ _ fun reason hgiven => ?_
  obtain ⟨callback, failure, closing, hmem, hr⟩ := hgiven
  obtain ⟨event, -, he⟩ := List.mem_map.mp hmem
  cases event <;> cases he
  cases hr

example : (course exclaimed (fun _ => false) (topRow.map exclaim)).state.calls.filter
    Call.tellsMark =
      [editedButton .x, editedButton .o, editedButton .x, editedButton .o, editedButton .x] := by
  decide

end TintempPlusPlus.Narration
