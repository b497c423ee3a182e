import TintempPlusPlus.Handlers
import TintempPlusPlus.Library.EventRuns

/-!
# The running program

A world is the state of the program together with the callbacks that Discord
still has to run and the trace of everything done so far. Events are
received commands, button clicks and finished requests; each is handled
atomically and every order of them is a run. An event that cannot happen, a
callback that is not pending or a message id handed out twice, leaves the
world as it is.

Where the source is undefined, the model goes on in some way: a callback that
reaches for an erased session does nothing, and ids behind their literal are
missing. Theorems that such a step would make false of the source have a
condition that keeps it out (`ReachesListed` or `ErasesAlone`, and
`BuildsInBounds`).
-/

namespace TintempPlusPlus.Program

open Discord UniqueID Ttt Handlers ScanLoop EventRuns

/-- State of the program and of its requests. -/
structure World where
  /-- `UniqueID::nextID` -/
  nextID : ℕ := 0
  /-- Identity of the next list element. -/
  nextNode : ℕ := 0
  /-- `ttt_list_g` -/
  tttListG : List Session := []
  /-- Messages that Discord has returned to the program, newest first. -/
  returned : List Message := []
  /-- Callbacks that have not run, in the order of their requests. -/
  pending : List Callback := []
  /-- Everything done so far, oldest first. -/
  trace : List Effect := []

/-- What can happen to the program. -/
inductive Event where
  /-- A message that runs the ttt command. -/
  | command (message : Incoming) (order : DrawOrder)
  /-- A click on a button. -/
  | click (click : Click)
  /-- A request has finished and its callback runs. -/
  | callback (callback : Callback) (response : Response)

/-- Append effects to the trace and their callbacks to the pending ones. -/
def World.emit (w : World) (effects : List Effect) : World :=
  { w with
    pending := w.pending ++ effects.filterMap Effect.callback?
    trace := w.trace ++ effects }

/-- An accepted challenge: a new session and the message that announces it.
The message is posted also when an id of a disabled button lies behind its
literal; the source is undefined then, and `BuildsInBounds` keeps it out. -/
def World.challenge (w : World) (message : Incoming) (opponent : Snowflake) (order : DrawOrder) :
    World :=
  let pushed := newSession order message.author opponent w.nextID w.nextNode
  let posted := challengeMessage message pushed.1
  { w with
    nextID := pushed.2
    nextNode := w.nextNode + 1
    tttListG := w.tttListG ++ [pushed.1] }.emit
    [.messageCreate posted (.created pushed.1.ttt.uid posted)]

/-- The `tictactoe` command. -/
def World.command (w : World) (message : Incoming) (order : DrawOrder) : World :=
  match message.mentions with
  | [] => w
  | mentioned :: _ =>
    if mentioned.isBot then w.emit [rejection message "bot can't play you bruh"]
    else if mentioned.id = message.author then
      w.emit [rejection message "hey, you can't play with yourself"]
    else w.challenge message mentioned.id order

/-- The first handler run by a click. -/
def World.confirmClick (w : World) (click : Click) : World :=
  let swept := onConfirmClick click w.nextID w.tttListG
  { w with nextID := swept.shared, tttListG := swept.items }.emit swept.emitted

/-- The second handler run by a click. -/
def World.boardClick (w : World) (click : Click) : World :=
  let swept := onTttInteraction click w.tttListG
  { w with tttListG := swept.items }.emit swept.emitted

/-- The session behind an iterator, when it is still in the list. -/
def World.find (w : World) (node : ℕ) : Option Session :=
  w.tttListG.find? fun session => decide (session.node = node)

/-- Write through an iterator. -/
def World.update (w : World) (node : ℕ) (f : Session → Session) : World :=
  { w with tttListG := w.tttListG.map fun session =>
      if session.node = node then f session else session }

/-- The success branch of the board reply's callback. -/
def World.announce (w : World) (click : Click) (session : Session) (embed : Embed) : World :=
  let ended := session.ttt.setOriginEmbed (endedEmbed session.ttt)
  (w.update session.node fun s => { s with ttt := s.ttt.setOriginEmbed (endedEmbed s.ttt) }).emit
    [.messageCreate (resultMessage click session embed) (.resultMessage session.node),
      .messageEdit ended.origin .log]

/-- A posted message is returned to the program. -/
def World.receive (w : World) (message : Message) : World :=
  { w with returned := message :: w.returned }

/-- The ids of the returned messages. Discord hands out no id twice. -/
def World.issued (w : World) : List Snowflake := w.returned.map Message.id

/-- Run a callback. Access through the iterator of an erased session is
undefined in the source, which has no test of it; the model then skips it, and
`ReachesListed` says that this does not happen. -/
def World.runCallback (w : World) (response : Response) : Callback → World
  | .log => w
  | .created uid posted =>
    match response with
    | .error => w
    | .success deployment =>
      { w.receive (posted.deployed deployment) with
        tttListG := setOrigin (posted.deployed deployment) uid w.tttListG }
  | .confirmReply click node =>
    w.emit [.getOriginalResponse click (.originalResponse click node)]
  | .originalResponse click node =>
    match response with
    | .error => w
    | .success deployment =>
      (w.receive ((confirmedReply click).deployed deployment)).update node fun s =>
        s.store ((confirmedReply click).deployed deployment)
  | .boardReply click node =>
    match response with
    | .error => w
    | .success _ =>
      match w.find node with
      | none => w
      | some session =>
        match resultEmbed click session.ttt.result with
        | none => w
        | some embed => w.announce click session embed
  | .resultMessage node =>
    match response with
    | .error => w
    | .success _ => { w with tttListG := eraseOneFromList node w.tttListG }

/-- The message that a successful response carries to the callback. -/
def Callback.message? : Callback → Option Message
  | .created _ posted => some posted
  | .originalResponse click _ => some (confirmedReply click)
  | _ => none

/-- Discord can finish this request in this way now. -/
def World.admits (w : World) (callback : Callback) (response : Response) : Bool :=
  decide (callback ∈ w.pending) &&
    match response with
    | .error => true
    | .success deployment => (Callback.message? callback).isNone || decide (deployment.id ∉ w.issued)

/-- One event. -/
def World.step (w : World) : Event → World
  | .command message order => w.command message order
  | .click click => (w.confirmClick click).boardClick click
  | .callback callback response =>
    if w.admits callback response then
      { w with pending := w.pending.erase callback }.runCallback response callback
    else w

/-- The atomic pieces of an event: a click runs two handlers. -/
inductive Part where
  /-- The ttt command. -/
  | command (message : Incoming) (order : DrawOrder)
  /-- `on_confirm_click` -/
  | confirm (click : Click)
  /-- `on_ttt_interaction` -/
  | board (click : Click)
  /-- A callback. -/
  | callback (callback : Callback) (response : Response)

/-- The pieces of an event in their order. -/
def Event.parts : Event → List Part
  | .command m order => [.command m order]
  | .click c => [.confirm c, .board c]
  | .callback cb response => [.callback cb response]

/-- Run one piece. -/
def World.part (w : World) : Part → World
  | .command message order => w.step (.command message order)
  | .confirm click => w.confirmClick click
  | .board click => w.boardClick click
  | .callback callback response => w.step (.callback callback response)

/-- An event is the run of its pieces. -/
theorem step_eq_parts (w : World) (e : Event) : w.step e = after World.part w e.parts := by
  cases e <;> rfl

/-- The program before any event. -/
def World.init : World := {}

/-- The world after a run. -/
abbrev run (events : List Event) : World := after World.step World.init events

/-- A run is the run of its pieces. -/
theorem run_eq_parts (events : List Event) :
    run events = after World.part World.init (events.flatMap Event.parts) :=
  after_parts step_eq_parts World.init events

/-- The last event comes last. -/
theorem run_concat (events : List Event) (e : Event) :
    run (events ++ [e]) = (run events).step e :=
  after_concat World.step World.init events e

/-- A run goes on in pieces. -/
theorem run_append (before behind : List Event) :
    run (before ++ behind) = after World.part (run before) (behind.flatMap Event.parts) := by
  rw [run, after_append, after_parts step_eq_parts]

/-! ## A first challenge -/

/-- User 11 challenges user 22 in channel 5. -/
def firstIncoming : Incoming where
  id := 90
  channelId := 5
  guildId := 6
  author := 11
  authorName := "challenger"
  authorAvatar := ""
  mentions := [⟨22, false, by decide⟩]
  authorIssued := by decide

/-- A click in channel 5. -/
def clickBy (user messageId : Snowflake) (customId : String)
    (hu : decide (user ≠ 0) = true := by exact Eq.refl true)
    (hm : decide (messageId ≠ 0) = true := by exact Eq.refl true) : Click where
  user := user
  messageId := messageId
  channelId := 5
  customId := customId
  userIssued := of_decide_eq_true hu
  messageIssued := of_decide_eq_true hm

/-- A message posted in channel 5. -/
def posted (messageId : Snowflake)
    (hm : decide (messageId ≠ 0) = true := by exact Eq.refl true) : Deployment :=
  ⟨messageId, 5, 6, of_decide_eq_true hm⟩

/-- A request that ends well with a message in channel 5. -/
def succeeds (messageId : Snowflake)
    (hm : decide (messageId ≠ 0) = true := by exact Eq.refl true) : Response :=
  .success (posted messageId hm)

/-- The challenge is posted as message 100, and its callback has run. -/
def opening : List Event :=
  [.command firstIncoming ⟨true, true⟩,
    .callback (.created 1 (challengeMessage firstIncoming (newSession ⟨true, true⟩ 11 22 0 0).1))
      (succeeds 100)]

/-- The first YES, by the challenged player. -/
def firstYes : Click := clickBy 22 100 "confm_2_y"

/-- Both players accept, and the first reply is stored as message 101 before
the second player answers. -/
def handshake : List Event :=
  opening ++
    [.click firstYes, .callback (.confirmReply firstYes 0) (succeeds 1),
      .callback (.originalResponse firstYes 0) (succeeds 101),
      .click (clickBy 11 100 "confm_2_y")]

example : .initGame 0 ∈ (run handshake).trace ∧
    (run handshake).tttListG.map (fun s => (s.ttt.game.id, s.ttt.turn.1)) = [(101, 11)] := by
  decide

/-- User 11 and user 22 mark the first squares of the two upper rows. -/
def twoMarks : List Event :=
  handshake ++ [.click (clickBy 11 101 "p_000_4"), .click (clickBy 22 101 "p_100_7")]

/-- User 11 takes the top row while user 22 plays below it. -/
def topRow : List Event :=
  handshake ++
    [.click (clickBy 11 101 "p_000_4"), .click (clickBy 22 101 "p_100_7"),
      .click (clickBy 11 101 "p_001_5"), .click (clickBy 22 101 "p_101_8"),
      .click (clickBy 11 101 "p_002_6")]

/-- The replies to the last two moves of the game end well, in the order of
the moves. -/
def bothReplies : List Event :=
  topRow ++
    [.callback (.boardReply (clickBy 22 101 "p_101_8") 0) (succeeds 101),
      .callback (.boardReply (clickBy 11 101 "p_002_6") 0) (succeeds 101)]

/-- User 11 challenges user 22 again. -/
def secondIncoming : Incoming := { firstIncoming with id := 91 }

/-- The same two players accept a second game, which is shown on message
201. -/
def twoGames : List Event :=
  handshake ++
    [.command secondIncoming ⟨true, true⟩,
      .callback (.created 13
        (challengeMessage secondIncoming (newSession ⟨true, true⟩ 11 22 12 1).1)) (succeeds 200),
      .click (clickBy 22 200 "confm_14_y"),
      .callback (.confirmReply (clickBy 22 200 "confm_14_y") 1) (succeeds 2),
      .callback (.originalResponse (clickBy 22 200 "confm_14_y") 1) (succeeds 201),
      .click (clickBy 11 200 "confm_14_y")]

end TintempPlusPlus.Program
