import TintempPlusPlus.Ttt
import TintempPlusPlus.Library.ScanLoop

/-!
# The two click handlers and the challenge command

Each handler is a loop over the global list whose body may return. A handler
reads one click and returns the list, the counter and what it did: requests
to Discord with the callbacks they carry, and records of the moments the
statements speak about, which the program itself does not keep.
-/

namespace TintempPlusPlus.Handlers

open Discord UniqueID Ttt ScanLoop

/-- An element of `ttt_list_g`. The node stands for the list iterator that
callbacks capture; a node is never reused. -/
structure Session where
  /-- Identity of the list element. -/
  node : ℕ
  /-- First component of the stored pair. -/
  ttt : Game
  /-- Second component of the stored pair. -/
  confirm : ConfirmButton

/-- The two buttons of a challenge. -/
inductive Answer where
  | yes
  | nah
  deriving DecidableEq, Repr

/-- The callbacks that the program hands to its requests, with what they
capture. -/
inductive Callback where
  /-- A callback that only writes to the log. -/
  | log
  /-- Callback of the challenge message. Discord returns what was posted. -/
  | created (uid : ℕ) (posted : Message)
  /-- Callback of the "(1/2)" reply. -/
  | confirmReply (click : Click) (node : ℕ)
  /-- Callback of `get_original_response`. -/
  | originalResponse (click : Click) (node : ℕ)
  /-- Callback of the reply that redraws the board. -/
  | boardReply (click : Click) (node : ℕ)
  /-- Callback of the result message. It refers to the iterator inside of the
  callback of the board reply, which is assumed to live as long. -/
  | resultMessage (node : ℕ)
  deriving DecidableEq, Repr

/-- Requests to Discord and recorded moments. -/
inductive Effect where
  /-- A click on a confirm button was accepted. -/
  | answered (node : ℕ) (player : Player) (answer : Answer)
  /-- `ttt::init_game` was executed. -/
  | initGame (node : ℕ)
  /-- A click set the status of a square. -/
  | placed (node : ℕ) (click : Click) (square : Square) (status : Status)
  /-- A click reached `fetch_winner` and `swap_turn`. -/
  | moved (node : ℕ) (click : Click) (result : Result)
  /-- `event.reply` -/
  | reply (click : Click) (type : ResponseType) (message : Message) (callback : Callback)
  /-- `event.get_original_response` -/
  | getOriginalResponse (click : Click) (callback : Callback)
  /-- `bot.message_edit` -/
  | messageEdit (message : Message) (callback : Callback)
  /-- `bot.message_create` -/
  | messageCreate (message : Message) (callback : Callback)
  /-- `bot.message_delete` -/
  | messageDelete (id channelId : Snowflake)
  deriving DecidableEq, Repr

/-- The callback that a request leaves pending. -/
def Effect.callback? : Effect → Option Callback
  | .reply _ _ _ callback => some callback
  | .getOriginalResponse _ callback => some callback
  | .messageEdit _ callback => some callback
  | .messageCreate _ callback => some callback
  | _ => none

/-- The list element captured by a callback. -/
def Callback.node? : Callback → Option ℕ
  | .confirmReply _ node => some node
  | .originalResponse _ node => some node
  | .boardReply _ node => some node
  | .resultMessage node => some node
  | _ => none

/-- The list element that an effect is about. -/
def Effect.node? : Effect → Option ℕ
  | .answered node _ _ => some node
  | .initGame node => some node
  | .placed node _ _ _ => some node
  | .moved node _ _ => some node
  | .reply _ _ _ callback => callback.node?
  | .getOriginalResponse _ callback => callback.node?
  | .messageEdit _ callback => callback.node?
  | .messageCreate _ callback => callback.node?
  | .messageDelete _ _ => none

/-- `event.reply` was called. -/
def Effect.isReply : Effect → Bool
  | .reply _ _ _ _ => true
  | _ => false

/-- Which player of the session a user is. The second test of
`on_confirm_click` overrides the first. -/
def Session.playerOf (session : Session) (user : Snowflake) : Option Player :=
  if user = session.confirm.player2 then some .two
  else if user = session.confirm.player1 then some .one
  else none

/-- Reply to a user who is no player of the visited session. -/
def notYourButton (click : Click) : Effect :=
  .reply click .channelMessageWithSource
    { content := mention click.user ++ " that's not your button!"
      allowedMentions := some ⟨false, false, false, false, [click.user]⟩
      ephemeral := true } .log

/-- The reply to the first YES. -/
def confirmedReply (click : Click) : Message :=
  { content := mention click.user ++ " confirmed! *(1/2)*" }

/-- Embed of a started game. -/
def startEmbed (confirm : ConfirmButton) : Embed :=
  { title := "Game Started!"
    description := mention confirm.player1 ++ " ***vs*** " ++ mention confirm.player2
    color := colorGreen }

/-- Embed of a declined challenge. -/
def cancelledEmbed (click : Click) : Embed :=
  { title := "*Cancelled*"
    description := mention click.user ++ " Declined"
    color := colorRed }

/-- Set the flag of the player who answered. -/
def Session.flag (session : Session) (player : Player) : Session :=
  { session with confirm := { session.confirm with st := session.confirm.st.setConfm player } }

/-- The session after the second YES, with the advanced counter. -/
def Session.start (session : Session) (nextID : ℕ) : Session × ℕ :=
  let started := (session.ttt.setOriginEmbed (startEmbed session.confirm)).initGame nextID
  ({ session with ttt := started.1 }, started.2)

/-- Region ANSWERED_YES of `on_confirm_click`. -/
def answeredYes (click : Click) (player : Player) (nextID : ℕ) (session : Session) :
    Visit Session ℕ Effect :=
  if click.customId = session.confirm.btnId.1 then
    if session.confirm.st.confm player then ⟨session, nextID, [], true⟩
    else
      let flagged := session.flag player
      if flagged.confirm.st.confm player.other = false then
        ⟨flagged, nextID,
          [.answered session.node player .yes,
            .reply click .channelMessageWithSource (confirmedReply click)
              (.confirmReply click session.node)], false⟩
      else
        let started := flagged.start nextID
        ⟨started.1, started.2,
          [.answered session.node player .yes, .initGame session.node,
            .reply click .updateMessage started.1.ttt.origin .log,
            .messageEdit started.1.ttt.game .log], false⟩
  else ⟨session, nextID, [], false⟩

/-- Region ANSWERED_NO of `on_confirm_click`. -/
def answeredNo (click : Click) (player : Player) (nextID : ℕ) (session : Session) :
    Visit Session ℕ Effect :=
  if click.customId = session.confirm.btnId.2 then
    if session.confirm.st.confm player then ⟨session, nextID, [], true⟩
    else
      let flagged := session.flag player
      let cancelled :=
        { flagged with ttt := flagged.ttt.setOriginEmbed (cancelledEmbed click) }
      ⟨cancelled, nextID,
        [.answered session.node player .nah, .messageEdit cancelled.ttt.origin .log] ++
          (if cancelled.confirm.st.replied then
            [.messageDelete cancelled.confirm.repliedMsg.id cancelled.confirm.repliedMsg.channelId]
          else []), false⟩
  else ⟨session, nextID, [], false⟩

/-- Loop body of `on_confirm_click`. -/
def confirmBody (click : Click) (nextID : ℕ) (session : Session) : Visit Session ℕ Effect :=
  match session.playerOf click.user with
  | none => ⟨session, nextID, [notYourButton click], true⟩
  | some player =>
    let yes := answeredYes click player nextID session
    if yes.leaves then yes
    else
      let no := answeredNo click player yes.shared yes.item
      { no with emitted := yes.emitted ++ no.emitted }

/-- `on_confirm_click` -/
def onConfirmClick (click : Click) (nextID : ℕ) (list : List Session) : Sweep Session ℕ Effect :=
  sweep (confirmBody click) nextID list

/-- Reply to a click on a taken square. -/
def squareTaken (click : Click) : Effect :=
  .reply click .channelMessageWithSource
    { content := "oi, this square already been taken", ephemeral := true } .log

/-- Reply to a click out of turn. -/
def notYourTurn (click : Click) : Effect :=
  .reply click .channelMessageWithSource
    { content := "oi, this is not your turn", ephemeral := true } .log

/-- Local state of the search for the pressed button. -/
structure Press where
  /-- The game, with the pressed square set. -/
  ttt : Game
  /-- `is_interrupted` -/
  interrupted : Bool := false
  /-- What the search did. -/
  emitted : List Effect := []

/-- Inner loop body of the search for the pressed button. -/
def pressSquare (click : Click) (node : ℕ) (press : Press) (square : Square) : Press :=
  if click.customId = (press.ttt.board square).id then
    if (press.ttt.board square).status ≠ .idle then
      { press with interrupted := true, emitted := press.emitted ++ [squareTaken click] }
    else
      { press with
        ttt := press.ttt.setStatus square press.ttt.turn.2
        emitted := press.emitted ++ [.placed node click square press.ttt.turn.2] }
  else press

/-- The search for the pressed button over the whole board. -/
def pressSquares (click : Click) (session : Session) : Press :=
  squares.foldl (pressSquare click session.node) { ttt := session.ttt }

/-- Loop body of `on_ttt_interaction`. -/
def boardBody (click : Click) (_ : Unit) (session : Session) : Visit Session Unit Effect :=
  if click.messageId = session.ttt.game.id then
    if click.user = session.ttt.turn.1 then
      let press := pressSquares click session
      if press.interrupted then ⟨{ session with ttt := press.ttt }, (), press.emitted, true⟩
      else
        let swapped := press.ttt.fetchWinner.swapTurn
        ⟨{ session with ttt := swapped }, (),
          press.emitted ++
            [.moved session.node click swapped.result,
              .reply click .updateMessage (swapped.fetchTttTurn {})
                (.boardReply click session.node)], false⟩
    else if click.user = session.ttt.player1 ∨ click.user = session.ttt.player2 then
      ⟨session, (), [notYourTurn click], false⟩
    else ⟨session, (), [], false⟩
  else ⟨session, (), [], false⟩

/-- `on_ttt_interaction` -/
def onTttInteraction (click : Click) (list : List Session) : Sweep Session Unit Effect :=
  sweep (boardBody click) () list

/-- A user mentioned in a message. -/
structure Mention where
  /-- Id of the user. -/
  id : Snowflake
  /-- The user is a bot. -/
  isBot : Bool
  /-- Every user has an id. -/
  issued : id ≠ 0

/-- The fields of a received message that the command reads. -/
structure Incoming where
  /-- Id of the message. -/
  id : Snowflake
  /-- Channel of the message. -/
  channelId : Snowflake
  /-- Guild of the message. -/
  guildId : Snowflake
  /-- Id of the author. -/
  author : Snowflake
  /-- Name of the author. -/
  authorName : String
  /-- Avatar of the author. -/
  authorAvatar : String
  /-- Mentioned users in order. -/
  mentions : List Mention
  /-- Every user has an id. -/
  authorIssued : author ≠ 0

/-- Orders of evaluation that the language leaves open when a session is
constructed: of the two components, and of the two ids of the buttons. -/
structure DrawOrder where
  /-- The game is constructed before the confirm button. -/
  tttFirst : Bool
  /-- The YES id is drawn before the Nah id. -/
  yesFirst : Bool

/-- `push_onto_list`: the new pair and the advanced counter. -/
def newSession (order : DrawOrder) (player1 player2 : Snowflake) (nextID node : ℕ) :
    Session × ℕ :=
  if order.tttFirst then
    let ttt := Game.new player1 player2 nextID
    let confirm := ConfirmButton.new order.yesFirst player1 player2 ttt.2
    (⟨node, ttt.1, confirm.1⟩, confirm.2)
  else
    let confirm := ConfirmButton.new order.yesFirst player1 player2 nextID
    let ttt := Game.new player1 player2 confirm.2
    (⟨node, ttt.1, confirm.1⟩, ttt.2)

/-- Reply to a challenge that the error filter rejects. -/
def rejection (message : Incoming) (content : String) : Effect :=
  .messageCreate
    { channelId := message.channelId
      content := content
      messageReference := some ⟨message.id, message.guildId, message.channelId⟩
      allowedMentions := some ⟨false, false, false, true, [message.author]⟩ } .log

/-- The challenge message with its embed and its two buttons. -/
def challengeMessage (message : Incoming) (session : Session) : Message :=
  ({ channelId := message.channelId
     embeds :=
      [{ title := "Hey :right_facing_fist:"
         description := mention session.ttt.player2 ++ ", " ++ mention session.ttt.player1 ++
           " want to play tic-tac-toe with you"
         color := colorYellow
         author := some ⟨message.authorName, message.authorAvatar⟩ }] } : Message)
    |>.addComponent (session.confirm.component
      |>.addComponent ⟨"YES", .success, session.confirm.btnId.1, false⟩
      |>.addComponent ⟨"Nah", .danger, session.confirm.btnId.2, false⟩)

/-- The free function `set_origin`: a search of the whole list by uid. -/
def setOrigin (deployed : Message) (uid : ℕ) (list : List Session) : List Session :=
  list.map fun session =>
    if uid = session.ttt.uid then
      if session.ttt.haveOrigin = false then
        { session with ttt := session.ttt.setOrigin deployed }
      else session
    else session

/-- The message returned by `get_original_response` is stored. -/
def Session.store (session : Session) (message : Message) : Session :=
  { session with
    ttt := session.ttt.setGameOrigin message
    confirm :=
      { session.confirm with
        repliedMsg := message
        st := { session.confirm.st with replied := true } } }

/-- `erase_one_from_list`. To erase an element again is undefined in the source
and may take another one out of the list; here it changes nothing, and
`ErasesAlone` keeps it out. -/
def eraseOneFromList (node : ℕ) (list : List Session) : List Session :=
  list.filter fun session => decide (session.node ≠ node)

/-- The embed of the result message, when the result ends the game. -/
def resultEmbed (click : Click) : Result → Option Embed
  | .won => some { description := mention click.user ++ " won!", color := colorGreen }
  | .draw => some { description := "draw!", color := colorWhite }
  | _ => none

/-- Embed of the challenge message of an ended game. -/
def endedEmbed (ttt : Game) : Embed :=
  { title := "Game Ended"
    color := colorBlack
    description := mention ttt.player1 ++ " ***VS*** " ++ mention ttt.player2 }

/-- The result message, a reply to the game message. -/
def resultMessage (click : Click) (session : Session) (embed : Embed) : Message :=
  { channelId := click.channelId
    embeds := [embed]
    messageReference := some
      ⟨session.ttt.game.id, session.ttt.game.guildId, session.ttt.game.channelId⟩ }

end TintempPlusPlus.Handlers
