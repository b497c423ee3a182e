import TintempPlusPlus.Discord
import TintempPlusPlus.UniqueID

/-!
# The game class and its confirm buttons

Definitions follow the classes `ttt`, `ttt::pair` and `ttt::confirm_button`
member by member. The board is a function on squares, numbered by row and
column as in the source. Each constructor that draws ids takes the counter
and returns it advanced.
-/

namespace TintempPlusPlus.Ttt

open Discord UniqueID

/-- `ttt::pair::status_t`. Only these values are ever stored in a status. -/
inductive Status where
  | idle
  | x
  | o
  deriving DecidableEq, Repr

/-- `ttt::RESULT` -/
inductive Result where
  | inProgress
  | expired
  | draw
  | won
  deriving DecidableEq, Repr

/-- One square of the board, `ttt::pair`. -/
structure Pair where
  /-- Custom id of the square's button, empty before the game starts. -/
  id : String := ""
  /-- Mark on the square. -/
  status : Status := .idle
  /-- The square lies on a winning line. -/
  won : Bool := false
  deriving DecidableEq, Repr

/-- `std::array<std::array<pair, 3>, 3>` -/
abbrev Board := Square → Pair

/-- The squares in the order of the nested loops over rows and columns. -/
def squares : List Square :=
  [(0, 0), (0, 1), (0, 2), (1, 0), (1, 1), (1, 2), (2, 0), (2, 1), (2, 2)]

/-- Every square is visited. -/
theorem mem_squares (square : Square) : square ∈ squares := by
  revert square
  decide

/-- No square is visited twice. -/
theorem squares_nodup : squares.Nodup := by decide

/-- The fields of class `ttt`. -/
@[ext] structure Game where
  /-- Unique id of this object. -/
  uid : ℕ
  /-- Stored challenge message. -/
  origin : Message := {}
  /-- Message that shows the board. -/
  game : Message := {}
  /-- Player whose turn it is and the mark that player sets. -/
  turn : Snowflake × Status := (0, .idle)
  /-- Challenger. -/
  player1 : Snowflake
  /-- Challenged player. -/
  player2 : Snowflake
  /-- The challenge message has been stored. -/
  haveOrigin : Bool := false
  /-- Result of the game. -/
  result : Result := .inProgress
  /-- Number of calls of `swap_turn`. -/
  turns : ℕ := 0
  /-- The board, default pairs before the game starts. -/
  board : Board := fun _ => {}

/-- The constructor `ttt::ttt` with the counter it advances. -/
def Game.new (player1 player2 : Snowflake) (nextID : ℕ) : Game × ℕ :=
  ({ uid := draw nextID, player1, player2 }, draw nextID)

/-- Replace the first embed. The first element of an empty vector does not
exist; the model then leaves the vector empty. -/
def Game.setOriginEmbed (ttt : Game) (embed : Embed) : Game :=
  { ttt with
    origin := { ttt.origin with embeds :=
      match ttt.origin.embeds with
      | [] => []
      | _ :: rest => embed :: rest } }

/-- `ttt::set_origin` -/
def Game.setOrigin (ttt : Game) (message : Message) : Game :=
  { ttt with origin := message, haveOrigin := true }

/-- `ttt::set_game_origin` -/
def Game.setGameOrigin (ttt : Game) (message : Message) : Game :=
  { ttt with game := message }

/-- `fetch_btn_icon`: label and style of a square's button. -/
def fetchBtnIcon (pair : Pair) : String × ComponentStyle :=
  match pair.status with
  | .idle => ("-", .secondary)
  | .x => if pair.won = false then ("X", .danger) else ("X", .success)
  | .o => if pair.won = false then ("O", .primary) else ("O", .success)

/-- One of the nine unrolled buttons of `fetch_ttt_components`. -/
def Game.tttButton (ttt : Game) (board : Board) (square : Square) : Button where
  label := if ttt.result ≠ .expired then (fetchBtnIcon (board square)).1 else "EXPIRED"
  style := (fetchBtnIcon (board square)).2
  customId := (board square).id
  disabled := decide (ttt.result = .won ∨ ttt.result = .draw)

/-- `ttt::fetch_ttt_components`: the three rows of buttons. -/
def Game.fetchTttComponents (ttt : Game) (board : Board) : Component × Component × Component :=
  ((({} : Component).addComponent (ttt.tttButton board (0, 0))
      |>.addComponent (ttt.tttButton board (0, 1)) |>.addComponent (ttt.tttButton board (0, 2))),
    (({} : Component).addComponent (ttt.tttButton board (1, 0))
      |>.addComponent (ttt.tttButton board (1, 1)) |>.addComponent (ttt.tttButton board (1, 2))),
    (({} : Component).addComponent (ttt.tttButton board (2, 0))
      |>.addComponent (ttt.tttButton board (2, 1)) |>.addComponent (ttt.tttButton board (2, 2))))

/-- `ttt::fetch_ttt_turn`: add the board to a message and name the player. -/
def Game.fetchTttTurn (ttt : Game) (message : Message) : Message :=
  let rows := ttt.fetchTttComponents ttt.board
  let fetched :=
    { message with
      allowedMentions := some ⟨false, false, false, false, [ttt.player1, ttt.player2]⟩
      content := "its " ++ mention ttt.turn.1 ++ "'s turn" }
      |>.addComponent rows.1 |>.addComponent rows.2.1 |>.addComponent rows.2.2
  if ttt.result = .draw ∨ ttt.result = .won then { fetched with content := "** **" } else fetched

/-- Rendering sets the text, the mentions and the buttons of a message. -/
theorem fetchTttTurn_eq (ttt : Game) (message : Message) :
    ttt.fetchTttTurn message =
      { message with
        allowedMentions := (ttt.fetchTttTurn message).allowedMentions
        content := (ttt.fetchTttTurn message).content
        components := (ttt.fetchTttTurn message).components } := by
  unfold Game.fetchTttTurn
  dsimp only
  split_ifs <;> rfl

/-- The board is added below the rows that a message has. -/
theorem fetchTttTurn_components (ttt : Game) (message : Message) :
    (ttt.fetchTttTurn message).components =
      message.components ++ [(ttt.fetchTttComponents ttt.board).1,
        (ttt.fetchTttComponents ttt.board).2.1, (ttt.fetchTttComponents ttt.board).2.2] := by
  unfold Game.fetchTttTurn
  dsimp only
  split_ifs <;> simp [Message.addComponent]

/-- The ids of the buttons that the board adds, in reading order. -/
theorem fetchTttTurn_customIds (ttt : Game) (message : Message) :
    (ttt.fetchTttTurn message).customIds =
      message.customIds ++ squares.map fun square => (ttt.board square).id := by
  simp [Message.customIds, fetchTttTurn_components, Game.fetchTttComponents, Game.tttButton,
    Component.addComponent, squares]

/-- Place of a square among the nine pairs constructed from left to right. -/
def drawIndex (square : Square) : ℕ := 3 * square.1.val + square.2.val

/-- `ttt::init_game`: the nine pairs draw nine ids in reading order, and the
board is added to the game message. -/
def Game.initGame (ttt : Game) (nextID : ℕ) : Game × ℕ :=
  let started :=
    { ttt with
      turn := (ttt.player1, .x)
      board := fun square => { id := pairId square (nextID + 1 + drawIndex square) } }
  ({ started with game := started.fetchTttTurn started.game }, nextID + 9)

/-- `ttt::swap_turn` -/
def Game.swapTurn (ttt : Game) : Game :=
  let counted := { ttt with turns := ttt.turns + 1 }
  if counted.turns ≥ 9 ∧ counted.result ≠ .won then { counted with result := .draw }
  else
    { counted with
      turn :=
        (if counted.turn.1 = counted.player1 then counted.player2 else counted.player1,
          if counted.turn.2 = .x then .o else .x) }

/-- Set the won flag of three squares. -/
def markWon (board : Board) (a b c : Square) : Board := fun square =>
  if square = a ∨ square = b ∨ square = c then { board square with won := true } else board square

/-- One test of `fetch_winner`: the probed square is taken and the three
squares agree in the two comparisons the source makes. -/
def Game.checkLine (probe a b c : Square) (ttt : Game) : Game :=
  if (ttt.board probe).status ≠ .idle ∧ (ttt.board a).status = (ttt.board b).status ∧
      (ttt.board b).status = (ttt.board c).status then
    { ttt with board := markWon ttt.board a b c, result := .won }
  else ttt

/-- The row test of the loop in `fetch_winner`. -/
def Game.checkRow (i : Fin 3) : Game → Game := Game.checkLine (i, 0) (i, 0) (i, 1) (i, 2)

/-- The column test of the loop in `fetch_winner`. -/
def Game.checkColumn (i : Fin 3) : Game → Game := Game.checkLine (0, i) (0, i) (1, i) (2, i)

/-- The first diagonal test of `fetch_winner`. -/
def Game.checkDiagonal : Game → Game := Game.checkLine (1, 1) (0, 0) (1, 1) (2, 2)

/-- The second diagonal test of `fetch_winner`. -/
def Game.checkAntidiagonal : Game → Game := Game.checkLine (1, 1) (0, 2) (1, 1) (2, 0)

/-- `ttt::fetch_winner` -/
def Game.fetchWinner (ttt : Game) : Game :=
  let looped := (List.finRange 3).foldl (fun t i => (t.checkRow i).checkColumn i) ttt
  looped.checkDiagonal.checkAntidiagonal

/-- `ttt::pair::set_status` on one square of the board. -/
def Game.setStatus (ttt : Game) (square : Square) (status : Status) : Game :=
  { ttt with
    board := Function.update ttt.board square { ttt.board square with status := status } }

/-- The player behind a click, `short player` in the handlers. -/
inductive Player where
  | one
  | two
  deriving DecidableEq, Repr

/-- The opponent. -/
def Player.other : Player → Player
  | .one => .two
  | .two => .one

/-- The opponent of the opponent. -/
@[simp] theorem Player.other_other (player : Player) : player.other.other = player := by
  cases player <;> rfl

/-- Nobody is the own opponent. -/
theorem Player.other_ne (player : Player) : player.other ≠ player := by
  cases player <;> decide

/-- There are two players. -/
theorem Player.eq_or_other (q player : Player) : q = player ∨ q = player.other := by
  cases q <;> cases player <;> decide

/-- `ttt::confirm_button::status` -/
structure ConfirmStatus where
  /-- Player 1 has answered, with either button. -/
  isPlayer1Confm : Bool := false
  /-- Player 2 has answered, with either button. -/
  isPlayer2Confm : Bool := false
  /-- The "(1/2)" reply has been stored. -/
  replied : Bool := false
  /-- Never written by the source. -/
  cancelled : Bool := false
  deriving DecidableEq, Repr

/-- The flag of a player. -/
def ConfirmStatus.confm (st : ConfirmStatus) : Player → Bool
  | .one => st.isPlayer1Confm
  | .two => st.isPlayer2Confm

/-- Set the flag of a player. -/
def ConfirmStatus.setConfm (st : ConfirmStatus) : Player → ConfirmStatus
  | .one => { st with isPlayer1Confm := true }
  | .two => { st with isPlayer2Confm := true }

/-- The flag of the player is set. -/
@[simp] theorem ConfirmStatus.confm_setConfm_self (st : ConfirmStatus) (player : Player) :
    (st.setConfm player).confm player = true := by
  cases player <;> rfl

/-- The flag of the opponent stays. -/
@[simp] theorem ConfirmStatus.confm_setConfm_other (st : ConfirmStatus) (player : Player) :
    (st.setConfm player).confm player.other = st.confm player.other := by
  cases player <;> rfl

/-- Flags do not touch the reply. -/
@[simp] theorem ConfirmStatus.setConfm_replied (st : ConfirmStatus) (player : Player) :
    (st.setConfm player).replied = st.replied := by
  cases player <;> rfl

/-- The array expression `literal + offset`: the text from the offset on, or
nothing when the offset lies past the terminating zero. -/
def literalFrom (literal : String) (offset : ℕ) : Option String :=
  if offset ≤ literal.length then some (String.ofList (literal.toList.drop offset)) else none

/-- The fields of `ttt::confirm_button`. -/
structure ConfirmButton where
  /-- Numbers of the YES and of the Nah button. -/
  id : ℕ × ℕ
  /-- Custom ids of the YES and of the Nah button. -/
  btnId : String × String
  /-- Stored "(1/2)" reply. -/
  repliedMsg : Message := {}
  /-- Challenger. -/
  player1 : Snowflake
  /-- Challenged player. -/
  player2 : Snowflake
  /-- Row of the challenge message, filled by the command. -/
  component : Component := {}
  /-- Ids of the two disabled buttons, where their expressions are defined. -/
  onButtonConfirm : Option String × Option String
  /-- Answers so far. -/
  st : ConfirmStatus := {}
  deriving DecidableEq, Repr

/-- `ttt::confirm_button::set_btn_id` -/
def buttonIds (id : ℕ × ℕ) : String × String := (confirmYesId id.1, confirmNoId id.2)

/-- `ttt::confirm_button::init` -/
def ConfirmButton.init (player1 player2 : Snowflake) (uidY uidN : ℕ) : ConfirmButton where
  id := (uidY, uidN)
  btnId := buttonIds (uidY, uidN)
  player1 := player1
  player2 := player2
  onButtonConfirm := (literalFrom "no_interaction_" uidY, literalFrom "no_interaction_" uidN)

/-- The constructor of `confirm_button`. The two `UniqueID` arguments of the
call are evaluated in an unspecified order. -/
def ConfirmButton.new (yesFirst : Bool) (player1 player2 : Snowflake) (nextID : ℕ) :
    ConfirmButton × ℕ :=
  let first := draw nextID
  let second := draw first
  if yesFirst then (.init player1 player2 first second, second)
  else (.init player1 player2 second first, second)

end TintempPlusPlus.Ttt
