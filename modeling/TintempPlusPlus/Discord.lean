import Mathlib

/-!
# Messages and clicks of the Discord library

The part of the library's data that the game reads or writes: buttons in
action rows, embeds, messages and button clicks. Setters follow the
library's headers. Ids that Discord hands out are never zero; a default
message has id zero until it has been deployed.
-/

namespace TintempPlusPlus.Discord

/-- Unsigned 64 bit id, only ever compared for equality. -/
abbrev Snowflake := ℕ

/-- Styles of a button, `component_style`. -/
inductive ComponentStyle where
  | primary
  | secondary
  | success
  | danger
  | link
  deriving DecidableEq, Repr

/-- A component of type `cot_button`. -/
structure Button where
  /-- Text on the button. -/
  label : String
  /-- Colour of the button. -/
  style : ComponentStyle
  /-- Id sent with every click on the button. -/
  customId : String
  /-- Discord lets nobody click a disabled button. -/
  disabled : Bool := false
  deriving DecidableEq, Repr

/-- A component of type `cot_action_row`, the container of buttons. -/
structure Component where
  /-- Buttons of the row from left to right. -/
  components : List Button := []
  deriving DecidableEq, Repr

/-- Add a button at the end of the row. -/
def Component.addComponent (row : Component) (button : Button) : Component :=
  ⟨row.components ++ [button]⟩

/-- Author shown in an embed. -/
structure EmbedAuthor where
  /-- Name of the author. -/
  name : String
  /-- Avatar of the author. -/
  iconUrl : String
  deriving DecidableEq, Repr

/-- Rich embed of a message. -/
structure Embed where
  /-- Title, empty when unset. -/
  title : String := ""
  /-- Description, empty when unset. -/
  description : String := ""
  /-- Colour code. -/
  color : ℕ := 0
  /-- Author, when one was set. -/
  author : Option EmbedAuthor := none
  deriving DecidableEq, Repr

/-- The colours of `util::color` that the game uses. -/
def colorBlack : ℕ := 0x000000
@[inherit_doc colorBlack] def colorWhite : ℕ := 0xFFFFFF
@[inherit_doc colorBlack] def colorYellow : ℕ := 0xFFFF00
@[inherit_doc colorBlack] def colorRed : ℕ := 0xFF0000
@[inherit_doc colorBlack] def colorGreen : ℕ := 0x00FF00

/-- Arguments of `set_allowed_mentions`. -/
structure AllowedMentions where
  /-- Parse users in the text. -/
  parseUsers : Bool
  /-- Parse roles in the text. -/
  parseRoles : Bool
  /-- Parse everyone and here in the text. -/
  parseEveryone : Bool
  /-- Ping the author of the message replied to. -/
  repliedUser : Bool
  /-- Users that may be pinged. -/
  users : List Snowflake
  deriving DecidableEq, Repr

/-- Arguments of `set_reference`. -/
structure MessageReference where
  /-- Message replied to. -/
  messageId : Snowflake
  /-- Guild of that message. -/
  guildId : Snowflake
  /-- Channel of that message. -/
  channelId : Snowflake
  deriving DecidableEq, Repr

/-- The fields of `dpp::message` that the game sets or reads. -/
structure Message where
  /-- Id of a deployed message, zero before. -/
  id : Snowflake := 0
  /-- Channel of the message. -/
  channelId : Snowflake := 0
  /-- Guild of the message. -/
  guildId : Snowflake := 0
  /-- Text of the message. -/
  content : String := ""
  /-- Action rows from top to bottom. -/
  components : List Component := []
  /-- Embeds of the message. -/
  embeds : List Embed := []
  /-- The flag `m_ephemeral`. -/
  ephemeral : Bool := false
  /-- Allowed mentions, when they were set. -/
  allowedMentions : Option AllowedMentions := none
  /-- Message replied to, when one was set. -/
  messageReference : Option MessageReference := none
  deriving DecidableEq, Repr

/-- Add an action row below the others. -/
def Message.addComponent (message : Message) (row : Component) : Message :=
  { message with components := message.components ++ [row] }

/-- The custom ids of all buttons of a message, in reading order. -/
def Message.customIds (message : Message) : List String :=
  message.components.flatMap fun row => row.components.map Button.customId

/-- What Discord assigns to a message when it is posted. -/
structure Deployment where
  /-- Id of the new message. -/
  id : Snowflake
  /-- Channel it was posted to. -/
  channelId : Snowflake
  /-- Guild it was posted to. -/
  guildId : Snowflake
  /-- Discord never uses the id zero. -/
  issued : id ≠ 0
  deriving DecidableEq, Repr

/-- The posted message as Discord returns it. -/
def Message.deployed (message : Message) (deployment : Deployment) : Message :=
  { message with
    id := deployment.id
    channelId := deployment.channelId
    guildId := deployment.guildId }

/-- Posting a message keeps its buttons. -/
@[simp] theorem Message.deployed_customIds (message : Message) (deployment : Deployment) :
    (message.deployed deployment).customIds = message.customIds := rfl

/-- The fields of `button_click_t` that the handlers read. Both ids were
handed out by Discord. -/
structure Click where
  /-- `event.command.usr.id` -/
  user : Snowflake
  /-- `event.command.message_id` -/
  messageId : Snowflake
  /-- `event.command.channel_id` -/
  channelId : Snowflake
  /-- `event.custom_id` -/
  customId : String
  /-- Every user has an id. -/
  userIssued : user ≠ 0
  /-- A button sits on a deployed message. -/
  messageIssued : messageId ≠ 0
  deriving DecidableEq, Repr

/-- The response types used by the handlers. -/
inductive ResponseType where
  | channelMessageWithSource
  | updateMessage
  deriving DecidableEq, Repr

/-- Outcome of a request, handed to its callback. A success carries what
Discord assigned to the message, for the requests that return one. -/
inductive Response where
  | error
  | success (deployment : Deployment)
  deriving DecidableEq, Repr

/-- Text that pings a user. -/
def mention (user : Snowflake) : String := "<@" ++ toString user ++ ">"

/-- A mention tells its user. -/
theorem mention_inj {u v : Snowflake} : mention u = mention v ↔ u = v := by
  simp only [mention, String.append_left_inj, String.append_right_inj]
  exact Nat.repr_inj

end TintempPlusPlus.Discord
