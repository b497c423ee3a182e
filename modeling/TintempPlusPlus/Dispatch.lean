import TintempPlusPlus.Commands
import TintempPlusPlus.Program
import TintempPlusPlus.Reporting

/-!
# The bot around the game

Messages and clicks reach the game through `initCommands` and `initButtons`,
which recognise the commands and write to the log. With a prefix that keeps
its meaning the bot is the game whose commands are the messages that begin
with the prefix and the name, one answer is posted for each `ping`, and what
is logged on the way can be read on the console.
-/

namespace TintempPlusPlus.Dispatch

open Discord Ttt Handlers Program EventRuns FormatString Logger Reporting EcmaRegex Commands

/-- How the bot is set up. -/
structure Setup where
  /-- `PREFIX` -/
  start : List Char
  /-- The characters without meaning that a pattern leaves as they are. -/
  lenient : Char → Bool
  /-- The console of the handler of `on_log`. -/
  host : Host

/-- The game with what the functions around it do. -/
structure Bot where
  /-- State of the game. -/
  world : World := World.init
  /-- Messages posted by `ping`, oldest first. -/
  pongs : List Message := []
  /-- Events handed to `bot.log` by the functions around the game. -/
  logged : List (DppLevel × Text) := []

/-- What reaches the bot. -/
inductive Incident where
  /-- A message with its text. -/
  | message (content : List Char) (incoming : Incoming) (order : DrawOrder)
  /-- A click on a button. -/
  | click (click : Click)
  /-- A request of the game has finished. -/
  | callback (callback : Callback) (response : Response)

/-- The message of `ping`. -/
def pong (incoming : Incoming) : Message :=
  { channelId := incoming.channelId, embeds := [{ title := "pong!" }] }

/-- The digits of a number. -/
def digits (n : ℕ) : Text := (toString n).toList

/-- What `tictactoe` logs about an accepted challenge. -/
def challengeReports (w : World) (incoming : Incoming) (order : DrawOrder) :
    List (DppLevel × Text) :=
  match incoming.mentions with
  | [] => []
  | mentioned :: _ =>
    if mentioned.isBot ∨ mentioned.id = incoming.author then []
    else
      let session := (newSession order incoming.author mentioned.id w.nextID w.nextNode).1
      [(.trace, "init new ttt id: ".toList ++ digits session.ttt.uid),
        (.trace, "ttt: player 1:  ".toList ++ digits session.ttt.player1),
        (.trace, "ttt: player 2: ".toList ++ digits session.ttt.player2)]

/-- Run the handler of a command. -/
def Bot.handle (bot : Bot) (incoming : Incoming) (order : DrawOrder) (command : Command) : Bot :=
  let occurred := { bot with
    logged := bot.logged ++ [(DppLevel.info, "command occured: ".toList ++ command.name)] }
  match command with
  | .ping => { occurred with pongs := occurred.pongs ++ [pong incoming] }
  | .ttt => { occurred with
      world := occurred.world.command incoming order
      logged := occurred.logged ++ challengeReports occurred.world incoming order }

/-- What `initButtons` logs about a click. -/
def pressed (click : Click) : Text :=
  "user <@".toList ++ digits click.user ++ "> pressed the button [".toList ++
    click.customId.toList ++ [']']

/-- One incident. -/
def Bot.step (setup : Setup) (bot : Bot) : Incident → Bot
  | .message content incoming order =>
    (initCommands setup.lenient setup.start content).foldl
      (fun b command => b.handle incoming order command) bot
  | .click click =>
    { bot with
      world := bot.world.step (.click click)
      logged := bot.logged ++ [(.info, pressed click)] }
  | .callback callback response => { bot with world := bot.world.step (.callback callback response) }

/-- The bot after a run. -/
def Setup.run (setup : Setup) (incidents : List Incident) : Bot :=
  after (Bot.step setup) {} incidents

/-- What the console prints. -/
def Setup.printed (setup : Setup) (bot : Bot) : List Text :=
  bot.logged.flatMap fun event => setup.host.onLog event.1 event.2

/-- The events of the game when commands are the messages that begin with the
prefix and the name. -/
def gameEvents (start : List Char) : Incident → List Event
  | .message content incoming order =>
    if start ++ Command.ttt.name <+: content then [.command incoming order] else []
  | .click click => [.click click]
  | .callback callback response => [.callback callback response]

/-- The answers to `ping`. -/
def answers (start : List Char) : Incident → List Message
  | .message content incoming _ =>
    if start ++ Command.ping.name <+: content then [pong incoming] else []
  | _ => []

variable {setup : Setup} {start content : List Char} {lenient : Char → Bool} {bot : Bot}
  {incoming : Incoming} {order : DrawOrder}

/-- Exactly recognised commands are looked for one by one. -/
theorem newCommand_eq (h : Recognised lenient start) (command : Command) (content : List Char) :
    newCommand lenient start command.name content =
      some (decide (start ++ command.name <+: content)) := by
  -- a pattern without meaning would match no message at all
  have hself := (h.exact command (start ++ command.name)).mpr List.prefix_rfl
  obtain ⟨r, hcompile, -⟩ := Option.map_eq_some_iff.mp hself
  have hexact := h.exact command content
  rw [newCommand, hcompile, Option.map_some] at hexact ⊢
  rw [Option.some.injEq] at hexact ⊢
  exact Bool.eq_iff_iff.mpr (hexact.trans decide_eq_true_iff.symm)

/-- The handlers that run are those of the commands that the message begins
with. -/
theorem initCommands_eq (h : Recognised lenient start) (content : List Char) :
    initCommands lenient start content =
      [.ping, .ttt].filter fun command => decide (start ++ command.name <+: content) := by
  have hall : ∀ commands : List Command, handlers lenient start content commands =
      commands.filter fun command => decide (start ++ command.name <+: content) := by
    intro commands
    induction commands with
    | nil => rfl
    | cons command commands ih =>
      rw [handlers, newCommand_eq h, List.filter_cons, ih]
      by_cases hp : start ++ command.name <+: content
      · simp only [hp, decide_true, if_true]
      · simp only [hp, decide_false, Bool.false_eq_true, if_false]
  exact hall _

/-- One incident is one step of the game at most, and one answer at most. -/
theorem step_dispatched (h : Recognised setup.lenient setup.start) (bot : Bot)
    (incident : Incident) :
    (bot.step setup incident).world =
        after World.step bot.world (gameEvents setup.start incident) ∧
      (bot.step setup incident).pongs = bot.pongs ++ answers setup.start incident := by
  cases incident with
  | message content incoming order =>
    rw [Bot.step, initCommands_eq h, gameEvents, answers]
    by_cases hping : setup.start ++ Command.ping.name <+: content <;>
      by_cases httt : setup.start ++ Command.ttt.name <+: content <;>
        simp [hping, httt, Bot.handle, World.step]
  | click click => exact ⟨rfl, (List.append_nil _).symm⟩
  | callback callback response => exact ⟨rfl, (List.append_nil _).symm⟩

/-- The bot does what the messages, read literally, ask it to do. -/
structure Dispatched (setup : Setup) (incidents : List Incident) : Prop where
  /-- The game makes the run of its commands, clicks and callbacks. -/
  world : (setup.run incidents).world = run (incidents.flatMap (gameEvents setup.start))
  /-- Every `ping` is answered once. -/
  pongs : (setup.run incidents).pongs = incidents.flatMap (answers setup.start)

/-- With a prefix whose first character stands for itself when it is escaped,
and whose other characters are not syntax, every run of the bot is the run of
the game whose commands are read literally. -/
theorem dispatched_run {a : Char} {rest : List Char} (hs : setup.start = a :: rest)
    (ha : StandsForItself setup.lenient a) (hrest : ∀ c ∈ rest, isSyntax setup.lenient c = false)
    (incidents : List Incident) : Dispatched setup incidents := by
  have h : Recognised setup.lenient setup.start := hs ▸ recognised_of_literal ha hrest
  induction incidents using List.reverseRecOn with
  | nil => exact ⟨rfl, rfl⟩
  | append_singleton incidents incident ih =>
    obtain ⟨hworld, hpongs⟩ := step_dispatched h (setup.run incidents) incident
    rw [ih.world] at hworld
    rw [ih.pongs] at hpongs
    have hrun : setup.run (incidents ++ [incident]) = (setup.run incidents).step setup incident :=
      after_concat _ _ _ _
    refine ⟨?_, ?_⟩
    · rw [hrun, hworld, List.flatMap_append, List.flatMap_singleton]
      exact (after_append _ _ _ _).symm
    · rw [hrun, hpongs, List.flatMap_append, List.flatMap_singleton]

/-- A bot with the prefix `!`. -/
def exclaimed : Setup where
  start := ['!']
  lenient _ := false
  host := firstHost

/-- A challenge that is accepted at once. -/
def openedAtOnce : List Incident :=
  [.message "!ttt <@22>".toList firstIncoming ⟨true, true⟩, .click firstYes]

/-- A challenge that is accepted at once, dispatched. -/
theorem openedAtOnce_dispatched : Dispatched exclaimed openedAtOnce :=
  dispatched_run rfl (Or.inl (by decide)) (List.forall_mem_nil _) openedAtOnce

/-! ## The console -/

/-- A text without braces is printed once, at every level but the error
level. -/
theorem onLog_plain {host : Host} (h : host.console.Unbraced) {severity : DppLevel}
    (hl : host.logLevel ≤ severityOf severity) (hne : severity ≠ .error) {message : Text}
    (hm : Plain message) :
    ∃ text, host.onLog severity message = [text] ∧ message <:+: text := by
  have hlevel : (Sum.inr severity : Level ⊕ DppLevel) ≠ .inr .error := by simpa using hne
  obtain ⟨text, hlog, hin⟩ := (printsOnce_iff h hlevel).mpr hm
  refine ⟨text, ?_, hin⟩
  rw [Host.onLog, if_pos hl, hlog]
  rfl

/-- Numbers are written without braces. -/
theorem digits_plain (n : ℕ) : Plain (digits n) := by
  intro c hc
  rw [digits, Nat.toString_eq_repr, Nat.toList_repr] at hc
  have hdigit : c.isDigit = true := Nat.isDigit_of_mem_toDigits (by decide) (by decide) hc
  refine ⟨?_, ?_⟩ <;>
    · rintro rfl
      cases hdigit

/-- An event that the console can show. -/
def Legible (event : DppLevel × Text) : Prop := event.1 ≠ .error ∧ Plain event.2

/-- The reports of a challenge can be read. -/
theorem challengeReports_legible (w : World) (incoming : Incoming) (order : DrawOrder) :
    ∀ event ∈ challengeReports w incoming order, Legible event := by
  unfold challengeReports
  split
  · exact List.forall_mem_nil _
  · split_ifs
    · exact List.forall_mem_nil _
    · have htrace : ∀ {text : Text} (n : ℕ), Plain text →
          Legible (.trace, text ++ digits n) :=
        fun n htext => ⟨DppLevel.noConfusion, plain_append.mpr ⟨htext, digits_plain n⟩⟩
      simp only [List.forall_mem_cons]
      exact ⟨htrace _ (by decide), htrace _ (by decide), htrace _ (by decide),
        List.forall_mem_nil _⟩

/-- Every handler reports what can be read. -/
theorem handle_legible (h : ∀ event ∈ bot.logged, Legible event) (incoming : Incoming)
    (order : DrawOrder) (command : Command) :
    ∀ event ∈ (bot.handle incoming order command).logged, Legible event := by
  have hoccurred : Legible (.info, "command occured: ".toList ++ command.name) := by
    refine ⟨DppLevel.noConfusion, ?_⟩
    cases command <;> decide
  have hlogged := List.forall_mem_append.mpr ⟨h, List.forall_mem_singleton.mpr hoccurred⟩
  cases command with
  | ping => exact hlogged
  | ttt => exact List.forall_mem_append.mpr ⟨hlogged, challengeReports_legible _ _ _⟩

/-- The line about a click has no brace when the id of the button has none. -/
theorem pressed_plain {click : Click} (h : Plain click.customId.toList) : Plain (pressed click) := by
  have huser : Plain ("user <@".toList ++ digits click.user) :=
    plain_append.mpr ⟨by decide, digits_plain _⟩
  have hbutton : Plain "> pressed the button [".toList := by decide
  unfold pressed
  refine plain_append.mpr ⟨plain_append.mpr ⟨plain_append.mpr ⟨huser, hbutton⟩, h⟩, ?_⟩
  decide

/-- Everything that was logged is printed in its order, one text for each
event, and each text can be read. -/
def Readable (setup : Setup) (bot : Bot) : Prop :=
  List.Forall₂ (fun event text => event.2 <:+: text) bot.logged (setup.printed bot)

/-- Legible events are read as one text each. -/
theorem readable_of_legible (h : setup.host.console.Unbraced) (hl : setup.host.logLevel = 0)
    (hlegible : ∀ event ∈ bot.logged, Legible event) : Readable setup bot := by
  unfold Readable Setup.printed
  generalize bot.logged = logged at hlegible ⊢
  induction logged with
  | nil => exact List.Forall₂.nil
  | cons event logged ih =>
    obtain ⟨⟨hne, hplain⟩, hrest⟩ := List.forall_mem_cons.mp hlegible
    obtain ⟨text, hprint, hin⟩ := onLog_plain h (hl ▸ Nat.zero_le _) hne hplain
    rw [List.flatMap_cons, hprint]
    exact List.Forall₂.cons hin (ih hrest)

/-- In every run of the bot in which no clicked id has a brace, every command,
every challenge and every click can be read on the console. -/
theorem readable_run (h : setup.host.console.Unbraced) (hl : setup.host.logLevel = 0)
    (incidents : List Incident)
    (hplain : ∀ click, .click click ∈ incidents → Plain click.customId.toList) :
    Readable setup (setup.run incidents) := by
  refine readable_of_legible h hl ?_
  have hcond : Along (Bot.step setup)
      (fun _ incident => ∀ click, incident = .click click → Plain click.customId.toList) {}
      incidents := by
    rintro before incident behind rfl click rfl
    exact hplain click List.mem_append_cons_self
  refine hcond.invariant (I := fun bot => ∀ event ∈ bot.logged, Legible event)
    (List.forall_mem_nil _) fun bot incident hbot hincident => ?_
  cases incident with
  | message content incoming order =>
    rw [Bot.step]
    generalize initCommands setup.lenient setup.start content = commands
    induction commands generalizing bot with
    | nil => exact hbot
    | cons command commands ih => exact ih _ (handle_legible hbot incoming order command)
  | click click =>
    exact List.forall_mem_append.mpr ⟨hbot, List.forall_mem_singleton.mpr
      ⟨DppLevel.noConfusion, pressed_plain (hincident click rfl)⟩⟩
  | callback callback response => exact hbot

/-- The reports of that run can be read. -/
theorem openedAtOnce_readable : Readable exclaimed (exclaimed.run openedAtOnce) := by
  refine readable_run firstConsole_unbraced rfl openedAtOnce fun click hclick => ?_
  simp only [openedAtOnce, List.mem_cons, reduceCtorEq, Incident.click.injEq, List.not_mem_nil,
    or_false, false_or] at hclick
  subst hclick
  decide

end TintempPlusPlus.Dispatch
