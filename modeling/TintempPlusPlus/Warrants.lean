import TintempPlusPlus.Lives

/-!
# What the program does on whose account

Every effect answers the click or the command that is handled, or an earlier
click that a callback captures, and what a click does beyond a reply concerns a
listed session of which the user is a player. Whatever the program edits or
deletes is a message of that session that Discord returned to it, or one that
was never posted, and Discord returns what the program sent. The handlers need
no invariant of the session list for this, only what each visit of a session
does; who has the turn and whose click a callback captures come from the views.
-/

namespace TintempPlusPlus.Warrants

open Discord UniqueID Ttt Handlers ScanLoop HandlerLaws Program EventRuns Invariant Steps Reachable
  Views Lives

/-- The id, the guild and the channel of a message. -/
abbrev Address := Snowflake × Snowflake × Snowflake

/-- Where a message is. -/
def address (message : Message) : Address := (message.id, message.guildId, message.channelId)

/-- The address of a message that was never posted. -/
def nowhere : Address := (0, 0, 0)

/-- The addresses of the messages that Discord has returned. -/
def addresses (w : World) : List Address := w.returned.map address

/-- The message lies at such an address, or it was never posted. -/
def Located (places : List Address) (message : Message) : Prop :=
  address message = nowhere ∨ address message ∈ places

/-- A message of the program was sent with this request. -/
def Sends (message : Message) : Effect → Prop
  | .messageCreate posted _ => posted = message
  | .reply _ .channelMessageWithSource posted _ => posted = message
  | _ => False

/-- The request of the first YES. -/
def firstReply (click : Click) (node : ℕ) : Effect :=
  .reply click .channelMessageWithSource (confirmedReply click) (.confirmReply click node)

/-- What a step of the program answers to. -/
inductive Cause where
  /-- A click on a button. -/
  | click (click : Click)
  /-- A message that runs the ttt command. -/
  | command (message : Incoming)

/-- The click that a callback captures. -/
def capturedClick : Callback → Option Click
  | .confirmReply click _ => some click
  | .originalResponse click _ => some click
  | .boardReply click _ => some click
  | _ => none

/-- The button of a session for an answer. -/
def answerId (s : Session) : Answer → String
  | .yes => s.confirm.btnId.1
  | .nah => s.confirm.btnId.2

/-- The effect is one that this click or this command brings about, when the
program holds these sessions and these messages. -/
def Fits (list : List Session) (places : List Address) : Cause → Effect → Prop
  | .click click, .answered node player answer => ∃ s ∈ list, s.node = node ∧
      s.playerOf click.user = some player ∧ click.customId = answerId s answer
  | .click click, .initGame node => ∃ s ∈ list, s.node = node ∧
      IsPlayer click.user s ∧ click.customId = answerId s .yes
  | .click click, .placed node other _ _ => other = click ∧ ∃ s ∈ list, s.node = node ∧
      IsPlayer click.user s ∧ click.messageId = s.ttt.game.id
  | .click click, .moved node other _ => other = click ∧ ∃ s ∈ list, s.node = node ∧
      IsPlayer click.user s ∧ click.messageId = s.ttt.game.id
  | .click click, .reply other _ _ _ => other = click
  | .click click, .getOriginalResponse other _ => other = click
  | .click click, .messageEdit message _ => Located places message ∧
      ∃ s ∈ list, IsPlayer click.user s ∧
        (address message = address s.ttt.origin ∨ address message = address s.ttt.game)
  | .click click, .messageDelete id channelId => ∃ s ∈ list, IsPlayer click.user s ∧
      address s.confirm.repliedMsg ∈ places ∧
        id = s.confirm.repliedMsg.id ∧ channelId = s.confirm.repliedMsg.channelId
  | .click click, .messageCreate message callback => message.channelId = click.channelId ∧
      ∃ s ∈ list, IsPlayer click.user s ∧ callback = .resultMessage s.node ∧
        address s.ttt.game ∈ places ∧ message.messageReference =
          some ⟨s.ttt.game.id, s.ttt.game.guildId, s.ttt.game.channelId⟩
  | .command incoming, .messageCreate message _ => message.channelId = incoming.channelId ∧
      ∀ reference, message.messageReference = some reference →
        reference = ⟨incoming.id, incoming.guildId, incoming.channelId⟩
  | .command _, _ => False

section Ledger

variable (clicked : Click → Prop)

/-- What an event answers to: itself, or the earlier click that its callback
captures. -/
def Answers : Event → Cause → Prop
  | .command message _, cause => cause = .command message
  | .click click, cause => cause = .click click
  | .callback callback _, cause =>
    ∃ click, capturedClick callback = some click ∧ clicked click ∧ cause = .click click

/-- What a callback captures comes from a request of the record. -/
def Held (trace : List Effect) : Callback → Prop
  | .created uid posted => .messageCreate posted (.created uid posted) ∈ trace
  | .confirmReply click node => clicked click ∧ firstReply click node ∈ trace
  | .originalResponse click node => clicked click ∧ firstReply click node ∈ trace
  | .boardReply click _ => clicked click
  | _ => True

/-- The messages of a session are messages of the program. -/
structure Housed (places : List Address) (s : Session) : Prop where
  /-- The challenge message. -/
  origin : Located places s.ttt.origin
  /-- The game message. -/
  game : Located places s.ttt.game
  /-- The stored reply. -/
  replied : s.confirm.st.replied = true → address s.confirm.repliedMsg ∈ places
  /-- Only a game on a posted message has a result. -/
  posted : s.ttt.result ≠ .inProgress → s.ttt.game.id ≠ 0

/-- What the program holds is accounted for. -/
structure Ledger (w : World) : Prop where
  /-- The callbacks. -/
  pending : ∀ callback ∈ w.pending, Held clicked w.trace callback
  /-- Discord returns what was sent. -/
  returned : ∀ message ∈ w.returned, ∃ sent effect deployment, effect ∈ w.trace ∧
    Sends sent effect ∧ message = sent.deployed deployment
  /-- The sessions. -/
  sessions : ∀ s ∈ w.tttListG, Housed (addresses w) s

/-- The step adds effects of this kind and leaves everything accounted for. -/
def Booked (P : Effect → Prop) (w w' : World) : Prop :=
  ∃ effects, w'.trace = w.trace ++ effects ∧ (∀ effect ∈ effects, P effect) ∧ Ledger clicked w'

/-- A new effect fits its click and its callback holds what it says. -/
def Sound (list : List Session) (places : List Address) (click : Click) (effect : Effect) : Prop :=
  Fits list places (.click click) effect ∧
    ∀ callback, effect.callback? = some callback → Held clicked [effect] callback

end Ledger

/-- The run is accounted for. -/
structure Accounted (events : List Event) : Prop where
  /-- Every effect of an event fits what the event answers to. -/
  effects : ∀ before e behind more, events = before ++ e :: behind →
    (run (before ++ [e])).trace = (run before).trace ++ more → ∀ effect ∈ more,
      ∃ cause, Answers (fun click => .click click ∈ before) e cause ∧
        Fits (run before).tttListG (addresses (run before)) cause effect
  /-- Discord returns what was sent. -/
  returned : ∀ message ∈ (run events).returned, ∃ sent effect deployment,
    effect ∈ (run events).trace ∧ Sends sent effect ∧ message = sent.deployed deployment

variable {clicked clicked' : Click → Prop} {P : Effect → Prop} {w : World} {s : Session}
  {list : List Session} {places places' : List Address} {click : Click} {player : Player}
  {callback : Callback} {effect : Effect} {effects trace trace' : List Effect} {message : Message}

/-- A located message stays located. -/
theorem Located.mono (h : Located places message) (hsub : places ⊆ places') :
    Located places' message :=
  h.imp_right fun hin => hsub hin

/-- A session stays housed among more messages. -/
theorem Housed.mono (h : Housed places s) (hsub : places ⊆ places') : Housed places' s :=
  ⟨h.origin.mono hsub, h.game.mono hsub, fun hr => hsub (h.replied hr), h.posted⟩

/-- A held callback stays held. -/
theorem Held.mono (h : Held clicked trace callback) (hsub : trace ⊆ trace') :
    Held clicked trace' callback := by
  cases callback with
  | created uid posted => exact hsub h
  | confirmReply click node => exact ⟨h.1, hsub h.2⟩
  | originalResponse click node => exact ⟨h.1, hsub h.2⟩
  | _ => exact h

/-- More clicks hold the same callbacks. -/
theorem Held.imp (h : Held clicked trace callback) (hsub : ∀ click, clicked click → clicked' click) :
    Held clicked' trace callback := by
  cases callback with
  | confirmReply click node => exact ⟨hsub click h.1, h.2⟩
  | originalResponse click node => exact ⟨hsub click h.1, h.2⟩
  | boardReply click node => exact hsub click h
  | _ => exact h

/-- More clicks keep the ledger. -/
theorem Ledger.imp (h : Ledger clicked w) (hsub : ∀ click, clicked click → clicked' click) :
    Ledger clicked' w :=
  ⟨fun callback hcb => (h.pending callback hcb).imp hsub, h.returned, h.sessions⟩

/-- The requests of an answer and of a move carry no other callbacks. -/
theorem sound_of_log (h : Fits list places (.click click) effect)
    (hlog : ∀ callback, effect.callback? = some callback → callback = .log) :
    Sound clicked list places click effect := by
  refine ⟨h, fun callback hcb => ?_⟩
  rw [hlog callback hcb]
  trivial

/-- Effects whose callbacks hold what the record says. -/
theorem Ledger.extend (h : Ledger clicked w)
    (hheld : ∀ effect ∈ effects, ∀ callback, effect.callback? = some callback →
      Held clicked (w.trace ++ effects) callback) : Ledger clicked (w.emit effects) := by
  refine ⟨?_, ?_, h.sessions⟩
  · intro callback hcb
    rcases List.mem_append.mp hcb with hold | hnew
    · exact (h.pending callback hold).mono (List.subset_append_left _ _)
    · obtain ⟨effect, he, hsome⟩ := List.mem_filterMap.mp hnew
      exact hheld effect he callback hsome
  · intro message hm
    obtain ⟨sent, effect, deployment, he, hsends, hdeployed⟩ := h.returned message hm
    exact ⟨sent, effect, deployment, List.mem_append_left _ he, hsends, hdeployed⟩

/-- Callbacks that hold what their own request says are accounted for. -/
theorem Ledger.emit (h : Ledger clicked w) (hheld : ∀ effect ∈ effects, ∀ callback,
    effect.callback? = some callback → Held clicked [effect] callback) :
    Ledger clicked (w.emit effects) := by
  refine h.extend fun effect he callback hcb => ?_
  refine (hheld effect he callback hcb).mono fun e hin => ?_
  rw [List.mem_singleton.mp hin]
  exact List.mem_append_right _ he

/-- Sound effects of a click are booked. -/
theorem Ledger.booked (h : Ledger clicked w)
    (hsound : ∀ effect ∈ effects, Sound clicked list places click effect) :
    Booked clicked (Fits list places (.click click)) w (w.emit effects) :=
  ⟨effects, rfl, fun effect he => (hsound effect he).1, h.emit fun effect he => (hsound effect he).2⟩

/-- Doing nothing is booked. -/
theorem Ledger.unchanged (h : Ledger clicked w) : Booked clicked P w w :=
  ⟨[], (List.append_nil _).symm, List.forall_mem_nil _, h⟩

/-- Other housed sessions take the place of the listed ones. -/
theorem Ledger.relist (h : Ledger clicked w) {list : List Session}
    (hlist : ∀ s ∈ list, Housed (addresses w) s) {nextID nextNode : ℕ} :
    Ledger clicked { w with nextID := nextID, nextNode := nextNode, tttListG := list } :=
  ⟨h.pending, h.returned, hlist⟩

/-- A callback that runs keeps the ledger. -/
theorem Ledger.taken (h : Ledger clicked w) (callback : Callback) :
    Ledger clicked (taken w callback) :=
  ⟨fun cb hcb => h.pending cb (List.mem_of_mem_erase hcb), h.returned, h.sessions⟩

/-- A sent message is returned. -/
theorem Ledger.receive (h : Ledger clicked w) (he : effect ∈ w.trace)
    (hsends : Sends message effect) (deployment : Deployment) :
    Ledger clicked (w.receive (message.deployed deployment)) := by
  have hsub : addresses w ⊆ addresses (w.receive (message.deployed deployment)) :=
    List.subset_cons_self _ _
  refine ⟨h.pending, ?_, fun s hs => (h.sessions s hs).mono hsub⟩
  exact List.forall_mem_cons.mpr
    ⟨⟨message, effect, deployment, he, hsends, rfl⟩, h.returned⟩

/-- A returned message has an address of its own. -/
theorem address_receive (w : World) (message : Message) :
    address message ∈ addresses (w.receive message) :=
  List.mem_map_of_mem List.mem_cons_self

/-! ## Visits of a session -/

/-- A flag moves no message. -/
theorem Housed.flag (h : Housed places s) (player : Player) : Housed places (s.flag player) :=
  ⟨h.origin, h.game, fun hr => h.replied (by simpa [Session.flag] using hr), h.posted⟩

/-- An embed moves no message. -/
theorem Housed.setOriginEmbed (h : Housed places s) (embed : Embed) :
    Housed places { s with ttt := s.ttt.setOriginEmbed embed } :=
  ⟨h.origin, h.game, h.replied, h.posted⟩

/-- A started game leaves the messages where they are. -/
theorem start_message (s : Session) (nextID : ℕ) :
    address (s.start nextID).1.ttt.origin = address s.ttt.origin ∧
      address (s.start nextID).1.ttt.game = address s.ttt.game ∧
        (s.start nextID).1.ttt.game.id = s.ttt.game.id := by
  simp only [Session.start, Game.initGame]
  rw [fetchTttTurn_eq]
  exact ⟨rfl, rfl, rfl⟩

/-- A started game is housed where its messages were. -/
theorem Housed.start (h : Housed places s) (nextID : ℕ) : Housed places (s.start nextID).1 := by
  obtain ⟨-, haddress, hid⟩ := start_message s nextID
  refine ⟨h.origin, ?_, h.replied, fun hr => ?_⟩
  · rw [Located, haddress]
    exact h.game
  · rw [hid]
    exact h.posted hr

/-- A session as it stands in a list, but for its flags and its game. -/
structure Alike (t s : Session) : Prop where
  /-- The same list element. -/
  node : t.node = s.node
  /-- The same buttons. -/
  btnId : t.confirm.btnId = s.confirm.btnId
  /-- The same stored reply. -/
  replied : t.confirm.repliedMsg = s.confirm.repliedMsg
  /-- The same challenge message. -/
  origin : address t.ttt.origin = address s.ttt.origin
  /-- The same game message. -/
  game : address t.ttt.game = address s.ttt.game
  /-- The same players. -/
  player : ∀ user, t.playerOf user = s.playerOf user

/-- Some session of the list is like this one. -/
def Stands (list : List Session) (s : Session) : Prop :=
  ∃ t ∈ list, Alike t s

/-- A flag leaves a session where it stands. -/
theorem Stands.flag (h : Stands list s) (player : Player) : Stands list (s.flag player) := by
  obtain ⟨t, ht, hsame⟩ := h
  exact ⟨t, ht, hsame.node, hsame.btnId, hsame.replied, hsame.origin, hsame.game, hsame.player⟩

/-- An embed leaves a session where it stands. -/
theorem Stands.setOriginEmbed (h : Stands list s) (embed : Embed) :
    Stands list { s with ttt := s.ttt.setOriginEmbed embed } := by
  obtain ⟨t, ht, hsame⟩ := h
  exact ⟨t, ht, hsame.node, hsame.btnId, hsame.replied, hsame.origin, hsame.game, hsame.player⟩

/-- A start leaves a session where it stands. -/
theorem Stands.start (h : Stands list s) (nextID : ℕ) : Stands list (s.start nextID).1 := by
  obtain ⟨t, ht, hsame⟩ := h
  obtain ⟨horigin, hgame, -⟩ := start_message s nextID
  exact ⟨t, ht, hsame.node, hsame.btnId, hsame.replied, hsame.origin.trans horigin.symm,
    hsame.game.trans hgame.symm, hsame.player⟩

/-- A listed session stands in its list. -/
theorem stands_of_mem (h : s ∈ list) : Stands list s :=
  ⟨s, h, rfl, rfl, rfl, rfl, rfl, fun _ => rfl⟩

/-- Whoever is a player is one in the list. -/
theorem Alike.isPlayer {t : Session} (h : Alike t s) (hp : s.playerOf click.user = some player) :
    IsPlayer click.user t := by
  rw [IsPlayer, h.player, hp]
  rfl

/-- The answer of a player is one of the session's. -/
theorem Stands.answered (h : Stands list s) (hp : s.playerOf click.user = some player)
    {answer : Answer} (hid : click.customId = answerId s answer) :
    Fits list places (.click click) (.answered s.node player answer) := by
  obtain ⟨t, ht, hsame⟩ := h
  refine ⟨t, ht, hsame.node, (hsame.player _).trans hp, ?_⟩
  cases answer <;> simpa only [answerId, hsame.btnId] using hid

/-- A start fits the YES of a player of the session. -/
theorem Stands.initGame (h : Stands list s) (hp : s.playerOf click.user = some player)
    (hid : click.customId = answerId s .yes) :
    Fits list places (.click click) (.initGame s.node) := by
  obtain ⟨t, ht, hsame⟩ := h
  exact ⟨t, ht, hsame.node, hsame.isPlayer hp, by simpa only [answerId, hsame.btnId] using hid⟩

/-- An edit of the challenge message fits. -/
theorem Stands.editOrigin (h : Stands list s) (hp : s.playerOf click.user = some player)
    (hlocated : Located places message) (hm : address message = address s.ttt.origin) :
    Fits list places (.click click) (.messageEdit message .log) := by
  obtain ⟨t, ht, hsame⟩ := h
  exact ⟨hlocated, t, ht, hsame.isPlayer hp, Or.inl (hm.trans hsame.origin.symm)⟩

/-- An edit of the game message fits. -/
theorem Stands.editGame (h : Stands list s) (hp : s.playerOf click.user = some player)
    (hlocated : Located places message) (hm : address message = address s.ttt.game) :
    Fits list places (.click click) (.messageEdit message .log) := by
  obtain ⟨t, ht, hsame⟩ := h
  exact ⟨hlocated, t, ht, hsame.isPlayer hp, Or.inr (hm.trans hsame.game.symm)⟩

/-- What is done on the board concerns a listed session. -/
theorem Stands.onBoard (h : Stands list s) (hp : IsPlayer click.user s)
    (hm : click.messageId = s.ttt.game.id) :
    ∃ t ∈ list, t.node = s.node ∧ IsPlayer click.user t ∧ click.messageId = t.ttt.game.id := by
  obtain ⟨t, ht, hsame⟩ := h
  refine ⟨t, ht, hsame.node, ?_, hm.trans (congrArg Prod.fst hsame.game).symm⟩
  rw [IsPlayer, hsame.player]
  exact hp

/-- The deletion of the stored reply fits. -/
theorem Stands.deleteReply (h : Stands list s) (hp : s.playerOf click.user = some player)
    (hin : address s.confirm.repliedMsg ∈ places) : Fits list places (.click click)
      (.messageDelete s.confirm.repliedMsg.id s.confirm.repliedMsg.channelId) := by
  obtain ⟨t, ht, hsame⟩ := h
  refine ⟨t, ht, hsame.isPlayer hp, ?_⟩
  rw [hsame.replied]
  exact ⟨hin, rfl, rfl⟩

/-- Replies answer their click. -/
theorem sound_reply (type : ResponseType) (message : Message) :
    Sound clicked list places click (.reply click type message .log) :=
  sound_of_log rfl fun _ hcb => (Option.some.inj hcb).symm

/-- A fitting edit is sound. -/
theorem sound_edit (h : Fits list places (.click click) (.messageEdit message .log)) :
    Sound clicked list places click (.messageEdit message .log) :=
  sound_of_log h fun _ hcb => (Option.some.inj hcb).symm

/-- What the confirm handler keeps of each session. -/
def Kept (list : List Session) (places : List Address) (s : Session) : Prop :=
  Housed places s ∧ Stands list s

/-- What a YES does is sound. -/
theorem answeredYes_sound (hc : clicked click) (h : Kept list places s)
    (hp : s.playerOf click.user = some player) (nextID : ℕ) :
    Kept list places (answeredYes click player nextID s).item ∧
      (answeredYes click player nextID s).item.playerOf click.user = some player ∧
      ∀ effect ∈ (answeredYes click player nextID s).emitted,
        Sound clicked list places click effect := by
  obtain ⟨hhoused, hstands⟩ := h
  unfold answeredYes
  split_ifs with hy hset
  · exact ⟨⟨hhoused, hstands⟩, hp, List.forall_mem_nil _⟩
  · have hanswered : Sound clicked list places click (.answered s.node player .yes) :=
      sound_of_log (hstands.answered hp hy) fun callback hcb => by cases hcb
    dsimp only
    split_ifs with ho
    · refine ⟨⟨hhoused.flag player, hstands.flag player⟩, hp,
        List.forall_mem_cons.mpr ⟨hanswered, ?_⟩⟩
      refine List.forall_mem_singleton.mpr ⟨rfl, fun callback hcb => ?_⟩
      cases hcb
      exact ⟨hc, List.mem_singleton_self _⟩
    · have hstarted := (hhoused.flag player).start nextID
      have hinit : Sound clicked list places click (.initGame s.node) :=
        sound_of_log (hstands.initGame hp hy) fun callback hcb => by cases hcb
      obtain ⟨-, hgame, -⟩ := start_message (s.flag player) nextID
      have hedit : Sound clicked list places click
          (.messageEdit ((s.flag player).start nextID).1.ttt.game .log) :=
        sound_edit (hstands.editGame hp hstarted.game hgame)
      refine ⟨⟨hstarted, (hstands.flag player).start nextID⟩, hp, ?_⟩
      simp only [List.forall_mem_cons]
      exact ⟨hanswered, hinit, sound_reply _ _, hedit, List.forall_mem_nil _⟩
  · exact ⟨⟨hhoused, hstands⟩, hp, List.forall_mem_nil _⟩

/-- What a Nah does is sound. -/
theorem answeredNo_sound (h : Kept list places s) (hp : s.playerOf click.user = some player)
    (nextID : ℕ) :
    Kept list places (answeredNo click player nextID s).item ∧
      ∀ effect ∈ (answeredNo click player nextID s).emitted,
        Sound clicked list places click effect := by
  obtain ⟨hhoused, hstands⟩ := h
  unfold answeredNo
  split_ifs with hn hset
  · exact ⟨⟨hhoused, hstands⟩, List.forall_mem_nil _⟩
  · have hanswered : Sound clicked list places click (.answered s.node player .nah) :=
      sound_of_log (hstands.answered hp hn) fun callback hcb => by cases hcb
    have hcancelled := (hhoused.flag player).setOriginEmbed (cancelledEmbed click)
    have hedit : Sound clicked list places click (.messageEdit
        ((s.flag player).ttt.setOriginEmbed (cancelledEmbed click)).origin .log) :=
      sound_edit (hstands.editOrigin hp hcancelled.origin rfl)
    refine ⟨⟨hcancelled, (hstands.flag player).setOriginEmbed _⟩,
      List.forall_mem_append.mpr ⟨?_, fun effect he => ?_⟩⟩
    · simp only [List.forall_mem_cons]
      exact ⟨hanswered, hedit, List.forall_mem_nil _⟩
    · split_ifs at he with hr
      · rw [List.mem_singleton.mp he]
        have hdelete := hstands.deleteReply hp (hcancelled.replied hr)
        exact sound_of_log hdelete fun callback hcb => by cases hcb
      · cases he
  · exact ⟨⟨hhoused, hstands⟩, List.forall_mem_nil _⟩

/-- What the confirm handler does is sound. -/
theorem confirmBody_sound (hc : clicked click) (nextID : ℕ) (s : Session)
    (h : Kept list places s) :
    Kept list places (confirmBody click nextID s).item ∧
      ∀ effect ∈ (confirmBody click nextID s).emitted, Sound clicked list places click effect := by
  unfold confirmBody
  cases hp : s.playerOf click.user with
  | none => exact ⟨h, List.forall_mem_singleton.mpr (sound_reply _ _)⟩
  | some player =>
    obtain ⟨hyes, hplayer, hyesEmitted⟩ := answeredYes_sound hc h hp nextID
    have hno := @answeredNo_sound clicked _ list places click player hyes hplayer
      (answeredYes click player nextID s).shared
    dsimp only
    split_ifs
    · exact ⟨hyes, hyesEmitted⟩
    · exact ⟨hno.1, List.forall_mem_append.mpr ⟨hyesEmitted, hno.2⟩⟩

/-- Marks do not move messages. -/
theorem Housed.play (h : Housed places s) {t : Game} (horigin : t.origin = s.ttt.origin)
    (hgame : t.game = s.ttt.game) (hid : s.ttt.game.id ≠ 0) :
    Housed places { s with ttt := t } := by
  refine ⟨?_, ?_, h.replied, fun _ => ?_⟩
  · simpa only [horigin] using h.origin
  · simpa only [hgame] using h.game
  · simpa only [hgame] using hid

/-- The search for the pressed button keeps the messages of the game. -/
theorem pressSquares_sound (hboard : ∃ t ∈ list, t.node = s.node ∧ IsPlayer click.user t ∧
      click.messageId = t.ttt.game.id) :
    (pressSquares click s).ttt.origin = s.ttt.origin ∧
      (pressSquares click s).ttt.game = s.ttt.game ∧
        ∀ effect ∈ (pressSquares click s).emitted, Sound clicked list places click effect := by
  have hall : ∀ (visited : List Square) (press : Press),
      (∀ effect ∈ press.emitted, Sound clicked list places click effect) →
        (visited.foldl (pressSquare click s.node) press).ttt.origin = press.ttt.origin ∧
          (visited.foldl (pressSquare click s.node) press).ttt.game = press.ttt.game ∧
            ∀ effect ∈ (visited.foldl (pressSquare click s.node) press).emitted,
              Sound clicked list places click effect := by
    intro visited
    induction visited with
    | nil => exact fun press hpress => ⟨rfl, rfl, hpress⟩
    | cons square visited ih =>
      intro press hpress
      have hstep : (pressSquare click s.node press square).ttt.origin = press.ttt.origin ∧
          (pressSquare click s.node press square).ttt.game = press.ttt.game ∧
            ∀ effect ∈ (pressSquare click s.node press square).emitted,
              Sound clicked list places click effect := by
        unfold pressSquare
        split_ifs
        · exact ⟨rfl, rfl, List.forall_mem_append.mpr
            ⟨hpress, List.forall_mem_singleton.mpr (sound_reply _ _)⟩⟩
        · refine ⟨rfl, rfl, List.forall_mem_append.mpr ⟨hpress, List.forall_mem_singleton.mpr ?_⟩⟩
          exact sound_of_log ⟨rfl, hboard⟩ fun callback hcb => by cases hcb
        · exact ⟨rfl, rfl, hpress⟩
      obtain ⟨horigin, hgame, hemitted⟩ := ih _ hstep.2.2
      exact ⟨horigin.trans hstep.1, hgame.trans hstep.2.1, hemitted⟩
  unfold pressSquares
  exact hall squares { ttt := s.ttt } (List.forall_mem_nil _)

/-- What the board handler does is sound when the turn belongs to a player. -/
theorem boardBody_sound (hc : clicked click) (s : Session) (h : Kept list places s)
    (hturn : click.user = s.ttt.turn.1 → IsPlayer click.user s) :
    Housed places (boardBody click () s).item ∧
      ∀ effect ∈ (boardBody click () s).emitted, Sound clicked list places click effect := by
  obtain ⟨hhoused, hstands⟩ := h
  unfold boardBody
  split_ifs with hm hu hp
  · have hid : s.ttt.game.id ≠ 0 := hm ▸ click.messageIssued
    have hboard := hstands.onBoard (hturn hu) hm
    obtain ⟨horigin, hgame, hemitted⟩ : (pressSquares click s).ttt.origin = s.ttt.origin ∧
        (pressSquares click s).ttt.game = s.ttt.game ∧
          ∀ effect ∈ (pressSquares click s).emitted, Sound clicked list places click effect :=
      pressSquares_sound hboard
    dsimp only
    split_ifs
    · exact ⟨hhoused.play horigin hgame hid, hemitted⟩
    · refine ⟨hhoused.play (by simpa using horigin) (by simpa using hgame) hid,
        List.forall_mem_append.mpr ⟨hemitted, ?_⟩⟩
      simp only [List.forall_mem_cons]
      refine ⟨sound_of_log ⟨rfl, hboard⟩ ?_, ⟨rfl, fun callback hcb => ?_⟩, List.forall_mem_nil _⟩
      · exact fun callback hcb => by cases hcb
      · cases hcb
        exact hc
  · exact ⟨hhoused, List.forall_mem_singleton.mpr (sound_reply _ _)⟩
  · exact ⟨hhoused, List.forall_mem_nil _⟩
  · exact ⟨hhoused, List.forall_mem_nil _⟩

/-! ## Who waits for a reply -/

/-- Only clicks of its players wait for a reply on the board of a session. -/
def ViewReplies (node : ℕ) (v : View) : Prop :=
  ∀ click, .boardReply click node ∈ v.pending → ∀ s, v.session = some s → IsPlayer click.user s

/-- The game does not tell who the players are. -/
theorem isPlayer_play (user : Snowflake) (s : Session) (t : Game) :
    IsPlayer user { s with ttt := t } ↔ IsPlayer user s :=
  Iff.rfl

/-- Every touch keeps this. -/
theorem viewReplies_touch {node : ℕ} {p : Part} {v v' : View} (h : ViewReplies node v)
    (ht : Touch w node p v v') : ViewReplies node v' := by
  intro click hcb t hs
  cases ht with
  | created hf => cases hcb
  | @confirmed other player pre s post pending trace hacc hinv hy ho =>
    cases hs
    exact (h click (by simpa using hcb) s rfl :)
  | @started other player pre s post pending trace hacc hinv hy ho =>
    cases hs
    exact (h click hcb s rfl :)
  | @declined other player pre s post pending trace hacc hinv hn =>
    cases hs
    exact (h click hcb s rfl :)
  | @played other square pre s post pending trace hmove hinv hsq hidle =>
    cases hs
    rcases List.mem_append.mp hcb with hold | hnew
    · exact (isPlayer_play _ s _).mpr (h click hold s rfl)
    · cases List.mem_singleton.mp hnew
      exact (isPlayer_play _ s _).mpr (hinv.turn hmove.user)
  | @strayed other pre s post pending trace hmove hinv hsq =>
    cases hs
    rcases List.mem_append.mp hcb with hold | hnew
    · exact (isPlayer_play _ s _).mpr (h click hold s rfl)
    · cases List.mem_singleton.mp hnew
      exact (isPlayer_play _ s _).mpr (hinv.turn hmove.user)
  | @originSet uid posted deployment s pending trace hpending hfresh hinv huid hno =>
    cases hs
    exact (isPlayer_play _ s _).mpr (h click hcb s rfl)
  | dropped hpending hidle => exact h click (List.mem_of_mem_erase hcb) t hs
  | asked hpending =>
    rcases List.mem_append.mp hcb with hold | hnew
    · exact h click (List.mem_of_mem_erase hold) t hs
    · cases List.mem_singleton.mp hnew
  | orphaned hpending => cases hs
  | @stored other deployment s pending trace hpending hfresh hinv =>
    cases hs
    exact (h click (List.mem_of_mem_erase hcb) s rfl :)
  | @announced other deployment s embed pending trace hpending hinv hr =>
    cases hs
    rcases List.mem_append.mp hcb with hold | hnew
    · exact (isPlayer_play _ s _).mpr (h click (List.mem_of_mem_erase hold) s rfl)
    · cases List.mem_singleton.mp hnew
  | erased hpending hinv => cases hs

/-- The reply to a click on the board comes to a player of the session. -/
theorem isPlayer_of_reply (hw : Reached w) (hs : s ∈ w.tttListG)
    (hcb : .boardReply click s.node ∈ w.pending) : IsPlayer click.user s := by
  have hview := view_reached (I := ViewReplies) (fun _ click hcb => by cases hcb)
    (fun w n p v hw hv ht => viewReplies_touch hv ht) hw s.node
  rw [view_of_mem hw.inv hs] at hview
  exact hview click (mem_callbacksOf.mpr ⟨hcb, rfl⟩) s rfl

/-! ## Runs -/


/-- A command is booked. -/
theorem booked_command (h : Ledger clicked w) (message : Incoming) (order : DrawOrder) :
    Booked clicked (Fits w.tttListG (addresses w) (.command message)) w
      (w.command message order) := by
  have hrejection : ∀ content, Booked clicked (Fits w.tttListG (addresses w) (.command message)) w
      (w.emit [rejection message content]) := by
    intro content
    refine ⟨_, rfl, List.forall_mem_singleton.mpr ?_, h.emit (List.forall_mem_singleton.mpr ?_)⟩
    · exact ⟨rfl, fun reference href => (Option.some.inj href).symm⟩
    · intro callback hcb
      cases hcb
      trivial
  unfold World.command
  split
  · exact h.unchanged
  · rename_i mentioned rest hmentions
    split_ifs
    · exact hrejection _
    · exact hrejection _
    · obtain ⟨hf, -⟩ := newSession_fresh w order message.author mentioned.id
      have hhoused : Housed (addresses w)
          (newSession order message.author mentioned.id w.nextID w.nextNode).1 := by
        refine ⟨Or.inl ?_, Or.inl ?_, fun hr => ?_, fun hr => ?_⟩
        · rw [hf.ttt]
          rfl
        · rw [hf.ttt]
          rfl
        · rw [hf.confirm] at hr
          cases hr
        · rw [hf.ttt] at hr
          exact absurd rfl hr
      have hlist := List.forall_mem_append.mpr ⟨h.sessions, List.forall_mem_singleton.mpr hhoused⟩
      refine ⟨_, rfl, List.forall_mem_singleton.mpr ?_,
        (h.relist hlist).emit (List.forall_mem_singleton.mpr fun callback hcb => ?_)⟩
      · exact ⟨rfl, fun reference href => by cases href⟩
      · cases hcb
        exact List.mem_singleton_self _

/-- The confirm handler is booked, and leaves the sessions where they stand. -/
theorem booked_confirm (h : Ledger clicked w) (hc : clicked click) :
    Booked clicked (Fits w.tttListG (addresses w) (.click click)) w (w.confirmClick click) ∧
      ∀ s ∈ (w.confirmClick click).tttListG, Stands w.tttListG s := by
  have hkept : ∀ s ∈ w.tttListG, Kept w.tttListG (addresses w) s :=
    fun s hs => ⟨h.sessions s hs, stands_of_mem hs⟩
  obtain ⟨hitems, hemitted⟩ := sweep_forall (t := w.nextID) (Q := Sound clicked _ _ click)
    (fun nextID s hs => confirmBody_sound hc nextID s hs) hkept
  exact ⟨(h.relist fun s hs => (hitems s hs).1).booked hemitted, fun s hs => (hitems s hs).2⟩

/-- The board handler is booked, also on sessions that another handler has
visited before. -/
theorem booked_board (hi : Inv w) (hstands : ∀ s ∈ w.tttListG, Stands list s)
    (h : Ledger clicked w) (hc : clicked click) :
    Booked clicked (Fits list (addresses w) (.click click)) w (w.boardClick click) := by
  have hready : ∀ s ∈ w.tttListG, Kept list (addresses w) s ∧
      (click.user = s.ttt.turn.1 → IsPlayer click.user s) :=
    fun s hs => ⟨⟨h.sessions s hs, hstands s hs⟩, (hi.sessions s hs).turn⟩
  obtain ⟨hitems, hemitted⟩ := sweep_forall_of (t := ()) (Q := Sound clicked list _ click)
    (fun s hs => hs.1.1) (fun _ s hs => boardBody_sound hc s hs.1 hs.2) hready
  exact (h.relist hitems).booked hemitted

/-- A click runs both handlers. -/
theorem booked_click (hi : Inv w) (h : Ledger clicked w) (hc : clicked click) :
    Booked clicked (Fits w.tttListG (addresses w) (.click click)) w (w.step (.click click)) := by
  obtain ⟨⟨first, hfirst, hfits, hconfirmed⟩, hstands⟩ := booked_confirm h hc
  obtain ⟨second, hsecond, hfits', hdone⟩ :=
    booked_board (change_inv hi (confirm_change hi click)) hstands hconfirmed hc
  refine ⟨first ++ second, ?_, List.forall_mem_append.mpr ⟨hfits, hfits'⟩, hdone⟩
  rw [← List.append_assoc, ← hfirst]
  exact hsecond

/-- The result is announced in reply to the game message. -/
theorem booked_announce (h : Ledger clicked w) (hs : s ∈ w.tttListG)
    (hp : IsPlayer click.user s) {embed : Embed}
    (hr : resultEmbed click s.ttt.result = some embed) :
    Booked clicked (Fits w.tttListG (addresses w) (.click click)) w (w.announce click s embed) := by
  have hhoused := h.sessions s hs
  have hid : s.ttt.game.id ≠ 0 := by
    refine hhoused.posted fun hgoing => ?_
    rw [hgoing] at hr
    cases hr
  have hgame : address s.ttt.game ∈ addresses w :=
    hhoused.game.resolve_left fun hnowhere => hid (congrArg Prod.fst hnowhere)
  have hlist : ∀ t ∈ (w.update s.node fun s =>
      { s with ttt := s.ttt.setOriginEmbed (endedEmbed s.ttt) }).tttListG,
      Housed (addresses w) t := by
    refine List.forall_mem_map.mpr fun t ht => ?_
    split_ifs
    · exact (h.sessions t ht).setOriginEmbed _
    · exact h.sessions t ht
  refine (h.relist hlist).booked ?_
  simp only [List.forall_mem_cons]
  have hlocated := (hhoused.setOriginEmbed (endedEmbed s.ttt)).origin
  refine ⟨⟨⟨rfl, s, hs, hp, rfl, hgame, rfl⟩, fun callback hcb => ?_⟩,
    sound_edit ⟨hlocated, s, hs, hp, Or.inl rfl⟩, List.forall_mem_nil _⟩
  cases hcb
  trivial

/-- What a callback does answers to the click that it captures. -/
theorem booked_runCallback (h : Ledger clicked w) (response : Response)
    (hheld : Held clicked w.trace callback) (hplayers : ∀ click, ∀ s ∈ w.tttListG,
      callback = .boardReply click s.node → IsPlayer click.user s) :
    Booked clicked (fun effect => ∃ click, capturedClick callback = some click ∧ clicked click ∧
      Fits w.tttListG (addresses w) (.click click) effect) w (w.runCallback response callback) := by
  have hsilent : ∀ {w' : World}, w'.trace = w.trace → Ledger clicked w' →
      Booked clicked (fun effect => ∃ click, capturedClick callback = some click ∧
        clicked click ∧ Fits w.tttListG (addresses w) (.click click) effect) w w' :=
    fun htrace hledger => ⟨[], by rw [htrace, List.append_nil], List.forall_mem_nil _, hledger⟩
  cases callback with
  | log => exact h.unchanged
  | created uid posted =>
    cases response with
    | error => exact h.unchanged
    | success deployment =>
      have hreceived := h.receive hheld (show Sends posted _ from rfl) deployment
      have haddress := address_receive w (posted.deployed deployment)
      refine hsilent rfl (hreceived.relist (List.forall_mem_map.mpr fun t ht => ?_))
      have hhoused := hreceived.sessions t ht
      split_ifs
      · exact ⟨Or.inr haddress, hhoused.game, hhoused.replied, hhoused.posted⟩
      · exact hhoused
      · exact hhoused
  | confirmReply click node =>
    refine ⟨_, rfl, List.forall_mem_singleton.mpr ⟨click, rfl, hheld.1, rfl⟩, h.extend ?_⟩
    refine List.forall_mem_singleton.mpr fun callback hcb => ?_
    cases hcb
    exact ⟨hheld.1, List.mem_append_left _ hheld.2⟩
  | originalResponse click node =>
    cases response with
    | error => exact h.unchanged
    | success deployment =>
      have hreceived := h.receive hheld.2 (show Sends (confirmedReply click) _ from rfl) deployment
      have haddress := address_receive w ((confirmedReply click).deployed deployment)
      refine hsilent rfl (hreceived.relist (List.forall_mem_map.mpr fun t ht => ?_))
      have hhoused := hreceived.sessions t ht
      split_ifs
      · exact ⟨hhoused.origin, Or.inr haddress, fun _ => haddress, fun _ => deployment.issued⟩
      · exact hhoused
  | boardReply click node =>
    cases response with
    | error => exact h.unchanged
    | success deployment =>
      simp only [World.runCallback]
      split
      · exact h.unchanged
      · rename_i s hfind
        split
        · exact h.unchanged
        · rename_i embed hr
          have hs := List.mem_of_find?_eq_some hfind
          have hnode : s.node = node := by simpa using List.find?_some hfind
          obtain ⟨effects, htrace, hfits, hdone⟩ :=
            booked_announce h hs (hplayers click s hs (by rw [hnode])) hr
          exact ⟨effects, htrace, fun effect he => ⟨click, rfl, hheld, hfits effect he⟩, hdone⟩
  | resultMessage node =>
    cases response with
    | error => exact h.unchanged
    | success deployment =>
      exact hsilent rfl (h.relist fun s hs => h.sessions s (List.mem_of_mem_filter hs))

/-- The clicks of an event are among the given ones. -/
def Among (clicked : Click → Prop) : Event → Prop
  | .click click => clicked click
  | _ => True

/-- Every step is booked. -/
theorem booked_step (hw : Reached w) (h : Ledger clicked w) {e : Event} (he : Among clicked e) :
    Booked clicked (fun effect => ∃ cause, Answers clicked e cause ∧
      Fits w.tttListG (addresses w) cause effect) w (w.step e) := by
  cases e with
  | command message order =>
    obtain ⟨effects, htrace, hfits, hdone⟩ := booked_command h message order
    exact ⟨effects, htrace, fun effect hm => ⟨_, rfl, hfits effect hm⟩, hdone⟩
  | click click =>
    obtain ⟨effects, htrace, hfits, hdone⟩ := booked_click hw.inv h he
    exact ⟨effects, htrace, fun effect hm => ⟨_, rfl, hfits effect hm⟩, hdone⟩
  | callback callback response =>
    simp only [World.step]
    split_ifs with ha
    · have hmem : callback ∈ w.pending := of_decide_eq_true (Bool.and_eq_true_iff.mp ha).1
      obtain ⟨effects, htrace, hfits, hdone⟩ :=
        booked_runCallback (h.taken callback) response (h.pending callback hmem)
          fun click s hs heq => isPlayer_of_reply hw hs (heq ▸ hmem)
      refine ⟨effects, htrace, fun effect hin => ?_, hdone⟩
      obtain ⟨click, hcaptured, hclick, hfit⟩ := hfits effect hin
      exact ⟨_, ⟨click, hcaptured, hclick, rfl⟩, hfit⟩
    · exact h.unchanged

/-- What the program holds is accounted for by the clicks of the run. -/
theorem ledger_run (events : List Event) :
    Ledger (fun click => .click click ∈ events) (run events) := by
  have hcond : Along World.step (fun _ => Among fun click => .click click ∈ events)
      World.init events := by
    rintro pre e post hsplit
    have hmem : e ∈ events := hsplit ▸ List.mem_append_cons_self
    cases e with
    | click click => exact hmem
    | command => trivial
    | callback => trivial
  have hinit : Ledger (fun click => .click click ∈ events) World.init :=
    ⟨List.forall_mem_nil _, List.forall_mem_nil _, List.forall_mem_nil _⟩
  have hall := hcond.invariant
    (I := fun w => Reached w ∧ Ledger (fun click => .click click ∈ events) w)
    ⟨reached_init, hinit⟩ fun w e hw he => ?_
  · exact hall.2
  · obtain ⟨-, -, -, hdone⟩ := booked_step hw.1 hw.2 he
    exact ⟨reached_steps hw.1 [e], hdone⟩

/-- A callback answers to an earlier click. -/
theorem Answers.earlier {before : List Event} {e : Event} {cause : Cause}
    (h : Answers (fun click => .click click ∈ before ++ [e]) e cause) :
    Answers (fun click => .click click ∈ before) e cause := by
  cases e with
  | callback callback response =>
    obtain ⟨click, hcaptured, hclick, hcause⟩ := h
    exact ⟨click, hcaptured, by simpa using hclick, hcause⟩
  | command => exact h
  | click => exact h

/-- In every run each effect is one that a click or a command brings about:
the one that is handled or, in a callback, an earlier click that the callback
captures. Edits and deletions are made to messages that Discord returned or
that were never posted, and Discord returned nothing but what the program had
sent. -/
theorem accounted_run (events : List Event) : Accounted events := by
  refine ⟨?_, (ledger_run events).returned⟩
  rintro before e behind more rfl htrace effect hm
  have hledger : Ledger (fun click => .click click ∈ before ++ [e]) (run before) :=
    (ledger_run before).imp fun click hclick => List.mem_append_left _ hclick
  have hamong : Among (fun click => .click click ∈ before ++ [e]) e := by
    cases e with
    | click click => exact List.mem_append_right _ (List.mem_singleton_self _)
    | command => trivial
    | callback => trivial
  obtain ⟨effects, heffects, hfits, -⟩ := booked_step (reached_run before) hledger hamong
  rw [run_concat, heffects] at htrace
  rw [← List.append_cancel_left htrace] at hm
  obtain ⟨cause, hanswers, hfit⟩ := hfits effect hm
  exact ⟨cause, hanswers.earlier, hfit⟩

end TintempPlusPlus.Warrants
