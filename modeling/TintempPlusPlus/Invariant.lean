import TintempPlusPlus.Program
import TintempPlusPlus.HandlerLaws
import TintempPlusPlus.Library.OneEntry

/-!
# The invariant of the session list

A listed session has two different players, ids made from its own drawn
numbers, and a game that is either untouched or started by both players.
Different sessions share no list element, no drawn number and no message.
Everything that the click handlers need to address one session follows.
-/

namespace TintempPlusPlus.Invariant

open Discord UniqueID Ttt Handlers ScanLoop Play HandlerLaws Program OneEntry

/-- The numbers drawn when a session is created. -/
def stamps (s : Session) : List ℕ := [s.ttt.uid, s.confirm.id.1, s.confirm.id.2]

/-- The ids of the game message and of the challenge message, once known. -/
def messageIds (s : Session) : List Snowflake :=
  [s.ttt.game.id, s.ttt.origin.id].filter fun id => decide (id ≠ 0)

/-- The messages of a session are those of its two messages that exist. -/
theorem mem_messageIds {s : Session} {id : Snowflake} :
    id ∈ messageIds s ↔ id ≠ 0 ∧ (id = s.ttt.game.id ∨ id = s.ttt.origin.id) := by
  simp only [messageIds, List.mem_filter, List.mem_cons, List.not_mem_nil, or_false,
    decide_eq_true_eq]
  tauto

/-- The game as the constructor leaves it. -/
structure Waiting (t : Game) : Prop where
  /-- No player has the turn. -/
  turn : t.turn = (0, .idle)
  /-- No turn has passed. -/
  turns : t.turns = 0
  /-- There is no result. -/
  result : t.result = .inProgress
  /-- The board has no ids and no marks. -/
  board : t.board = fun _ => {}

/-- The board carries ids made from nine numbers drawn in a row. -/
def Numbered (nextID : ℕ) (board : Board) : Prop :=
  ∃ n, n + 9 ≤ nextID ∧ ∀ square, (board square).id = pairId square (n + 1 + drawIndex square)

/-- Squares numbered in a row have different ids. -/
theorem Numbered.distinctIds {nextID : ℕ} {board : Board} (h : Numbered nextID board) :
    DistinctIds board := by
  obtain ⟨n, -, hids⟩ := h
  intro a b hab
  rw [hids, hids] at hab
  exact (pairId_inj.mp hab).1

/-- The game has been started. -/
structure Started (nextID : ℕ) (s : Session) : Prop where
  /-- Both players have answered. -/
  confm : ∀ player, s.confirm.st.confm player = true
  /-- The turn belongs to a player. -/
  turn : s.ttt.turn.1 = s.ttt.player1 ∨ s.ttt.turn.1 = s.ttt.player2
  /-- Every square has an id of its own. -/
  ids : Numbered nextID s.ttt.board

/-- What holds of every listed session. -/
structure SessionInv (w : World) (s : Session) : Prop where
  /-- List elements are numbered upwards. -/
  node : s.node < w.nextNode
  /-- The custom ids of the confirm buttons carry their numbers. -/
  btnId : s.confirm.btnId = buttonIds s.confirm.id
  /-- Both halves of the pair have the same challenger. -/
  player1 : s.confirm.player1 = s.ttt.player1
  /-- Both halves of the pair have the same challenged player. -/
  player2 : s.confirm.player2 = s.ttt.player2
  /-- Nobody plays alone. -/
  versus : s.ttt.player1 ≠ s.ttt.player2
  /-- The challenger is a user. -/
  issued1 : s.ttt.player1 ≠ 0
  /-- The challenged player is a user. -/
  issued2 : s.ttt.player2 ≠ 0
  /-- The numbers have been drawn. -/
  drawn : ∀ n ∈ stamps s, n ≤ w.nextID
  /-- The numbers were drawn one by one. -/
  single : (stamps s).Nodup
  /-- The game is untouched or started. -/
  stage : Waiting s.ttt ∨ Started w.nextID s
  /-- Discord has returned the messages of the session. -/
  known : ∀ id ∈ messageIds s, id ∈ w.issued
  /-- The two messages are different. -/
  separate : (messageIds s).Nodup

/-- Two sessions have nothing in common that they are found by. -/
structure Apart (s t : Session) : Prop where
  /-- They are different list elements. -/
  node : s.node ≠ t.node
  /-- They share no drawn number. -/
  stamps : (stamps s).Disjoint (stamps t)
  /-- They share no message. -/
  messages : (messageIds s).Disjoint (messageIds t)

/-- Being apart goes both ways. -/
theorem Apart.symm {s t : Session} (h : Apart s t) : Apart t s :=
  ⟨h.node.symm, h.stamps.symm, h.messages.symm⟩

/-- The invariant of the program. -/
structure Inv (w : World) : Prop where
  /-- Every listed session is well formed. -/
  sessions : ∀ s ∈ w.tttListG, SessionInv w s
  /-- Listed sessions are apart. -/
  apart : w.tttListG.Pairwise Apart
  /-- Nothing was done about a list element that does not exist yet. -/
  traced : ∀ effect ∈ w.trace, ∀ node, effect.node? = some node → node < w.nextNode
  /-- No callback captures a list element that does not exist yet. -/
  captured : ∀ callback ∈ w.pending, ∀ node, callback.node? = some node → node < w.nextNode

/-- The invariant holds in the beginning. -/
theorem inv_init : Inv World.init := by
  refine ⟨?_, ?_, ?_, ?_⟩ <;> simp [World.init]

variable {w : World} {pre post : List Session} {s : Session} {click : Click}

/-- The listed sessions around one of them. -/
theorem Inv.focus (hi : Inv w) (hl : w.tttListG = pre ++ s :: post) :
    SessionInv w s ∧ ∀ t ∈ pre ++ post, SessionInv w t ∧ Apart s t := by
  have hs := hi.sessions
  have ha := hi.apart
  rw [hl] at hs ha
  obtain ⟨hself, hrest⟩ := forall_entry.mp hs
  obtain ⟨hapart, -⟩ := (pairwise_split fun _ _ => Apart.symm).mp ha
  exact ⟨hself, fun t ht => ⟨hrest t ht, hapart t ht⟩⟩

/-- No other listed session has the same node. -/
theorem Inv.keys (hi : Inv w) (hl : w.tttListG = pre ++ s :: post) :
    ∀ t ∈ pre ++ post, t.node ≠ s.node :=
  fun t ht => ((hi.focus hl).2 t ht).2.node.symm

/-- The players of the two halves of a pair are the same. -/
theorem SessionInv.isPlayer (h : SessionInv w s) {user : Snowflake} :
    IsPlayer user s ↔ user = s.ttt.player1 ∨ user = s.ttt.player2 := by
  rw [isPlayer_iff, h.player1, h.player2]

/-- Nobody who clicks has the turn in an untouched game. -/
theorem Waiting.turn_ne {t : Game} (h : Waiting t) (click : Click) : click.user ≠ t.turn.1 := by
  rw [h.turn]
  exact click.userIssued

/-- A game in which the clicking user has the turn has been started. -/
theorem SessionInv.started (h : SessionInv w s) (hu : click.user = s.ttt.turn.1) :
    Started w.nextID s :=
  h.stage.resolve_left fun hwaiting => hwaiting.turn_ne click hu

/-- The clicking user who has the turn is a player of the session. -/
theorem SessionInv.turn (h : SessionInv w s) (hu : click.user = s.ttt.turn.1) :
    IsPlayer click.user s := by
  rw [h.isPlayer, hu]
  exact (h.started hu).turn

/-- The two buttons of a session are different. -/
theorem SessionInv.buttons (h : SessionInv w s) : s.confirm.btnId.1 ≠ s.confirm.btnId.2 := by
  rw [h.btnId]
  exact confirmYesId_ne_confirmNoId _ _

/-- A click on a confirm button addresses one session. -/
theorem not_addressed {t : Session} (hs : SessionInv w s) (ht : SessionInv w t) (h : Apart s t)
    (ha : Addressed click s) : ¬ Addressed click t := by
  have hd : ∀ m ∈ stamps s, ∀ n ∈ stamps t, m ≠ n :=
    fun m hm n hn he => h.stamps hm (he ▸ hn)
  unfold Addressed at ha ⊢
  rw [hs.btnId] at ha
  rw [ht.btnId]
  simp only [buttonIds] at ha ⊢
  rcases ha with ha | ha <;> rw [ha]
  · rintro (h1 | h2)
    · exact hd _ (by simp [stamps]) _ (by simp [stamps]) (confirmYesId_inj.mp h1)
    · exact confirmYesId_ne_confirmNoId _ _ h2
  · rintro (h1 | h2)
    · exact confirmYesId_ne_confirmNoId _ _ h1.symm
    · exact hd _ (by simp [stamps]) _ (by simp [stamps]) (confirmNoId_inj.mp h2)

/-- A click on a game message is made on one session. -/
theorem game_ne {t : Session} (h : Apart s t) (hm : click.messageId = s.ttt.game.id) :
    click.messageId ≠ t.ttt.game.id := by
  intro ht
  refine h.messages (a := click.messageId) ?_ ?_
  · exact mem_messageIds.mpr ⟨click.messageIssued, Or.inl hm⟩
  · exact mem_messageIds.mpr ⟨click.messageIssued, Or.inl ht⟩

/-- A session changes its mutable parts only. -/
structure Kin (s s' : Session) : Prop where
  /-- The list element is the same. -/
  node : s'.node = s.node
  /-- The drawn numbers are the same. -/
  uid : s'.ttt.uid = s.ttt.uid
  /-- The confirm buttons are the same. -/
  ids : s'.confirm.id = s.confirm.id
  /-- Their custom ids are the same. -/
  btnId : s'.confirm.btnId = s.confirm.btnId
  /-- The players are the same, in both halves. -/
  players : s'.ttt.player1 = s.ttt.player1 ∧ s'.ttt.player2 = s.ttt.player2 ∧
    s'.confirm.player1 = s.confirm.player1 ∧ s'.confirm.player2 = s.confirm.player2

/-- A later state of a session has the same numbers. -/
theorem Kin.stamps {s s' : Session} (h : Kin s s') : stamps s' = stamps s := by
  simp only [Invariant.stamps, h.uid, h.ids]

/-- A well formed session stays so when time goes by. -/
theorem SessionInv.mono {w' : World} (h : SessionInv w s) (hid : w.nextID ≤ w'.nextID)
    (hnode : w.nextNode ≤ w'.nextNode) (hissued : w.issued ⊆ w'.issued) : SessionInv w' s := by
  refine { h with
    node := h.node.trans_le hnode
    drawn := fun n hn => (h.drawn n hn).trans hid
    stage := ?_
    known := fun id hmem => hissued (h.known id hmem) }
  rcases h.stage with hw | hs
  · exact Or.inl hw
  · obtain ⟨n, hn, hids⟩ := hs.ids
    exact Or.inr { hs with ids := ⟨n, hn.trans hid, hids⟩ }

/-- A changed session is well formed when its stage and its messages are. -/
theorem SessionInv.kin {w' : World} {s' : Session} (h : SessionInv w s) (hk : Kin s s')
    (hid : w.nextID ≤ w'.nextID) (hnode : w.nextNode ≤ w'.nextNode)
    (hstage : Waiting s'.ttt ∨ Started w'.nextID s')
    (hknown : ∀ id ∈ messageIds s', id ∈ w'.issued) (hseparate : (messageIds s').Nodup) :
    SessionInv w' s' := by
  obtain ⟨h1, h2, h3, h4⟩ := hk.players
  refine ⟨?_, ?_, ?_, ?_, ?_, ?_, ?_, ?_, ?_, hstage, hknown, hseparate⟩
  · rw [hk.node]
    exact h.node.trans_le hnode
  · rw [hk.btnId, hk.ids]
    exact h.btnId
  · rw [h1, h3, h.player1]
  · rw [h2, h4, h.player2]
  · rw [h1, h2]
    exact h.versus
  · rw [h1]
    exact h.issued1
  · rw [h2]
    exact h.issued2
  · rw [hk.stamps]
    exact fun n hn => (h.drawn n hn).trans hid
  · rw [hk.stamps]
    exact h.single

/-- A changed session is apart from the others when it has no new messages
or fresh ones. -/
theorem Apart.kin {s' t : Session} (h : Apart s t) (hk : Kin s s')
    (hm : ∀ id ∈ messageIds s', id ∈ messageIds s ∨ id ∉ messageIds t) : Apart s' t := by
  refine ⟨?_, ?_, ?_⟩
  · rw [hk.node]
    exact h.node
  · rw [hk.stamps]
    exact h.stamps
  · intro id hs' ht
    rcases hm id hs' with hs | hn
    · exact h.messages hs ht
    · exact hn ht

/-- The invariant after one session was changed. -/
theorem Inv.replace {w' : World} {s' : Session} (hi : Inv w)
    (hl : w.tttListG = pre ++ s :: post) (hl' : w'.tttListG = pre ++ s' :: post)
    (hk : Kin s s') (hid : w.nextID ≤ w'.nextID) (hnode : w.nextNode ≤ w'.nextNode)
    (hissued : w.issued ⊆ w'.issued) (hstage : Waiting s'.ttt ∨ Started w'.nextID s')
    (hseparate : (messageIds s').Nodup)
    (hmessages : ∀ id ∈ messageIds s', id ∈ messageIds s ∨ id ∉ w.issued ∧ id ∈ w'.issued)
    (htraced : ∀ effect ∈ w'.trace, ∀ node, effect.node? = some node → node < w'.nextNode)
    (hcaptured : ∀ callback ∈ w'.pending, ∀ node, callback.node? = some node →
      node < w'.nextNode) : Inv w' := by
  obtain ⟨hs, hrest⟩ := hi.focus hl
  refine ⟨?_, ?_, htraced, hcaptured⟩
  · rw [hl']
    refine forall_entry.mpr ⟨?_, fun t ht => (hrest t ht).1.mono hid hnode hissued⟩
    refine hs.kin hk hid hnode hstage ?_ hseparate
    intro id hmem
    rcases hmessages id hmem with ho | hn
    · exact hissued (hs.known id ho)
    · exact hn.2
  · have ha := hi.apart
    rw [hl] at ha
    rw [hl']
    refine pairwise_replace (fun _ _ => Apart.symm) ha ?_
    intro t ht hapart
    refine hapart.kin hk ?_
    intro id hmem
    rcases hmessages id hmem with ho | hn
    · exact Or.inl ho
    · exact Or.inr fun hin => hn.1 ((hrest t ht).1.known id hin)

end TintempPlusPlus.Invariant
