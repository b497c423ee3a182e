import TintempPlusPlus.Steps

/-!
# The invariant holds in every reachable world

Each way of changing a world keeps the invariant of the session list, so it
holds after every piece of every run.
-/

namespace TintempPlusPlus.Reachable

open Discord UniqueID Ttt Handlers ScanLoop Play HandlerLaws Program OneEntry EventRuns Invariant
  Steps

/-- A session as the challenge command creates it. -/
structure Fresh (w : World) (player1 player2 : Snowflake) (s : Session) : Prop where
  /-- The next list element. -/
  node : s.node = w.nextNode
  /-- The constructed game. -/
  ttt : s.ttt = { uid := s.ttt.uid, player1 := player1, player2 := player2 }
  /-- The constructed confirm button. -/
  confirm : s.confirm = .init player1 player2 s.confirm.id.1 s.confirm.id.2
  /-- All numbers are new. -/
  new : ∀ n ∈ stamps s, w.nextID < n ∧ n ≤ w.nextID + 3
  /-- The numbers were drawn one by one. -/
  single : (stamps s).Nodup

/-- Every order of evaluation gives a fresh session. -/
theorem newSession_fresh (w : World) (order : DrawOrder) (player1 player2 : Snowflake) :
    Fresh w player1 player2 (newSession order player1 player2 w.nextID w.nextNode).1 ∧
      (newSession order player1 player2 w.nextID w.nextNode).2 = w.nextID + 3 := by
  obtain ⟨tttFirst, yesFirst⟩ := order
  cases tttFirst <;> cases yesFirst <;>
    refine ⟨⟨rfl, rfl, rfl, ?_, ?_⟩, rfl⟩ <;>
      simp [newSession, ConfirmButton.new, ConfirmButton.init, Game.new, stamps, draw] <;> omega

variable {w : World} {click : Click} {player : Player} {pre post : List Session} {s : Session}

/-- A fresh session has no messages. -/
theorem Fresh.messageIds {player1 player2 : Snowflake} (h : Fresh w player1 player2 s) :
    messageIds s = [] := by
  rw [Invariant.messageIds, h.ttt]
  rfl

/-- The game of a fresh session waits. -/
theorem Fresh.waiting {player1 player2 : Snowflake} (h : Fresh w player1 player2 s) :
    Waiting s.ttt := by
  rw [h.ttt]
  exact ⟨rfl, rfl, rfl, rfl⟩

/-- The challenge shows the two buttons of the session it is posted for. -/
theorem Fresh.customIds {player1 player2 : Snowflake} (h : Fresh w player1 player2 s)
    (incoming : Incoming) :
    (challengeMessage incoming s).customIds = [s.confirm.btnId.1, s.confirm.btnId.2] := by
  have hrow : s.confirm.component = {} := by
    rw [h.confirm]
    rfl
  simp [Message.customIds, challengeMessage, Message.addComponent, Component.addComponent, hrow]

/-- A callback speaks about the list element of its request. -/
theorem callback_node {effect : Effect} {callback : Callback}
    (h : effect.callback? = some callback) : effect.node? = callback.node? := by
  cases effect <;> simp_all [Effect.callback?, Effect.node?]

section Emit

variable {effects : List Effect} {bound : ℕ}

/-- The bound on the nodes of the trace holds of new effects. -/
theorem traced_emit (h : ∀ effect ∈ w.trace, ∀ node, effect.node? = some node → node < bound)
    (he : ∀ effect ∈ effects, ∀ node, effect.node? = some node → node < bound) :
    ∀ effect ∈ (w.emit effects).trace, ∀ node, effect.node? = some node → node < bound :=
  List.forall_mem_append.mpr ⟨h, he⟩

/-- The bound on captured nodes holds of new callbacks. -/
theorem captured_emit
    (h : ∀ callback ∈ w.pending, ∀ node, callback.node? = some node → node < bound)
    (he : ∀ effect ∈ effects, ∀ node, effect.node? = some node → node < bound) :
    ∀ callback ∈ (w.emit effects).pending, ∀ node, callback.node? = some node →
      node < bound := by
  refine List.forall_mem_append.mpr ⟨h, ?_⟩
  intro callback hcb node hnode
  obtain ⟨effect, hmem, hsome⟩ := List.mem_filterMap.mp hcb
  exact he effect hmem node ((callback_node hsome).trans hnode)

end Emit

/-- What is done about a listed session is about an existing list element. -/
theorem about_old (effects : List Effect) {node bound : ℕ} (hb : node < bound)
    (h : ∀ effect ∈ effects, effect.node? = some node ∨ effect.node? = none) :
    ∀ effect ∈ effects, ∀ n, effect.node? = some n → n < bound := by
  intro effect hmem n hn
  rcases h effect hmem with hs | hnone
  · rw [hs] at hn
    cases hn
    exact hb
  · rw [hnone] at hn
    cases hn

/-- An answer is about its own session. -/
theorem accept_effects (click : Click) (player : Player) (nextID : ℕ) (s : Session) :
    ∀ effect ∈ (accept click player nextID s).2.2,
      effect.node? = some s.node ∨ effect.node? = none := by
  unfold accept
  split_ifs <;> simp [Effect.node?, Callback.node?]

/-- A move is about its own session. -/
theorem moveEffects_node (click : Click) (node : ℕ) (t : Game) :
    ∀ effect ∈ moveEffects click node t, effect.node? = some node ∨ effect.node? = none := by
  simp [moveEffects, Effect.node?, Callback.node?]

/-- An accepted answer keeps what a session is found by. -/
theorem accept_kin (click : Click) (player : Player) (nextID : ℕ) (s : Session) :
    Kin s (accept click player nextID s).1 := by
  unfold accept
  split_ifs <;> exact ⟨rfl, rfl, rfl, rfl, rfl, rfl, rfl, rfl⟩

/-- An accepted answer leaves the ids of both messages alone. -/
theorem accept_ids (click : Click) (player : Player) (nextID : ℕ) (s : Session) :
    (accept click player nextID s).1.ttt.game.id = s.ttt.game.id ∧
      (accept click player nextID s).1.ttt.origin.id = s.ttt.origin.id := by
  unfold accept
  split_ifs
  · exact ⟨rfl, rfl⟩
  · refine ⟨?_, rfl⟩
    simp only [Session.start, Game.initGame]
    rw [fetchTttTurn_eq]
    rfl
  · exact ⟨rfl, rfl⟩

/-- An answer keeps the messages of a session. -/
theorem accept_messageIds (click : Click) (player : Player) (nextID : ℕ) (s : Session) :
    messageIds (accept click player nextID s).1 = messageIds s := by
  obtain ⟨hgame, horigin⟩ := accept_ids click player nextID s
  simp only [messageIds, hgame, horigin]

/-- An answer never takes a number back. -/
theorem accept_nextID_le (click : Click) (player : Player) (nextID : ℕ) (s : Session) :
    nextID ≤ (accept click player nextID s).2.1 := by
  unfold accept
  split_ifs <;> simp [Session.start, Game.initGame]

/-- A session with an open answer has not been started. -/
theorem accepts_waiting (h : Accepts w click player pre s post) (hs : SessionInv w s) :
    Waiting s.ttt := by
  refine hs.stage.resolve_right ?_
  intro hstarted
  have hc := hstarted.confm player
  rw [h.unanswered] at hc
  cases hc

/-- A started session is started. -/
theorem start_started (nextID : ℕ) (h : ∀ player, s.confirm.st.confm player = true) :
    Started (s.start nextID).2 (s.start nextID).1 := by
  refine ⟨h, Or.inl rfl, nextID, ?_, fun square => rfl⟩
  simp [Session.start, Game.initGame]

/-- The new board is added to what the game message shows. -/
theorem start_customIds (nextID : ℕ) : (s.start nextID).1.ttt.game.customIds =
    s.ttt.game.customIds ++ squares.map fun square => ((s.start nextID).1.ttt.board square).id := by
  simp only [Session.start, Game.initGame]
  rw [fetchTttTurn_customIds]
  rfl

/-- After the second answer both players have answered. -/
theorem flag_all (h : s.confirm.st.confm player.other = true) (q : Player) :
    (s.flag player).confirm.st.confm q = true := by
  rcases Player.eq_or_other q player with rfl | rfl
  · simp [Session.flag]
  · simpa [Session.flag] using h

/-- An accepted answer leaves the game untouched or starts it. -/
theorem accept_stage (nextID : ℕ) (hw : Waiting s.ttt) :
    Waiting (accept click player nextID s).1.ttt ∨
      Started (accept click player nextID s).2.1 (accept click player nextID s).1 := by
  unfold accept
  split_ifs with hy ho
  · exact Or.inl hw
  · exact Or.inr (start_started nextID (flag_all (Bool.eq_true_of_not_eq_false ho)))
  · exact Or.inl ⟨hw.turn, hw.turns, hw.result, hw.board⟩

/-- The end of the board handler keeps a started game started. -/
theorem started_pass {nextID : ℕ} (h : Started nextID s) :
    Started nextID { s with ttt := s.ttt.fetchWinner.swapTurn } := by
  refine ⟨h.confm, ?_, ?_⟩
  · simpa using pass_player h.turn
  · obtain ⟨n, hn, hids⟩ := h.ids
    exact ⟨n, hn, by simpa using hids⟩

/-- A started game with a new mark is a started game. -/
theorem started_setStatus {nextID : ℕ} (h : Started nextID s) (square : Square)
    (status : Status) :
    Started nextID { s with ttt := s.ttt.setStatus square status } := by
  refine ⟨h.confm, h.turn, ?_⟩
  obtain ⟨n, hn, hids⟩ := h.ids
  exact ⟨n, hn, fun other => (setStatus_id s.ttt square other status).trans (hids other)⟩

/-- A started game after a move is a started game. -/
theorem started_move {nextID : ℕ} (h : Started nextID s) (square : Square) :
    Started nextID { s with ttt := Game.move s.ttt square } := by
  unfold Game.move
  exact started_pass (s := { s with ttt := s.ttt.setStatus square s.ttt.turn.2 })
    (started_setStatus h square s.ttt.turn.2)

/-- Passing the turn keeps what identifies a session. -/
theorem pass_kin (s : Session) : Kin s { s with ttt := s.ttt.fetchWinner.swapTurn } := by
  constructor <;> simp

/-- Passing the turn keeps the messages of a session. -/
theorem pass_messageIds (s : Session) :
    messageIds { s with ttt := s.ttt.fetchWinner.swapTurn } = messageIds s := by
  simp [messageIds]

/-- A move keeps what identifies a session. -/
theorem move_kin (s : Session) (square : Square) :
    Kin s { s with ttt := Game.move s.ttt square } := by
  constructor <;> simp [Game.move, Game.setStatus]

/-- A move keeps the messages of a session. -/
theorem move_messageIds (s : Session) (square : Square) :
    messageIds { s with ttt := Game.move s.ttt square } = messageIds s := by
  simp [messageIds, Game.move, Game.setStatus]

/-- Storing the challenge message keeps what identifies a session. -/
theorem setOrigin_kin (s : Session) (message : Message) :
    Kin s { s with ttt := s.ttt.setOrigin message } :=
  ⟨rfl, rfl, rfl, rfl, rfl, rfl, rfl, rfl⟩

/-- Replacing an embed keeps what identifies a session. -/
theorem setOriginEmbed_kin (s : Session) (embed : Embed) :
    Kin s { s with ttt := s.ttt.setOriginEmbed embed } :=
  ⟨rfl, rfl, rfl, rfl, rfl, rfl, rfl, rfl⟩

/-- Storing the reply keeps what identifies a session. -/
theorem store_kin (s : Session) (message : Message) : Kin s (s.store message) :=
  ⟨rfl, rfl, rfl, rfl, rfl, rfl, rfl, rfl⟩

/-- Storing a new message replaces one of the ids of a session by its id. -/
theorem store_messageIds (message : Message) :
    ∀ id ∈ messageIds (s.store message), id ∈ messageIds s ∨ id = message.id := by
  intro id h
  rw [mem_messageIds] at h ⊢
  rcases h with ⟨hne, hg | ho⟩
  · exact Or.inr hg
  · exact Or.inl ⟨hne, Or.inr ho⟩

/-- Storing the challenge message adds no other message. -/
theorem setOrigin_messageIds (message : Message) :
    ∀ id ∈ messageIds { s with ttt := s.ttt.setOrigin message },
      id ∈ messageIds s ∨ id = message.id := by
  intro id h
  rw [mem_messageIds] at h ⊢
  rcases h with ⟨hne, hg | ho⟩
  · exact Or.inl ⟨hne, Or.inl hg⟩
  · exact Or.inr ho

/-- Two messages with different ids are separate. -/
theorem messageIds_nodup (h : s.ttt.game.id ≠ 0 → s.ttt.game.id ≠ s.ttt.origin.id) :
    (messageIds s).Nodup := by
  unfold messageIds
  by_cases hg : s.ttt.game.id = 0 <;> by_cases ho : s.ttt.origin.id = 0 <;> simp_all

/-- A message that was not known before is no message of the session. -/
theorem fresh_ne (h : SessionInv w s) {id : Snowflake} (hfresh : id ∉ w.issued)
    (hid : id ≠ 0) : id ≠ s.ttt.game.id ∧ id ≠ s.ttt.origin.id := by
  constructor <;> intro he
  · exact hfresh (h.known id (mem_messageIds.mpr ⟨hid, Or.inl he⟩))
  · exact hfresh (h.known id (mem_messageIds.mpr ⟨hid, Or.inr he⟩))

/-- The bound on captured nodes holds of fewer callbacks. -/
theorem captured_taken (hi : Inv w) (callback : Callback) :
    ∀ c ∈ (taken w callback).pending, ∀ node, c.node? = some node → node < w.nextNode :=
  fun c hc => hi.captured c (List.mem_of_mem_erase hc)

/-- The invariant after requests about one listed session. -/
theorem inv_emit (hi : Inv w) {effects : List Effect} (bound : ∀ effect ∈ effects, ∀ node,
    effect.node? = some node → node < w.nextNode) : Inv (w.emit effects) := by
  refine ⟨?_, hi.apart, traced_emit hi.traced bound, captured_emit hi.captured bound⟩
  exact fun s hs => (hi.sessions s hs).mono le_rfl le_rfl (List.Subset.refl _)

/-- The invariant after a callback was taken off. -/
theorem inv_taken (hi : Inv w) (callback : Callback) : Inv (taken w callback) :=
  ⟨fun s hs => (hi.sessions s hs).mono le_rfl le_rfl (List.Subset.refl _), hi.apart, hi.traced,
    captured_taken hi callback⟩

/-- The invariant after a message was returned. -/
theorem inv_receive (hi : Inv w) (message : Message) : Inv (w.receive message) :=
  ⟨fun s hs => (hi.sessions s hs).mono le_rfl le_rfl (List.subset_cons_self _ _), hi.apart,
    hi.traced, hi.captured⟩

/-- A challenge adds a well formed session that is apart from the others. -/
theorem challenge_inv (hi : Inv w) (message : Incoming) (mentioned : Mention)
    (order : DrawOrder) (h : mentioned.id ≠ message.author) :
    Inv (w.challenge message mentioned.id order) := by
  obtain ⟨hf, hnext⟩ := newSession_fresh w order message.author mentioned.id
  unfold World.challenge
  generalize newSession order message.author mentioned.id w.nextID w.nextNode = pushed at hf hnext
  obtain ⟨s, nextID⟩ := pushed
  dsimp only at hf hnext ⊢
  have hbound : ∀ effect ∈ [Effect.messageCreate (challengeMessage message s)
      (.created s.ttt.uid (challengeMessage message s))], ∀ node,
      effect.node? = some node → node < w.nextNode + 1 := by
    simp [Effect.node?, Callback.node?]
  refine ⟨?_, ?_, traced_emit ?_ hbound, captured_emit ?_ hbound⟩
  · refine List.forall_mem_append.mpr ⟨?_, List.forall_mem_singleton.mpr ?_⟩
    · intro t ht
      refine (hi.sessions t ht).mono ?_ (Nat.le_succ _) (List.Subset.refl _)
      exact hnext ▸ Nat.le_add_right _ _
    · have ht := hf.ttt
      have hc := hf.confirm
      refine ⟨?_, ?_, ?_, ?_, ?_, ?_, ?_, ?_, hf.single, Or.inl hf.waiting, ?_, ?_⟩
      · exact hf.node ▸ Nat.lt_succ_self _
      · rw [hc]
        rfl
      · rw [hc, ht]
        rfl
      · rw [hc, ht]
        rfl
      · rw [ht]
        exact h.symm
      · rw [ht]
        exact message.authorIssued
      · rw [ht]
        exact mentioned.issued
      · intro n hn
        exact hnext ▸ (hf.new n hn).2
      · simp [hf.messageIds]
      · simp [hf.messageIds]
  · refine List.pairwise_append.mpr ⟨hi.apart, List.pairwise_singleton _ _, ?_⟩
    intro t ht s' hs'
    rw [List.mem_singleton.mp hs']
    refine ⟨?_, ?_, ?_⟩
    · exact hf.node ▸ (hi.sessions t ht).node.ne
    · intro n hn hs
      exact absurd ((hi.sessions t ht).drawn n hn) (not_le.mpr (hf.new n hs).1)
    · simp [hf.messageIds]
  · exact fun effect he node hn => (hi.traced effect he node hn).trans (Nat.lt_succ_self _)
  · exact fun c hc node hn => (hi.captured c hc node hn).trans (Nat.lt_succ_self _)

/-- Every change keeps the invariant. -/
theorem change_inv {p : Part} {w' : World} (hi : Inv w) (h : Change w p w') : Inv w' := by
  cases h with
  | quiet h =>
    refine inv_emit hi ?_
    intro effect he node hn
    rw [(h effect he).node] at hn
    cases hn
  | challenged h => exact challenge_inv hi _ _ _ h
  | @accepted click player pre s post h =>
    obtain ⟨hs, -⟩ := hi.focus h.list
    have hbound := about_old _ hs.node (accept_effects click player w.nextID s)
    have hwarn : ∀ effect ∈ warnings click post, ∀ node,
        effect.node? = some node → node < w.nextNode := by
      intro effect he node hn
      rw [(warning_of_mem_warnings effect he).node] at hn
      cases hn
    have hall := List.forall_mem_append.mpr ⟨hbound, hwarn⟩
    refine hi.replace h.list rfl (accept_kin _ _ _ _) (accept_nextID_le _ _ _ _) le_rfl
      (List.Subset.refl _) (accept_stage _ (accepts_waiting h hs)) ?_ ?_ (traced_emit hi.traced hall)
      (captured_emit hi.captured hall)
    · rw [accept_messageIds]
      exact hs.separate
    · rw [accept_messageIds]
      exact fun id hid => Or.inl hid
  | @played click square pre s post h hsq hidle =>
    obtain ⟨hs, -⟩ := hi.focus h.list
    have hbound := about_old (.placed s.node click square s.ttt.turn.2 ::
      moveEffects click s.node (Game.move s.ttt square)) hs.node
      (List.forall_mem_cons.mpr ⟨Or.inl rfl, moveEffects_node _ _ _⟩)
    refine hi.replace h.list rfl (move_kin _ _) le_rfl le_rfl (List.Subset.refl _)
      (Or.inr (started_move h.started square)) ?_ ?_ (traced_emit hi.traced hbound)
      (captured_emit hi.captured hbound)
    · rw [move_messageIds]
      exact hs.separate
    · rw [move_messageIds]
      exact fun id hid => Or.inl hid
  | @strayed click pre s post h hsq =>
    obtain ⟨hs, -⟩ := hi.focus h.list
    have hbound := about_old _ hs.node (moveEffects_node click s.node s.ttt.fetchWinner.swapTurn)
    refine hi.replace h.list rfl (pass_kin _) le_rfl le_rfl (List.Subset.refl _)
      (Or.inr (started_pass h.started)) ?_ ?_ (traced_emit hi.traced hbound)
      (captured_emit hi.captured hbound)
    · rw [pass_messageIds]
      exact hs.separate
    · rw [pass_messageIds]
      exact fun id hid => Or.inl hid
  | dropped h hidle => exact inv_taken hi _
  | received h hfresh hmessage horphan => exact inv_receive (inv_taken hi _) _
  | @originSet uid posted deployment pre s post h hfresh hl huid hno =>
    obtain ⟨hs, -⟩ := hi.focus hl
    have hne := fresh_ne hs hfresh deployment.issued
    refine hi.replace hl rfl (setOrigin_kin s _) le_rfl le_rfl
      (List.subset_cons_self _ _) ?_ ?_ ?_ hi.traced (captured_taken hi _)
    · exact hs.stage.imp (fun hw => ⟨hw.turn, hw.turns, hw.result, hw.board⟩)
        (fun hst => ⟨hst.confm, hst.turn, hst.ids⟩)
    · exact messageIds_nodup fun _ => hne.1.symm
    · intro id hid
      refine (setOrigin_messageIds _ id hid).imp_right ?_
      rintro rfl
      exact ⟨hfresh, List.mem_cons_self⟩
  | @asked click node response h =>
    refine inv_emit (inv_taken hi _) ?_
    intro effect he n hn
    rw [List.mem_singleton.mp he] at hn
    cases hn
    exact hi.captured _ h node rfl
  | @stored click deployment pre s post h hfresh hl =>
    obtain ⟨hs, -⟩ := hi.focus hl
    have hne := fresh_ne hs hfresh deployment.issued
    refine hi.replace hl rfl (store_kin s _) le_rfl le_rfl
      (List.subset_cons_self _ _) ?_ ?_ ?_ hi.traced (captured_taken hi _)
    · exact hs.stage.imp (fun hw => ⟨hw.turn, hw.turns, hw.result, hw.board⟩)
        (fun hst => ⟨hst.confm, hst.turn, hst.ids⟩)
    · exact messageIds_nodup fun _ => hne.2
    · intro id hid
      refine (store_messageIds _ id hid).imp_right ?_
      rintro rfl
      exact ⟨hfresh, List.mem_cons_self⟩
  | @announced click deployment pre s post embed h hl hr =>
    obtain ⟨hs, -⟩ := hi.focus hl
    have hbound := about_old [.messageCreate (resultMessage click s embed)
      (.resultMessage s.node), .messageEdit (s.ttt.setOriginEmbed (endedEmbed s.ttt)).origin .log]
      hs.node (by simp [Effect.node?, Callback.node?])
    refine hi.replace hl rfl (setOriginEmbed_kin s _) le_rfl le_rfl
      (List.Subset.refl _) ?_ hs.separate (fun id hid => Or.inl hid) (traced_emit hi.traced hbound)
      (captured_emit (captured_taken hi _) hbound)
    exact hs.stage.imp (fun hw => ⟨hw.turn, hw.turns, hw.result, hw.board⟩)
      (fun hst => ⟨hst.confm, hst.turn, hst.ids⟩)
  | @erased deployment pre s post h hl =>
    have hall := hi.sessions
    have hapart := hi.apart
    rw [hl] at hall hapart
    refine ⟨?_, ((pairwise_split fun _ _ => Apart.symm).mp hapart).2, hi.traced,
      captured_taken hi _⟩
    exact fun t ht => ((forall_entry.mp hall).2 t ht).mono le_rfl le_rfl (List.Subset.refl _)

/-- The board handler leaves the confirm buttons of every session alone. -/
theorem boardClick_confirm (hi : Inv w) (click : Click) (hs : s ∈ w.tttListG) :
    ∃ s' ∈ (w.boardClick click).tttListG, s'.node = s.node ∧ s'.confirm = s.confirm := by
  have h := board_change hi click
  generalize w.boardClick click = w' at h
  have hreplace : ∀ pre t t' post, w.tttListG = pre ++ t :: post → t'.node = t.node →
      t'.confirm = t.confirm → ∃ s' ∈ pre ++ t' :: post, s'.node = s.node ∧
        s'.confirm = s.confirm := by
    intro pre t t' post hl hn hc
    rw [hl] at hs
    rcases mem_entry.mp hs with rfl | hs
    · exact ⟨t', by simp, hn, hc⟩
    · exact ⟨s, mem_entry.mpr (Or.inr hs), rfl, rfl⟩
  cases h with
  | quiet => exact ⟨s, hs, rfl, rfl⟩
  | played h hsq hidle => exact hreplace _ _ _ _ h.list rfl rfl
  | strayed h hsq => exact hreplace _ _ _ _ h.list rfl rfl

/-- The trace only grows. -/
theorem change_trace {p : Part} {w' : World} (h : Change w p w') :
    ∃ more, w'.trace = w.trace ++ more := by
  cases h with
  | dropped => exact ⟨[], (List.append_nil _).symm⟩
  | received => exact ⟨[], (List.append_nil _).symm⟩
  | originSet => exact ⟨[], (List.append_nil _).symm⟩
  | stored => exact ⟨[], (List.append_nil _).symm⟩
  | erased => exact ⟨[], (List.append_nil _).symm⟩
  | _ => exact ⟨_, rfl⟩

/-- Discord's ids are never taken back. -/
theorem change_issued {p : Part} {w' : World} (h : Change w p w') : w.issued ⊆ w'.issued := by
  cases h with
  | received => exact List.subset_cons_self _ _
  | originSet => exact List.subset_cons_self _ _
  | stored => exact List.subset_cons_self _ _
  | _ => exact List.Subset.refl _

/-- The invariant holds after every piece of every run. -/
theorem inv_parts (ps : List Part) : Inv (after World.part World.init ps) :=
  invariant inv_init fun _ p hi => change_inv hi (part_change hi p)

/-- The invariant holds after every run. -/
theorem inv_run (events : List Event) : Inv (run events) := by
  rw [run_eq_parts]
  exact inv_parts _

/-- What was done stays done. -/
theorem trace_after (hi : Inv w) (ps : List Part) :
    ∃ more, (after World.part w ps).trace = w.trace ++ more := by
  have hstep : ∀ u p, (Inv u ∧ ∃ more, u.trace = w.trace ++ more) →
      Inv (u.part p) ∧ ∃ more, (u.part p).trace = w.trace ++ more := by
    rintro u p ⟨hu, more, hmore⟩
    have hchange := part_change hu p
    obtain ⟨last, hlast⟩ := change_trace hchange
    exact ⟨change_inv hu hchange, more ++ last, by rw [hlast, hmore, List.append_assoc]⟩
  have hstart : Inv w ∧ ∃ more, w.trace = w.trace ++ more := ⟨hi, [], (List.append_nil _).symm⟩
  exact (invariant (I := fun u => Inv u ∧ ∃ more, u.trace = w.trace ++ more) hstart hstep).2

/-- The trace only grows. -/
theorem trace_run (before behind : List Event) :
    ∃ more, (run (before ++ behind)).trace = (run before).trace ++ more := by
  rw [run_append]
  exact trace_after (inv_run before) _

/-- A click goes through both handlers. -/
theorem run_click (events : List Event) (click : Click) :
    run (events ++ [.click click]) = ((run events).confirmClick click).boardClick click :=
  run_concat events (.click click)

end TintempPlusPlus.Reachable
