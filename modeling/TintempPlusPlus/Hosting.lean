import TintempPlusPlus.DisabledButtons
import TintempPlusPlus.FairPlay
import TintempPlusPlus.OriginEmbeds

/-!
# Every game can be played

The converse of fair play. After any history in which nothing undefined
happened, two users who are the players of every listed session can challenge
each other, accept, and play any play that the rules allow, by pressing
enabled buttons only, when the requests on the way end well. The challenge
must come early enough for its disabled buttons; on the way nothing undefined
happens either.
-/

namespace TintempPlusPlus.Hosting

open Discord UniqueID Ttt Handlers ScanLoop BoardLaws LineGame Play HandlerLaws Program OneEntry
  EventRuns Invariant Steps Reachable Views Lives Frozen StartedGames Display Deployment Matches
  Handles Counter OriginEmbeds DisabledButtons Progress FairPlay

/-- Nothing undefined happens. -/
structure Defined (w : World) (e : Event) : Prop where
  /-- Callbacks find their sessions, and embeds that are replaced exist. -/
  inTime : AnswersInTime w e
  /-- The ids of disabled buttons are read within their literal. -/
  bounds : BuildsInBounds w e

/-- Users press enabled buttons only, requests end well, and nothing undefined
happens. -/
structure Smooth (w : World) (e : Event) : Prop where
  /-- Only enabled buttons are pressed. -/
  pressing : Pressing w e
  /-- Only callbacks of requests that ended well run. -/
  ends : ∀ callback response, e = .callback callback response →
    w.admits callback response = true ∧ response ≠ .error
  /-- Everything is defined. -/
  defined : Defined w e

/-- A click comes when all challenge messages have been stored. -/
def ClicksAfterOrigins (w : World) : Event → Prop
  | .click _ => ∀ s ∈ w.tttListG, s.ttt.haveOrigin = true
  | _ => True

instance (w : World) : ∀ e, Decidable (ClicksAfterOrigins w e)
  | .click _ => inferInstanceAs (Decidable (∀ s ∈ w.tttListG, s.ttt.haveOrigin = true))
  | .command _ _ => inferInstanceAs (Decidable True)
  | .callback _ _ => inferInstanceAs (Decidable True)

instance (message : Incoming) : Decidable (Challenging message) :=
  inferInstanceAs (Decidable (∃ mentioned ∈ message.mentions.head?, _))

instance (w : World) : ∀ e, Decidable (ChallengesEarly w e)
  | .command message order => inferInstanceAs (Decidable (Challenging message →
      3 * challenges w + 9 * games w ≤ if order.tttFirst then 11 else 12))
  | .click _ => inferInstanceAs (Decidable True)
  | .callback _ _ => inferInstanceAs (Decidable True)

/-- The game of a listed session has been started, its board is shown, and it
has come to a position. -/
structure Underway (w : World) (s : Session) (p : Position Square) : Prop where
  /-- The session is listed. -/
  listed : s ∈ w.tttListG
  /-- The game has been started. -/
  begun : .initGame s.node ∈ w.trace
  /-- It is shown on the stored reply. -/
  deployed : Deployed s
  /-- Its board is shown now. -/
  board : OnBoard w s
  /-- The position. -/
  shows : Shows s.ttt p

/-- The session is the same element of the list with the same players. -/
structure SamePair (s t : Session) : Prop where
  /-- The same element. -/
  node : t.node = s.node
  /-- The same challenger. -/
  player1 : t.ttt.player1 = s.ttt.player1
  /-- The same challenged player. -/
  player2 : t.ttt.player2 = s.ttt.player2

variable {w : World} {s t : Session} {click : Click} {message : Message} {pre post : List Session}
  {p : Position Square} {player : Player} {deployment : Deployment}

/-! ## What is defined -/

/-- A click is addressed to one listed session. -/
theorem addressed_unique (hi : Inv w) (hs : s ∈ w.tttListG) (ht : t ∈ w.tttListG)
    (ha : Addressed click s) (hat : Addressed click t) : t = s := by
  by_contra hne
  obtain ⟨pre, post, hl⟩ := List.mem_iff_append.mp hs
  obtain ⟨hself, hothers⟩ := hi.focus hl
  have hin : t ∈ pre ++ post := by
    rw [hl] at ht
    exact (mem_entry.mp ht).resolve_left hne
  obtain ⟨hinv, hapart⟩ := hothers t hin
  exact not_addressed hself hinv hapart ha hat

/-- A click is defined when the session that it is addressed to has its
challenge message. -/
theorem defined_click (hw : Reached w)
    (h : ∀ s ∈ w.tttListG, Addressed click s → s.ttt.haveOrigin = true) :
    Defined w (.click click) := by
  refine ⟨⟨?_, trivial⟩, builds_other hw (by simp)⟩
  intro player pre s post hacc _
  exact h s hacc.mem hacc.addressed

/-- The three conditions that can be decided make a step defined. -/
theorem defined_of_early (hw : Reached w) {e : Event} (hreaches : ReachesListed w e)
    (horigins : ClicksAfterOrigins w e) (hearly : ChallengesEarly w e) : Defined w e := by
  cases e with
  | click click => exact defined_click hw fun s hs _ => horigins s hs
  | command => exact ⟨⟨trivial, hreaches⟩, (builds_iff hw _).mpr hearly⟩
  | callback => exact ⟨⟨trivial, hreaches⟩, (builds_iff hw _).mpr hearly⟩

/-- Pressing the YES button of a stored challenge is smooth. -/
theorem smooth_yes (hw : Reached w) (hs : s ∈ w.tttListG) (h : Pressed w click)
    (ha : Addressed click s) (horigin : s.ttt.haveOrigin = true) : Smooth w (.click click) := by
  refine ⟨h, fun _ _ he => (by cases he), defined_click hw fun t ht hat => ?_⟩
  rw [addressed_unique hw.inv hs ht ha hat]
  exact horigin

/-- Pressing a square is smooth. -/
theorem smooth_square (hw : Reached w) (h : Pressed w click) {square : Square} {n : ℕ}
    (hsq : click.customId = pairId square n) : Smooth w (.click click) := by
  refine ⟨h, fun _ _ he => (by cases he), defined_click hw fun s hs ha => ?_⟩
  rw [Addressed, hsq, (hw.inv.sessions s hs).btnId] at ha
  rcases ha with hyes | hno
  · exact absurd hyes (pairId_ne_confirmYesId _ _ _)
  · exact absurd hno (pairId_ne_confirmNoId _ _ _)

/-- A callback that finds its session is smooth when its request has ended
well. -/
theorem smooth_callback (hw : Reached w) {callback : Callback}
    (h : w.admits callback (.success deployment) = true)
    (hreaches : ∀ node ∈ accessed callback (.success deployment), ∃ s ∈ w.tttListG, s.node = node) :
    Smooth w (.callback callback (.success deployment)) := by
  refine ⟨trivial, ?_, ⟨⟨trivial, fun _ => hreaches⟩, builds_other hw (by simp)⟩⟩
  rintro callback response ⟨⟩
  exact ⟨h, by simp⟩

/-- The same element with the same players, from step to step. -/
theorem SamePair.trans {u : Session} (h : SamePair s t) (h' : SamePair t u) : SamePair s u :=
  ⟨h'.node.trans h.node, h'.player1.trans h.player1, h'.player2.trans h.player2⟩

/-! ## One move -/

/-- Every square of a game in progress has an enabled button. -/
theorem enabled_square {t : Game} (h : ¬ Ended t) (square : Square)
    (hm : message.components = (t.fetchTttTurn {}).components) :
    Enabled message (t.board square).id := by
  have hbutton : (t.tttButton t.board square).disabled = false := decide_eq_false h
  obtain ⟨i, k⟩ := square
  rw [Enabled, hm, fetchTttTurn_components]
  refine ⟨⟨[t.tttButton t.board (i, 0), t.tttButton t.board (i, 1), t.tttButton t.board (i, 2)]⟩,
    ?_, t.tttButton t.board (i, k), ?_, rfl, hbutton⟩
  · fin_cases i <;> simp [Game.fetchTttComponents, Component.addComponent]
  · fin_cases k <;> simp

/-- Every move that the rules allow can be made. -/
theorem underway_move (hw : Reached w) (h : Underway w s p) {square : Square}
    (hfree : p.marks square = none) (hopen : ¬ Decided lines p) (hleft : p.turns < 9) :
    ∃ click, Smooth w (.click click) ∧ ∃ t, SamePair s t ∧
      Underway (w.step (.click click)) t ((p.put square).finish lines 9) := by
  obtain ⟨click, hu, hm, hsq⟩ := exists_click hw h.listed h.begun h.deployed square
  have hidle := h.shows.free_iff.mp hfree
  obtain ⟨pre, post, hstep⟩ := step_played hw h.listed h.begun hu hm hsq hidle
  have hgoing : ¬ Ended s.ttt := by
    rw [Ended, h.shows.result, outcome_inProgress_iff.mpr ⟨hopen, hleft⟩]
    decide
  have hpressed : Pressed w click := by
    obtain ⟨message, hcurrent, hcomponents⟩ := h.board
    rw [Pressed, hm, hsq]
    exact ⟨message, hcurrent, enabled_square hgoing square hcomponents⟩
  have hmoved := h.shows.move (hw.inv.sessions s h.listed).versus hidle
  have hdeployed := deployed_move h.deployed square
  have hsame : (Game.move s.ttt square).game = s.ttt.game ∧
      (Game.move s.ttt square).player1 = s.ttt.player1 ∧
        (Game.move s.ttt square).player2 = s.ttt.player2 := by
    simp [Game.move, Game.setStatus]
  obtain ⟨hgame, h1, h2⟩ := hsame
  obtain ⟨n, -, hids⟩ := (started_of_trace hw h.listed h.begun).ids
  refine ⟨click, smooth_square hw hpressed (hsq.trans (hids square)), ?_⟩
  rw [hstep]
  generalize Game.move s.ttt square = u at hmoved hdeployed hgame h1 h2
  refine ⟨{ s with ttt := u }, ⟨rfl, h1, h2⟩,
    ⟨List.mem_append_cons_self, ?_, hdeployed, ?_, hmoved⟩⟩
  · exact List.mem_append_left _ (List.mem_append_left _ h.begun)
  · exact ⟨_, current_marked (hm.trans (congrArg Message.id hgame).symm), rfl⟩

/-! ## The handshake -/

/-- Discord can hand out another id. -/
theorem exists_fresh (w : World) : ∃ deployment : Deployment, deployment.id ∉ w.issued ∧
    ∀ shown ∈ shows w, shown.1 ≠ deployment.id := by
  obtain ⟨id, hid⟩ := Infinite.exists_notMem_finset
    (0 :: w.issued ++ (shows w).map Prod.fst).toFinset
  simp only [List.mem_toFinset, List.mem_append, List.mem_cons, List.mem_map, not_or,
    not_exists, not_and] at hid
  obtain ⟨⟨hzero, hissued⟩, hshown⟩ := hid
  exact ⟨⟨id, 0, 0, hzero⟩, hissued, hshown⟩

/-- The callback of a posted challenge stores its message. -/
theorem step_created (hi : Inv w) (hl : w.tttListG = pre ++ s :: post)
    (hcb : .created s.ttt.uid message ∈ w.pending) (hfresh : deployment.id ∉ w.issued)
    (hno : s.ttt.haveOrigin = false) :
    w.admits (.created s.ttt.uid message) (.success deployment) = true ∧
      w.step (.callback (.created s.ttt.uid message) (.success deployment)) =
        { (taken w (.created s.ttt.uid message)).receive (message.deployed deployment) with
          tttListG :=
            pre ++ { s with ttt := s.ttt.setOrigin (message.deployed deployment) } :: post } := by
  have hadmits : w.admits (.created s.ttt.uid message) (.success deployment) = true := by
    simp [World.admits, hcb, hfresh]
  have hkeys : ∀ t ∈ pre ++ post, t.ttt.uid ≠ s.ttt.uid := by
    intro t ht he
    have hapart := ((hi.focus hl).2 t ht).2
    exact hapart.stamps (a := s.ttt.uid) (by simp [stamps]) (by simp [stamps, he])
  refine ⟨hadmits, ?_⟩
  simp only [World.step, hadmits, if_true, World.runCallback, World.receive, setOrigin_eq_map, hl,
    map_entry hkeys, hno]

/-- The callback of the first YES asks for the reply. -/
theorem step_confirmReply {node : ℕ} (hcb : .confirmReply click node ∈ w.pending)
    (deployment : Deployment) :
    w.admits (.confirmReply click node) (.success deployment) = true ∧
      w.step (.callback (.confirmReply click node) (.success deployment)) =
        (taken w (.confirmReply click node)).emit
          [.getOriginalResponse click (.originalResponse click node)] := by
  have hadmits : w.admits (.confirmReply click node) (.success deployment) = true := by
    simp [World.admits, hcb, Callback.message?]
  exact ⟨hadmits, by simp only [World.step, hadmits, if_true, World.runCallback]⟩

/-- The reply is stored. -/
theorem step_originalResponse (hi : Inv w) (hl : w.tttListG = pre ++ s :: post)
    (hcb : .originalResponse click s.node ∈ w.pending) (hfresh : deployment.id ∉ w.issued) :
    w.admits (.originalResponse click s.node) (.success deployment) = true ∧
      w.step (.callback (.originalResponse click s.node) (.success deployment)) =
        { (taken w (.originalResponse click s.node)).receive
            ((confirmedReply click).deployed deployment) with
          tttListG := pre ++ s.store ((confirmedReply click).deployed deployment) :: post } := by
  have hadmits : w.admits (.originalResponse click s.node) (.success deployment) = true := by
    simp [World.admits, hcb, hfresh]
  refine ⟨hadmits, ?_⟩
  simp only [World.step, hadmits, if_true, World.runCallback, World.update, World.receive, hl,
    map_entry (hi.keys hl)]

/-- The board handler has nothing to do with an accepted answer. -/
theorem step_accepted (hw : Reached w) (hacc : Accepts w click player pre s post)
    (hm : click.messageId = s.ttt.origin.id) : w.step (.click click) = w.confirmClick click := by
  have hw' : Reached (w.confirmClick click) := reached_part hw (.confirm click)
  have hl : (w.confirmClick click).tttListG = pre ++ (accept click player w.nextID s).1 :: post := by
    rw [confirmClick_accepts hw.inv hacc]
    rfl
  have hself : (accept click player w.nextID s).1 ∈ (w.confirmClick click).tttListG :=
    hl ▸ List.mem_append_cons_self
  rw [← (accept_ids click player w.nextID s).2] at hm
  have hpass := onTttInteraction_elsewhere fun t ht => Frame.origin_ne_game hw'.inv hself ht hm
  simp only [World.step, World.boardClick, hpass, emit_nil]

/-- The newest session is listed behind some others, and its YES button is
shown on its challenge message. -/
structure Offered (w : World) (pre : List Session) (s : Session) : Prop where
  /-- The session is the newest one. -/
  list : w.tttListG = pre ++ [s]
  /-- Its challenge message has been stored. -/
  stored : s.ttt.haveOrigin = true
  /-- The message was posted. -/
  posted : s.ttt.origin.id ≠ 0
  /-- The message has the button. -/
  button : ∃ message ∈ current w s.ttt.origin.id, Enabled message s.confirm.btnId.1

/-- The user is this player of the session and has not answered, and the loop
of the confirm handler gets to the session. -/
structure MayAnswer (pre : List Session) (s : Session) (user : Snowflake) (player : Player) :
    Prop where
  /-- It is a user. -/
  issued : user ≠ 0
  /-- The user is this player of the session. -/
  seat : s.playerOf user = some player
  /-- The user is a player of all sessions in front. -/
  reach : ∀ t ∈ pre, IsPlayer user t
  /-- The player has not answered. -/
  unanswered : s.confirm.st.confm player = false

/-- A user who may answer can press the YES button. -/
theorem exists_yes {user : Snowflake} (hw : Reached w) (h : Offered w pre s)
    (hu : MayAnswer pre s user player) :
    ∃ click, Smooth w (.click click) ∧ Accepts w click player pre s [] ∧
      click.customId = s.confirm.btnId.1 ∧ click.messageId = s.ttt.origin.id := by
  have hs : s ∈ w.tttListG := h.list ▸ List.mem_append_cons_self
  let click : Click := ⟨user, s.ttt.origin.id, 0, s.confirm.btnId.1, hu.issued, h.posted⟩
  have hsmooth : Smooth w (.click click) := smooth_yes hw hs h.button (Or.inl rfl) h.stored
  exact ⟨click, hsmooth, ⟨h.list, hu.reach, hu.seat, Or.inl rfl, hu.unanswered⟩, rfl, rfl⟩

/-- A challenge can be posted. -/
theorem exists_offer (hw : Reached w) {incoming : Incoming} {mentioned : Mention}
    {rest : List Mention} (hm : incoming.mentions = mentioned :: rest)
    (hbot : mentioned.isBot = false) (hself : mentioned.id ≠ incoming.author) (order : DrawOrder) :
    ∃ e, Smooth (w.step (.command incoming order)) e ∧
      ∃ s, Offered ((w.step (.command incoming order)).step e) w.tttListG s ∧
        s.node = w.nextNode ∧ s.ttt.player1 = incoming.author ∧ s.ttt.player2 = mentioned.id ∧
          ∀ player, s.confirm.st.confm player = false := by
  obtain ⟨hf, -⟩ := newSession_fresh w order incoming.author mentioned.id
  have hstep : w.step (.command incoming order) = w.challenge incoming mentioned.id order := by
    simp only [World.step, World.command, hm, hbot, Bool.false_eq_true, if_false, if_neg hself]
  have hw' : Reached (w.step (.command incoming order)) := reached_part hw (.command incoming order)
  rw [hstep] at hw' ⊢
  have hl : (w.challenge incoming mentioned.id order).tttListG = w.tttListG ++
    [(newSession order incoming.author mentioned.id w.nextID w.nextNode).1] := rfl
  have hcb : .created
      (newSession order incoming.author mentioned.id w.nextID w.nextNode).1.ttt.uid
      (challengeMessage incoming
        (newSession order incoming.author mentioned.id w.nextID w.nextNode).1) ∈
      (w.challenge incoming mentioned.id order).pending :=
    List.mem_append_right _ (by simp [Effect.callback?])
  generalize (newSession order incoming.author mentioned.id w.nextID w.nextNode).1 = s at hf hl hcb
  generalize w.challenge incoming mentioned.id order = w' at hw' hl hcb
  obtain ⟨deployment, hfresh, hshown⟩ := exists_fresh w'
  have hno : s.ttt.haveOrigin = false := by
    rw [hf.ttt]
  obtain ⟨hadmits, hset⟩ := step_created hw'.inv hl hcb hfresh hno
  refine ⟨.callback (.created s.ttt.uid (challengeMessage incoming s)) (.success deployment),
    smooth_callback hw' hadmits (fun _ hnode => by cases hnode), { s with
    ttt := s.ttt.setOrigin ((challengeMessage incoming s).deployed deployment) },
    ⟨congrArg World.tttListG hset, rfl, deployment.issued, ?_⟩, hf.node, ?_, ?_, ?_⟩
  · refine ⟨(challengeMessage incoming s).deployed deployment, ?_, ?_⟩
    · rw [hset]
      refine (current_receive _ _ _).trans ?_
      have hnone : current w' deployment.id = none :=
        List.lookup_eq_none_iff.mpr fun shown hin =>
          bne_iff_ne.mpr (hshown shown (List.mem_reverse.mp hin)).symm
      exact (congrArg (Option.or · _) hnone).trans (if_pos rfl)
    · have hrow : s.confirm.component = {} := by
        rw [hf.confirm]
        rfl
      refine ⟨_, List.mem_singleton_self _, ⟨"YES", .success, s.confirm.btnId.1, false⟩, ?_, rfl, rfl⟩
      simp [hrow, Component.addComponent]
  · exact congrArg Game.player1 hf.ttt
  · exact congrArg Game.player2 hf.ttt
  · intro player
    rw [hf.confirm]
    cases player <;> rfl

/-- The first YES is answered with a reply. -/
theorem accept_first {nextID : ℕ} (hy : click.customId = s.confirm.btnId.1)
    (ho : s.confirm.st.confm player.other = false) :
    accept click player nextID s = (s.flag player, nextID,
      [.answered s.node player .yes,
        .reply click .channelMessageWithSource (confirmedReply click)
          (.confirmReply click s.node)]) := by
  unfold accept
  rw [if_pos hy, if_pos ho]

/-- Everything about the offer stays while the session behaves. -/
theorem Offered.keep {w' : World} (h : Offered w pre s) (hl : w'.tttListG = pre ++ [t])
    (hstored : t.ttt.haveOrigin = s.ttt.haveOrigin)
    (horigin : t.ttt.origin.id = s.ttt.origin.id) (hbtn : t.confirm.btnId = s.confirm.btnId)
    (hcurrent : current w' s.ttt.origin.id = current w s.ttt.origin.id) : Offered w' pre t := by
  refine ⟨hl, hstored.trans h.stored, horigin ▸ h.posted, ?_⟩
  rw [horigin, hbtn, hcurrent]
  exact h.button

/-- The reply to the first YES is stored when its requests end well. -/
theorem exists_stored (hw : Reached w) (h : Offered w pre s)
    (hcb : .confirmReply click s.node ∈ w.pending) :
    ∃ events, Along World.step Smooth w events ∧ ∃ deployment,
      Offered (after World.step w events) pre
        (s.store ((confirmedReply click).deployed deployment)) := by
  obtain ⟨first, -⟩ := exists_fresh w
  obtain ⟨hadmits, hasked⟩ := step_confirmReply hcb first
  have hw' := reached_part hw (.callback (.confirmReply click s.node) (.success first))
  obtain ⟨w', hstep⟩ : ∃ w', w.step (.callback (.confirmReply click s.node) (.success first)) = w' :=
    ⟨_, rfl⟩
  rw [World.part, hstep] at hw'
  rw [hstep] at hasked
  have hl : w'.tttListG = pre ++ [s] := hasked ▸ h.list
  have hcb' : .originalResponse click s.node ∈ w'.pending := by
    rw [hasked]
    exact List.mem_append_right _ (by simp [Effect.callback?])
  have hcurrent : current w' s.ttt.origin.id = current w s.ttt.origin.id := by
    rw [hasked]
    refine (current_emit_of_ne (w := taken w _) ?_).trans rfl
    simp [shows?]
  obtain ⟨second, hfresh, -⟩ := exists_fresh w'
  obtain ⟨hadmits', hstored⟩ := step_originalResponse hw'.inv hl hcb' hfresh
  have hknown := (hw'.inv.sessions s (hl ▸ List.mem_append_cons_self)).known _
    (mem_messageIds.mpr ⟨h.posted, Or.inr rfl⟩)
  have hne : s.ttt.origin.id ≠ second.id := fun he => hfresh (he ▸ hknown)
  refine ⟨[.callback (.confirmReply click s.node) (.success first),
    .callback (.originalResponse click s.node) (.success second)], ?_, second, ?_⟩
  · rw [along_cons, along_cons, hstep]
    refine ⟨smooth_callback hw hadmits fun _ hnode => (by cases hnode),
      smooth_callback hw' hadmits' ?_, along_nil⟩
    rintro node ⟨⟩
    exact ⟨s, hl ▸ List.mem_append_cons_self, rfl⟩
  · rw [after_cons, after_cons, after_nil, hstep]
    refine h.keep (congrArg World.tttListG hstored) rfl rfl rfl ?_
    rw [hstored, ← hcurrent]
    exact current_receive_of_ne _ _ hne

/-- The first YES is pressed, and its reply is stored. -/
theorem exists_firstYes {user : Snowflake} (hw : Reached w) (h : Offered w pre s)
    (hu : MayAnswer pre s user player) (ho : s.confirm.st.confm player.other = false) :
    ∃ events, Along World.step Smooth w events ∧
      ∃ t, Offered (after World.step w events) pre t ∧ SamePair s t ∧
        t.confirm.st.replied = true ∧ t.confirm.st.confm player = true ∧
          t.confirm.st.confm player.other = false ∧ ∀ user, t.playerOf user = s.playerOf user := by
  obtain ⟨click, hsmooth, hacc, hy, hm⟩ := exists_yes hw h hu
  have hstep := step_accepted hw hacc hm
  rw [confirmClick_accepts hw.inv hacc, accept_first hy ho] at hstep
  have hw' : Reached (w.step (.click click)) := reached_steps hw [.click click]
  have hoffered : Offered (w.step (.click click)) pre (s.flag player) := by
    refine h.keep (congrArg World.tttListG hstep) rfl rfl rfl ?_
    rw [hstep]
    refine (current_emit_of_ne ?_).trans rfl
    simp [shows?, warnings]
  have hcb : .confirmReply click (s.flag player).node ∈ (w.step (.click click)).pending := by
    rw [hstep]
    exact List.mem_append_right _ (by simp [Effect.callback?, Session.flag])
  obtain ⟨events, hevents, deployment, hstored⟩ := exists_stored hw' hoffered hcb
  refine ⟨.click click :: events, along_cons.mpr ⟨hsmooth, hevents⟩, _, hstored,
    ⟨rfl, rfl, rfl⟩, rfl, ?_, ?_, fun _ => rfl⟩
  · cases player <;> rfl
  · rw [← ho]
    cases player <;> rfl

/-- The second YES is pressed, and the game is under way. -/
theorem exists_secondYes {user : Snowflake} (hw : Reached w) (h : Offered w pre s)
    (hu : MayAnswer pre s user player) (ho : s.confirm.st.confm player.other = true)
    (hr : s.confirm.st.replied = true) :
    ∃ click, Smooth w (.click click) ∧ ∃ t, SamePair s t ∧
      Underway (w.step (.click click)) t {} := by
  obtain ⟨click, hsmooth, hacc, hy, hm⟩ := exists_yes hw h hu
  have hwait := accepts_waiting hacc (hw.inv.sessions s hacc.mem)
  have hyes : SecondYes w (.confirm click) s player :=
    ⟨⟨click, pre, [], rfl, hacc, hy⟩, ho, hwait⟩
  have hl := listed_reached hw hacc.mem
  have hdeployed : Deployed ((s.flag player).start w.nextID).1 :=
    deployed_start hl hr fun hi => hl.begun hi (congrArg Prod.fst hwait.turn)
  have hfair := fair_start hw hacc.mem hyes
  have hstep := step_accepted hw hacc hm
  have hpart : w.part (.confirm click) = w.step (.click click) := hstep.symm
  rw [hpart] at hfair
  rw [confirmClick_accepts hw.inv hacc, accept_second hy ho] at hstep
  refine ⟨click, hsmooth, ((s.flag player).start w.nextID).1, ⟨rfl, rfl, rfl⟩, ?_⟩
  refine ⟨?_, ?_, hdeployed, hfair.board hdeployed, shows_start hwait⟩
  · rw [hstep]
    exact List.mem_append_cons_self
  · rw [hstep]
    exact List.mem_append_right _ (by simp [Session.start, Session.flag])

/-- A challenge whose players are in front of nobody else leads to a game. -/
theorem exists_game (hw : Reached w) {incoming : Incoming} {mentioned : Mention}
    {rest : List Mention} (hm : incoming.mentions = mentioned :: rest)
    (hbot : mentioned.isBot = false) (hself : mentioned.id ≠ incoming.author) (order : DrawOrder)
    (hdefined : Defined w (.command incoming order))
    (hshared : ∀ s ∈ w.tttListG, IsPlayer incoming.author s ∧ IsPlayer mentioned.id s) :
    ∃ more, Along World.step Smooth w (.command incoming order :: more) ∧
      ∃ s, Underway (after World.step w (.command incoming order :: more)) s {} ∧
        s.node = w.nextNode ∧ s.ttt.player1 = incoming.author ∧ s.ttt.player2 = mentioned.id := by
  obtain ⟨e, hsmooth, s, hoffer, hnode, h1, h2, hnone⟩ := exists_offer hw hm hbot hself order
  have hw1 : Reached (after World.step w [.command incoming order, e]) := reached_steps hw _
  have hinv := hw1.inv.sessions s (hoffer.list ▸ List.mem_append_cons_self)
  have hseat1 : s.playerOf incoming.author = some .one := by
    rw [Session.playerOf, hinv.player1, hinv.player2, h1, h2, if_neg (Ne.symm hself), if_pos rfl]
  have hseat2 : s.playerOf mentioned.id = some .two := by
    rw [Session.playerOf, hinv.player2, h2, if_pos rfl]
  obtain ⟨events, hevents, t, hoffer', hpair, hreplied, hyes, hother, hseats⟩ :=
    exists_firstYes hw1 hoffer
      ⟨mentioned.issued, hseat2, fun t ht => (hshared t ht).2, hnone .two⟩ (hnone .one)
  have hw2 := reached_steps hw1 events
  obtain ⟨click, hlast, u, hpair', hunderway⟩ := exists_secondYes hw2 hoffer'
    ⟨incoming.authorIssued, (hseats _).trans hseat1, fun t ht => (hshared t ht).1, hother⟩ hyes
    hreplied
  have hall := hpair.trans hpair'
  refine ⟨e :: (events ++ [.click click]), ?_, u, ?_, hall.node.trans hnode,
    hall.player1.trans h1, hall.player2.trans h2⟩
  · refine along_cons.mpr ⟨⟨trivial, fun _ _ he => (by cases he), hdefined⟩, ?_⟩
    exact along_cons.mpr ⟨hsmooth, along_concat.mpr ⟨hevents, hlast⟩⟩
  · rw [after_cons, after_cons, after_concat]
    exact hunderway

/-! ## Plays -/

/-- Every play by the rules can be made, one click for each turn. -/
theorem exists_play (hw : Reached w) (h : Underway w s {}) {places : List Square}
    (hp : Played lines 9 places p) :
    ∃ clicks : List Click, clicks.length = places.length ∧
      Along World.step Smooth w (clicks.map .click) ∧
        ∃ t, SamePair s t ∧ Underway (after World.step w (clicks.map .click)) t p := by
  induction hp with
  | nil => exact ⟨[], rfl, along_nil, s, ⟨rfl, rfl, rfl⟩, h⟩
  | snoc before free undecided left ih =>
    obtain ⟨clicks, hlength, halong, t, hpair, hunderway⟩ := ih
    obtain ⟨click, hsmooth, u, hpair', hnext⟩ :=
      underway_move (reached_steps hw _) hunderway free undecided left
    refine ⟨clicks ++ [click], ?_, ?_, u, hpair.trans hpair', ?_⟩
    · rw [List.length_append, List.length_append, hlength]
      rfl
    · rw [List.map_append, List.map_singleton, along_concat]
      exact ⟨halong, hsmooth⟩
    · rw [List.map_append, List.map_singleton, after_concat]
      exact hnext

/-- After any history in which the two users of a challenge are the players
of every listed session, and in which nothing undefined happened, a challenge
in bounds can be answered and every play that the rules allow can be played,
and again nothing undefined happens. -/
theorem hosted_run {events : List Event} {incoming : Incoming} {mentioned : Mention}
    {rest : List Mention} (hm : incoming.mentions = mentioned :: rest)
    (hbot : mentioned.isBot = false) (hself : mentioned.id ≠ incoming.author) (order : DrawOrder)
    (hdefined : Along World.step Defined World.init (events ++ [.command incoming order]))
    (hshared : ∀ s ∈ (run events).tttListG, IsPlayer incoming.author s ∧ IsPlayer mentioned.id s)
    {places : List Square} {p : Position Square} (hp : Played lines 9 places p) :
    ∃ more, Along World.step Smooth (run events) (.command incoming order :: more) ∧
      Along World.step Defined World.init (events ++ .command incoming order :: more) ∧
        ∃ t ∈ (run (events ++ .command incoming order :: more)).tttListG,
          t.node = (run events).nextNode ∧ t.ttt.player1 = incoming.author ∧
            t.ttt.player2 = mentioned.id ∧ Shows t.ttt p := by
  have hw := reached_run events
  obtain ⟨hhistory, hcommand⟩ := along_concat.mp hdefined
  obtain ⟨more, halong, s, hunderway, hnode, h1, h2⟩ :=
    exists_game hw hm hbot hself order hcommand hshared
  obtain ⟨clicks, -, hclicks, t, hpair, hlast⟩ := exists_play (reached_steps hw _) hunderway hp
  have hall : Along World.step Smooth (run events)
      (.command incoming order :: (more ++ clicks.map .click)) := by
    rw [← List.cons_append, along_append]
    exact ⟨halong, hclicks⟩
  refine ⟨more ++ clicks.map .click, hall, ?_, t, ?_, hpair.node.trans hnode,
    hpair.player1.trans h1, hpair.player2.trans h2, hlast.shows⟩
  · exact along_append.mpr ⟨hhistory, hall.mono fun _ _ h => h.defined⟩
  · rw [← List.cons_append, run, after_append, after_append]
    exact hlast.listed

/-- Two users who have played before begin a second game in the middle. -/
theorem hosted_topRow : ∃ more,
    Along World.step Smooth (run topRow) (.command secondIncoming ⟨false, true⟩ :: more) ∧
      Along World.step Defined World.init (topRow ++ .command secondIncoming ⟨false, true⟩ :: more) ∧
        ∃ t ∈ (run (topRow ++ .command secondIncoming ⟨false, true⟩ :: more)).tttListG,
          t.node = (run topRow).nextNode ∧ t.ttt.player1 = 11 ∧ t.ttt.player2 = 22 ∧
            Shows t.ttt ((Position.put {} (1, 1)).finish lines 9) := by
  have hshared : ∀ s ∈ (run topRow).tttListG, IsPlayer 11 s ∧ IsPlayer 22 s := by decide
  have hplayed : Played lines 9 [(1, 1)] ((Position.put {} (1, 1)).finish lines 9) :=
    .snoc .nil rfl (by decide) (by decide)
  have hmentions : secondIncoming.mentions = [⟨22, false, by decide⟩] := rfl
  have hreaches : Along World.step ReachesListed World.init
      (topRow ++ [.command secondIncoming ⟨false, true⟩]) := by decide
  have horigins : Along World.step ClicksAfterOrigins World.init
      (topRow ++ [.command secondIncoming ⟨false, true⟩]) := by decide
  have hearly : Along World.step ChallengesEarly World.init
      (topRow ++ [.command secondIncoming ⟨false, true⟩]) := by decide
  have hdefined : Along World.step Defined World.init
      (topRow ++ [.command secondIncoming ⟨false, true⟩]) := by
    intro pre e post hs
    exact defined_of_early (reached_run pre) (hreaches pre e post hs) (horigins pre e post hs)
      (hearly pre e post hs)
  exact hosted_run hmentions rfl (by decide) ⟨false, true⟩ hdefined hshared hplayed

end TintempPlusPlus.Hosting
