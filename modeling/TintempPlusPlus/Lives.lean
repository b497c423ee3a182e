import TintempPlusPlus.Views

/-!
# Facts along the life of every session

Facts about single sessions are proved once for each way in which a view can
move. The facts here need no condition on the run: flags record answers, a
game is untouched until it is started, and one "(1/2)" reply is asked for at
most once and stored before anybody can play.
-/

namespace TintempPlusPlus.Lives

open Discord UniqueID Ttt Handlers ScanLoop Play HandlerLaws Program OneEntry EventRuns Invariant
  Steps Reachable Views

/-- A world that the pieces of a run lead to. -/
def Reached (w : World) : Prop := ∃ ps, w = after World.part World.init ps

/-- The initial world is reached. -/
theorem reached_init : Reached World.init := ⟨[], rfl⟩

/-- Every piece of an event leads to a reached world. -/
theorem reached_part {w : World} (h : Reached w) (p : Part) : Reached (w.part p) := by
  obtain ⟨ps, rfl⟩ := h
  exact ⟨ps ++ [p], (after_concat World.part World.init ps p).symm⟩

/-- The world after a run is reached. -/
theorem reached_run (events : List Event) : Reached (run events) :=
  ⟨events.flatMap Event.parts, run_eq_parts events⟩

/-- The invariant holds in every reached world. -/
theorem Reached.inv {w : World} (h : Reached w) : Inv w := by
  obtain ⟨ps, rfl⟩ := h
  exact inv_parts ps

/-- Pieces of events lead to reached worlds. -/
theorem reached_after {w : World} (hw : Reached w) (ps : List Part) :
    Reached (after World.part w ps) := by
  induction ps using List.reverseRecOn with
  | nil => exact hw
  | append_singleton ps p ih =>
    rw [after_concat]
    exact reached_part ih p

/-- Events lead to reached worlds. -/
theorem reached_steps {w : World} (hw : Reached w) (events : List Event) :
    Reached (after World.step w events) := by
  rw [after_parts step_eq_parts]
  exact reached_after hw _

/-- A condition on the events of a run, read at their pieces. The second
handler of a click starts where the first one stopped. -/
def Within (C : World → Event → Prop) (w : World) : Part → Prop
  | .command message order => C w (.command message order)
  | .confirm click => C w (.click click)
  | .board click => ∃ before, Reached before ∧ w = before.confirmClick click ∧
    C before (.click click)
  | .callback callback response => C w (.callback callback response)

/-- A weaker condition on events is met as well. -/
theorem Within.mono {C D : World → Event → Prop} {w : World} {p : Part} (h : Within C w p)
    (hCD : ∀ w e, C w e → D w e) : Within D w p := by
  cases p with
  | command => exact hCD _ _ h
  | confirm => exact hCD _ _ h
  | board =>
    obtain ⟨before, hw, hs, hc⟩ := h
    exact ⟨before, hw, hs, hCD _ _ hc⟩
  | callback => exact hCD _ _ h

/-- A condition on the events of a run is one on their pieces. -/
theorem along_parts {C : World → Event → Prop} {w : World} {events : List Event}
    (hw : Reached w) (h : Along World.step C w events) :
    Along World.part (Within C) w (events.flatMap Event.parts) := by
  have hreached : Along World.step (fun w e => Reached w ∧ C w e) w events :=
    fun before e behind hs => ⟨reached_steps hw before, h before e behind hs⟩
  refine hreached.refine step_eq_parts ?_
  rintro w e ⟨hw, hc⟩
  cases e with
  | command message order => exact along_cons.mpr ⟨hc, along_nil⟩
  | click click => exact along_cons.mpr ⟨hc, along_cons.mpr ⟨⟨w, hw, rfl, hc⟩, along_nil⟩⟩
  | callback callback response => exact along_cons.mpr ⟨hc, along_nil⟩

/-- What pieces that meet a condition preserve in reached worlds stays
true. -/
theorem invariant_along {D : World → Part → Prop} {I : World → Prop} {w : World} {ps : List Part}
    (hw : Reached w) (h : Along World.part D w ps) (h0 : I w)
    (hstep : ∀ w p, Reached w → D w p → I w → I (w.part p)) : I (after World.part w ps) := by
  have hall := Along.invariant (I := fun w => Reached w ∧ I w) h ⟨hw, h0⟩
    fun w p ⟨hw, hi⟩ hd => ⟨reached_part hw p, hstep w p hw hd hi⟩
  exact hall.2

/-- The same without a condition. -/
theorem invariant_after {I : World → Prop} {w : World} (hw : Reached w) (ps : List Part)
    (h0 : I w) (hstep : ∀ w p, Reached w → I w → I (w.part p)) : I (after World.part w ps) :=
  invariant_along (D := fun _ _ => True) hw (fun _ _ _ _ => trivial) h0
    fun w p hw _ hi => hstep w p hw hi

/-- The same from the start of the program. -/
theorem invariant_reached {I : World → Prop} (h0 : I World.init)
    (hstep : ∀ w p, Reached w → I w → I (w.part p)) {w : World} (hw : Reached w) : I w := by
  obtain ⟨ps, rfl⟩ := hw
  exact invariant_after reached_init ps h0 hstep

/-- A fact about views that every touch preserves stays true along pieces
that meet a condition. -/
theorem view_after {D : World → Part → Prop} {I : ℕ → View → Prop} {w : World} {ps : List Part}
    (hw : Reached w) (h : Along World.part D w ps) (h0 : ∀ node, I node (view w node))
    (hstep : ∀ w node p v, Reached w → D w p → I node (view w node) →
      Touch w node p (view w node) v → I node v) (node : ℕ) :
    I node (view (after World.part w ps) node) := by
  refine invariant_along (I := fun w => ∀ n, I n (view w n)) hw h h0 ?_ node
  intro w p hw hd hv n
  rcases change_view hw.inv (part_change hw.inv p) n with hsame | ht
  · rw [hsame]
    exact hv n
  · exact hstep w n p _ hw hd (hv n) ht

/-- The same for the events of a run. -/
theorem view_run {C : World → Event → Prop} {I : ℕ → View → Prop} {events : List Event}
    (h : Along World.step C World.init events) (h0 : ∀ node, I node ⟨none, [], []⟩)
    (hstep : ∀ w node p v, Reached w → Within C w p → I node (view w node) →
      Touch w node p (view w node) v → I node v) (node : ℕ) :
    I node (view (run events) node) := by
  rw [run_eq_parts]
  exact view_after reached_init (along_parts reached_init h) h0 hstep node

/-- The same without a condition. -/
theorem view_reached {I : ℕ → View → Prop} (h0 : ∀ node, I node ⟨none, [], []⟩)
    (hstep : ∀ w node p v, Reached w → I node (view w node) →
      Touch w node p (view w node) v → I node v) {w : World} (hw : Reached w) (node : ℕ) :
    I node (view w node) := by
  obtain ⟨ps, rfl⟩ := hw
  have hany : Along World.part (fun _ _ => True) World.init ps := fun _ _ _ _ => trivial
  exact view_after reached_init hany h0 (fun w n p v hr _ => hstep w n p v hr) node

/-- A callback on the way to the stored "(1/2)" reply. -/
def awaitsReply : Callback → Bool
  | .confirmReply _ _ => true
  | .originalResponse _ _ => true
  | _ => false

/-- The pending callbacks on the way to the stored reply. -/
def awaiting (pending : List Callback) : List Callback := pending.filter awaitsReply

/-- A callback that runs is awaited no more. -/
theorem awaiting_erase (pending : List Callback) (callback : Callback) :
    awaiting (pending.erase callback) = (awaiting pending).erase callback :=
  List.erase_filter.symm

/-- The awaited callbacks are pending ones. -/
theorem mem_awaiting {pending : List Callback} {callback : Callback} :
    callback ∈ awaiting pending ↔ callback ∈ pending ∧ awaitsReply callback = true :=
  List.mem_filter

/-- What holds of a listed session along its life. -/
structure Listed (node : ℕ) (s : Session) (pending : List Callback) (trace : List Effect) :
    Prop where
  /-- The flags record the answers. -/
  flags : ∀ player, s.confirm.st.confm player = true ↔
    ∃ answer, .answered node player answer ∈ trace
  /-- A game that was not started is untouched. -/
  untouched : .initGame node ∉ trace → Waiting s.ttt
  /-- A game that was started has somebody to move. -/
  begun : .initGame node ∈ trace → s.ttt.turn.1 ≠ 0
  /-- The "(1/2)" reply is asked for once. -/
  once : (awaiting pending).length ≤ 1
  /-- It is asked for after an answer. -/
  answered : awaiting pending ≠ [] ∨ s.confirm.st.replied = true →
    ∃ player, s.confirm.st.confm player = true
  /-- A stored reply is not asked for again. -/
  done : s.confirm.st.replied = true → awaiting pending = []
  /-- The stored reply is a deployed message, and the game is shown on it. -/
  stored : s.confirm.st.replied = true →
    s.confirm.repliedMsg.id ≠ 0 ∧ s.ttt.game.id = s.confirm.repliedMsg.id
  /-- Without a stored reply there is no game message. -/
  missing : s.confirm.st.replied = false → s.ttt.game.id = 0
  /-- Before the start the game message is the stored reply. -/
  plain : .initGame node ∉ trace → s.ttt.game = s.confirm.repliedMsg
  /-- The stored reply has no buttons. -/
  blank : s.confirm.repliedMsg.components = []
  /-- Nobody plays before the reply is stored. -/
  ready : ∀ callback ∈ pending, awaitsReply callback = false → s.confirm.st.replied = true

/-- What holds along every life. -/
def Lived (node : ℕ) (v : View) : Prop :=
  match v.session with
  | some s => Listed node s v.pending v.trace
  | none => awaiting v.pending = []

/-- The facts about a listed session. -/
theorem lived_some {node : ℕ} {s : Session} {pending : List Callback} {trace : List Effect} :
    Lived node ⟨some s, pending, trace⟩ ↔ Listed node s pending trace := Iff.rfl

section Touch

variable {w : World} {node : ℕ} {click : Click} {player : Player} {s : Session}
  {pending : List Callback} {trace : List Effect}

/-- Other callbacks are not awaited. -/
theorem awaiting_concat_other {callback : Callback} (h : awaitsReply callback = false) :
    awaiting (pending ++ [callback]) = awaiting pending := by
  simp [awaiting, List.filter_append, h]

/-- A new callback of the reply is awaited. -/
theorem awaiting_concat_self {callback : Callback} (h : awaitsReply callback = true) :
    awaiting (pending ++ [callback]) = awaiting pending ++ [callback] := by
  simp [awaiting, List.filter_append, h]

/-- Another callback that runs leaves the awaited ones. -/
theorem awaiting_erase_other {callback : Callback} (h : awaitsReply callback = false) :
    awaiting (pending.erase callback) = awaiting pending := by
  rw [awaiting_erase, List.erase_of_not_mem]
  simp [mem_awaiting, h]

/-- Nothing is awaited once the only awaited callback has run. -/
theorem awaiting_erase_self {callback : Callback} (h : callback ∈ pending)
    (ha : awaitsReply callback = true) (honce : (awaiting pending).length ≤ 1) :
    awaiting (pending.erase callback) = [] := by
  have hmem := mem_awaiting.mpr ⟨h, ha⟩
  have hlen := List.length_erase_of_mem hmem
  rw [awaiting_erase, ← List.length_eq_zero_iff]
  omega

/-- The facts after an answer that starts nothing. -/
theorem Listed.answer (s' : Session) (player : Player) (answer : Answer)
    (effects : List Effect) (h : Listed node s pending trace)
    (hflag : s'.confirm = (s.flag player).confirm)
    (hgame : s'.ttt.game = s.ttt.game) (hturn : s'.ttt.turn = s.ttt.turn)
    (hw : Waiting s.ttt → Waiting s'.ttt)
    (heffects : ∀ effect ∈ effects, ∀ q a, effect ≠ .answered node q a ∧ effect ≠ .initGame node) :
    Listed node s' pending (trace ++ .answered node player answer :: effects) := by
  have hinit : .initGame node ∈ trace ++ .answered node player answer :: effects ↔
      .initGame node ∈ trace := by
    simp only [List.mem_append, List.mem_cons, reduceCtorEq, false_or, or_iff_left_iff_imp]
    exact fun hm => absurd rfl (heffects _ hm player answer).2
  have hst : s'.confirm.st.replied = s.confirm.st.replied := by
    rw [hflag]
    exact ConfirmStatus.setConfm_replied _ _
  have hmsg : s'.confirm.repliedMsg = s.confirm.repliedMsg := by
    rw [hflag]
    rfl
  have hset : ∀ q, s'.confirm.st.confm q = true ↔ q = player ∨ s.confirm.st.confm q = true := by
    intro q
    rw [hflag]
    rcases Player.eq_or_other q player with rfl | rfl
    · simp [Session.flag]
    · simp [Session.flag, Player.other_ne]
  refine ⟨?_, ?_, ?_, h.once, ?_, ?_, ?_, ?_, ?_, ?_, ?_⟩
  · intro q
    rw [hset, h.flags]
    constructor
    · rintro (rfl | ⟨a, ha⟩)
      · exact ⟨answer, by simp⟩
      · exact ⟨a, List.mem_append_left _ ha⟩
    · rintro ⟨a, ha⟩
      rcases List.mem_append.mp ha with ha | ha
      · exact Or.inr ⟨a, ha⟩
      · rcases List.mem_cons.mp ha with ha | ha
        · cases ha
          exact Or.inl rfl
        · exact absurd rfl (heffects _ ha q a).1
  · rw [hinit]
    exact fun hn => hw (h.untouched hn)
  · rw [hinit, hturn]
    exact h.begun
  · intro _
    exact ⟨player, (hset player).mpr (Or.inl rfl)⟩
  · rw [hst]
    exact h.done
  · rw [hst, hmsg, hgame]
    exact h.stored
  · rw [hst, hgame]
    exact h.missing
  · rw [hinit, hgame, hmsg]
    exact h.plain
  · rw [hmsg]
    exact h.blank
  · rw [hst]
    exact h.ready

/-- The facts after the first YES, which asks for the "(1/2)" reply. -/
theorem Listed.first (h : Listed node s pending trace)
    (hself : s.confirm.st.confm player = false) (ho : s.confirm.st.confm player.other = false) :
    Listed node (s.flag player) (pending ++ [.confirmReply click node])
      (trace ++ [.answered node player .yes,
        .reply click .channelMessageWithSource (confirmedReply click)
          (.confirmReply click node)]) := by
  have hnone : ¬ (awaiting pending ≠ [] ∨ s.confirm.st.replied = true) := by
    intro hn
    obtain ⟨q, hq⟩ := h.answered hn
    rcases Player.eq_or_other q player with rfl | rfl
    · rw [hself] at hq
      cases hq
    · rw [ho] at hq
      cases hq
  obtain ⟨hempty, hreplied⟩ := not_or.mp hnone
  have hlisted := h.answer (s.flag player) player .yes
    [.reply click .channelMessageWithSource (confirmedReply click) (.confirmReply click node)]
    rfl rfl rfl id (by simp)
  have hone : awaiting (pending ++ [.confirmReply click node]) = [.confirmReply click node] := by
    rw [awaiting_concat_self rfl, not_not.mp hempty, List.nil_append]
  have hst : (s.flag player).confirm.st.replied = s.confirm.st.replied :=
    ConfirmStatus.setConfm_replied _ _
  refine { hlisted with once := by simp [hone], answered := fun _ => ?_, done := ?_, ready := ?_ }
  · exact ⟨player, by simp [Session.flag]⟩
  · rw [hst]
    exact fun hr => absurd hr hreplied
  · intro callback hm ha
    rcases List.mem_append.mp hm with hm | hm
    · exact hlisted.ready callback hm ha
    · rw [List.mem_singleton.mp hm] at ha
      cases ha

/-- The facts after a change that is neither an answer nor a start and asks
for no more replies than before. -/
theorem Listed.extend (s' : Session) {pending' : List Callback} (effects : List Effect)
    (h : Listed node s pending trace) (hconfirm : s'.confirm = s.confirm)
    (hgame : s'.ttt.game = s.ttt.game)
    (hturn : s'.ttt.turn = s.ttt.turn ∨ s'.ttt.turn.1 ≠ 0) (hw : Waiting s.ttt → Waiting s'.ttt)
    (hawait : (awaiting pending').length ≤ (awaiting pending).length)
    (hready : ∀ callback ∈ pending', awaitsReply callback = false →
      callback ∈ pending ∨ s.confirm.st.replied = true)
    (heffects : ∀ effect ∈ effects, ∀ q a, effect ≠ .answered node q a ∧ effect ≠ .initGame node) :
    Listed node s' pending' (trace ++ effects) := by
  have hinit : .initGame node ∈ trace ++ effects ↔ .initGame node ∈ trace := by
    simp only [List.mem_append, or_iff_left_iff_imp]
    exact fun hm => absurd rfl (heffects _ hm .one .yes).2
  have hanswer : ∀ q a, .answered node q a ∈ trace ++ effects ↔ .answered node q a ∈ trace := by
    intro q a
    simp only [List.mem_append, or_iff_left_iff_imp]
    exact fun hm => absurd rfl (heffects _ hm q a).1
  have hempty : awaiting pending = [] → awaiting pending' = [] := by
    intro hn
    rw [hn] at hawait
    exact List.length_eq_zero_iff.mp (Nat.le_zero.mp hawait)
  refine ⟨?_, ?_, ?_, hawait.trans h.once, ?_, ?_, ?_, ?_, ?_, ?_, ?_⟩ <;>
    simp only [hconfirm, hgame, hinit, hanswer]
  · exact h.flags
  · exact fun hn => hw (h.untouched hn)
  · intro hm
    rcases hturn with hs | hne
    · rw [hs]
      exact h.begun hm
    · exact hne
  · exact fun hn => h.answered (hn.imp_left (mt hempty))
  · exact fun hr => hempty (h.done hr)
  · exact h.stored
  · exact h.missing
  · exact h.plain
  · exact h.blank
  · intro callback hm ha
    rcases hready callback hm ha with ho | hr
    · exact h.ready callback ho ha
    · exact hr

/-- A user who has the turn plays a started game on the stored reply. -/
theorem Listed.playing {pre post : List Session} (h : Listed node s pending trace)
    (ht : Turn w click pre s post) : .initGame node ∈ trace ∧ s.confirm.st.replied = true := by
  constructor
  · by_contra hn
    exact (h.untouched hn).turn_ne click ht.user
  · by_contra hn
    have hm := ht.message
    rw [h.missing (Bool.eq_false_iff.mpr hn)] at hm
    exact click.messageIssued hm

/-- The facts after a move or a passed turn. -/
theorem Listed.pass (s' : Session) {pre post : List Session} {effects : List Effect}
    (h : Listed node s pending trace) (hs : SessionInv w s) (ht : Turn w click pre s post)
    (hconfirm : s'.confirm = s.confirm) (hgame : s'.ttt.game = s.ttt.game)
    (hturn : s'.ttt.turn.1 = s.ttt.player1 ∨ s'.ttt.turn.1 = s.ttt.player2)
    (heffects : ∀ effect ∈ effects, ∀ q a, effect ≠ .answered node q a ∧ effect ≠ .initGame node) :
    Listed node s' (pending ++ [.boardReply click node]) (trace ++ effects) := by
  obtain ⟨hinit, hreplied⟩ := h.playing ht
  refine h.extend s' _ hconfirm hgame (Or.inr ?_) ?_ ?_ (fun _ _ _ => Or.inr hreplied) heffects
  · rcases hturn with h1 | h2
    · rw [h1]
      exact hs.issued1
    · rw [h2]
      exact hs.issued2
  · intro hw
    exact absurd (congrArg Prod.fst hw.turn) (h.begun hinit)
  · rw [awaiting_concat_other rfl]

/-- The facts hold when the session is created. -/
theorem listed_fresh {player1 player2 : Snowflake} (hf : Fresh w player1 player2 s) :
    Listed s.node s [] [] := by
  have ht := hf.ttt
  have hc := hf.confirm
  have hst : s.confirm.st = {} := by
    rw [hc]
    rfl
  have hmsg : s.confirm.repliedMsg = {} := by
    rw [hc]
    rfl
  have hgame : s.ttt.game = {} := by
    rw [ht]
  refine ⟨?_, fun _ => hf.waiting, by simp, by simp [awaiting], ?_, ?_, ?_, ?_, ?_, ?_, by simp⟩ <;>
    simp only [hst, hmsg, hgame]
  · intro player
    cases player <;> simp [ConfirmStatus.confm]
  · simp [awaiting]
  · simp
  · simp
  · simp
  · simp

/-- The facts after the game was started. -/
theorem Listed.start (nextID : ℕ) (h : Listed node s pending trace) (hs : s.ttt.player1 ≠ 0) :
    Listed node (s.start nextID).1 pending (trace ++ [.initGame node]) := by
  have hid : (s.start nextID).1.ttt.game.id = s.ttt.game.id := by
    simp only [Session.start, Game.initGame]
    rw [fetchTttTurn_eq]
    rfl
  have hanswer : ∀ q a, .answered node q a ∈ trace ++ [.initGame node] ↔
      .answered node q a ∈ trace := by
    simp
  have hinit : .initGame node ∈ trace ++ [.initGame node] := by simp
  refine ⟨?_, fun hn => absurd hinit hn, fun _ => hs, h.once, h.answered, h.done, ?_, ?_,
    fun hn => absurd hinit hn, h.blank, h.ready⟩
  · simp only [hanswer]
    exact h.flags
  · rw [hid]
    exact h.stored
  · rw [hid]
    exact h.missing

/-- The facts after the reply was stored. -/
theorem Listed.store {click : Click} {deployment : Deployment} (h : Listed node s pending trace)
    (hm : .originalResponse click node ∈ pending) :
    Listed node (s.store ((confirmedReply click).deployed deployment))
      (pending.erase (.originalResponse click node)) trace := by
  have hnone := awaiting_erase_self hm rfl h.once
  have hsome : awaiting pending ≠ [] :=
    List.ne_nil_of_mem (mem_awaiting.mpr ⟨hm, rfl⟩)
  refine ⟨h.flags, ?_, h.begun, by simp [hnone], fun _ => h.answered (Or.inl hsome),
    fun _ => hnone, fun _ => ⟨deployment.issued, rfl⟩, ?_, fun _ => rfl, rfl, fun _ _ _ => rfl⟩
  · intro hn
    have hw := h.untouched hn
    exact ⟨hw.turn, hw.turns, hw.result, hw.board⟩
  · intro hr
    simp [Session.store] at hr

/-- Every touch keeps the facts. -/
theorem lived_touch {p : Part} {v v' : View} (h : Lived node v) (ht : Touch w node p v v') :
    Lived node v' := by
  cases ht with
  | created hf => exact listed_fresh hf
  | @confirmed click player pre s post pending trace hacc hs hy ho =>
    have hl := lived_some.mp h
    exact hl.first hacc.unanswered ho
  | @started click player pre s post pending trace hacc hs hy ho =>
    have hl := lived_some.mp h
    have hlisted := hl.answer (s.flag player) player .yes [] rfl rfl rfl id (by simp)
    have hstart := hlisted.start w.nextID hs.issued1
    rw [List.append_assoc] at hstart
    exact hstart
  | @declined click player pre s post pending trace hacc hs hn =>
    have hl := lived_some.mp h
    refine lived_some.mpr ?_
    exact hl.answer _ player .nah [] rfl rfl rfl
      (fun hw => ⟨hw.turn, hw.turns, hw.result, hw.board⟩) (by simp)
  | @played click square pre s post pending trace hturn hs hsq hidle =>
    have hl := lived_some.mp h
    refine lived_some.mpr ?_
    refine hl.pass { s with ttt := Game.move s.ttt square } hs hturn rfl ?_ ?_ ?_
    · simp [Game.move, Game.setStatus]
    · dsimp only
      exact move_player hturn.started.turn square
    · simp [moveEffects]
  | @strayed click pre s post pending trace hturn hs hsq =>
    have hl := lived_some.mp h
    refine lived_some.mpr ?_
    refine hl.pass { s with ttt := s.ttt.fetchWinner.swapTurn } hs hturn rfl ?_ ?_ ?_
    · simp
    · dsimp only
      exact pass_player hturn.started.turn
    · simp [moveEffects]
  | @originSet uid posted deployment s pending trace hcb hfresh hs huid hno =>
    have hl := lived_some.mp h
    have hx := hl.extend { s with ttt := s.ttt.setOrigin (posted.deployed deployment) } [] rfl rfl
      (Or.inl rfl) (fun hw => ⟨hw.turn, hw.turns, hw.result, hw.board⟩) le_rfl
      (fun _ hm _ => Or.inl hm) (by simp)
    rwa [List.append_nil] at hx
  | @dropped node callback response session pending trace hcb hidle =>
    have hle : (awaiting (pending.erase callback)).length ≤ (awaiting pending).length := by
      rw [awaiting_erase]
      exact List.length_erase_le
    cases session with
    | none =>
      have hn : awaiting pending = [] := h
      rw [hn] at hle
      exact List.length_eq_zero_iff.mp (Nat.le_zero.mp hle)
    | some s =>
      have hl := lived_some.mp h
      have hx := hl.extend s [] rfl rfl (Or.inl rfl) id hle
        (fun _ hm _ => Or.inl (List.mem_of_mem_erase hm)) (by simp)
      rwa [List.append_nil] at hx
  | @asked node click response session pending trace hcb =>
    have hmem := mem_awaiting.mpr ⟨hcb, rfl⟩
    cases session with
    | none =>
      have hn : awaiting pending = [] := h
      rw [hn] at hmem
      cases hmem
    | some s =>
      have hl := lived_some.mp h
      refine hl.extend s _ rfl rfl (Or.inl rfl) id ?_ ?_ (by simp)
      · rw [awaiting_concat_self rfl, awaiting_erase_self hcb rfl hl.once]
        exact List.length_pos_of_mem hmem
      · intro callback hm ha
        rcases List.mem_append.mp hm with hm | hm
        · exact Or.inl (List.mem_of_mem_erase hm)
        · rw [List.mem_singleton.mp hm] at ha
          cases ha
  | @orphaned node click deployment pending trace hcb =>
    have hn : awaiting pending = [] := h
    have hmem := mem_awaiting.mpr ⟨hcb, rfl⟩
    rw [hn] at hmem
    cases hmem
  | @stored click deployment s pending trace hcb hfresh hs =>
    have hl := lived_some.mp h
    exact hl.store hcb
  | @announced click deployment s embed pending trace hcb hs hr =>
    have hl := lived_some.mp h
    refine lived_some.mpr ?_
    refine hl.extend _ _ rfl rfl (Or.inl rfl) (fun hw => ⟨hw.turn, hw.turns, hw.result, hw.board⟩) ?_
      (fun _ _ _ => Or.inr (hl.ready _ hcb rfl)) (by simp)
    rw [awaiting_concat_other rfl, awaiting_erase_other rfl]
  | @erased deployment s pending trace hcb hs =>
    have hl := lived_some.mp h
    exact (awaiting_erase_other rfl).trans (hl.done (hl.ready _ hcb rfl))

end Touch

/-- The facts hold of every list element in every reached world. -/
theorem lived_reached {w : World} (hw : Reached w) (node : ℕ) : Lived node (view w node) :=
  view_reached (I := Lived) (fun _ => rfl) (fun _ _ _ _ _ h ht => lived_touch h ht) hw node

/-- The facts hold of every listed session in every reached world. -/
theorem listed_reached {w : World} (hw : Reached w) {s : Session} (hs : s ∈ w.tttListG) :
    Listed s.node s (callbacksOf s.node w.pending) (effectsOf s.node w.trace) := by
  have h := lived_reached hw s.node
  rw [view_of_mem hw.inv hs] at h
  exact h

end TintempPlusPlus.Lives
