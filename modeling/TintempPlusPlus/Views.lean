import TintempPlusPlus.Reachable

/-!
# The life of one list element

What the program holds about one list element is its session while listed,
the pending callbacks that capture it and the effects on it. A piece of an
event leaves this view alone or moves it in one of a few ways, so a fact
about one session is an invariant of its view.
-/

namespace TintempPlusPlus.Views

open Discord UniqueID Ttt Handlers ScanLoop Play HandlerLaws Program OneEntry EventRuns Invariant
  Steps Reachable

/-- What the program holds about one list element. -/
structure View where
  /-- The session, while it is listed. -/
  session : Option Session
  /-- Callbacks that capture the list element. -/
  pending : List Callback
  /-- Effects on the list element, oldest first. -/
  trace : List Effect

/-- The callbacks of a list that capture a list element. -/
def callbacksOf (node : ℕ) (callbacks : List Callback) : List Callback :=
  callbacks.filter fun callback => decide (callback.node? = some node)

/-- The effects of a list that are about a list element. -/
def effectsOf (node : ℕ) (effects : List Effect) : List Effect :=
  effects.filter fun effect => decide (effect.node? = some node)

/-- The view of a list element in a world. -/
def view (w : World) (node : ℕ) : View where
  session := w.find node
  pending := callbacksOf node w.pending
  trace := effectsOf node w.trace

variable {w : World} {node : ℕ}

/-- The callbacks of a list element are those that capture it. -/
theorem mem_callbacksOf {callback : Callback} {callbacks : List Callback} :
    callback ∈ callbacksOf node callbacks ↔ callback ∈ callbacks ∧ callback.node? = some node := by
  simp [callbacksOf]

/-- The effects of a list element are those about it. -/
theorem mem_effectsOf {effect : Effect} {effects : List Effect} :
    effect ∈ effectsOf node effects ↔ effect ∈ effects ∧ effect.node? = some node := by
  simp [effectsOf]

/-- The callbacks of two parts follow one another. -/
theorem callbacksOf_append (a b : List Callback) :
    callbacksOf node (a ++ b) = callbacksOf node a ++ callbacksOf node b :=
  List.filter_append _ _

/-- The effects of two parts follow one another. -/
theorem effectsOf_append (a b : List Effect) :
    effectsOf node (a ++ b) = effectsOf node a ++ effectsOf node b :=
  List.filter_append _ _

/-- No callbacks are those of nobody. -/
@[simp] theorem callbacksOf_nil : callbacksOf node [] = [] := rfl

/-- No effects are those of nobody. -/
@[simp] theorem effectsOf_nil : effectsOf node [] = [] := rfl

/-- The first callback counts if it captures the element. -/
theorem callbacksOf_cons (callback : Callback) (callbacks : List Callback) :
    callbacksOf node (callback :: callbacks) =
      if callback.node? = some node then callback :: callbacksOf node callbacks
      else callbacksOf node callbacks := by
  simp [callbacksOf, List.filter_cons]

/-- The first effect counts if it is about the element. -/
theorem effectsOf_cons (effect : Effect) (effects : List Effect) :
    effectsOf node (effect :: effects) =
      if effect.node? = some node then effect :: effectsOf node effects
      else effectsOf node effects := by
  simp [effectsOf, List.filter_cons]

/-- A callback that runs is taken off the callbacks of its element. -/
theorem callbacksOf_erase (callbacks : List Callback) (callback : Callback) :
    callbacksOf node (callbacks.erase callback) = (callbacksOf node callbacks).erase callback :=
  (List.erase_filter).symm

/-- Effects about another list element do not show. -/
theorem effectsOf_other {effects : List Effect} {other : ℕ} (hne : node ≠ other)
    (h : ∀ effect ∈ effects, effect.node? = some other ∨ effect.node? = none) :
    effectsOf node effects = [] := by
  refine List.filter_eq_nil_iff.mpr ?_
  intro effect he
  rcases h effect he with hs | hn
  · simpa [hs] using hne.symm
  · simp [hn]

/-- Effects about another element request nothing for this one. -/
theorem callbacksOf_other {effects : List Effect} {other : ℕ} (hne : node ≠ other)
    (h : ∀ effect ∈ effects, effect.node? = some other ∨ effect.node? = none) :
    callbacksOf node (effects.filterMap Effect.callback?) = [] := by
  refine List.filter_eq_nil_iff.mpr ?_
  intro callback hc
  obtain ⟨effect, he, hs⟩ := List.mem_filterMap.mp hc
  rw [← callback_node hs]
  rcases h effect he with hs | hn
  · simpa [hs] using hne.symm
  · simp [hn]

/-- Effects about one list element are counted at its view. -/
theorem countP_view (p : Effect → Bool) (hp : ∀ effect, p effect = true → effect.node? = some node)
    (trace : List Effect) : (effectsOf node trace).countP p = trace.countP p := by
  rw [effectsOf, List.countP_filter]
  refine List.countP_congr fun effect _ => ?_
  simp only [Bool.and_eq_true, decide_eq_true_eq, and_iff_left_iff_imp]
  exact hp effect

/-- Warnings do not show. -/
theorem effectsOf_warnings {effects : List Effect} (h : ∀ effect ∈ effects, Warning effect) :
    effectsOf node effects = [] :=
  effectsOf_other (Nat.succ_ne_self node).symm fun effect he => Or.inr (h effect he).node

/-- Warnings request nothing for any element. -/
theorem callbacksOf_warnings {effects : List Effect} (h : ∀ effect ∈ effects, Warning effect) :
    callbacksOf node (effects.filterMap Effect.callback?) = [] :=
  callbacksOf_other (Nat.succ_ne_self node).symm fun effect he => Or.inr (h effect he).node

/-- A callback that captures another list element is not among those that
capture this one. -/
theorem erase_other {callbacks : List Callback} {callback : Callback}
    (h : callback.node? ≠ some node) :
    (callbacksOf node callbacks).erase callback = callbacksOf node callbacks :=
  List.erase_of_not_mem fun hm => h (mem_callbacksOf.mp hm).2

/-- What an iterator finds is listed. -/
theorem find_mem {s : Session} (h : w.find node = some s) :
    s ∈ w.tttListG ∧ s.node = node := by
  refine ⟨List.mem_of_find?_eq_some h, ?_⟩
  simpa using List.find?_some h

/-- The search finds each listed session. -/
theorem find_of_mem (hi : Inv w) {s : Session} (h : s ∈ w.tttListG) :
    w.find s.node = some s := by
  obtain ⟨pre, post, hl⟩ := List.mem_iff_append.mp h
  rw [World.find, hl]
  exact find_entry (hi.keys hl)

/-- A list element is listed once. -/
theorem node_inj (hi : Inv w) {s t : Session} (hs : s ∈ w.tttListG) (ht : t ∈ w.tttListG)
    (hn : s.node = t.node) : s = t := by
  have hfind := find_of_mem hi hs
  rw [hn, find_of_mem hi ht] at hfind
  exact (Option.some.inj hfind).symm

/-- What a piece of an event does to the view of one list element. -/
inductive Touch (w : World) : ℕ → Part → View → View → Prop
  /-- The session is created. -/
  | created {message : Incoming} {order : DrawOrder} {player1 player2 : Snowflake} {s : Session}
    (hf : Fresh w player1 player2 s) :
    Touch w s.node (.command message order) ⟨none, [], []⟩ ⟨some s, [], []⟩
  /-- The first YES is accepted. -/
  | confirmed {click : Click} {player : Player} {pre : List Session} {s : Session}
    {post : List Session} {pending : List Callback} {trace : List Effect}
    (h : Accepts w click player pre s post) (hs : SessionInv w s)
    (hy : click.customId = s.confirm.btnId.1)
    (ho : s.confirm.st.confm player.other = false) :
    Touch w s.node (.confirm click) ⟨some s, pending, trace⟩
      ⟨some (s.flag player), pending ++ [.confirmReply click s.node],
        trace ++ [.answered s.node player .yes,
          .reply click .channelMessageWithSource (confirmedReply click)
            (.confirmReply click s.node)]⟩
  /-- The second YES is accepted and starts the game. -/
  | started {click : Click} {player : Player} {pre : List Session} {s : Session}
    {post : List Session} {pending : List Callback} {trace : List Effect}
    (h : Accepts w click player pre s post) (hs : SessionInv w s)
    (hy : click.customId = s.confirm.btnId.1)
    (ho : s.confirm.st.confm player.other = true) :
    Touch w s.node (.confirm click) ⟨some s, pending, trace⟩
      ⟨some ((s.flag player).start w.nextID).1, pending,
        trace ++ [.answered s.node player .yes, .initGame s.node]⟩
  /-- A Nah is accepted. -/
  | declined {click : Click} {player : Player} {pre : List Session} {s : Session}
    {post : List Session} {pending : List Callback} {trace : List Effect}
    (h : Accepts w click player pre s post) (hs : SessionInv w s)
    (hn : click.customId = s.confirm.btnId.2) :
    Touch w s.node (.confirm click) ⟨some s, pending, trace⟩
      ⟨some { s.flag player with
        ttt := (s.flag player).ttt.setOriginEmbed (cancelledEmbed click) }, pending,
        trace ++ [.answered s.node player .nah]⟩
  /-- A square is marked. -/
  | played {click : Click} {square : Square} {pre : List Session} {s : Session}
    {post : List Session} {pending : List Callback} {trace : List Effect}
    (h : Turn w click pre s post) (hs : SessionInv w s)
    (hsq : click.customId = (s.ttt.board square).id)
    (hidle : (s.ttt.board square).status = .idle) :
    Touch w s.node (.board click) ⟨some s, pending, trace⟩
      ⟨some { s with ttt := Game.move s.ttt square }, pending ++ [.boardReply click s.node],
        trace ++ .placed s.node click square s.ttt.turn.2 ::
          moveEffects click s.node (Game.move s.ttt square)⟩
  /-- The turn passes without a mark. -/
  | strayed {click : Click} {pre : List Session} {s : Session}
    {post : List Session} {pending : List Callback} {trace : List Effect}
    (h : Turn w click pre s post) (hs : SessionInv w s)
    (hsq : ∀ square, click.customId ≠ (s.ttt.board square).id) :
    Touch w s.node (.board click) ⟨some s, pending, trace⟩
      ⟨some { s with ttt := s.ttt.fetchWinner.swapTurn }, pending ++ [.boardReply click s.node],
        trace ++ moveEffects click s.node s.ttt.fetchWinner.swapTurn⟩
  /-- The challenge message is stored. -/
  | originSet {uid : ℕ} {posted : Message} {deployment : Deployment} {s : Session}
    {pending : List Callback} {trace : List Effect} (h : .created uid posted ∈ w.pending)
    (hfresh : deployment.id ∉ w.issued) (hs : SessionInv w s)
    (huid : uid = s.ttt.uid) (hno : s.ttt.haveOrigin = false) :
    Touch w s.node (.callback (.created uid posted) (.success deployment))
      ⟨some s, pending, trace⟩
      ⟨some { s with ttt := s.ttt.setOrigin (posted.deployed deployment) }, pending, trace⟩
  /-- A callback does nothing. -/
  | dropped {node : ℕ} {callback : Callback} {response : Response} {session : Option Session}
    {pending : List Callback} {trace : List Effect} (h : callback ∈ pending)
    (hidle : Idle w response callback) :
    Touch w node (.callback callback response) ⟨session, pending, trace⟩
      ⟨session, pending.erase callback, trace⟩
  /-- The "(1/2)" reply is asked for. -/
  | asked {node : ℕ} {click : Click} {response : Response} {session : Option Session}
    {pending : List Callback} {trace : List Effect} (h : .confirmReply click node ∈ pending) :
    Touch w node (.callback (.confirmReply click node) response) ⟨session, pending, trace⟩
      ⟨session, pending.erase (.confirmReply click node) ++ [.originalResponse click node],
        trace ++ [.getOriginalResponse click (.originalResponse click node)]⟩
  /-- The "(1/2)" reply arrives after the session was erased. -/
  | orphaned {node : ℕ} {click : Click} {deployment : Deployment}
    {pending : List Callback} {trace : List Effect} (h : .originalResponse click node ∈ pending) :
    Touch w node (.callback (.originalResponse click node) (.success deployment))
      ⟨none, pending, trace⟩ ⟨none, pending.erase (.originalResponse click node), trace⟩
  /-- The "(1/2)" reply is stored. -/
  | stored {click : Click} {deployment : Deployment} {s : Session}
    {pending : List Callback} {trace : List Effect} (h : .originalResponse click s.node ∈ pending)
    (hfresh : deployment.id ∉ w.issued) (hs : SessionInv w s) :
    Touch w s.node (.callback (.originalResponse click s.node) (.success deployment))
      ⟨some s, pending, trace⟩
      ⟨some (s.store ((confirmedReply click).deployed deployment)),
        pending.erase (.originalResponse click s.node), trace⟩
  /-- The result is announced. -/
  | announced {click : Click} {deployment : Deployment} {s : Session} {embed : Embed}
    {pending : List Callback} {trace : List Effect} (h : .boardReply click s.node ∈ pending)
    (hs : SessionInv w s) (hr : resultEmbed click s.ttt.result = some embed) :
    Touch w s.node (.callback (.boardReply click s.node) (.success deployment))
      ⟨some s, pending, trace⟩
      ⟨some { s with ttt := s.ttt.setOriginEmbed (endedEmbed s.ttt) },
        pending.erase (.boardReply click s.node) ++ [.resultMessage s.node],
        trace ++ [.messageCreate (resultMessage click s embed) (.resultMessage s.node)]⟩
  /-- The session is erased. -/
  | erased {deployment : Deployment} {s : Session} {pending : List Callback}
    {trace : List Effect} (h : .resultMessage s.node ∈ pending) (hs : SessionInv w s) :
    Touch w s.node (.callback (.resultMessage s.node) (.success deployment))
      ⟨some s, pending, trace⟩ ⟨none, pending.erase (.resultMessage s.node), trace⟩

section Replace

variable {pre post : List Session} {s s' : Session} {w' : World}

/-- The iterator of a replaced session finds the new one. -/
theorem find_replace_self (hi : Inv w) (hl : w.tttListG = pre ++ s :: post)
    (hl' : w'.tttListG = pre ++ s' :: post) (hk : s'.node = s.node) :
    w'.find s.node = some s' := by
  rw [World.find, hl', ← hk]
  exact find_entry (hk ▸ hi.keys hl)

/-- Other iterators find what they found. -/
theorem find_replace_other (hl : w.tttListG = pre ++ s :: post)
    (hl' : w'.tttListG = pre ++ s' :: post) (hk : s'.node = s.node) (hne : node ≠ s.node) :
    w'.find node = w.find node := by
  rw [World.find, World.find, hl, hl', find_other (hk ▸ hne.symm), find_other hne.symm]

/-- The iterator of a listed session finds it. -/
theorem find_focus (hi : Inv w) (hl : w.tttListG = pre ++ s :: post) :
    w.find s.node = some s :=
  find_replace_self hi hl hl rfl

/-- The view of a listed session. -/
theorem view_of_mem (hi : Inv w) {s : Session} (h : s ∈ w.tttListG) :
    view w s.node = ⟨some s, callbacksOf s.node w.pending, effectsOf s.node w.trace⟩ := by
  rw [view, find_of_mem hi h]

/-- What is done to one session does not show at the other list elements. -/
theorem view_other (effects : List Effect) (callbacks : List Callback)
    (hl : w.tttListG = pre ++ s :: post) (hl' : w'.tttListG = pre ++ s' :: post)
    (hk : s'.node = s.node) (hne : node ≠ s.node)
    (hp : w'.pending = callbacks ++ effects.filterMap Effect.callback?)
    (hc : callbacksOf node callbacks = callbacksOf node w.pending)
    (ht : w'.trace = w.trace ++ effects)
    (h : ∀ effect ∈ effects, effect.node? = some s.node ∨ effect.node? = none) :
    view w' node = view w node := by
  rw [view, view, find_replace_other hl hl' hk hne, hp, ht, callbacksOf_append,
    effectsOf_append, hc, callbacksOf_other hne h, effectsOf_other hne h, List.append_nil,
    List.append_nil]

/-- What is done to one session, seen at its own list element. -/
theorem touch_self {p : Part} (effects : List Effect) (callbacks : List Callback) (hi : Inv w)
    (hl : w.tttListG = pre ++ s :: post) (hl' : w'.tttListG = pre ++ s' :: post)
    (hk : s'.node = s.node) (hp : w'.pending = callbacks ++ effects.filterMap Effect.callback?)
    (ht : w'.trace = w.trace ++ effects)
    (h : Touch w s.node p ⟨some s, callbacksOf s.node w.pending, effectsOf s.node w.trace⟩
      ⟨some s', callbacksOf s.node callbacks ++
        callbacksOf s.node (effects.filterMap Effect.callback?),
        effectsOf s.node w.trace ++ effectsOf s.node effects⟩) :
    Touch w s.node p (view w s.node) (view w' s.node) := by
  rw [view, view, find_focus hi hl, find_replace_self hi hl hl' hk, hp, ht, callbacksOf_append,
    effectsOf_append]
  exact h

end Replace

/-- The view of a list element that does not exist yet is empty. -/
theorem view_unborn (hi : Inv w) (h : w.nextNode ≤ node) : view w node = ⟨none, [], []⟩ := by
  have hfind : w.find node = none := by
    refine find_elsewhere fun s hs => ?_
    have hn := (hi.sessions s hs).node
    omega
  have hp : callbacksOf node w.pending = [] := by
    refine List.filter_eq_nil_iff.mpr fun callback hc he => ?_
    have hn := hi.captured callback hc node (by simpa using he)
    omega
  have ht : effectsOf node w.trace = [] := by
    refine List.filter_eq_nil_iff.mpr fun effect hc he => ?_
    have hn := hi.traced effect hc node (by simpa using he)
    omega
  rw [view, hfind, hp, ht]

/-- The callbacks and effects of an accepted answer at its own session. -/
theorem touch_accepted (hi : Inv w) {click : Click} {player : Player} {pre post : List Session}
    {s : Session} (h : Accepts w click player pre s post) :
    Touch w s.node (.confirm click) (view w s.node)
      (view ({ w with
        nextID := (accept click player w.nextID s).2.1
        tttListG := pre ++ (accept click player w.nextID s).1 :: post }.emit
        ((accept click player w.nextID s).2.2 ++ warnings click post)) s.node) := by
  obtain ⟨hs, -⟩ := hi.focus h.list
  have hkin := accept_kin click player w.nextID s
  refine touch_self _ w.pending hi h.list rfl hkin.node rfl rfl ?_
  rw [List.filterMap_append, callbacksOf_append, effectsOf_append,
    callbacksOf_warnings warning_of_mem_warnings, effectsOf_warnings warning_of_mem_warnings,
    List.append_nil, List.append_nil]
  unfold accept
  split_ifs with hy ho
  · simpa [List.filterMap_cons, callbacksOf_cons, effectsOf_cons, Effect.callback?, Effect.node?,
      Callback.node?] using
      Touch.confirmed h hs hy ho
  · simpa [List.filterMap_cons, callbacksOf_cons, effectsOf_cons, Effect.callback?, Effect.node?,
      Callback.node?] using
      Touch.started h hs hy (Bool.eq_true_of_not_eq_false ho)
  · have hd := @Touch.declined w click player pre s post (callbacksOf s.node w.pending)
      (effectsOf s.node w.trace) h hs (h.addressed.resolve_left hy)
    dsimp only
    split_ifs <;>
      simpa [List.filterMap_cons, callbacksOf_cons, effectsOf_cons, Effect.callback?, Effect.node?,
      Callback.node?] using hd

/-- A move asks for one callback, that of the board reply. -/
theorem callbacksOf_moveEffects (click : Click) (t : Game) :
    callbacksOf node ((moveEffects click node t).filterMap Effect.callback?) =
      [.boardReply click node] := by
  simp [List.filterMap_cons, callbacksOf_cons, moveEffects, Effect.callback?, Callback.node?]

/-- All effects of a move are about its session. -/
theorem effectsOf_moveEffects (click : Click) (t : Game) :
    effectsOf node (moveEffects click node t) = moveEffects click node t := by
  simp [effectsOf_cons, moveEffects, Effect.node?, Callback.node?]

/-- A challenge shows at its own new list element only. -/
theorem view_challenged (hi : Inv w) (message : Incoming) (opponent : Snowflake)
    (order : DrawOrder) (node : ℕ) : view (w.challenge message opponent order) node = view w node ∨
      Touch w node (.command message order) (view w node)
        (view (w.challenge message opponent order) node) := by
  obtain ⟨hf, -⟩ := newSession_fresh w order message.author opponent
  unfold World.challenge
  generalize newSession order message.author opponent w.nextID w.nextNode = pushed at hf
  obtain ⟨s, nextID⟩ := pushed
  dsimp only at hf ⊢
  by_cases hn : node = s.node
  · subst hn
    refine Or.inr ?_
    have hunborn := view_unborn hi hf.node.ge
    rw [hunborn]
    have hnone : ∀ t ∈ w.tttListG, t.node ≠ s.node := by
      intro t ht
      rw [hf.node]
      exact (hi.sessions t ht).node.ne
    have hfind : (w.tttListG ++ [s]).find? (fun t => decide (t.node = s.node)) = some s := by
      simp [List.find?_append, find_elsewhere hnone]
    have hv := View.mk.inj hunborn
    simp only [view, World.emit, World.find, hfind, callbacksOf_append, effectsOf_append, hv.2.1,
      hv.2.2]
    exact Touch.created hf
  · refine Or.inl ?_
    have hs : [s].find? (fun t => decide (t.node = node)) = none := by
      simpa using Ne.symm hn
    simp [view, World.emit, World.find, List.find?_append, hs, callbacksOf_append,
      effectsOf_append, callbacksOf_cons, effectsOf_cons, Effect.callback?, Effect.node?,
      Callback.node?]

/-- A change shows at one list element at most, and there it is a touch. -/
theorem change_view {p : Part} {w' : World} (hi : Inv w) (h : Change w p w') (node : ℕ) :
    view w' node = view w node ∨ Touch w node p (view w node) (view w' node) := by
  cases h with
  | quiet h =>
    refine Or.inl ?_
    simp only [view, World.emit, World.find, callbacksOf_append, effectsOf_append,
      callbacksOf_warnings h, effectsOf_warnings h, List.append_nil]
  | challenged h => exact view_challenged hi _ _ _ node
  | @accepted click player pre s post h =>
    by_cases hn : node = s.node
    · subst hn
      exact Or.inr (touch_accepted hi h)
    · refine Or.inl (view_other _ w.pending h.list rfl (accept_kin _ _ _ _).node hn rfl rfl rfl ?_)
      refine List.forall_mem_append.mpr ⟨accept_effects _ _ _ _, ?_⟩
      exact fun effect he => Or.inr (warning_of_mem_warnings effect he).node
  | @played click square pre s post h hsq hidle =>
    obtain ⟨hs, -⟩ := hi.focus h.list
    by_cases hn : node = s.node
    · subst hn
      refine Or.inr (touch_self _ w.pending hi h.list rfl rfl rfl rfl ?_)
      have ht := @Touch.played w click square pre s post (callbacksOf s.node w.pending)
        (effectsOf s.node w.trace) h hs hsq hidle
      rw [List.filterMap_cons_none rfl, callbacksOf_moveEffects]
      rw [← effectsOf_moveEffects] at ht
      simpa [effectsOf_cons, Effect.node?] using ht
    · refine Or.inl (view_other _ w.pending h.list rfl rfl hn rfl rfl rfl ?_)
      exact List.forall_mem_cons.mpr ⟨Or.inl rfl, moveEffects_node _ _ _⟩
  | @strayed click pre s post h hsq =>
    obtain ⟨hs, -⟩ := hi.focus h.list
    by_cases hn : node = s.node
    · subst hn
      refine Or.inr (touch_self _ w.pending hi h.list rfl rfl rfl rfl ?_)
      rw [callbacksOf_moveEffects, effectsOf_moveEffects]
      exact Touch.strayed h hs hsq
    · exact Or.inl (view_other _ w.pending h.list rfl rfl hn rfl rfl rfl (moveEffects_node _ _ _))
  | @dropped callback response h hidle =>
    by_cases hn : callback.node? = some node
    · refine Or.inr ?_
      simp only [view, World.find, callbacksOf_erase]
      exact Touch.dropped (mem_callbacksOf.mpr ⟨h, hn⟩) hidle
    · refine Or.inl ?_
      simp only [view, World.find, callbacksOf_erase, erase_other hn]
  | @received callback deployment message h hfresh hmessage horphan =>
    by_cases hn : callback.node? = some node
    · refine Or.inr ?_
      cases callback with
      | originalResponse click n =>
        cases hn
        have hnone : w.find node = none := horphan
        have hfind : ((taken w (.originalResponse click node)).receive
            (message.deployed deployment)).find node = none := hnone
        simp only [view, hnone, hfind]
        simp only [World.receive, callbacksOf_erase]
        exact Touch.orphaned (mem_callbacksOf.mpr ⟨h, rfl⟩)
      | _ => simp_all [Callback.node?, Callback.message?]
    · refine Or.inl ?_
      simp only [view, World.find, World.receive, callbacksOf_erase, erase_other hn]
  | @originSet uid posted deployment pre s post h hfresh hl huid hno =>
    obtain ⟨hs, -⟩ := hi.focus hl
    have hc : ∀ m, callbacksOf m (w.pending.erase (.created uid posted)) =
        callbacksOf m w.pending := by
      intro m
      rw [callbacksOf_erase, erase_other (by simp [Callback.node?])]
    by_cases hn : node = s.node
    · subst hn
      refine Or.inr (touch_self [] (w.pending.erase (.created uid posted)) hi hl rfl rfl
        (List.append_nil _).symm (List.append_nil _).symm ?_)
      rw [hc]
      simpa using Touch.originSet h hfresh hs huid hno
    · exact Or.inl (view_other [] _ hl rfl rfl hn (List.append_nil _).symm (hc _)
        (List.append_nil _).symm (by simp))
  | @asked click n response h =>
    by_cases hn : node = n
    · subst hn
      refine Or.inr ?_
      simp only [view, World.emit, callbacksOf_append, effectsOf_append, callbacksOf_erase]
      have ht := @Touch.asked w node click response (w.find node) _ (effectsOf node w.trace)
        (mem_callbacksOf.mpr ⟨h, rfl⟩)
      simpa [World.find, callbacksOf_cons, effectsOf_cons, Effect.callback?, Effect.node?,
        Callback.node?] using ht
    · refine Or.inl ?_
      have hne : (Callback.confirmReply click n).node? ≠ some node := by
        simpa [Callback.node?] using Ne.symm hn
      simp only [view, World.emit, World.find, callbacksOf_append, effectsOf_append,
        callbacksOf_erase, erase_other hne]
      simp [callbacksOf_cons, effectsOf_cons, Effect.callback?, Effect.node?, Callback.node?,
        Ne.symm hn]
  | @stored click deployment pre s post h hfresh hl =>
    obtain ⟨hs, -⟩ := hi.focus hl
    by_cases hn : node = s.node
    · subst hn
      refine Or.inr (touch_self [] (w.pending.erase (.originalResponse click s.node)) hi hl rfl rfl
        (List.append_nil _).symm (List.append_nil _).symm ?_)
      rw [callbacksOf_erase]
      simpa using @Touch.stored w click deployment s _ (effectsOf s.node w.trace)
        (mem_callbacksOf.mpr ⟨h, rfl⟩) hfresh hs
    · refine Or.inl (view_other [] (w.pending.erase (.originalResponse click s.node)) hl rfl rfl hn
        (List.append_nil _).symm ?_ (List.append_nil _).symm (by simp))
      rw [callbacksOf_erase, erase_other (by simpa [Callback.node?] using Ne.symm hn)]
  | @announced click deployment pre s post embed h hl hr =>
    obtain ⟨hs, -⟩ := hi.focus hl
    by_cases hn : node = s.node
    · subst hn
      refine Or.inr (touch_self _ (w.pending.erase (.boardReply click s.node)) hi hl rfl
        rfl rfl rfl ?_)
      rw [callbacksOf_erase]
      have ht := @Touch.announced w click deployment s embed _ (effectsOf s.node w.trace)
        (mem_callbacksOf.mpr ⟨h, rfl⟩) hs hr
      simpa [List.filterMap_cons, callbacksOf_cons, effectsOf_cons, Effect.callback?, Effect.node?,
      Callback.node?] using ht
    · refine Or.inl (view_other _ (w.pending.erase (.boardReply click s.node)) hl rfl
        rfl hn rfl ?_ rfl (by simp [Effect.node?, Callback.node?]))
      rw [callbacksOf_erase, erase_other (by simpa [Callback.node?] using Ne.symm hn)]
  | @erased deployment pre s post h hl =>
    obtain ⟨hs, -⟩ := hi.focus hl
    by_cases hn : node = s.node
    · subst hn
      refine Or.inr ?_
      have hfind : (pre ++ post).find? (fun t => decide (t.node = s.node)) = none :=
        find_elsewhere (hi.keys hl)
      rw [view_of_mem hi (mem_of_split hl)]
      simp only [view, World.find, hfind, callbacksOf_erase]
      exact Touch.erased (mem_callbacksOf.mpr ⟨h, rfl⟩) hs
    · refine Or.inl ?_
      have hne : (Callback.resultMessage s.node).node? ≠ some node := by
        simpa [Callback.node?] using Ne.symm hn
      simp only [view, World.find, hl, find_other (Ne.symm hn), callbacksOf_erase,
        erase_other hne]

end TintempPlusPlus.Views
