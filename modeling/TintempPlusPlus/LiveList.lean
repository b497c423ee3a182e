import TintempPlusPlus.Frozen
import TintempPlusPlus.Handles
import TintempPlusPlus.Histories

/-!
# Sessions that should have left the list

A session leaves the list in one place only, the callback of a result
message that was sent. A declined session never gets there, and a finished
one gets there only through requests that succeed. As long as nobody
declines, and a request of a finished session fails only while another one
is on its way, the list holds live sessions whenever no callback is pending.
A second erase of a session can take a live one out of the list as well, so
no callback may reach for a session that was erased.
-/

namespace TintempPlusPlus.LiveList

open Discord UniqueID Ttt Handlers ScanLoop BoardLaws Play HandlerLaws Program OneEntry EventRuns
  Invariant Steps Reachable Views Lives Handles Frozen Histories

/-- The game of a list element has been won or drawn. -/
def FinishedIn (node : ℕ) (trace : List Effect) : Prop :=
  ∃ click result, .moved node click result ∈ trace ∧ result ≠ .inProgress

/-- A player of a list element has declined. -/
def DeclinedIn (node : ℕ) (trace : List Effect) : Prop :=
  ∃ player, .answered node player .nah ∈ trace

/-- The list holds exactly the live sessions. -/
structure HoldsLive (w : World) : Prop where
  /-- No listed session was declined. -/
  undeclined : ∀ s ∈ w.tttListG, ¬ DeclinedIn s.node w.trace
  /-- No listed session is finished. -/
  unfinished : ∀ s ∈ w.tttListG, ¬ Ended s.ttt
  /-- Every session that is neither declined nor finished is listed once. -/
  listed : ∀ node < w.nextNode, ¬ DeclinedIn node w.trace → ¬ FinishedIn node w.trace →
    w.tttListG.countP (fun s => decide (s.node = node)) = 1

/-- Whenever no callback is pending, the list holds the live sessions. -/
def LiveOnly (events : List Event) : Prop :=
  ∀ before behind, events = before ++ behind → (run before).pending = [] → HoldsLive (run before)

/-- No Nah is accepted, and a request about a finished session fails only
while another callback captures the session. -/
def Concluded (w : World) : Event → Prop
  | .click click => ∀ player pre s post, Accepts w click player pre s post →
    click.customId ≠ s.confirm.btnId.2
  | .callback callback .error => callback ∈ w.pending → ∀ s ∈ w.tttListG, Ended s.ttt →
    callback.node? = some s.node → ∃ other ∈ w.pending.erase callback, other.node? = some s.node
  | _ => True

/-- Requests end as they should, and no callback reaches for an erased
session. -/
structure Orderly (w : World) (e : Event) : Prop where
  /-- No Nah is accepted, and no last request of a finished session fails. -/
  concluded : Concluded w e
  /-- The callback finds the session that it reaches for. -/
  reaches : ReachesListed w e

variable {w : World} {node : ℕ} {s : Session} {pending : List Callback} {trace : List Effect}

/-- A passed turn ends the game or leaves its result. -/
theorem result_pass (t : Game) : t.fetchWinner.swapTurn.result = t.result ∨
    Ended t.fetchWinner.swapTurn := by
  rcases swapTurn_result t.fetchWinner with hs | he
  · rcases fetchWinner_result t with hf | hf
    · exact Or.inl (hs.trans hf)
    · exact Or.inr (Or.inl (hs.trans hf))
  · exact Or.inr (Or.inr he)

/-- What holds of the end of a game along every life. -/
structure ViewFinish (node : ℕ) (v : View) : Prop where
  /-- Results are the results of the game so far. -/
  known : ∀ s, v.session = some s → s.ttt.result = .inProgress ∨ Ended s.ttt
  /-- The trace tells whether a listed session is finished. -/
  finished : ∀ s, v.session = some s → (Ended s.ttt ↔ FinishedIn node v.trace)
  /-- Result messages are sent about finished sessions. -/
  sent : .resultMessage node ∈ v.pending → FinishedIn node v.trace
  /-- A session that is not listed any more was finished. -/
  gone : v.session = none → v.trace ≠ [] → FinishedIn node v.trace

/-- A finished game stays finished. -/
theorem finishedIn_append {more : List Effect} (h : FinishedIn node trace) :
    FinishedIn node (trace ++ more) := by
  obtain ⟨click, result, hm, hr⟩ := h
  exact ⟨click, result, List.mem_append_left _ hm, hr⟩

/-- Effects that pass no turn finish nothing. -/
theorem finishedIn_append_iff {more : List Effect}
    (h : ∀ effect ∈ more, ∀ click result, effect ≠ .moved node click result) :
    FinishedIn node (trace ++ more) ↔ FinishedIn node trace := by
  refine ⟨?_, finishedIn_append⟩
  rintro ⟨click, result, hm, hr⟩
  rcases List.mem_append.mp hm with hm | hm
  · exact ⟨click, result, hm, hr⟩
  · exact absurd rfl (h _ hm click result)

/-- The facts are kept by what passes no turn and sends no result. -/
theorem ViewFinish.keep {s' : Session} {pending' : List Callback} {more : List Effect}
    (h : ViewFinish node ⟨some s, pending, trace⟩) (hr : s'.ttt.result = s.ttt.result)
    (hp : .resultMessage node ∈ pending' → .resultMessage node ∈ pending)
    (hmore : ∀ effect ∈ more, ∀ click result, effect ≠ .moved node click result) :
    ViewFinish node ⟨some s', pending', trace ++ more⟩ := by
  have hended : Ended s'.ttt ↔ Ended s.ttt := by simp only [Ended, hr]
  refine ⟨?_, ?_, fun hm => ?_, fun hn => by cases hn⟩
  · rintro t ⟨⟩
    rw [hr, hended]
    exact h.known s rfl
  · rintro t ⟨⟩
    rw [hended, finishedIn_append_iff hmore]
    exact h.finished s rfl
  · exact finishedIn_append (h.sent (hp hm))

/-- A move finishes the game when it ends it. -/
theorem finishedIn_moved {click : Click} {t : Game} :
    FinishedIn node (trace ++ moveEffects click node t) ↔
      FinishedIn node trace ∨ t.result ≠ .inProgress := by
  constructor
  · rintro ⟨other, result, hm, hr⟩
    rcases List.mem_append.mp hm with hm | hm
    · exact Or.inl ⟨other, result, hm, hr⟩
    · simp only [moveEffects, List.mem_cons, Effect.moved.injEq, reduceCtorEq, List.not_mem_nil,
        or_false, true_and] at hm
      exact Or.inr (hm.2 ▸ hr)
  · rintro (h | hr)
    · exact finishedIn_append h
    · exact ⟨click, t.result, by simp [moveEffects], hr⟩

/-- The facts after a turn has passed: the new result is recorded. -/
theorem ViewFinish.pass (click : Click) (t : Game) (marked : List Effect)
    (h : ViewFinish node ⟨some s, pending, trace⟩) (hr : t.result = s.ttt.result ∨ Ended t)
    (hmarked : ∀ effect ∈ marked, ∀ other result, effect ≠ .moved node other result) :
    ViewFinish node ⟨some { s with ttt := t }, pending ++ [.boardReply click node],
      trace ++ marked ++ moveEffects click node t⟩ := by
  have hfin : FinishedIn node (trace ++ marked ++ moveEffects click node t) ↔
      FinishedIn node trace ∨ t.result ≠ .inProgress := by
    rw [finishedIn_moved, finishedIn_append_iff hmarked]
  have hkeep : Ended s.ttt → Ended t := by
    intro he
    rcases hr with hsame | ht
    · unfold Ended
      rw [hsame]
      exact he
    · exact ht
  refine ⟨?_, ?_, fun hm => ?_, fun hn => by cases hn⟩
  · rintro u ⟨⟩
    rcases hr with hsame | ht
    · exact (h.known s rfl).imp (fun hi => hsame.trans hi) hkeep
    · exact Or.inr ht
  · rintro u ⟨⟩
    rw [hfin, ← h.finished s rfl]
    constructor
    · intro he
      exact Or.inr fun hi => not_ended hi he
    · rintro (he | hne)
      · exact hkeep he
      · rcases hr with hsame | ht
        · rw [hsame] at hne
          exact hkeep ((h.known s rfl).resolve_left hne)
        · exact ht
  · refine hfin.mpr (Or.inl (h.sent ?_))
    simpa using hm

/-- Every touch keeps the facts about the end of a game. -/
theorem viewFinish_touch {p : Part} {v : View} (hw : Reached w)
    (h : ViewFinish node (view w node)) (ht : Touch w node p (view w node) v) :
    ViewFinish node v := by
  have hlived := lived_reached hw node
  generalize view w node = u at h ht hlived
  cases ht with
  | @created message order player1 player2 s hf =>
    have hresult := hf.waiting.result
    refine ⟨?_, ?_, by simp, by simp⟩
    · rintro t ⟨⟩
      exact Or.inl hresult
    · rintro t ⟨⟩
      refine iff_of_false (not_ended hresult) ?_
      rintro ⟨click, result, hm, -⟩
      cases hm
  | confirmed hacc hs hy ho => exact h.keep rfl (by simp) (by simp)
  | started hacc hs hy ho => exact h.keep rfl id (by simp)
  | declined hacc hs hn => exact h.keep rfl id (by simp)
  | @played click square pre s post pending trace hturn hs hsq hidle =>
    have hp := h.pass click (Game.move s.ttt square) [.placed s.node click square s.ttt.turn.2] ?_
      (by simp)
    · rwa [List.append_assoc] at hp
    · unfold Game.move
      exact result_pass _
  | @strayed click pre s post pending trace hturn hs hsq =>
    have hp := h.pass click s.ttt.fetchWinner.swapTurn [] (result_pass _) (by simp)
    rwa [List.append_nil] at hp
  | @originSet uid posted deployment s pending trace hcb hfresh hs huid hno =>
    rw [← List.append_nil trace]
    exact h.keep rfl id (by simp)
  | @dropped node callback response session pending trace hcb hidle =>
    exact ⟨h.known, h.finished, fun hm => h.sent (List.mem_of_mem_erase hm), h.gone⟩
  | @asked node click response session pending trace hcb =>
    have hiff : FinishedIn node (trace ++
        [.getOriginalResponse click (.originalResponse click node)]) ↔ FinishedIn node trace :=
      finishedIn_append_iff (by simp)
    refine ⟨h.known, ?_, ?_, ?_⟩ <;> dsimp only <;> rw [hiff]
    · exact h.finished
    · intro hm
      have hold : .resultMessage node ∈ pending.erase (.confirmReply click node) := by
        simpa using hm
      exact h.sent (List.mem_of_mem_erase hold)
    · intro hn _
      rw [hn] at hlived
      have hnone : awaiting pending = [] := hlived
      have hmem := mem_awaiting.mpr ⟨hcb, rfl⟩
      rw [hnone] at hmem
      cases hmem
  | orphaned hcb =>
    exact ⟨by simp, by simp, fun hm => h.sent (List.mem_of_mem_erase hm), h.gone⟩
  | @stored click deployment s pending trace hcb hfresh hs =>
    rw [← List.append_nil trace]
    exact h.keep rfl List.mem_of_mem_erase (by simp)
  | @announced click deployment s embed pending trace hcb hs hr =>
    have hended : FinishedIn s.node trace := by
      refine (h.finished s rfl).mp ?_
      by_contra hn
      have hi := (h.known s rfl).resolve_right hn
      rw [hi] at hr
      cases hr
    refine ⟨fun t ht => ?_, fun t ht => ?_, fun _ => finishedIn_append hended, by simp⟩
    · cases ht
      exact h.known s rfl
    · cases ht
      exact iff_of_true ((h.finished s rfl).mpr hended) (finishedIn_append hended)
  | erased hcb hs => exact ⟨by simp, by simp, fun _ => h.sent hcb, fun _ _ => h.sent hcb⟩

/-- In every reached world the finished games are those with a result. -/
theorem viewFinish_reached (hw : Reached w) (node : ℕ) : ViewFinish node (view w node) :=
  view_reached (I := ViewFinish) (fun _ => ⟨by simp, by simp, by simp, by simp⟩)
    (fun _ _ _ _ hw h ht => viewFinish_touch hw h ht) hw node

/-- A list element was not declined, and if it is finished a callback that
can erase it is on its way. -/
structure ViewOwed (node : ℕ) (v : View) : Prop where
  /-- Nobody has declined. -/
  undeclined : ¬ DeclinedIn node v.trace
  /-- A finished session waits for a callback. -/
  owed : ∀ s, v.session = some s → Ended s.ttt →
    ∃ callback ∈ v.pending, awaitsReply callback = false

/-- Only a Nah declines a challenge. -/
theorem declinedIn_append_iff {more : List Effect}
    (h : ∀ effect ∈ more, ∀ player, effect ≠ .answered node player .nah) :
    DeclinedIn node (trace ++ more) ↔ DeclinedIn node trace := by
  constructor
  · rintro ⟨player, hm⟩
    rcases List.mem_append.mp hm with hm | hm
    · exact ⟨player, hm⟩
    · exact absurd rfl (h _ hm player)
  · rintro ⟨player, hm⟩
    exact ⟨player, List.mem_append_left _ hm⟩

/-- What is owed stays owed when no session newly finished and the callbacks
that were pending still are. -/
theorem ViewOwed.keep {session session' : Option Session} {pending' : List Callback}
    {more : List Effect} (h : ViewOwed node ⟨session, pending, trace⟩)
    (hended : ∀ s', session' = some s' → Ended s'.ttt → ∃ s, session = some s ∧ Ended s.ttt)
    (hpending : ∀ callback ∈ pending, awaitsReply callback = false → callback ∈ pending')
    (hmore : ∀ effect ∈ more, ∀ player, effect ≠ .answered node player .nah) :
    ViewOwed node ⟨session', pending', trace ++ more⟩ := by
  refine ⟨?_, fun s' hs' he => ?_⟩
  · rw [declinedIn_append_iff hmore]
    exact h.undeclined
  · obtain ⟨s, hs, hes⟩ := hended s' hs' he
    obtain ⟨callback, hm, ha⟩ := h.owed s hs hes
    exact ⟨callback, hpending callback hm ha, ha⟩

/-- Nothing is awaited for a session that waits for the end. -/
theorem awaiting_of_owed (hl : Listed node s pending trace)
    (h : ∃ callback ∈ pending, awaitsReply callback = false) : awaiting pending = [] := by
  obtain ⟨callback, hm, ha⟩ := h
  exact hl.done (hl.ready callback hm ha)

/-- A callback that goes by an ended session without effect has failed. -/
theorem error_of_idle {callback : Callback} {response : Response} (hfind : w.find node = some s)
    (he : Ended s.ttt) (hnode : callback.node? = some node) (h : Idle w response callback) :
    response = .error := by
  cases callback with
  | log => cases hnode
  | created => cases hnode
  | confirmReply => exact absurd h id
  | originalResponse => exact h
  | boardReply click n =>
    cases hnode
    rcases h with hr | hnone
    · exact hr
    · have hembed := hnone s hfind
      rcases he with he | he <;> rw [he] at hembed <;> cases hembed
  | resultMessage n =>
    cases hnode
    rcases h with hr | hnone
    · exact hr
    · rw [hfind] at hnone
      cases hnone

/-- Every touch keeps what is owed when the condition is met. -/
theorem viewOwed_touch {p : Part} {v : View} (hw : Reached w) (hc : Within Concluded w p)
    (h : ViewOwed node (view w node)) (ht : Touch w node p (view w node) v) :
    ViewOwed node v := by
  have hlived := lived_reached hw node
  have hpend : (view w node).pending = callbacksOf node w.pending := rfl
  have hfind : (view w node).session = w.find node := rfl
  generalize view w node = u at h ht hlived hpend hfind
  cases ht with
  | @created message order player1 player2 s hf =>
    refine ⟨?_, ?_⟩
    · rintro ⟨player, hm⟩
      cases hm
    · rintro t ⟨⟩ he
      exact absurd he (not_ended hf.waiting.result)
  | confirmed hacc hs hy ho =>
    exact h.keep (fun t ht he => ⟨_, rfl, by cases ht; exact he⟩)
      (fun _ hm _ => List.mem_append_left _ hm) (by simp)
  | @started click player pre s post pending trace hacc hs hy ho =>
    refine h.keep (fun t ht he => ?_) (fun _ hm _ => hm) (by simp)
    cases ht
    exact absurd he (not_ended (accepts_waiting hacc hs).result)
  | @declined click player pre s post pending trace hacc hs hn =>
    exact absurd hn (hc player pre s post hacc)
  | played hturn hs hsq hidle =>
    refine ⟨?_, fun _ _ _ => ⟨_, List.mem_append_right _ (List.mem_singleton_self _), rfl⟩⟩
    rw [declinedIn_append_iff (by simp [moveEffects])]
    exact h.undeclined
  | strayed hturn hs hsq =>
    refine ⟨?_, fun _ _ _ => ⟨_, List.mem_append_right _ (List.mem_singleton_self _), rfl⟩⟩
    rw [declinedIn_append_iff (by simp [moveEffects])]
    exact h.undeclined
  | @originSet uid posted deployment s pending trace hcb hfresh hs huid hno =>
    rw [← List.append_nil trace]
    exact h.keep (fun t ht he => ⟨_, rfl, by cases ht; exact he⟩) (fun _ hm _ => hm) (by simp)
  | @dropped node callback response session pending trace hcb hidle =>
    refine ⟨h.undeclined, ?_⟩
    rintro s rfl he
    dsimp only at hpend hfind
    have hl := lived_some.mp hlived
    have hnone := awaiting_of_owed hl (h.owed s rfl he)
    rw [hpend] at hcb
    obtain ⟨hmem, hnode⟩ := mem_callbacksOf.mp hcb
    have herror := error_of_idle hfind.symm he hnode hidle
    subst herror
    obtain ⟨hlist, hsn⟩ := find_mem hfind.symm
    obtain ⟨other, ho, hon⟩ := hc hmem s hlist he (hsn ▸ hnode)
    rw [hsn] at hon
    have hin : other ∈ (callbacksOf node w.pending).erase callback := by
      rw [← callbacksOf_erase]
      exact mem_callbacksOf.mpr ⟨ho, hon⟩
    refine ⟨other, hpend ▸ hin, ?_⟩
    by_contra ha
    have hawait := mem_awaiting.mpr ⟨hpend ▸ List.mem_of_mem_erase hin,
      Bool.eq_true_of_not_eq_false ha⟩
    rw [hnone] at hawait
    cases hawait
  | @asked node click response session pending trace hcb =>
    refine h.keep (fun t ht he => ⟨t, ht, he⟩) (fun other hm ha => ?_) (by simp)
    refine List.mem_append_left _ ((List.mem_erase_of_ne ?_).mpr hm)
    rintro rfl
    cases ha
  | @orphaned node click deployment pending trace hcb => exact ⟨h.undeclined, by simp⟩
  | @stored click deployment s pending trace hcb hfresh hs =>
    rw [← List.append_nil trace]
    refine h.keep (fun t ht he => ⟨_, rfl, by cases ht; exact he⟩) (fun other hm ha => ?_) (by simp)
    refine (List.mem_erase_of_ne ?_).mpr hm
    rintro rfl
    cases ha
  | announced hcb hs hr =>
    refine ⟨?_, fun _ _ _ => ⟨_, List.mem_append_right _ (List.mem_singleton_self _), rfl⟩⟩
    rw [declinedIn_append_iff (by simp)]
    exact h.undeclined
  | erased hcb hs => exact ⟨h.undeclined, by simp⟩

/-- A list element that was used is listed or has a history. -/
def Born (v : View) : Prop := v.session ≠ none ∨ v.trace ≠ []

/-- Every touch keeps a born session born. -/
theorem born_touch {p : Part} {v : View} (hw : Reached w) (h : Born (view w node))
    (ht : Touch w node p (view w node) v) : Born v := by
  have hlived := lived_reached hw node
  generalize view w node = u at h ht hlived
  cases ht with
  | dropped => exact h
  | orphaned => exact h
  | asked => exact Or.inr (by simp)
  | erased hcb hs => exact Or.inr (trace_ne_nil (lived_some.mp hlived) hcb)
  | _ => exact Or.inl (by simp)

/-- List elements are used one after the other. -/
theorem nextNode_change {p : Part} {w' : World} (h : Change w p w') :
    w'.nextNode = w.nextNode ∨
      w'.nextNode = w.nextNode + 1 ∧ ∃ s ∈ w'.tttListG, s.node = w.nextNode := by
  cases h with
  | @challenged message order mentioned h =>
    refine Or.inr ⟨rfl, _, List.mem_append_right _ (List.mem_singleton_self _), ?_⟩
    exact (newSession_fresh w order message.author mentioned.id).1.node
  | _ => exact Or.inl rfl

/-- Every list element that was handed out has been born. -/
theorem born_reached (hw : Reached w) : ∀ node < w.nextNode, Born (view w node) := by
  refine invariant_reached (I := fun w => ∀ node < w.nextNode, Born (view w node)) ?_ ?_ hw
  · exact fun node hn => absurd hn (Nat.not_lt_zero node)
  · intro w p hw hborn node hn
    have hchange := part_change hw.inv p
    by_cases hold : node < w.nextNode
    · rcases change_view hw.inv hchange node with hsame | ht
      · rw [hsame]
        exact hborn node hold
      · exact born_touch hw (hborn node hold) ht
    · rcases nextNode_change hchange with hsame | ⟨hnext, s, hs, hsn⟩
      · omega
      · have heq : s.node = node := by omega
        rw [← heq, view_of_mem (reached_part hw p).inv hs]
        exact Or.inl (by simp)

/-- A listed session stands in the list once. -/
theorem countP_node (hi : Inv w) (hs : s ∈ w.tttListG) :
    w.tttListG.countP (fun t => decide (t.node = s.node)) = 1 := by
  obtain ⟨pre, post, hl⟩ := List.mem_iff_append.mp hs
  obtain ⟨hpre, hpost⟩ := List.forall_mem_append.mp (hi.keys hl)
  have hnone : ∀ list : List Session, (∀ t ∈ list, t.node ≠ s.node) →
      list.countP (fun t => decide (t.node = s.node)) = 0 := by
    intro list hlist
    refine List.countP_eq_zero.mpr fun t ht => ?_
    simpa using hlist t ht
  rw [hl, List.countP_append, List.countP_cons_of_pos (by simp), hnone pre hpre, hnone post hpost]

/-- In every reachable state each session that is not finished is listed
once. -/
theorem listed_once (hw : Reached w) (hn : node < w.nextNode) (hf : ¬ FinishedIn node w.trace) :
    w.tttListG.countP (fun s => decide (s.node = node)) = 1 := by
  have hfin := viewFinish_reached hw node
  cases hfind : w.find node with
  | some s =>
    obtain ⟨hs, rfl⟩ := find_mem hfind
    exact countP_node hw.inv hs
  | none =>
    refine absurd ?_ hf
    have htrace := (born_reached hw node hn).resolve_left (not_not.mpr hfind)
    obtain ⟨click, result, hm, hr⟩ := hfin.gone hfind htrace
    exact ⟨click, result, (mem_effectsOf.mp hm).1, hr⟩

/-- In every run in which no Nah is accepted, a request about a finished
session fails only while another callback captures the session, and no
callback reaches for an erased session, the list holds exactly the live
sessions whenever no callback is pending. -/
theorem liveOnly_run {events : List Event} (h : Along World.step Orderly World.init events) :
    LiveOnly events := by
  rintro before behind rfl hpending
  have hw := reached_run before
  have howed : ∀ s ∈ (run before).tttListG, ViewOwed s.node ⟨some s, [],
      effectsOf s.node (run before).trace⟩ := by
    intro s hs
    have hview := view_run (I := ViewOwed) (h.front.mono fun _ _ ho => ho.concluded) ?_
      (fun w n p v hw hc hv ht => viewOwed_touch hw hc hv ht) s.node
    · rw [view_of_mem hw.inv hs, hpending] at hview
      exact hview
    · refine fun node => ⟨?_, by simp⟩
      rintro ⟨player, hm⟩
      cases hm
  refine ⟨fun s hs => ?_, fun s hs he => ?_, fun node hn _ hf => listed_once hw hn hf⟩
  · rintro ⟨player, hm⟩
    exact (howed s hs).undeclined ⟨player, mem_effectsOf.mpr ⟨hm, rfl⟩⟩
  · obtain ⟨callback, hm, -⟩ := (howed s hs).owed s rfl he
    cases hm

/-- No Nah button is clicked, and a request about a finished session fails
only while another callback captures the session. -/
def NahUnclicked (w : World) : Event → Prop
  | .click click => ∀ s ∈ w.tttListG, click.customId ≠ s.confirm.btnId.2
  | .callback callback .error => callback ∈ w.pending → ∀ s ∈ w.tttListG, Ended s.ttt →
    callback.node? = some s.node → ∃ other ∈ w.pending.erase callback, other.node? = some s.node
  | _ => True

instance (w : World) : ∀ e, Decidable (NahUnclicked w e)
  | .click click => inferInstanceAs (Decidable (∀ s ∈ w.tttListG,
      click.customId ≠ s.confirm.btnId.2))
  | .callback callback .error => inferInstanceAs (Decidable (callback ∈ w.pending →
      ∀ s ∈ w.tttListG, Ended s.ttt → callback.node? = some s.node →
        ∃ other ∈ w.pending.erase callback, other.node? = some s.node))
  | .callback _ (.success _) => inferInstanceAs (Decidable True)
  | .command _ _ => inferInstanceAs (Decidable True)

/-- A Nah that nobody clicks is not accepted. -/
theorem concluded_of_unclicked : ∀ (w : World) (e : Event), NahUnclicked w e → Concluded w e
  | _, .click _, h => fun _ _ s _ hacc => h s hacc.mem
  | _, .callback _ .error, h => h
  | _, .callback _ (.success _), _ => trivial
  | _, .command _ _, _ => trivial

/-- The reply to the winning click and the result message end well, and all
other requests fail. -/
def finishedGame : List Event :=
  topRow ++
    [.callback (.boardReply (clickBy 11 101 "p_002_6") 0) (succeeds 101),
      .callback (.boardReply (clickBy 11 101 "p_000_4") 0) .error,
      .callback (.boardReply (clickBy 22 101 "p_100_7") 0) .error,
      .callback (.boardReply (clickBy 11 101 "p_001_5") 0) .error,
      .callback (.boardReply (clickBy 22 101 "p_101_8") 0) .error,
      .callback (.resultMessage 0) (succeeds 102),
      .callback .log .error, .callback .log .error, .callback .log .error]

/-- The finished game leaves the list. -/
theorem liveOnly_finishedGame :
    LiveOnly finishedGame ∧ (run finishedGame).pending = [] ∧
      (run finishedGame).tttListG.length = 0 := by
  have hnah : Along World.step NahUnclicked World.init finishedGame := by decide
  have hreaches : Along World.step ReachesListed World.init finishedGame := by decide
  refine ⟨liveOnly_run fun before e behind hs => ?_, by decide, by decide⟩
  exact ⟨concluded_of_unclicked _ _ (hnah before e behind hs), hreaches before e behind hs⟩

/-- The challenged player declines, and the edited challenge is sent. -/
def declined : List Event :=
  opening ++ [.click (clickBy 22 100 "confm_3_n"), .callback .log (succeeds 100)]

/-- The declined session stays in the list. -/
theorem declined_not_liveOnly : ¬ LiveOnly declined := by
  intro h
  have hlive := h declined [] (List.append_nil _).symm (by decide)
  have hnodes : 0 ∈ (run declined).tttListG.map Session.node := by decide
  obtain ⟨s, hs, hn⟩ := List.mem_map.mp hnodes
  refine hlive.undeclined s hs ⟨.two, ?_⟩
  rw [hn]
  decide

end TintempPlusPlus.LiveList
