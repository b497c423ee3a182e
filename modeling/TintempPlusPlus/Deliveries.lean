import TintempPlusPlus.Independence
import TintempPlusPlus.Lives

/-!
# Deliveries in either order

A callback edits the one session it is about, and nothing else it does
depends on the other sessions. So two finished requests of different sessions
can be delivered in either order: the list is the same afterwards, and the
histories differ in the order of their entries only, which nothing that
happens later can tell.
-/

namespace TintempPlusPlus.Deliveries

open Discord UniqueID Ttt Handlers ScanLoop Program OneEntry EventRuns Invariant Steps Reachable
  Views Lives Independence

/-- The callback is about the session. -/
def concerns : Callback → Session → Bool
  | .log, _ => false
  | .created uid _, s => decide (s.ttt.uid = uid)
  | .confirmReply _ node, s => decide (s.node = node)
  | .originalResponse _ node, s => decide (s.node = node)
  | .boardReply _ node, s => decide (s.node = node)
  | .resultMessage node, s => decide (s.node = node)

/-- What a callback makes of its session. -/
def edited : Callback → Response → Session → Option Session
  | .created _ posted, .success deployment, s =>
    some (if s.ttt.haveOrigin = false then
      { s with ttt := s.ttt.setOrigin (posted.deployed deployment) } else s)
  | .originalResponse click _, .success deployment, s =>
    some (s.store ((confirmedReply click).deployed deployment))
  | .boardReply click _, .success _, s =>
    some (if (resultEmbed click s.ttt.result).isSome then
      { s with ttt := s.ttt.setOriginEmbed (endedEmbed s.ttt) } else s)
  | .resultMessage _, .success _, _ => none
  | _, _, s => some s

/-- The edit of a listed session by a callback. -/
def edit (callback : Callback) (response : Response) (s : Session) : Option Session :=
  if concerns callback s then edited callback response s else some s

/-- The messages that a callback brings. -/
def brought : Callback → Response → List Message
  | .created _ posted, .success deployment => [posted.deployed deployment]
  | .originalResponse click _, .success deployment => [(confirmedReply click).deployed deployment]
  | _, _ => []

/-- The requests that a callback makes when it finds its session or not. -/
def requested : Callback → Response → Option Session → List Effect
  | .confirmReply click node, _, _ => [.getOriginalResponse click (.originalResponse click node)]
  | .boardReply click _, .success _, some s =>
    match resultEmbed click s.ttt.result with
    | none => []
    | some embed =>
      [.messageCreate (resultMessage click s embed) (.resultMessage s.node),
        .messageEdit (s.ttt.setOriginEmbed (endedEmbed s.ttt)).origin .log]
  | _, _, _ => []

/-- The session that a callback is about. -/
def subject (w : World) (callback : Callback) : Option Session :=
  w.tttListG.find? (concerns callback)

/-- The world after a delivery. -/
def delivered (w : World) (callback : Callback) (response : Response) : World :=
  let requests := requested callback response (subject w callback)
  { w with
    tttListG := w.tttListG.filterMap (edit callback response)
    returned := brought callback response ++ w.returned
    pending := w.pending.erase callback ++ requests.filterMap Effect.callback?
    trace := w.trace ++ requests }

variable {w w' : World} {s t : Session} {callback other : Callback} {response answer : Response}

/-- The callbacks that are pending after a delivery. -/
theorem delivered_pending (w : World) (callback : Callback) (response : Response) :
    (delivered w callback response).pending = w.pending.erase callback ++
      (requested callback response (subject w callback)).filterMap Effect.callback? := rfl

/-- The trace after a delivery. -/
theorem delivered_trace (w : World) (callback : Callback) (response : Response) :
    (delivered w callback response).trace =
      w.trace ++ requested callback response (subject w callback) := rfl

/-- Editing a list without erasing anything is a map. -/
theorem filterMap_edit_map {f : Session → Session} (list : List Session)
    (h : ∀ s ∈ list, edit callback response s = some (f s)) :
    list.filterMap (edit callback response) = list.map f := by
  rw [← List.filterMap_eq_map]
  exact List.filterMap_congr h

/-- A callback that edits no session. -/
theorem filterMap_edit_self (list : List Session)
    (h : ∀ s ∈ list, edit callback response s = some s) :
    list.filterMap (edit callback response) = list := by
  rw [filterMap_edit_map list h, List.map_id']

/-- The reply to a board edits its session when the game has ended. -/
theorem filterMap_boardReply (hi : Inv w) {click : Click} {node : ℕ} {deployment : Deployment}
    (hs : w.find node = some s) :
    w.tttListG.filterMap (edit (.boardReply click node) (.success deployment)) =
      if (resultEmbed click s.ttt.result).isSome then
        w.tttListG.map fun t =>
          if t.node = node then { t with ttt := t.ttt.setOriginEmbed (endedEmbed t.ttt) } else t
      else w.tttListG := by
  obtain ⟨hmem, hn⟩ := find_mem hs
  have hself : ∀ t ∈ w.tttListG, t.node = node → t = s :=
    fun t ht hnode => node_inj hi ht hmem (hnode.trans hn.symm)
  have helse : ∀ t : Session, t.node ≠ node → concerns (.boardReply click node) t = false :=
    fun t hnode => decide_eq_false hnode
  split_ifs with hr
  · refine filterMap_edit_map _ fun t ht => ?_
    split_ifs with hnode
    · simp [edit, concerns, edited, hself t ht hnode, hn, hr]
    · simp [edit, helse t hnode]
  · refine filterMap_edit_self _ fun t ht => ?_
    by_cases hnode : t.node = node
    · simp [edit, concerns, edited, hself t ht hnode, hn, hr]
    · simp [edit, helse t hnode]

/-- An admitted callback is delivered. -/
theorem step_delivered (hi : Inv w) (ha : w.admits callback response = true) :
    w.step (.callback callback response) = delivered w callback response := by
  simp only [World.step, ha, if_true]
  cases callback with
  | log =>
    have hlist : w.tttListG.filterMap (edit .log response) = w.tttListG :=
      filterMap_edit_self _ fun s _ => rfl
    simp [delivered, World.runCallback, hlist, brought, requested]
  | created uid posted =>
    cases response with
    | error =>
      have hlist : w.tttListG.filterMap (edit (.created uid posted) .error) = w.tttListG :=
        filterMap_edit_self _ fun s _ => ite_self _
      simp [delivered, World.runCallback, hlist, brought, requested]
    | success deployment =>
      have hlist : w.tttListG.filterMap (edit (.created uid posted) (.success deployment)) =
          setOrigin (posted.deployed deployment) uid w.tttListG := by
        rw [setOrigin_eq_map]
        refine filterMap_edit_map _ fun s _ => ?_
        simp only [edit, concerns, edited, decide_eq_true_eq]
        split_ifs <;> rfl
      simp [delivered, World.runCallback, World.receive, hlist, brought, requested]
  | confirmReply click node =>
    have hlist : w.tttListG.filterMap (edit (.confirmReply click node) response) = w.tttListG :=
      filterMap_edit_self _ fun s _ => ite_self _
    simp [delivered, World.runCallback, World.emit, hlist, brought, requested, Effect.callback?]
  | originalResponse click node =>
    cases response with
    | error =>
      have hlist : w.tttListG.filterMap (edit (.originalResponse click node) .error) = w.tttListG :=
        filterMap_edit_self _ fun s _ => ite_self _
      simp [delivered, World.runCallback, hlist, brought, requested]
    | success deployment =>
      have hlist : w.tttListG.filterMap
          (edit (.originalResponse click node) (.success deployment)) = w.tttListG.map fun s =>
            if s.node = node then s.store ((confirmedReply click).deployed deployment) else s := by
        refine filterMap_edit_map _ fun s _ => ?_
        simp only [edit, concerns, edited, decide_eq_true_eq]
        split_ifs <;> rfl
      simp [delivered, World.runCallback, World.receive, World.update, hlist, brought, requested]
  | boardReply click node =>
    cases response with
    | error =>
      have hlist : w.tttListG.filterMap (edit (.boardReply click node) .error) = w.tttListG :=
        filterMap_edit_self _ fun s _ => ite_self _
      simp [delivered, World.runCallback, hlist, brought, requested]
    | success deployment =>
      have hsubject : subject w (.boardReply click node) = w.find node := rfl
      have hfind : (taken w (.boardReply click node)).find node = w.find node := rfl
      change (taken w (.boardReply click node)).runCallback (.success deployment)
        (.boardReply click node) = _
      rw [delivered, hsubject]
      simp only [World.runCallback, hfind]
      cases hs : w.find node with
      | none =>
        have hlist : w.tttListG.filterMap (edit (.boardReply click node) (.success deployment)) =
            w.tttListG := by
          refine filterMap_edit_self _ fun t ht => if_neg ?_
          exact List.find?_eq_none.mp hs t ht
        simp [hlist, brought, requested]
      | some s =>
        have hnode : s.node = node := (find_mem hs).2
        rw [filterMap_boardReply hi hs]
        cases hr : resultEmbed click s.ttt.result with
        | none => simp [brought, requested, hr]
        | some embed =>
          simp [brought, requested, hr, World.announce, World.update, World.emit, hnode]
  | resultMessage node =>
    cases response with
    | error =>
      have hlist : w.tttListG.filterMap (edit (.resultMessage node) .error) = w.tttListG :=
        filterMap_edit_self _ fun s _ => ite_self _
      simp [delivered, World.runCallback, hlist, brought, requested]
    | success deployment =>
      have hlist : w.tttListG.filterMap (edit (.resultMessage node) (.success deployment)) =
          eraseOneFromList node w.tttListG := by
        rw [eraseOneFromList, ← List.filterMap_eq_filter]
        refine List.filterMap_congr fun s _ => ?_
        by_cases hn : s.node = node <;> simp [edit, concerns, edited, hn, Option.guard]
      simp [delivered, World.runCallback, hlist, brought, requested]

/-! ## Callbacks of different sessions -/

/-- No listed session concerns both callbacks. -/
def Separate (w : World) (callback other : Callback) : Prop :=
  ∀ s ∈ w.tttListG, ¬ (concerns callback s = true ∧ concerns other s = true)

/-- An edited session is still the same one. -/
theorem edit_concerns (h : edit callback response s = some t) (other : Callback) :
    concerns other t = concerns other s := by
  have hsame : t.node = s.node ∧ t.ttt.uid = s.ttt.uid := by
    unfold edit edited at h
    split_ifs at h
    · split at h
      · split_ifs at h <;> cases h <;> exact ⟨rfl, rfl⟩
      · cases h
        exact ⟨rfl, rfl⟩
      · split_ifs at h <;> cases h <;> exact ⟨rfl, rfl⟩
      · cases h
      · cases h
        exact ⟨rfl, rfl⟩
    · cases h
      exact ⟨rfl, rfl⟩
  cases other <;> simp only [concerns, hsame]

/-- A callback leaves the sessions alone that it is not concerned with. -/
theorem edit_of_not (h : concerns callback s = false) : edit callback response s = some s :=
  if_neg (by simp [h])

/-- A callback does not hide the session of another one. -/
theorem subject_delivered (h : Separate w callback other) :
    subject (delivered w callback response) other = subject w other := by
  refine find_edited (fun s hs hother => edit_of_not ?_) fun s hs hother t ht => ?_
  · exact Bool.eq_false_of_not_eq_true fun hself => h s hs ⟨hself, hother⟩
  · rw [edit_concerns ht, hother]

/-- Edits of different sessions can be made in either order. -/
theorem edit_comm (h : ¬ (concerns callback s = true ∧ concerns other s = true)) :
    (edit callback response s).bind (edit other answer) =
      (edit other answer s).bind (edit callback response) := by
  have hone : ∀ {c d : Callback} {r a : Response}, concerns c s = false →
      (edit c r s).bind (edit d a) = (edit d a s).bind (edit c r) := by
    intro c d r a hc
    rw [edit_of_not hc, Option.bind_some]
    cases hd : edit d a s with
    | none => rfl
    | some t => rw [Option.bind_some, edit_of_not ((edit_concerns hd c).trans hc)]
  rcases not_and_or.mp h with hc | hc
  · exact hone (Bool.eq_false_of_not_eq_true hc)
  · exact (hone (Bool.eq_false_of_not_eq_true hc)).symm

/-- The histories of two worlds differ in the order of their entries at most. -/
structure SameUpToOrder (w w' : World) : Prop where
  /-- The same counter. -/
  nextID : w'.nextID = w.nextID
  /-- The same next list element. -/
  nextNode : w'.nextNode = w.nextNode
  /-- The same list. -/
  list : w'.tttListG = w.tttListG
  /-- The same messages. -/
  returned : w'.returned.Perm w.returned
  /-- The same pending callbacks. -/
  pending : w'.pending.Perm w.pending
  /-- The same effects. -/
  trace : w'.trace.Perm w.trace

/-- A callback stays pending while another one is delivered. -/
theorem erase_delivered (hne : callback ≠ other) (hin : other ∈ w.pending) :
    (delivered w callback response).pending.erase other =
      (w.pending.erase callback).erase other ++
        (requested callback response (subject w callback)).filterMap Effect.callback? :=
  List.erase_append_left _ ((List.mem_erase_of_ne hne.symm).mpr hin)

/-- Two callbacks of different sessions are delivered in either order. -/
theorem delivered_comm (hne : callback ≠ other) (hin : callback ∈ w.pending)
    (hin' : other ∈ w.pending) (h : Separate w callback other) :
    SameUpToOrder (delivered (delivered w callback response) other answer)
      (delivered (delivered w other answer) callback response) := by
  have hsymm : Separate w other callback := fun s hs hboth => h s hs hboth.symm
  have hfirst : subject (delivered w callback response) other = subject w other :=
    subject_delivered h
  have hsecond : subject (delivered w other answer) callback = subject w callback :=
    subject_delivered hsymm
  refine ⟨rfl, rfl, ?_, ?_, ?_, ?_⟩
  · simp only [delivered, List.filterMap_filterMap]
    exact List.filterMap_congr fun s hs => (edit_comm (h s hs)).symm
  · simp only [delivered, ← List.append_assoc]
    exact List.perm_append_comm.append_right _
  · rw [delivered_pending (delivered w other answer),
      delivered_pending (delivered w callback response), hfirst, hsecond,
      erase_delivered hne hin', erase_delivered hne.symm hin, List.erase_comm,
      List.append_assoc, List.append_assoc]
    exact List.perm_append_comm.append_left _
  · rw [delivered_trace (delivered w other answer), delivered_trace (delivered w callback response),
      hfirst, hsecond, delivered_trace, delivered_trace, List.append_assoc, List.append_assoc]
    exact List.perm_append_comm.append_left _

/-- Discord hands out different ids to two messages. -/
def DifferentIds (callback : Callback) (response : Response) (other : Callback)
    (answer : Response) : Prop :=
  ∀ message ∈ brought callback response, ∀ message' ∈ brought other answer,
    message.id ≠ message'.id

/-- What a callback needs. -/
theorem admits_iff : w.admits other answer = true ↔
    other ∈ w.pending ∧ ∀ message ∈ brought other answer, message.id ∉ w.issued := by
  cases other <;> cases answer <;>
    simp [World.admits, brought, Callback.message?, Message.deployed]

/-- One of two finished requests can be delivered after the other. -/
theorem admits_delivered (ha : w.admits other answer = true) (hne : callback ≠ other)
    (hids : DifferentIds callback response other answer) :
    (delivered w callback response).admits other answer = true := by
  obtain ⟨hin, hfresh⟩ := admits_iff.mp ha
  refine admits_iff.mpr ⟨?_, fun message hm hissued => ?_⟩
  · exact List.mem_append_left _ ((List.mem_erase_of_ne hne.symm).mpr hin)
  · obtain ⟨old, hold, hid⟩ := List.mem_map.mp hissued
    rcases List.mem_append.mp hold with hold | hold
    · exact hids old hold message hm hid
    · exact hfresh message hm (hid ▸ List.mem_map_of_mem hold)

/-! ## What happens later -/

/-- The same effects keep two worlds the same up to order. -/
theorem SameUpToOrder.emit (h : SameUpToOrder w w') (effects : List Effect) :
    SameUpToOrder (w.emit effects) (w'.emit effects) :=
  ⟨h.nextID, h.nextNode, h.list, h.returned, h.pending.append_right _, h.trace.append_right _⟩

/-- Worlds that were the same get the same counters and lists. -/
theorem SameUpToOrder.update (h : SameUpToOrder w w') {id id' node node' : ℕ} (hid : id' = id)
    (hnode : node' = node) (list : List Session) :
    SameUpToOrder { w with nextID := id, nextNode := node, tttListG := list }
      { w' with nextID := id', nextNode := node', tttListG := list } :=
  ⟨hid, hnode, rfl, h.returned, h.pending, h.trace⟩

/-- Worlds that are the same up to order admit the same callbacks. -/
theorem SameUpToOrder.admits (h : SameUpToOrder w w') (callback : Callback) (response : Response) :
    w'.admits callback response = w.admits callback response := by
  rw [Bool.eq_iff_iff, admits_iff, admits_iff, h.pending.mem_iff]
  have hissued : ∀ id, id ∈ w'.issued ↔ id ∈ w.issued := fun id => (h.returned.map _).mem_iff
  simp only [hissued]

/-- A delivery cannot tell the worlds apart. -/
theorem SameUpToOrder.delivered (h : SameUpToOrder w w') (callback : Callback)
    (response : Response) :
    SameUpToOrder (Deliveries.delivered w callback response)
      (Deliveries.delivered w' callback response) := by
  have hsubject : subject w' callback = subject w callback :=
    congrArg (List.find? (concerns callback)) h.list
  refine ⟨h.nextID, h.nextNode, congrArg (List.filterMap (edit callback response)) h.list,
    h.returned.append_left _, ?_, ?_⟩
  · rw [delivered_pending, delivered_pending, hsubject]
    exact (h.pending.erase callback).append_right _
  · rw [delivered_trace, delivered_trace, hsubject]
    exact h.trace.append_right _

/-- No event can tell the worlds apart. -/
theorem SameUpToOrder.step (h : SameUpToOrder w w') (hi : Inv w) (hi' : Inv w') (e : Event) :
    SameUpToOrder (w.step e) (w'.step e) := by
  cases e with
  | command message order =>
    simp only [World.step, World.command]
    split
    · exact h
    · split_ifs
      · exact h.emit _
      · exact h.emit _
      · simp only [World.challenge, h.nextID, h.nextNode, h.list]
        exact (h.update rfl rfl _).emit _
  | click click =>
    have hconfirm : SameUpToOrder (w.confirmClick click) (w'.confirmClick click) := by
      simp only [World.confirmClick, h.nextID, h.list]
      exact (h.update rfl h.nextNode _).emit _
    simp only [World.step]
    generalize w.confirmClick click = u at hconfirm
    generalize w'.confirmClick click = u' at hconfirm
    simp only [World.boardClick, hconfirm.list]
    exact (hconfirm.update hconfirm.nextID hconfirm.nextNode _).emit _
  | callback callback response =>
    by_cases ha : w.admits callback response = true
    · rw [step_delivered hi ha, step_delivered hi' ((h.admits callback response).trans ha)]
      exact h.delivered callback response
    · have ha' : w'.admits callback response ≠ true := (h.admits callback response).symm ▸ ha
      simp only [World.step, if_neg ha, if_neg ha']
      exact h

/-- Worlds that are the same up to order stay so in every continuation. -/
theorem SameUpToOrder.after (h : SameUpToOrder w w') (hw : Reached w) (hw' : Reached w')
    (events : List Event) :
    SameUpToOrder (EventRuns.after World.step w events) (EventRuns.after World.step w' events) := by
  induction events generalizing w w' with
  | nil => exact h
  | cons e events ih =>
    exact ih (h.step hw.inv hw'.inv e) (reached_steps hw [e]) (reached_steps hw' [e])

/-- Two finished requests of different sessions can be delivered in either
order, at any time of any run: no state differs afterwards, and what was and
will be done is the same up to its order. -/
theorem swapped_run {before behind : List Event} (hne : callback ≠ other)
    (ha : (run before).admits callback response = true)
    (ha' : (run before).admits other answer = true)
    (hseparate : Separate (run before) callback other)
    (hids : DifferentIds callback response other answer) :
    SameUpToOrder
      (run (before ++ .callback callback response :: .callback other answer :: behind))
      (run (before ++ .callback other answer :: .callback callback response :: behind)) := by
  have hw := reached_run before
  have hids' : DifferentIds other answer callback response :=
    fun message hm message' hm' => (hids message' hm' message hm).symm
  have htwo : ∀ {c d : Callback} {r a : Response}, (run before).admits c r = true →
      (run before).admits d a = true → c ≠ d → DifferentIds c r d a →
      run (before ++ .callback c r :: .callback d a :: behind) =
        after World.step (delivered (delivered (run before) c r) d a) behind ∧
      Reached (delivered (delivered (run before) c r) d a) := by
    intro c d r a hc hd hcd hdiffer
    have hfirst := step_delivered hw.inv hc
    have hw1 := reached_steps hw [.callback c r]
    rw [after_cons, after_nil, hfirst] at hw1
    have hsecond := step_delivered hw1.inv (admits_delivered hd hcd hdiffer)
    have hw2 := reached_steps hw1 [.callback d a]
    rw [after_cons, after_nil, hsecond] at hw2
    refine ⟨?_, hw2⟩
    rw [run, after_append, after_cons, after_cons]
    exact congrArg (fun w => after World.step w behind)
      ((congrArg (fun w => World.step w (.callback d a)) hfirst).trans hsecond)
  obtain ⟨hrun, hreached⟩ := htwo ha ha' hne hids
  obtain ⟨hrun', hreached'⟩ := htwo ha' ha hne.symm hids'
  rw [hrun, hrun']
  exact (delivered_comm hne (admits_iff.mp ha).1 (admits_iff.mp ha').1 hseparate).after
    hreached hreached' behind

/-- The first YES of one session and the challenge of another one. -/
def halfway : List Event :=
  opening ++ [.click firstYes, .command otherIncoming ⟨true, true⟩]

/-- The challenge of users 33 and 44. -/
def otherPosted : Callback :=
  .created 4 (challengeMessage otherIncoming (newSession ⟨true, true⟩ 33 44 3 1).1)

/-- The reply to the first YES and the callback of another challenge change
places. -/
theorem swapped_halfway : SameUpToOrder
    (run (halfway ++ .callback (.confirmReply firstYes 0) (succeeds 1) ::
      .callback otherPosted (succeeds 200) :: [.click (clickBy 11 100 "confm_2_y")]))
    (run (halfway ++ .callback otherPosted (succeeds 200) ::
      .callback (.confirmReply firstYes 0) (succeeds 1) ::
        [.click (clickBy 11 100 "confm_2_y")])) := by
  have hseparate : Separate (run halfway) (.confirmReply firstYes 0) otherPosted := by
    unfold Separate
    decide
  refine swapped_run ?_ ?_ ?_ hseparate fun message hm => by cases hm
  · exact Callback.noConfusion
  · decide
  · decide

end TintempPlusPlus.Deliveries
