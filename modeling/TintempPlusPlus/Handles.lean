import TintempPlusPlus.Lives

/-!
# Captured list iterators

A callback keeps the iterator of its session, and the session may be erased
before the callback runs. Runs in which a session is erased only when no
other pending callback captures it are exactly those in which no callback
can ever reach for an erased session.
-/

namespace TintempPlusPlus.Handles

open Discord UniqueID Ttt Handlers ScanLoop Play HandlerLaws Program OneEntry EventRuns Invariant
  Steps Reachable Views Lives

/-- The list element that a callback reads, writes or erases when it runs
with a response. -/
def accessed : Callback → Response → Option ℕ
  | .originalResponse _ node, .success _ => some node
  | .boardReply _ node, .success _ => some node
  | .resultMessage node, .success _ => some node
  | _, _ => none

/-- No callback of the run reaches for an erased session. -/
structure HandlesValid (events : List Event) : Prop where
  /-- At every moment, a callback that can run next and reaches for a session
  finds it in the list. -/
  listed : ∀ before behind, events = before ++ behind → ∀ callback response node,
    (run before).admits callback response = true → accessed callback response = some node →
      ∃ s ∈ (run before).tttListG, s.node = node
  /-- No session is erased twice. -/
  once : ∀ before middle behind node deployment deployment',
    events = before ++ .callback (.resultMessage node) (.success deployment) :: middle ++ behind →
    (run before).admits (.resultMessage node) (.success deployment) = true →
      ¬ (run (before ++ .callback (.resultMessage node) (.success deployment) :: middle)).admits
        (.resultMessage node) (.success deployment') = true

/-- A callback that runs finds the session that it reaches for. Without it
the source reads, writes or erases a list element that does not exist any
more, and nothing that follows is defined. -/
def ReachesListed (w : World) : Event → Prop
  | .callback callback response => w.admits callback response = true →
    ∀ node ∈ accessed callback response, ∃ s ∈ w.tttListG, s.node = node
  | _ => True

/-- A session is erased only when no other pending callback captures it. -/
def ErasesAlone (w : World) : Event → Prop
  | .callback (.resultMessage node) (.success _) => .resultMessage node ∈ w.pending →
    ∀ callback ∈ w.pending.erase (.resultMessage node), callback.node? ≠ some node
  | _ => True

instance (w : World) : ∀ e, Decidable (ReachesListed w e)
  | .callback callback response => inferInstanceAs (Decidable
      (w.admits callback response = true →
        ∀ node ∈ accessed callback response, ∃ s ∈ w.tttListG, s.node = node))
  | .command _ _ => inferInstanceAs (Decidable True)
  | .click _ => inferInstanceAs (Decidable True)

instance (w : World) : ∀ e, Decidable (ErasesAlone w e)
  | .callback (.resultMessage node) (.success _) => inferInstanceAs (Decidable
      (.resultMessage node ∈ w.pending →
        ∀ callback ∈ w.pending.erase (.resultMessage node), callback.node? ≠ some node))
  | .callback (.resultMessage _) .error => inferInstanceAs (Decidable True)
  | .callback .log _ => inferInstanceAs (Decidable True)
  | .callback (.created _ _) _ => inferInstanceAs (Decidable True)
  | .callback (.confirmReply _ _) _ => inferInstanceAs (Decidable True)
  | .callback (.originalResponse _ _) _ => inferInstanceAs (Decidable True)
  | .callback (.boardReply _ _) _ => inferInstanceAs (Decidable True)
  | .command _ _ => inferInstanceAs (Decidable True)
  | .click _ => inferInstanceAs (Decidable True)

variable {w : World} {node : ℕ}

/-- Nothing is pending for a list element without a session. -/
def ViewQuiet (v : View) : Prop := v.session = none → v.pending = []

/-- A callback reaches only for the element that it captures. -/
theorem accessed_node {callback : Callback} {response : Response}
    (h : accessed callback response = some node) : callback.node? = some node := by
  cases callback <;> cases response <;> simp_all [accessed, Callback.node?]

/-- Every touch keeps erased sessions quiet when they are erased alone. -/
theorem viewQuiet_touch {p : Part} {v : View} (hc : Within ErasesAlone w p)
    (h : ViewQuiet (view w node)) (ht : Touch w node p (view w node) v) : ViewQuiet v := by
  have hmem : ∀ callback ∈ (view w node).pending, callback ∈ w.pending :=
    fun callback hm => (mem_callbacksOf.mp hm).1
  have herase : (view w node).pending.erase (.resultMessage node) =
      callbacksOf node (w.pending.erase (.resultMessage node)) := (callbacksOf_erase _ _).symm
  generalize view w node = u at h ht hmem herase
  cases ht with
  | @erased deployment s pending trace hcb hs =>
    intro _
    refine herase.trans (List.filter_eq_nil_iff.mpr fun callback hin => ?_)
    simpa using hc (hmem _ hcb) callback hin
  | @dropped node callback response session pending trace hcb hidle =>
    intro hn
    have hempty : pending = [] := h hn
    rw [hempty] at hcb
    cases hcb
  | @asked node click response session pending trace hcb =>
    intro hn
    have hempty : pending = [] := h hn
    rw [hempty] at hcb
    cases hcb
  | @orphaned node click deployment pending trace hcb =>
    intro _
    have hempty : pending = [] := h rfl
    rw [hempty] at hcb
    cases hcb
  | _ => exact fun hn => by cases hn

/-- An element that is not listed any more. -/
def ViewGone (node n : ℕ) (v : View) : Prop := n = node → v.session = none ∧ v.trace ≠ []

/-- A session that was erased is never listed again. -/
theorem viewGone_touch {n : ℕ} {p : Part} {v : View} (h : ViewGone node n (view w n))
    (ht : Touch w n p (view w n) v) : ViewGone node n v := by
  generalize view w n = u at h ht
  cases ht with
  | created hf => exact fun hn => absurd rfl (h hn).2
  | dropped hcb hidle => exact h
  | orphaned hcb => exact h
  | asked hcb => exact fun hn => ⟨(h hn).1, by simp⟩
  | _ => exact fun hn => absurd (h hn).1 (by simp)

/-- A listed session with a pending result message has a history. -/
theorem effects_of_resultMessage (hw : Reached w) (hcb : .resultMessage node ∈ w.pending)
    (hlisted : ∃ s ∈ w.tttListG, s.node = node) : effectsOf node w.trace ≠ [] := by
  obtain ⟨s, hs, rfl⟩ := hlisted
  have hl := listed_reached hw hs
  have hreplied := hl.ready (.resultMessage s.node) (mem_callbacksOf.mpr ⟨hcb, rfl⟩) rfl
  obtain ⟨player, hplayer⟩ := hl.answered (Or.inr hreplied)
  obtain ⟨answer, hanswer⟩ := (hl.flags player).mp hplayer
  exact List.ne_nil_of_mem hanswer

/-- The world after the callback of a result message. -/
theorem step_resultMessage {deployment : Deployment} (hcb : .resultMessage node ∈ w.pending) :
    w.step (.callback (.resultMessage node) (.success deployment)) =
      { taken w (.resultMessage node) with tttListG := eraseOneFromList node w.tttListG } := by
  have hadmits : w.admits (.resultMessage node) (.success deployment) = true := by
    simp [World.admits, hcb, Callback.message?]
  simp only [World.step, hadmits, if_true, World.runCallback]

/-- A callback that can run is pending. -/
theorem mem_of_admits {callback : Callback} {response : Response}
    (h : w.admits callback response = true) : callback ∈ w.pending := by
  unfold World.admits at h
  exact of_decide_eq_true (Bool.and_elim_left h)

/-- A callback that is left behind by an erased session reaches for it. -/
theorem stale_after_erase (hw : Reached w) (deployment : Deployment)
    (hcb : .resultMessage node ∈ w.pending) (hlisted : ∃ s ∈ w.tttListG, s.node = node)
    {callback : Callback} (hmem : callback ∈ w.pending.erase (.resultMessage node))
    (hnode : callback.node? = some node) :
    let w' := w.step (.callback (.resultMessage node) (.success deployment))
    w'.admits callback (.success deployment) = true ∧
      accessed callback (.success deployment) = some node ∧ ∀ s ∈ w'.tttListG, s.node ≠ node := by
  intro w'
  obtain ⟨s, hs, rfl⟩ := hlisted
  have hl := listed_reached hw hs
  have hreplied := hl.ready (.resultMessage s.node) (mem_callbacksOf.mpr ⟨hcb, rfl⟩) rfl
  have hawait : awaitsReply callback = false := by
    by_contra hn
    have hin : callback ∈ awaiting (callbacksOf s.node w.pending) :=
      mem_awaiting.mpr ⟨mem_callbacksOf.mpr ⟨List.mem_of_mem_erase hmem, hnode⟩,
        Bool.eq_true_of_not_eq_false hn⟩
    rw [hl.done hreplied] at hin
    cases hin
  have hw' : w' = { taken w (.resultMessage s.node) with
      tttListG := eraseOneFromList s.node w.tttListG } := step_resultMessage hcb
  refine ⟨?_, ?_, ?_⟩
  · rw [hw']
    cases callback <;> simp_all [World.admits, Callback.message?, awaitsReply, Callback.node?]
  · cases callback <;> simp_all [accessed, awaitsReply, Callback.node?]
  · rw [hw']
    simp [eraseOneFromList]

/-- When every callback finds its session, no session is erased twice. -/
theorem erased_once {before middle : List Event} {deployment deployment' : Deployment}
    (hcb : .resultMessage node ∈ (run before).pending)
    (hlisted : ∃ s ∈ (run before).tttListG, s.node = node)
    (hlater : (run (before ++ .callback (.resultMessage node) (.success deployment) ::
        middle)).admits (.resultMessage node) (.success deployment') = true →
      ∃ s ∈ (run (before ++ .callback (.resultMessage node) (.success deployment) ::
        middle)).tttListG, s.node = node) :
    ¬ (run (before ++ .callback (.resultMessage node) (.success deployment) :: middle)).admits
      (.resultMessage node) (.success deployment') = true := by
  intro hagain
  obtain ⟨s, hs, hsn⟩ := hlater hagain
  have hw := reached_run before
  have hstep := @step_resultMessage (run before) node deployment hcb
  have hany : Along World.part (fun _ _ => True)
      ((run before).step (.callback (.resultMessage node) (.success deployment)))
      (middle.flatMap Event.parts) := fun _ _ _ _ => trivial
  have hnext : Reached ((run before).step (.callback (.resultMessage node) (.success deployment))) :=
    reached_part hw (.callback _ _)
  have hgone := view_after (I := ViewGone node) hnext hany ?_
    (fun w n p v _ _ hv ht => viewGone_touch hv ht) node rfl
  · rw [← after_parts step_eq_parts, ← after_cons, ← after_append] at hgone
    have hfind := find_of_mem (inv_run _) hs
    rw [hsn] at hfind
    have hnone : (run (before ++ .callback (.resultMessage node) (.success deployment) ::
      middle)).find node = none := hgone.1
    rw [hfind] at hnone
    cases hnone
  · rintro n rfl
    have heffects := effects_of_resultMessage hw hcb hlisted
    rw [hstep]
    refine ⟨?_, heffects⟩
    refine find_elsewhere fun t ht => ?_
    simpa [eraseOneFromList] using (List.mem_filter.mp ht).2

/-- When every session is erased alone, nothing is pending for a session that
is not listed. -/
theorem viewQuiet_run {events : List Event}
    (h : Along World.step ErasesAlone World.init events) (node : ℕ) :
    ViewQuiet (view (run events) node) :=
  view_run (I := fun _ => ViewQuiet) h (fun _ _ => rfl)
    (fun _ _ _ _ _ hc hv ht => viewQuiet_touch hc hv ht) node

/-- When every session is erased alone, the callbacks that can run find the
sessions that they reach for. -/
theorem listed_of_erasesAlone {events : List Event}
    (h : Along World.step ErasesAlone World.init events) {callback : Callback}
    {response : Response} (hadmits : (run events).admits callback response = true)
    (haccess : accessed callback response = some node) :
    ∃ s ∈ (run events).tttListG, s.node = node := by
  have hmem : callback ∈ callbacksOf node (run events).pending :=
    mem_callbacksOf.mpr ⟨mem_of_admits hadmits, accessed_node haccess⟩
  cases hfind : (run events).find node with
  | none =>
    have hempty : callbacksOf node (run events).pending = [] := viewQuiet_run h node hfind
    rw [hempty] at hmem
    cases hmem
  | some s => exact ⟨s, find_mem hfind⟩

/-- Runs that erase sessions alone reach for no erased session. -/
theorem reachesListed_of_erasesAlone {events : List Event}
    (h : Along World.step ErasesAlone World.init events) :
    Along World.step ReachesListed World.init events := by
  rintro before e behind rfl
  cases e with
  | callback callback response =>
    exact fun hadmits node haccess => listed_of_erasesAlone h.front hadmits haccess
  | command => trivial
  | click => trivial

/-- No callback of a run reaches for an erased session, and none is erased
twice, if and only if every session is erased when no other pending callback
captures it. -/
theorem handlesValid_iff (events : List Event) :
    HandlesValid events ↔ Along World.step ErasesAlone World.init events := by
  constructor
  · rintro h before e behind rfl
    rcases e with _ | _ | ⟨⟨⟩ | ⟨⟩ | ⟨⟩ | ⟨⟩ | ⟨⟩ | ⟨node⟩, _ | deployment⟩ <;> try trivial
    intro hcb callback hmem hnode
    have hlisted := h.listed before _ rfl (.resultMessage node) (.success deployment) node
      (by simp [World.admits, hcb, Callback.message?]) rfl
    obtain ⟨hadmits, haccess, hgone⟩ :=
      stale_after_erase (reached_run before) deployment hcb hlisted hmem hnode
    rw [← run_concat] at hadmits hgone
    obtain ⟨s, hs, hsn⟩ := h.listed _ behind (by simp) callback _ node hadmits haccess
    exact hgone s hs hsn
  · intro h
    have hlisted : ∀ before behind, events = before ++ behind → ∀ callback response node,
        (run before).admits callback response = true → accessed callback response = some node →
          ∃ s ∈ (run before).tttListG, s.node = node := by
      rintro before behind rfl callback response node hadmits haccess
      exact listed_of_erasesAlone h.front hadmits haccess
    refine ⟨hlisted, ?_⟩
    intro before middle behind node deployment deployment' hs hadmits
    refine erased_once (mem_of_admits hadmits) ?_ fun hagain => hlisted _ behind hs _ _ _ hagain rfl
    exact hlisted before (.callback (.resultMessage node) (.success deployment) ::
      (middle ++ behind)) (by rw [hs]; simp) _ _ _ hadmits rfl

/-- Both replies to the last two moves announce the result, and the first of
the two result messages erases the session. -/
def twoAnnouncements : List Event :=
  bothReplies ++ [.callback (.resultMessage 0) (succeeds 102)]

/-- The callback of the second result message erases an erased session. -/
theorem twoAnnouncements_not_valid : ¬ HandlesValid twoAnnouncements := by
  intro h
  obtain ⟨s, hs, -⟩ := h.listed twoAnnouncements [] (List.append_nil _).symm (.resultMessage 0)
    (succeeds 103) 0 (by decide) rfl
  have hnone : (run twoAnnouncements).tttListG.map Session.node = [] := by decide
  have hmem := List.mem_map_of_mem (f := Session.node) hs
  rw [hnone] at hmem
  cases hmem

end TintempPlusPlus.Handles
