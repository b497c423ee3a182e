import TintempPlusPlus.LiveList

/-!
# Who can move a session

A session answers to its two players only. Over any stretch of a run in which
neither of them clicks, whatever others do and whatever requests end, the
answers and the play of the session stay as they are, and the session stays
listed unless it was finished before. This holds as long as every session is
erased alone: a callback left behind by the erased session of another game
could do anything to this one.
-/

namespace TintempPlusPlus.Access

open Discord UniqueID Ttt Handlers Play HandlerLaws Program EventRuns Invariant Steps Reachable
  Views Lives Handles Frozen LiveList

/-- A moment in the life of a session: an answer, the start, a mark or a
finished turn. -/
def isMoment : Effect → Bool
  | .answered _ _ _ => true
  | .initGame _ => true
  | .placed _ _ _ _ => true
  | .moved _ _ _ => true
  | _ => false

/-- The moments of a record. -/
def moments (trace : List Effect) : List Effect := trace.filter isMoment

/-- Effects that are no moments do not count. -/
theorem moments_append {trace more : List Effect} (h : ∀ effect ∈ more, isMoment effect = false) :
    moments (trace ++ more) = moments trace := by
  have hnone : more.filter isMoment = [] :=
    List.filter_eq_nil_iff.mpr fun effect he => by simp [h effect he]
  rw [moments, List.filter_append, hnone, List.append_nil]
  rfl

/-- The answers, the players and the play are the same. -/
structure Untouched (s t : Session) : Prop where
  /-- The same players have answered. -/
  confm : ∀ player, t.confirm.st.confm player = s.confirm.st.confm player
  /-- The same users are the players. -/
  players : t.ttt.player1 = s.ttt.player1 ∧ t.ttt.player2 = s.ttt.player2
  /-- The play is the same. -/
  play : SamePlay s.ttt t.ttt

/-- No click of the event is made by a player of the session. -/
def ByOthers (s : Session) (_ : World) : Event → Prop
  | .click click => click.user ≠ s.ttt.player1 ∧ click.user ≠ s.ttt.player2
  | _ => True

/-- Nothing has happened to the session since a certain moment. -/
structure ViewUntouched (s : Session) (before : List Effect) (v : View) : Prop where
  /-- No moment was added to the record. -/
  still : moments v.trace = moments before
  /-- The record is not empty once the session is gone. -/
  known : v.session = none → v.trace ≠ []
  /-- The session is listed as it was, unless it was finished. -/
  listed : (∃ t, v.session = some t ∧ Untouched s t) ∨ v.session = none ∧ Ended s.ttt

variable {w : World} {s t t' : Session} {before trace : List Effect} {pending pending' : List Callback}
  {click : Click} {player : Player}

/-- A session is as untouched as it is. -/
theorem Untouched.refl (s : Session) : Untouched s s :=
  ⟨fun _ => rfl, ⟨rfl, rfl⟩, SamePlay.refl _⟩

/-- A player of the session has not clicked. -/
theorem not_accepts {pre post : List Session} (h : Accepts w click player pre t post)
    (ht : SessionInv w t) (hu : Untouched s t) :
    ¬ (click.user ≠ s.ttt.player1 ∧ click.user ≠ s.ttt.player2) := by
  have hplayer : IsPlayer click.user t := by
    rw [IsPlayer, h.user]
    rfl
  have hcases := ht.isPlayer.mp hplayer
  rw [hu.players.1, hu.players.2] at hcases
  rintro ⟨h1, h2⟩
  exact hcases.elim h1 h2

/-- A player of the session who has the turn has clicked. -/
theorem not_turn {pre post : List Session} (h : Turn w click pre t post) (hu : Untouched s t) :
    ¬ (click.user ≠ s.ttt.player1 ∧ click.user ≠ s.ttt.player2) := by
  have hcases := h.started.turn
  rw [← h.user, hu.players.1, hu.players.2] at hcases
  rintro ⟨h1, h2⟩
  exact hcases.elim h1 h2

/-- The condition at the second handler of a click is the one on the click. -/
theorem byOthers_board (h : Within (ByOthers s) w (.board click)) :
    click.user ≠ s.ttt.player1 ∧ click.user ≠ s.ttt.player2 := by
  obtain ⟨before, -, -, hc⟩ := h
  exact hc

/-- A session that is still listed is untouched. -/
theorem ViewUntouched.same (h : ViewUntouched s before ⟨some t, pending, trace⟩) :
    Untouched s t := by
  rcases h.listed with ⟨u, hu, hsame⟩ | ⟨hn, -⟩
  · cases hu
    exact hsame
  · cases hn

/-- A change that is no moment and touches neither answers nor play. -/
theorem ViewUntouched.keep {more : List Effect} (h : ViewUntouched s before ⟨some t, pending, trace⟩)
    (hmore : ∀ effect ∈ more, isMoment effect = false)
    (hconfm : ∀ player, t'.confirm.st.confm player = t.confirm.st.confm player)
    (h1 : t'.ttt.player1 = t.ttt.player1) (h2 : t'.ttt.player2 = t.ttt.player2)
    (hplay : SamePlay t.ttt t'.ttt) :
    ViewUntouched s before ⟨some t', pending', trace ++ more⟩ := by
  have hsame := h.same
  refine ⟨(moments_append hmore).trans h.still, fun hn => (by cases hn), Or.inl ⟨t', rfl, ?_⟩⟩
  exact ⟨fun q => (hconfm q).trans (hsame.confm q),
    ⟨h1.trans hsame.players.1, h2.trans hsame.players.2⟩, hsame.play.trans hplay⟩

/-- No touch by others changes the session. -/
theorem viewUntouched_touch {p : Part} {v : View} {node : ℕ} (hw : Reached w)
    (hc : Within (ByOthers s) w p) (h : ViewUntouched s before (view w node))
    (ht : Touch w node p (view w node) v) : ViewUntouched s before v := by
  have hfinish := viewFinish_reached hw node
  generalize view w node = u at h ht hfinish
  cases ht with
  | created hf =>
    rcases h.listed with ⟨u, hu, -⟩ | ⟨hn, -⟩
    · cases hu
    · exact absurd rfl (h.known hn)
  | confirmed hacc hs hy ho => exact absurd hc (not_accepts hacc hs h.same)
  | started hacc hs hy ho => exact absurd hc (not_accepts hacc hs h.same)
  | declined hacc hs hn => exact absurd hc (not_accepts hacc hs h.same)
  | played hturn hs hsq hidle => exact absurd (byOthers_board hc) (not_turn hturn h.same)
  | strayed hturn hs hsq => exact absurd (byOthers_board hc) (not_turn hturn h.same)
  | @originSet uid posted deployment t pending trace hcb hfresh hs huid hno =>
    have hkeep : ViewUntouched s before
        ⟨some { t with ttt := t.ttt.setOrigin (posted.deployed deployment) }, pending, trace ++ []⟩ :=
      h.keep (by simp) (fun _ => rfl) rfl rfl ⟨fun _ => rfl, fun _ => rfl, rfl, rfl, rfl⟩
    rwa [List.append_nil] at hkeep
  | dropped hcb hidle => exact ⟨h.still, h.known, h.listed⟩
  | asked hcb =>
    refine ⟨(moments_append (by simp [isMoment])).trans h.still, fun _ => by simp, h.listed⟩
  | orphaned hcb => exact ⟨h.still, h.known, h.listed⟩
  | @stored click deployment t pending trace hcb hfresh hs =>
    have hkeep : ViewUntouched s before ⟨some (t.store ((confirmedReply click).deployed deployment)),
        pending.erase (.originalResponse click t.node), trace ++ []⟩ :=
      h.keep (by simp) (fun _ => rfl) rfl rfl ⟨fun _ => rfl, fun _ => rfl, rfl, rfl, rfl⟩
    rwa [List.append_nil] at hkeep
  | announced hcb hs hr =>
    refine h.keep ?_ (fun _ => rfl) rfl rfl ⟨fun _ => rfl, fun _ => rfl, rfl, rfl, rfl⟩
    exact List.forall_mem_singleton.mpr rfl
  | @erased deployment t pending trace hcb hs =>
    -- a result message is pending for finished sessions only
    have hsent := hfinish.sent hcb
    have hended : Ended t.ttt := (hfinish.finished t rfl).mpr hsent
    have hresult := h.same.play.result
    refine ⟨h.still, fun _ hnil => ?_, Or.inr ⟨rfl, ?_⟩⟩
    · obtain ⟨click, result, hm, -⟩ := hsent
      rw [show trace = [] from hnil] at hm
      cases hm
    · unfold Ended at hended ⊢
      rwa [hresult] at hended

/-- Nothing happens to a session in the second part of a run: its record
gets no new moment, and either it is still listed with the same answers and
the same play, or it had been finished, is listed no more and no callback
captures it. -/
structure StaysUntouched (before middle : List Event) (s : Session) : Prop where
  /-- There is no new moment. -/
  still : moments (effectsOf s.node (run (before ++ middle)).trace) =
    moments (effectsOf s.node (run before).trace)
  /-- The session is as it was, or gone after its end. -/
  listed : (∃ t ∈ (run (before ++ middle)).tttListG, t.node = s.node ∧ Untouched s t) ∨
    Ended s.ttt ∧ (∀ t ∈ (run (before ++ middle)).tttListG, t.node ≠ s.node) ∧
      ∀ callback ∈ (run (before ++ middle)).pending, callback.node? ≠ some s.node

/-- In a run that erases sessions alone, nothing happens to a listed session
in any part without a click by its two players. -/
theorem untouched_run {before middle : List Event}
    (halone : Along World.step ErasesAlone World.init (before ++ middle))
    (hs : s ∈ (run before).tttListG)
    (h : ∀ click, .click click ∈ middle →
      click.user ≠ s.ttt.player1 ∧ click.user ≠ s.ttt.player2) :
    StaysUntouched before middle s := by
  have hw := reached_run before
  have hcond : Along World.step (ByOthers s) (run before) middle := by
    rintro pre e post rfl
    cases e with
    | click click => exact h click (by simp)
    | command => trivial
    | callback => trivial
  have hview := view_after (I := fun n v => n = s.node →
      ViewUntouched s (effectsOf s.node (run before).trace) v) hw (along_parts hw hcond) ?_
    (fun w n p v hw hc hv ht hn => viewUntouched_touch hw hc (hv hn) ht) s.node rfl
  · rw [← run_append] at hview
    refine ⟨hview.still, ?_⟩
    rcases hview.listed with ⟨t, ht, hsame⟩ | ⟨hn, hended⟩
    · obtain ⟨hmem, hnode⟩ := find_mem ht
      exact Or.inl ⟨t, hmem, hnode, hsame⟩
    · refine Or.inr ⟨hended, fun t ht hnode => ?_, fun callback hm hnode => ?_⟩
      · have hfind := find_of_mem (inv_run (before ++ middle)) ht
        rw [hnode] at hfind
        cases hn.symm.trans hfind
      · have hquiet := viewQuiet_run halone s.node hn
        have hin : callback ∈ (view (run (before ++ middle)) s.node).pending :=
          mem_callbacksOf.mpr ⟨hm, hnode⟩
        rw [hquiet] at hin
        cases hin
  · rintro n rfl
    rw [view_of_mem hw.inv hs]
    exact ⟨rfl, fun hn => (by cases hn), Or.inl ⟨s, rfl, Untouched.refl s⟩⟩

/-- User 33 clicks on a square of the game of users 11 and 22, and the edit
of their challenge message fails. -/
def meddling : List Event := [.click (clickBy 33 101 "p_000_4"), .callback .log .error]

/-- A third user meddles with the first game in vain. -/
theorem untouched_handshake :
    ∃ s ∈ (run handshake).tttListG, StaysUntouched handshake meddling s := by
  have halone : Along World.step ErasesAlone World.init (handshake ++ meddling) := by decide
  have hmem : (11, 22) ∈ (run handshake).tttListG.map fun t => (t.ttt.player1, t.ttt.player2) := by
    decide
  obtain ⟨s, hs, hplayers⟩ := List.mem_map.mp hmem
  obtain ⟨h1, h2⟩ := Prod.mk.inj hplayers
  refine ⟨s, hs, untouched_run halone hs fun click hclick => ?_⟩
  have he : click = clickBy 33 101 "p_000_4" := by simpa [meddling] using hclick
  rw [he, h1, h2]
  decide

end TintempPlusPlus.Access
