import TintempPlusPlus.LiveList

/-!
# The reply of a declined challenge

A Nah deletes the "(1/2)" reply if that reply has been stored by then. The
callback that stores it does not look at whether the challenge was declined
in the meantime, so a Nah that overtakes it leaves the reply behind for good.
Runs in which every Nah after a sent reply finds it stored are exactly those
that leave none behind.
-/

namespace TintempPlusPlus.Deletion

open Discord UniqueID Ttt Handlers ScanLoop Play HandlerLaws Program OneEntry EventRuns Invariant
  Steps Reachable Views Lives LiveList

/-- The "(1/2)" reply of a list element was sent. -/
def SentIn (node : ℕ) (trace : List Effect) : Prop :=
  ∃ click, .reply click .channelMessageWithSource (confirmedReply click)
    (.confirmReply click node) ∈ trace

/-- Every declined challenge whose "(1/2)" reply was sent has it stored, and
its deletion has been requested. -/
def RepliesDeleted (w : World) : Prop :=
  ∀ s ∈ w.tttListG, SentIn s.node w.trace → DeclinedIn s.node w.trace →
    s.confirm.st.replied = true ∧
      .messageDelete s.confirm.repliedMsg.id s.confirm.repliedMsg.channelId ∈ w.trace

/-- A Nah that is accepted after the "(1/2)" reply was sent finds it
stored. -/
def NahAfterReply (w : World) : Event → Prop
  | .click click => ∀ player pre s post, Accepts w click player pre s post →
    click.customId = s.confirm.btnId.2 → SentIn s.node w.trace → s.confirm.st.replied = true
  | _ => True

/-- No request fails. -/
def Succeeds (_ : World) : Event → Prop
  | .callback _ .error => False
  | _ => True

instance decidableSucceeds (w : World) : ∀ e, Decidable (Succeeds w e)
  | .callback _ .error => .isFalse id
  | .callback _ (.success _) => .isTrue trivial
  | .command _ _ => .isTrue trivial
  | .click _ => .isTrue trivial

variable {w : World} {node : ℕ} {s : Session} {click : Click} {player : Player}
  {pre post : List Session}

/-- The reply, the answers and the session of one list element, with all
requests of the run. -/
def NodeDeleted (trace : List Effect) (v : View) (node : ℕ) : Prop :=
  ∀ s, v.session = some s → SentIn node v.trace → DeclinedIn node v.trace →
    s.confirm.st.replied = true ∧
      .messageDelete s.confirm.repliedMsg.id s.confirm.repliedMsg.channelId ∈ trace

/-- The record of a session tells whether its reply was sent. -/
theorem sentIn_effectsOf {trace : List Effect} :
    SentIn node (effectsOf node trace) ↔ SentIn node trace := by
  simp [SentIn, mem_effectsOf, Effect.node?, Callback.node?]

/-- The record of a session tells whether it was declined. -/
theorem declinedIn_effectsOf {trace : List Effect} :
    DeclinedIn node (effectsOf node trace) ↔ DeclinedIn node trace := by
  simp [DeclinedIn, mem_effectsOf, Effect.node?]

/-- What holds of every list element holds of every session. -/
theorem repliesDeleted_of_nodes (hi : Inv w)
    (h : ∀ node, NodeDeleted w.trace (view w node) node) : RepliesDeleted w := by
  intro s hs hsent hdeclined
  have hnode := h s.node
  rw [view_of_mem hi hs] at hnode
  exact hnode s rfl (sentIn_effectsOf.mpr hsent) (declinedIn_effectsOf.mpr hdeclined)

/-- What neither answers nor touches the confirm button keeps the fact. -/
theorem NodeDeleted.keep {trace trace' : List Effect} {s s' : Session}
    {pending pending' : List Callback} {more seen : List Effect}
    (h : NodeDeleted trace ⟨some s, pending, seen⟩ node) (hsub : trace ⊆ trace')
    (hc : s'.confirm = s.confirm)
    (hmore : ∀ effect ∈ more, (∀ q a, effect ≠ .answered node q a) ∧
      ∀ c m, effect ≠ .reply c .channelMessageWithSource m (.confirmReply c node)) :
    NodeDeleted trace' ⟨some s', pending', seen ++ more⟩ node := by
  rintro t ⟨⟩ ⟨c, hsent⟩ ⟨q, hdeclined⟩
  have hold : SentIn node seen := by
    rcases List.mem_append.mp hsent with hin | hin
    · exact ⟨c, hin⟩
    · exact absurd rfl ((hmore _ hin).2 c _)
  have hold' : DeclinedIn node seen := by
    rcases List.mem_append.mp hdeclined with hin | hin
    · exact ⟨q, hin⟩
    · exact absurd rfl ((hmore _ hin).1 q .nah)
  obtain ⟨hreplied, hdeleted⟩ := h s rfl hold hold'
  rw [hc]
  exact ⟨hreplied, hsub hdeleted⟩

/-- An accepted Nah is recorded and deletes the stored reply. -/
theorem trace_of_nah (hi : Inv w) (h : Accepts w click player pre s post)
    (hn : click.customId = s.confirm.btnId.2) :
    .answered s.node player .nah ∈ (w.confirmClick click).trace ∧
      (s.confirm.st.replied = true →
        .messageDelete s.confirm.repliedMsg.id s.confirm.repliedMsg.channelId ∈
          (w.confirmClick click).trace) := by
  have hy : click.customId ≠ s.confirm.btnId.1 := by
    rw [hn]
    exact (hi.sessions s h.mem).buttons.symm
  rw [confirmClick_accepts hi h]
  refine ⟨by simp [World.emit, accept, hy], fun hr => ?_⟩
  simp [World.emit, accept, hy, hr, Session.flag]

/-- Every touch keeps the fact when the condition is met. -/
theorem nodeDeleted_touch (hw : Reached w) {p : Part} {v : View}
    (hc : Within NahAfterReply w p) (h : NodeDeleted w.trace (view w node) node)
    (ht : Touch w node p (view w node) v) : NodeDeleted (w.part p).trace v node := by
  have hlived := lived_reached hw node
  obtain ⟨more, hmore⟩ := change_trace (part_change hw.inv p)
  have hsub : w.trace ⊆ (w.part p).trace := hmore ▸ List.subset_append_left _ _
  have hknown : ∀ {m}, SentIn m (view w m).trace → SentIn m w.trace := sentIn_effectsOf.mp
  generalize hu : view w node = u at h ht hlived
  cases ht with
  | created hf =>
    rintro t ⟨⟩ ⟨c, hsent⟩
    cases hsent
  | @confirmed click player pre s post pending trace hacc hs hy ho =>
    rintro t ⟨⟩ - ⟨q, hdeclined⟩
    have hl := lived_some.mp hlived
    have hq : s.confirm.st.confm q = true := (hl.flags q).mpr ⟨.nah, by simpa using hdeclined⟩
    rcases Player.eq_or_other q player with rfl | rfl
    · rw [hacc.unanswered] at hq
      cases hq
    · rw [ho] at hq
      cases hq
  | @declined click player pre s post pending trace hacc hs hn =>
    rintro t ⟨⟩ hsent -
    have hold : SentIn s.node w.trace := by
      refine hknown ?_
      rw [hu]
      obtain ⟨c, hin⟩ := hsent
      exact ⟨c, by simpa using hin⟩
    have hr := hc player pre s post hacc hn hold
    have hdeleted := (trace_of_nah hw.inv hacc hn).2 hr
    exact ⟨(ConfirmStatus.setConfm_replied _ _).trans hr, hdeleted⟩
  | @started click player pre s post pending trace hacc hs hy ho =>
    rintro t ⟨⟩ ⟨c, hsent⟩ ⟨q, hdeclined⟩
    obtain ⟨hreplied, hdeleted⟩ := h s rfl ⟨c, by simpa using hsent⟩ ⟨q, by simpa using hdeclined⟩
    exact ⟨(ConfirmStatus.setConfm_replied _ _).trans hreplied, hsub hdeleted⟩
  | @stored click deployment s pending trace hcb hfresh hs =>
    rintro t ⟨⟩ hsent hdeclined
    have hl := lived_some.mp hlived
    have hdone := hl.done (h s rfl hsent hdeclined).1
    have hmem := mem_awaiting.mpr ⟨hcb, rfl⟩
    rw [hdone] at hmem
    cases hmem
  | played hturn hs hsq hidle => exact h.keep hsub rfl (by simp [moveEffects])
  | strayed hturn hs hsq => exact h.keep hsub rfl (by simp [moveEffects])
  | announced hcb hs hr => exact h.keep hsub rfl (by simp)
  | @originSet uid posted deployment s pending trace hcb hfresh hs huid hno =>
    have hkept := @NodeDeleted.keep s.node w.trace (w.part _).trace s
      { s with ttt := s.ttt.setOrigin (posted.deployed deployment) } pending pending [] trace h
      hsub rfl (by simp)
    rwa [List.append_nil] at hkept
  | @dropped node callback response session pending trace hcb hidle =>
    intro s hs hsent hdeclined
    obtain ⟨hreplied, hdeleted⟩ := h s hs hsent hdeclined
    exact ⟨hreplied, hsub hdeleted⟩
  | @asked node click response session pending trace hcb =>
    cases session with
    | none => exact fun s hs => by cases hs
    | some s => exact h.keep hsub rfl (by simp)
  | orphaned => exact fun s hs => by cases hs
  | erased => exact fun s hs => by cases hs

/-- When the condition is met no reply is left behind. -/
theorem repliesDeleted_run {events : List Event}
    (h : Along World.step NahAfterReply World.init events) : RepliesDeleted (run events) := by
  refine repliesDeleted_of_nodes (inv_run events) ?_
  rw [run_eq_parts]
  refine invariant_along (I := fun w => ∀ node, NodeDeleted w.trace (view w node) node)
    reached_init (along_parts reached_init h) ?_ ?_
  · intro node s hs
    cases hs
  · intro w p hw hc hall node
    rcases change_view hw.inv (part_change hw.inv p) node with hsame | htouch
    · obtain ⟨more, hmore⟩ := change_trace (part_change hw.inv p)
      rw [hsame]
      intro s hs hsent hdeclined
      obtain ⟨hreplied, hdeleted⟩ := hall node s hs hsent hdeclined
      exact ⟨hreplied, hmore ▸ List.mem_append_left _ hdeleted⟩
    · exact nodeDeleted_touch hw hc (hall node) htouch

/-- A requested deletion is of the reply of an accepted Nah. -/
theorem change_delete {p : Part} {w' : World} (h : Change w p w') {id channel : Snowflake}
    (hm : .messageDelete id channel ∈ w'.trace) : .messageDelete id channel ∈ w.trace ∨
      ∃ click player pre s post, p = .confirm click ∧ Accepts w click player pre s post ∧
        s.confirm.st.replied = true ∧ id = s.confirm.repliedMsg.id := by
  have hold : ∀ {effects : List Effect}, (∀ effect ∈ effects, effect ≠ .messageDelete id channel) →
      .messageDelete id channel ∈ w.trace ++ effects → .messageDelete id channel ∈ w.trace :=
    fun hne hin => (List.mem_append.mp hin).resolve_right fun hin => hne _ hin rfl
  cases h with
  | quiet hwarn => exact Or.inl (hold (fun effect he heq => by cases heq ▸ hwarn effect he) hm)
  | challenged => exact Or.inl (hold (by simp) hm)
  | @accepted click player pre s post hacc =>
    rcases List.mem_append.mp hm with hin | hin
    · exact Or.inl hin
    · rcases List.mem_append.mp hin with hin | hin
      · refine Or.inr ⟨click, player, pre, s, post, rfl, hacc, ?_⟩
        unfold accept at hin
        split_ifs at hin with hy ho
        · simp at hin
        · simp at hin
        · rcases List.mem_append.mp hin with hin | hin
          · simp at hin
          · split_ifs at hin with hr
            · have heq := List.mem_singleton.mp hin
              simp only [Effect.messageDelete.injEq] at heq
              exact ⟨(ConfirmStatus.setConfm_replied _ _).symm.trans hr, heq.1⟩
            · cases hin
      · cases warning_of_mem_warnings _ hin
  | played => exact Or.inl (hold (by simp [moveEffects]) hm)
  | strayed => exact Or.inl (hold (by simp [moveEffects]) hm)
  | asked => exact Or.inl (hold (by simp) hm)
  | announced => exact Or.inl (hold (by simp) hm)
  | dropped => exact Or.inl hm
  | received => exact Or.inl hm
  | originSet => exact Or.inl hm
  | stored => exact Or.inl hm
  | erased => exact Or.inl hm

/-- A stored reply is a message that Discord has returned. -/
theorem replied_known (hw : Reached w) (hs : s ∈ w.tttListG) (hr : s.confirm.st.replied = true) :
    s.confirm.repliedMsg.id ∈ messageIds s := by
  obtain ⟨hne, hgame⟩ := (listed_reached hw hs).stored hr
  exact mem_messageIds.mpr ⟨hne, Or.inl hgame.symm⟩

/-- Only returned messages are deleted. -/
theorem deleted_issued (hw : Reached w) {id channel : Snowflake}
    (hm : .messageDelete id channel ∈ w.trace) : id ∈ w.issued := by
  refine invariant_reached (I := fun w => ∀ id channel, .messageDelete id channel ∈ w.trace →
    id ∈ w.issued) ?_ ?_ hw id channel hm
  · intro id channel hin
    cases hin
  · intro w p hw h id channel hin
    have hch := part_change hw.inv p
    rcases change_delete hch hin with hold | ⟨click, player, pre, s, post, -, hacc, hr, rfl⟩
    · exact change_issued hch (h id channel hold)
    · exact change_issued hch ((hw.inv.sessions s hacc.mem).known _ (replied_known hw hacc.mem hr))

/-- A session that both players have answered, whose game was never started
and whose reply is not deleted. -/
structure Spared (trace : List Effect) (v : View) (s : Session) : Prop where
  /-- The session is listed. -/
  listed : v.session = some s
  /-- No further answer is accepted. -/
  answered : ∀ player, s.confirm.st.confm player = true
  /-- Nobody can play. -/
  waiting : Waiting s.ttt
  /-- No callback leads to the end of the game. -/
  awaiting : ∀ callback ∈ v.pending, awaitsReply callback = true
  /-- The reply is not deleted. -/
  kept : s.confirm.st.replied = true → ∀ channel,
    .messageDelete s.confirm.repliedMsg.id channel ∉ trace

/-- The reply of a session that keeps its place is still spared. -/
theorem Spared.move {trace trace' : List Effect} {v v' : View} (h : Spared trace v s)
    (hlisted : v'.session = some s) (hpending : ∀ callback ∈ v'.pending, callback ∈ v.pending ∨
      awaitsReply callback = true)
    (htrace : ∀ id channel, .messageDelete id channel ∈ trace' →
      .messageDelete id channel ∈ trace) : Spared trace' v' s := by
  refine ⟨hlisted, h.answered, h.waiting, fun callback hm => ?_, fun hr channel hm =>
    h.kept hr channel (htrace _ _ hm)⟩
  rcases hpending callback hm with hold | hnew
  · exact h.awaiting callback hold
  · exact hnew

/-- Every touch of the session spares its reply. -/
theorem spared_touch (hw : Reached w) {p : Part} {v v' : View} {trace' : List Effect}
    (h : Spared w.trace v s) (ht : Touch w node p v v')
    (htrace : (∀ click, p ≠ .confirm click) → ∀ id channel, .messageDelete id channel ∈ trace' →
      .messageDelete id channel ∈ w.trace) : ∃ s', Spared trace' v' s' := by
  have hunanswered : ∀ {player}, s.confirm.st.confm player ≠ false := by
    intro player hno
    rw [h.answered player] at hno
    cases hno
  cases ht with
  | created => cases h.listed
  | confirmed hacc =>
    cases h.listed
    exact absurd hacc.unanswered hunanswered
  | started hacc =>
    cases h.listed
    exact absurd hacc.unanswered hunanswered
  | declined hacc =>
    cases h.listed
    exact absurd hacc.unanswered hunanswered
  | played hacc =>
    cases h.listed
    exact absurd hacc.user (h.waiting.turn_ne _)
  | strayed hacc =>
    cases h.listed
    exact absurd hacc.user (h.waiting.turn_ne _)
  | announced hcb => cases h.awaiting _ hcb
  | erased hcb => cases h.awaiting _ hcb
  | orphaned => cases h.listed
  | @originSet uid posted deployment t pending trace hcb hfresh hs huid hno =>
    cases h.listed
    have hmoved : Spared trace' ⟨some s, pending, trace⟩ s :=
      h.move rfl (fun _ hm => Or.inl hm) (htrace (by simp))
    exact ⟨_, rfl, h.answered, ⟨h.waiting.turn, h.waiting.turns, h.waiting.result,
      h.waiting.board⟩, hmoved.awaiting, hmoved.kept⟩
  | dropped =>
    exact ⟨s, h.move h.listed (fun _ hm => Or.inl (List.mem_of_mem_erase hm)) (htrace (by simp))⟩
  | asked =>
    refine ⟨s, h.move h.listed (fun callback hm => ?_) (htrace (by simp))⟩
    rcases List.mem_append.mp hm with hm | hm
    · exact Or.inl (List.mem_of_mem_erase hm)
    · rw [List.mem_singleton.mp hm]
      exact Or.inr rfl
  | @stored click deployment t pending trace hcb hfresh hs =>
    cases h.listed
    refine ⟨_, rfl, h.answered, ⟨h.waiting.turn, h.waiting.turns, h.waiting.result,
      h.waiting.board⟩, fun callback hm => h.awaiting _ (List.mem_of_mem_erase hm), ?_⟩
    -- the id of the reply is new, and only known messages have been deleted
    exact fun _ channel hm => hfresh (deleted_issued hw (htrace (by simp) _ _ hm))

/-- A reply that is spared once is spared for good. -/
theorem spared_part (hw : Reached w) (p : Part) (h : Spared w.trace (view w node) s) :
    ∃ s', Spared (w.part p).trace (view (w.part p) node) s' := by
  obtain ⟨hs, rfl⟩ := find_mem h.listed
  have hch := part_change hw.inv p
  rcases change_view hw.inv hch s.node with hsame | htouch
  · refine ⟨s, hsame ▸ ⟨h.listed, h.answered, h.waiting, h.awaiting, fun hr channel hm => ?_⟩⟩
    rcases change_delete hch hm with hold | ⟨click, player, pre, t, post, -, hacc, htr, hid⟩
    · exact h.kept hr channel hold
    · -- the Nah of another session deletes another message
      have hne : s ≠ t := by
        rintro rfl
        have hno := hacc.unanswered
        rw [h.answered player] at hno
        cases hno
      have hother : s ∈ pre ++ post := by
        rw [hacc.list] at hs
        exact (mem_entry.mp hs).resolve_left hne
      have hapart := ((hw.inv.focus hacc.list).2 s hother).2
      exact hapart.messages (replied_known hw hacc.mem htr) (hid ▸ replied_known hw hs hr)
  · refine spared_touch hw h htouch fun hp id channel hm => (change_delete hch hm).resolve_right ?_
    rintro ⟨click, _, _, _, _, he, -⟩
    exact hp click he

/-- A spared reply stays spared in every continuation. -/
theorem spared_after (hw : Reached w) (ps : List Part) (h : Spared w.trace (view w node) s) :
    ∃ s', Spared (after World.part w ps).trace (view (after World.part w ps) node) s' :=
  invariant_after (I := fun w => ∃ s, Spared w.trace (view w node) s) hw ps ⟨s, h⟩
    fun _ p hw ⟨_, h⟩ => spared_part hw p h

/-- The "(1/2)" reply follows an answer. -/
def ViewSent (node : ℕ) (v : View) : Prop :=
  SentIn node v.trace → ∃ player answer, .answered node player answer ∈ v.trace

/-- The fact is kept by what sends no such reply. -/
theorem ViewSent.keep {session session' : Option Session} {pending pending' : List Callback}
    {trace more : List Effect} (h : ViewSent node ⟨session, pending, trace⟩)
    (hmore : ∀ effect ∈ more, ∀ c m,
      effect ≠ .reply c .channelMessageWithSource m (.confirmReply c node)) :
    ViewSent node ⟨session', pending', trace ++ more⟩ := by
  rintro ⟨c, hsent⟩
  rcases List.mem_append.mp hsent with hold | hnew
  · obtain ⟨q, answer, ha⟩ := h ⟨c, hold⟩
    exact ⟨q, answer, List.mem_append_left _ ha⟩
  · exact absurd rfl (hmore _ hnew c _)

/-- Every touch keeps what is known about the sent reply. -/
theorem viewSent_touch {p : Part} {v v' : View} (h : ViewSent node v) (ht : Touch w node p v v') :
    ViewSent node v' := by
  cases ht with
  | created =>
    rintro ⟨c, hsent⟩
    cases hsent
  | @confirmed click player pre s post pending trace =>
    exact fun _ => ⟨player, .yes, by simp⟩
  | started => exact h.keep (by simp)
  | declined => exact h.keep (by simp)
  | played => exact h.keep (by simp [moveEffects])
  | strayed => exact h.keep (by simp [moveEffects])
  | asked => exact h.keep (by simp)
  | announced => exact h.keep (by simp)
  | originSet => exact h
  | dropped => exact h
  | orphaned => exact h
  | stored => exact h
  | erased => exact h

/-- In every reached world the sent reply is accounted for. -/
theorem viewSent_reached (hw : Reached w) (node : ℕ) : ViewSent node (view w node) := by
  refine view_reached (I := ViewSent) ?_ (fun _ _ _ _ _ h ht => viewSent_touch h ht) hw node
  rintro node ⟨c, hsent⟩
  cases hsent

/-- An early Nah, seen at its session, spares the reply that is still on its
way. -/
theorem spared_declined (hw : Reached w) {v : View} {trace : List Effect}
    (hs : (view w node).session = some s) (hn : click.customId = s.confirm.btnId.2)
    (hsent : SentIn node w.trace) (hr : s.confirm.st.replied = false)
    (ht : Touch w node (.confirm click) (view w node) v) : ∃ s', Spared trace v s' := by
  have hlived := lived_reached hw node
  have hanswer := viewSent_reached hw node (sentIn_effectsOf.mpr hsent)
  generalize view w node = u at hs ht hlived hanswer
  cases ht with
  | confirmed hacc hinv hy =>
    cases hs
    exact absurd (hy.symm.trans hn) hinv.buttons
  | started hacc hinv hy =>
    cases hs
    exact absurd (hy.symm.trans hn) hinv.buttons
  | @declined click player pre s post pending trace hacc hinv =>
    cases hs
    have hl := lived_some.mp hlived
    obtain ⟨q, answer, ha⟩ := hanswer
    have hq : s.confirm.st.confm q = true := (hl.flags q).mpr ⟨answer, ha⟩
    have hother : s.confirm.st.confm player.other = true := by
      rcases Player.eq_or_other q player with rfl | rfl
      · rw [hacc.unanswered] at hq
        cases hq
      · exact hq
    have hwaiting := accepts_waiting hacc hinv
    refine ⟨_, rfl, flag_all hother,
      ⟨hwaiting.turn, hwaiting.turns, hwaiting.result, hwaiting.board⟩, ?_, ?_⟩
    · intro callback hm
      by_contra hno
      rw [hl.ready callback hm (Bool.eq_false_of_not_eq_true hno)] at hr
      cases hr
    · intro hreplied
      rw [(ConfirmStatus.setConfm_replied _ _).symm.trans hreplied] at hr
      cases hr

/-- A Nah before the reply is stored spares the reply. -/
theorem spared_of_early (hw : Reached w) (hacc : Accepts w click player pre s post)
    (hn : click.customId = s.confirm.btnId.2) (hsent : SentIn s.node w.trace)
    (hr : s.confirm.st.replied = false) :
    ∃ s', Spared (w.confirmClick click).trace (view (w.confirmClick click) s.node) s' := by
  have ht := touch_accepted hw.inv hacc
  rw [← confirmClick_accepts hw.inv hacc] at ht
  exact spared_declined hw (find_of_mem hw.inv hacc.mem) hn hsent hr ht

/-- After an early Nah the reply is never deleted. -/
theorem not_deleted_of_early {before behind : List Event}
    (hacc : Accepts (run before) click player pre s post)
    (hn : click.customId = s.confirm.btnId.2) (hsent : SentIn s.node (run before).trace)
    (hr : s.confirm.st.replied = false) :
    ¬ RepliesDeleted (run (before ++ .click click :: behind)) := by
  intro h
  have hw := reached_run before
  have hw' : Reached ((run before).confirmClick click) := reached_part hw (.confirm click)
  have hrun : run (before ++ .click click :: behind) =
      after World.part ((run before).confirmClick click)
        (.board click :: behind.flatMap Event.parts) :=
    run_append before (.click click :: behind)
  obtain ⟨t, ht⟩ := spared_of_early hw hacc hn hsent hr
  obtain ⟨u, hu⟩ := spared_after hw' (.board click :: behind.flatMap Event.parts) ht
  obtain ⟨c, hc⟩ := hsent
  obtain ⟨first, hfirst⟩ := trace_run before (.click click :: behind)
  obtain ⟨more, hmore⟩ := trace_after hw'.inv (.board click :: behind.flatMap Event.parts)
  rw [← hrun] at hu hmore
  have hreply := hfirst ▸ List.mem_append_left first hc
  have hnah := hmore ▸ List.mem_append_left more (trace_of_nah hw.inv hacc hn).1
  obtain ⟨hmem, hnode⟩ := find_mem hu.listed
  obtain ⟨hreplied, hdeleted⟩ := h u hmem (hnode ▸ ⟨c, hreply⟩) (hnode ▸ ⟨player, hnah⟩)
  exact hu.kept hreplied _ hdeleted

/-- In a run every declined challenge has its "(1/2)" reply deleted if and
only if every Nah that is accepted after the reply was sent finds it
stored. -/
theorem repliesDeleted_iff (events : List Event) :
    RepliesDeleted (run events) ↔ Along World.step NahAfterReply World.init events := by
  refine ⟨?_, repliesDeleted_run⟩
  rintro h before e behind rfl
  cases e with
  | command => trivial
  | callback => trivial
  | click click =>
    intro player pre s post hacc hn hsent
    by_contra hr
    exact not_deleted_of_early hacc hn hsent (Bool.eq_false_of_not_eq_true hr) h

/-- User 22 accepts, user 11 declines while the "(1/2)" reply is on its way,
and then every request ends well. -/
def overtaken : List Event :=
  opening ++
    [.click firstYes, .click (clickBy 11 100 "confm_3_n"),
      .callback (.confirmReply firstYes 0) (succeeds 1), .callback .log (succeeds 100),
      .callback (.originalResponse firstYes 0) (succeeds 101)]

/-- All requests have ended well, and the reply of the declined challenge is
still there. -/
theorem overtaken_not_deleted : (run overtaken).pending = [] ∧
    Along World.step Succeeds World.init overtaken ∧ ¬ RepliesDeleted (run overtaken) := by
  refine ⟨by decide, by decide, fun h => ?_⟩
  have hstate : (0, true, 101, 5) ∈ (run overtaken).tttListG.map fun s =>
      (s.node, s.confirm.st.replied, s.confirm.repliedMsg.id, s.confirm.repliedMsg.channelId) := by
    decide
  have hkept : .messageDelete 101 5 ∉ (run overtaken).trace := by decide
  obtain ⟨s, hs, heq⟩ := List.mem_map.mp hstate
  obtain ⟨hnode, hreplied, hid, hchannel⟩ := by simpa using heq
  have hdeleted := (h s hs ⟨firstYes, ?_⟩ ⟨.one, ?_⟩).2
  · rw [hid, hchannel] at hdeleted
    exact hkept hdeleted
  · rw [hnode]
    decide
  · rw [hnode]
    decide

end TintempPlusPlus.Deletion
