import TintempPlusPlus.Lives

/-!
# The message that shows the board

A started game should be shown on the stored "(1/2)" reply. The second YES
does not wait for that reply, so a quick one starts a game without a
message, and the reply that arrives later replaces the game message by one
without a board. Runs in which every starting YES finds the reply stored are
exactly those in which every started game is shown.
-/

namespace TintempPlusPlus.Deployment

open Discord UniqueID Ttt Handlers ScanLoop Play HandlerLaws Program OneEntry EventRuns Invariant
  Steps Reachable Views Lives

/-- The game is shown on the stored reply, with the buttons of its board. -/
structure Deployed (s : Session) : Prop where
  /-- The reply has been stored. -/
  replied : s.confirm.st.replied = true
  /-- The stored reply is a posted message. -/
  posted : s.confirm.repliedMsg.id ≠ 0
  /-- The game message is the stored reply. -/
  message : s.ttt.game.id = s.confirm.repliedMsg.id
  /-- Its buttons are the nine buttons of the board. -/
  buttons : s.ttt.game.customIds = squares.map fun square => (s.ttt.board square).id

instance (s : Session) : Decidable (Deployed s) :=
  decidable_of_iff (s.confirm.st.replied = true ∧ s.confirm.repliedMsg.id ≠ 0 ∧
      s.ttt.game.id = s.confirm.repliedMsg.id ∧
      s.ttt.game.customIds = squares.map fun square => (s.ttt.board square).id)
    ⟨fun h => ⟨h.1, h.2.1, h.2.2.1, h.2.2.2⟩, fun h => ⟨h.replied, h.posted, h.message, h.buttons⟩⟩

/-- At every moment of the run every started game is shown. -/
def GamesDeployed (events : List Event) : Prop :=
  ∀ before behind, events = before ++ behind → ∀ s ∈ (run before).tttListG,
    .initGame s.node ∈ (run before).trace → Deployed s

/-- A YES that starts a game finds the reply to the first one stored. -/
def StartsAfterReply (w : World) : Event → Prop
  | .click click => ∀ player pre s post, Accepts w click player pre s post →
    click.customId = s.confirm.btnId.1 → s.confirm.st.confm player.other = true →
    s.confirm.st.replied = true
  | _ => True

variable {w : World} {click : Click} {s : Session}

/-- The deployment of a started game, read at its view. -/
def ViewDeployed (node : ℕ) (v : View) : Prop :=
  ∀ s, v.session = some s → .initGame node ∈ v.trace → Deployed s

/-- What the deployment of a game depends on. -/
theorem Deployed.congr {s' : Session} (h : Deployed s) (hc : s'.confirm = s.confirm)
    (hg : s'.ttt.game = s.ttt.game)
    (hb : ∀ square, (s'.ttt.board square).id = (s.ttt.board square).id) : Deployed s' := by
  refine ⟨?_, ?_, ?_, ?_⟩ <;> simp only [hc, hg, hb]
  · exact h.replied
  · exact h.posted
  · exact h.message
  · exact h.buttons

/-- The deployment is kept by what neither starts the game nor touches what
it depends on. -/
theorem ViewDeployed.keep {node : ℕ} {s s' : Session} {pending pending' : List Callback}
    {trace trace' : List Effect} (h : ViewDeployed node ⟨some s, pending, trace⟩)
    (htrace : .initGame node ∈ trace' → .initGame node ∈ trace)
    (hd : Deployed s → Deployed s') : ViewDeployed node ⟨some s', pending', trace'⟩ := by
  rintro t ⟨⟩ hinit
  exact hd (h s rfl (htrace hinit))

/-- A game started after the reply was stored is shown on it. -/
theorem deployed_start {player : Player} {pending : List Callback} {trace : List Effect}
    {nextID : ℕ} (hl : Listed s.node s pending trace) (hr : s.confirm.st.replied = true)
    (hn : .initGame s.node ∉ trace) : Deployed ((s.flag player).start nextID).1 := by
  have hgame : s.ttt.game = s.confirm.repliedMsg := hl.plain hn
  obtain ⟨hposted, hid⟩ := hl.stored hr
  have hblank : s.confirm.repliedMsg.customIds = [] := by
    simp [Message.customIds, hl.blank]
  refine ⟨?_, hposted, ?_, ?_⟩
  · exact (ConfirmStatus.setConfm_replied s.confirm.st player).trans hr
  · simp only [Session.start, Game.initGame]
    rw [fetchTttTurn_eq]
    exact hid
  · have hsame : (s.flag player).ttt.game = s.confirm.repliedMsg := hgame
    rw [start_customIds, hsame, hblank, List.nil_append]

/-- Every touch keeps started games shown when the condition is met. -/
theorem viewDeployed_touch {node : ℕ} {p : Part} {v : View} (hw : Reached w)
    (hc : Within StartsAfterReply w p) (h : ViewDeployed node (view w node))
    (ht : Touch w node p (view w node) v) : ViewDeployed node v := by
  have hlived := lived_reached hw node
  generalize view w node = u at h ht hlived
  cases ht with
  | created hf =>
    intro s hs hinit
    cases hinit
  | @started click player pre s post pending trace hacc hs hy ho =>
    rintro t ⟨⟩ -
    have hl := lived_some.mp hlived
    refine deployed_start hl (hc player pre s post hacc hy ho) ?_
    intro hinit
    exact hl.begun hinit (congrArg Prod.fst (accepts_waiting hacc hs).turn)
  | @stored click deployment s pending trace hcb hfresh hs =>
    rintro t ⟨⟩ hinit
    have hl := lived_some.mp hlived
    have hdone := hl.done (h s rfl hinit).replied
    have hmem := mem_awaiting.mpr ⟨hcb, rfl⟩
    rw [hdone] at hmem
    cases hmem
  | confirmed hacc hs hy ho =>
    refine h.keep (by simp) fun hd => ⟨?_, hd.posted, hd.message, hd.buttons⟩
    exact (ConfirmStatus.setConfm_replied _ _).trans hd.replied
  | declined hacc hs hn =>
    refine h.keep (by simp) fun hd => ⟨?_, hd.posted, hd.message, hd.buttons⟩
    exact (ConfirmStatus.setConfm_replied _ _).trans hd.replied
  | played hturn hs hsq hidle =>
    refine h.keep (by simp [moveEffects]) fun hd => hd.congr rfl ?_ ?_
    · simp [Game.move, Game.setStatus]
    · intro other
      simp [Game.move, setStatus_id]
  | strayed hturn hs hsq =>
    exact h.keep (by simp [moveEffects]) fun hd => hd.congr rfl (by simp) (by simp)
  | originSet => exact h.keep id fun hd => hd.congr rfl rfl fun _ => rfl
  | dropped => exact h
  | @asked node click response session pending trace hcb =>
    cases session with
    | none => exact fun s hs => by cases hs
    | some s => exact h.keep (by simp) id
  | orphaned => exact h
  | announced => exact h.keep (by simp) fun hd => hd.congr rfl rfl fun _ => rfl
  | erased => exact fun s hs => by cases hs

/-- A second YES before the reply was stored starts a game that is not
shown. -/
theorem started_unreplied (hi : Inv w) {player : Player} {pre post : List Session}
    (h : Accepts w click player pre s post) (hy : click.customId = s.confirm.btnId.1)
    (ho : s.confirm.st.confm player.other = true) (hr : ¬ s.confirm.st.replied = true) :
    ∃ s' ∈ (w.step (.click click)).tttListG, .initGame s'.node ∈ (w.step (.click click)).trace ∧
      ¬ Deployed s' := by
  have hconfirm := confirmClick_accepts hi h
  have hi' : Inv (w.confirmClick click) := change_inv hi (confirm_change hi click)
  simp only [accept, if_pos hy, ho, Bool.true_eq_false, if_false] at hconfirm
  have hmem : ((s.flag player).start w.nextID).1 ∈ (w.confirmClick click).tttListG := by
    rw [hconfirm]
    simp [World.emit]
  have hinit : .initGame s.node ∈ (w.confirmClick click).trace := by
    rw [hconfirm]
    simp [World.emit]
  obtain ⟨s', hs', hnode, hc⟩ := boardClick_confirm hi' click hmem
  obtain ⟨more, hmore⟩ := change_trace (board_change hi' click)
  refine ⟨s', hs', ?_, ?_⟩
  · rw [hnode]
    simp only [World.step]
    rw [hmore]
    exact List.mem_append_left _ hinit
  · intro hd
    have hreplied := hd.replied
    rw [hc] at hreplied
    exact hr ((ConfirmStatus.setConfm_replied s.confirm.st player).symm.trans hreplied)

/-- In a run every started game is shown on the stored reply at every moment
if and only if every YES that starts a game finds the reply stored. -/
theorem gamesDeployed_iff (events : List Event) :
    GamesDeployed events ↔ Along World.step StartsAfterReply World.init events := by
  constructor
  · rintro h before e behind rfl
    cases e with
    | command => trivial
    | callback => trivial
    | click click =>
      intro player pre s post hacc hy ho
      by_contra hr
      obtain ⟨s', hs', hinit, hd⟩ := started_unreplied (inv_run before) hacc hy ho hr
      rw [← run_concat] at hs' hinit
      exact hd (h (before ++ [.click click]) behind (by simp) s' hs' hinit)
  · rintro h before behind rfl s hs hinit
    have hview := view_run (I := ViewDeployed) h.front (fun _ s hs => by cases hs)
      (fun w node p v hw hc hv ht => viewDeployed_touch hw hc hv ht) s.node
    rw [view_of_mem (inv_run before) hs] at hview
    exact hview s rfl (mem_effectsOf.mpr ⟨hinit, rfl⟩)

/-- The second YES comes before the reply to the first one is stored. -/
def quickYes : List Event :=
  opening ++ [.click firstYes, .click (clickBy 11 100 "confm_2_y")]

/-- The game is started without a message to show it on. -/
theorem quickYes_not_deployed : ¬ GamesDeployed quickYes := by
  intro h
  have hafter : (0, false) ∈ (run quickYes).tttListG.map
      fun s => (s.node, s.confirm.st.replied) := by decide
  obtain ⟨s, hs, hstate⟩ := List.mem_map.mp hafter
  simp only [Prod.mk.injEq] at hstate
  have hinit : .initGame s.node ∈ (run quickYes).trace := by
    rw [hstate.1]
    decide
  have hd := h quickYes [] (List.append_nil _).symm s hs hinit
  have hreplied := hd.replied
  rw [hstate.2] at hreplied
  cases hreplied

end TintempPlusPlus.Deployment
