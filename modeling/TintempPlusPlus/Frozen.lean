import TintempPlusPlus.Lives

/-!
# Finished games

A finished game should not change any more. The board handler never looks at
the result, and after a win it has passed the turn on, so the next click of
the other player is a move. Runs without such a click are exactly those in
which every finished game stays as it is.
-/

namespace TintempPlusPlus.Frozen

open Discord UniqueID Ttt Handlers ScanLoop Play HandlerLaws Program OneEntry EventRuns Invariant
  Steps Reachable Views Lives

/-- The game has been won or drawn. -/
def Ended (t : Game) : Prop := t.result = .won ∨ t.result = .draw

instance : DecidablePred Ended :=
  fun t => inferInstanceAs (Decidable (t.result = .won ∨ t.result = .draw))

/-- The play has not changed. -/
structure SamePlay (t u : Game) : Prop where
  /-- The marks are the same. -/
  status : ∀ square, (u.board square).status = (t.board square).status
  /-- The flags are the same. -/
  won : ∀ square, (u.board square).won = (t.board square).won
  /-- The turn is the same. -/
  turn : u.turn = t.turn
  /-- The counter is the same. -/
  turns : u.turns = t.turns
  /-- The result is the same. -/
  result : u.result = t.result

/-- Once a session of the run is finished, its play is the same at every
later time of the run. -/
def PlayKept (events : List Event) : Prop :=
  ∀ before middle behind, events = before ++ middle ++ behind →
    ∀ s ∈ (run before).tttListG, Ended s.ttt →
      ∀ s' ∈ (run (before ++ middle)).tttListG, s'.node = s.node → SamePlay s.ttt s'.ttt

/-- No user who has the turn of a finished game clicks on anything but a
taken square of it. -/
def NoMoveAfterEnd (w : World) : Event → Prop
  | .click click => ∀ s ∈ w.tttListG, Ended s.ttt → click.messageId = s.ttt.game.id →
    click.user = s.ttt.turn.1 → ∃ square, click.customId = (s.ttt.board square).id ∧
      (s.ttt.board square).status ≠ .idle
  | _ => True

variable {w : World} {click : Click} {s : Session}

/-- A game in progress has not ended. -/
theorem not_ended {t : Game} (h : t.result = .inProgress) : ¬ Ended t := by
  rintro (he | he) <;> rw [h] at he <;> cases he

/-- The embed of a result message tells a win from a draw. -/
theorem resultEmbed_cases {result : Result} {embed : Embed}
    (h : resultEmbed click result = some embed) :
    result = .won ∧ embed.description = mention click.user ++ " won!" ∨
      result = .draw ∧ embed.description = "draw!" := by
  cases result with
  | won =>
    cases h
    exact Or.inl ⟨rfl, rfl⟩
  | draw =>
    cases h
    exact Or.inr ⟨rfl, rfl⟩
  | inProgress => cases h
  | expired => cases h

/-- A result is announced only of a game that has ended. -/
theorem ended_of_resultEmbed {t : Game} {embed : Embed}
    (h : resultEmbed click t.result = some embed) : Ended t :=
  (resultEmbed_cases h).imp And.left And.left

/-- A game is not finished before it is started. -/
theorem ended_started (hs : SessionInv w s) (he : Ended s.ttt) : Started w.nextID s :=
  hs.stage.resolve_left fun hw => not_ended hw.result he

/-- The confirm handler has nothing to do with finished games. -/
theorem mem_confirmClick (hi : Inv w) (click : Click) (he : Ended s.ttt) :
    s ∈ (w.confirmClick click).tttListG ↔ s ∈ w.tttListG := by
  have h := confirm_change hi click
  generalize w.confirmClick click = w' at h
  cases h with
  | quiet => exact Iff.rfl
  | @accepted click player pre t post h =>
    obtain ⟨ht, -⟩ := hi.focus h.list
    have hw := accepts_waiting h ht
    have hresult : (accept click player w.nextID t).1.ttt.result = .inProgress := by
      unfold accept
      split_ifs <;> exact hw.result
    have hold : s ≠ t := by
      rintro rfl
      exact not_ended hw.result he
    have hnew : s ≠ (accept click player w.nextID t).1 := by
      rintro rfl
      exact not_ended hresult he
    rw [h.list]
    simp only [World.emit, mem_entry, hold, hnew, false_or]

/-- A click that meets the condition is no move in a finished game. -/
theorem no_turn_after_end {pre post : List Session} {t : Session}
    (hc : Within NoMoveAfterEnd w (.board click)) (h : Turn w click pre t post)
    (he : Ended t.ttt) : ∃ square, click.customId = (t.ttt.board square).id ∧
      (t.ttt.board square).status ≠ .idle := by
  obtain ⟨before, hw, rfl, hcond⟩ := hc
  exact hcond t ((mem_confirmClick hw.inv click he).mp h.mem) he h.message h.user

/-- The same play has the same end. -/
theorem SamePlay.ended {t u : Game} (h : SamePlay t u) (he : Ended t) : Ended u := by
  unfold Ended
  rw [h.result]
  exact he

/-- The view of a session that was finished with a certain play. -/
def ViewKept (s : Session) (node : ℕ) (v : View) : Prop :=
  node = s.node → .initGame node ∈ v.trace ∧ ∀ s', v.session = some s' → SamePlay s.ttt s'.ttt

/-- The play is kept when the new session has the play of the old one. -/
theorem ViewKept.same {node : ℕ} {t t' : Session} {pending pending' : List Callback}
    {trace trace' : List Effect} (h : ViewKept s node ⟨some t, pending, trace⟩)
    (htrace : trace ⊆ trace') (hplay : SamePlay t.ttt t'.ttt) :
    ViewKept s node ⟨some t', pending', trace'⟩ := by
  intro hn
  obtain ⟨hinit, hall⟩ := h hn
  refine ⟨htrace hinit, ?_⟩
  rintro s' ⟨⟩
  have hold := hall t rfl
  exact ⟨fun q => (hplay.status q).trans (hold.status q),
    fun q => (hplay.won q).trans (hold.won q), hplay.turn.trans hold.turn,
    hplay.turns.trans hold.turns, hplay.result.trans hold.result⟩

/-- Every play is the same as itself. -/
theorem SamePlay.refl (t : Game) : SamePlay t t :=
  ⟨fun _ => rfl, fun _ => rfl, rfl, rfl, rfl⟩

/-- The same as the same play is the same play. -/
theorem SamePlay.trans {t u v : Game} (h : SamePlay t u) (h' : SamePlay u v) : SamePlay t v :=
  ⟨fun q => (h'.status q).trans (h.status q), fun q => (h'.won q).trans (h.won q),
    h'.turn.trans h.turn, h'.turns.trans h.turns, h'.result.trans h.result⟩

/-- No touch changes the play of a finished game when the condition is met. -/
theorem viewKept_touch {node : ℕ} {p : Part} {v : View} (hw : Reached w)
    (hc : Within NoMoveAfterEnd w p) (he : Ended s.ttt) (h : ViewKept s node (view w node))
    (ht : Touch w node p (view w node) v) : ViewKept s node v := by
  have hlived := lived_reached hw node
  generalize view w node = u at h ht hlived
  cases ht with
  | created hf =>
    intro hn
    exact absurd (h hn).1 (by simp)
  | @started click player pre t post pending trace hacc hs hy ho =>
    intro hn
    obtain ⟨hinit, hall⟩ := h hn
    have hbegun := (lived_some.mp hlived).begun hinit
    exact absurd (congrArg Prod.fst (accepts_waiting hacc hs).turn) hbegun
  | @played click square pre t post pending trace hturn hs hsq hidle =>
    intro hn
    have hended := ((h hn).2 t rfl).ended he
    obtain ⟨other, hother, hmark⟩ := no_turn_after_end hc hturn hended
    have hsame := hturn.started.ids.distinctIds square other (hsq.symm.trans hother)
    rw [← hsame] at hmark
    exact absurd hidle hmark
  | @strayed click pre t post pending trace hturn hs hsq =>
    intro hn
    have hended := ((h hn).2 t rfl).ended he
    obtain ⟨other, hother, -⟩ := no_turn_after_end hc hturn hended
    exact absurd hother (hsq other)
  | confirmed hacc hs hy ho => exact h.same (List.subset_append_left _ _) (SamePlay.refl _)
  | declined hacc hs hn =>
    exact h.same (List.subset_append_left _ _) ⟨fun _ => rfl, fun _ => rfl, rfl, rfl, rfl⟩
  | announced hcb hs hr =>
    exact h.same (List.subset_append_left _ _) ⟨fun _ => rfl, fun _ => rfl, rfl, rfl, rfl⟩
  | originSet hcb hfresh hs huid hno =>
    exact h.same (List.Subset.refl _) ⟨fun _ => rfl, fun _ => rfl, rfl, rfl, rfl⟩
  | stored hcb hfresh hs =>
    exact h.same (List.Subset.refl _) ⟨fun _ => rfl, fun _ => rfl, rfl, rfl, rfl⟩
  | dropped hcb hidle => exact h
  | asked hcb =>
    intro hn
    obtain ⟨hinit, hall⟩ := h hn
    exact ⟨List.mem_append_left _ hinit, hall⟩
  | orphaned hcb => exact h
  | erased hcb hs =>
    intro hn
    exact ⟨(h hn).1, fun s' hs' => by cases hs'⟩

/-- A click that breaks the condition passes the turn of a finished game. -/
theorem turns_after_end (hw : Reached w) (hs : s ∈ w.tttListG) (he : Ended s.ttt)
    (hm : click.messageId = s.ttt.game.id) (hu : click.user = s.ttt.turn.1)
    (hno : ¬ ∃ square, click.customId = (s.ttt.board square).id ∧
      (s.ttt.board square).status ≠ .idle) :
    ∃ s' ∈ (w.step (.click click)).tttListG, s'.node = s.node ∧
      s'.ttt.turns = s.ttt.turns + 1 := by
  have hi : Inv (w.confirmClick click) := (reached_part hw (.confirm click)).inv
  have hmem := (mem_confirmClick hw.inv click he).mpr hs
  obtain ⟨pre, post, hl⟩ := List.mem_iff_append.mp hmem
  have hstarted := ended_started (hi.sessions s hmem) he
  have hturn : Turn (w.confirmClick click) click pre s post := ⟨hl, hm, hu, hstarted⟩
  by_cases hsq : ∃ square, click.customId = (s.ttt.board square).id
  · obtain ⟨square, hsq⟩ := hsq
    have hidle : (s.ttt.board square).status = .idle := by
      by_contra hn
      exact hno ⟨square, hsq, hn⟩
    refine ⟨{ s with ttt := Game.move s.ttt square }, ?_, rfl, by simp⟩
    simp only [World.step]
    rw [boardClick_played hi hturn hsq hidle]
    simp [World.emit]
  · refine ⟨{ s with ttt := s.ttt.fetchWinner.swapTurn }, ?_, rfl, by simp⟩
    simp only [World.step]
    rw [boardClick_strayed hi hturn (not_exists.mp hsq)]
    simp [World.emit]

/-- In a run every finished game keeps its play if and only if no step of
the run is a click by the user who has the turn of a finished game on
anything but a taken square of it. -/
theorem playKept_iff (events : List Event) :
    PlayKept events ↔ Along World.step NoMoveAfterEnd World.init events := by
  constructor
  · rintro h before e behind rfl
    cases e with
    | command => trivial
    | callback => trivial
    | click click =>
      intro s hs he hm hu
      by_contra hno
      obtain ⟨s', hs', hnode, hturns⟩ := turns_after_end (reached_run before) hs he hm hu hno
      rw [← run_concat] at hs'
      have hsame := h before [.click click] behind (by simp) s hs he s' hs' hnode
      have hcount := hsame.turns
      omega
  · rintro h before middle behind rfl s hs he s' hs' hnode
    have hw := reached_run before
    have hmiddle : Along World.step NoMoveAfterEnd (run before) middle :=
      (along_append.mp h.front).2
    have hbegun : .initGame s.node ∈ effectsOf s.node (run before).trace := by
      by_contra hn
      exact not_ended ((listed_reached hw hs).untouched hn).result he
    have hview := view_after (I := ViewKept s) hw (along_parts hw hmiddle) ?_
      (fun w node p v hw hc hv ht => viewKept_touch hw hc he hv ht) s.node
    · rw [← run_append, ← hnode, view_of_mem (inv_run _) hs', hnode] at hview
      exact (hview rfl).2 s' rfl
    · intro node hn
      rw [hn, view_of_mem hw.inv hs]
      refine ⟨hbegun, ?_⟩
      rintro t ⟨⟩
      exact SamePlay.refl _

/-- User 22 clicks on a free square before the won game is erased, and the
won game goes on. -/
theorem topRow_not_playKept :
    ¬ PlayKept (topRow ++ [.click (clickBy 22 101 "p_102_9")]) := by
  intro h
  have hbefore : (0, Result.won, 5) ∈
      (run topRow).tttListG.map fun t => (t.node, t.ttt.result, t.ttt.turns) := by decide
  have hafter : (0, 6) ∈ (run (topRow ++ [.click (clickBy 22 101 "p_102_9")])).tttListG.map
      fun t => (t.node, t.ttt.turns) := by decide
  obtain ⟨s, hs, hplay⟩ := List.mem_map.mp hbefore
  obtain ⟨s', hs', hplay'⟩ := List.mem_map.mp hafter
  simp only [Prod.mk.injEq] at hplay hplay'
  have hsame := h topRow _ [] (List.append_nil _).symm s hs (Or.inl hplay.2.1) s' hs'
    (hplay'.1.trans hplay.1.symm)
  have hturns := hsame.turns
  omega

end TintempPlusPlus.Frozen
