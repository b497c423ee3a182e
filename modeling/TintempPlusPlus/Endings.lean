import TintempPlusPlus.Outcome

/-!
# The click that ends a game

The trace tells which click first left a result that is final. On a game
whose clicks carry ids of its board, the step at which a session is first
won is that click, on a game in progress.
-/

namespace TintempPlusPlus.Endings

open Discord UniqueID Ttt Handlers ScanLoop BoardLaws AlternatingMarks Play HandlerLaws Program
  OneEntry EventRuns Invariant Steps Reachable Views Lives TurnDiscipline Outcome

/-- The click behind an effect, when it ended a game. -/
def ending? : Effect → Option Click
  | .moved _ click result => if result = .inProgress then none else some click
  | _ => none

/-- The first click that ended the game. -/
def firstEnding (trace : List Effect) : Option Click := trace.findSome? ending?

/-- The session is won. -/
def WonIn (node : ℕ) (w : World) : Prop :=
  ∃ s ∈ w.tttListG, s.node = node ∧ s.ttt.result = .won

/-- The end of the run is its first moment at which the session is won. -/
structure FirstWon (node : ℕ) (events : List Event) : Prop where
  /-- The session is won at the end. -/
  won : WonIn node (run events)
  /-- It was not won before. -/
  first : ∀ before behind, events = before ++ behind → behind ≠ [] → ¬ WonIn node (run before)

variable {w : World} {node : ℕ} {click : Click} {s : Session}

/-- The first ending is in the front part if there is one. -/
theorem firstEnding_append (a b : List Effect) :
    firstEnding (a ++ b) = (firstEnding a).or (firstEnding b) :=
  List.findSome?_append

/-- A mark alone ends nothing. -/
theorem firstEnding_placed (square : Square) (status : Status) (trace : List Effect) :
    firstEnding (.placed node click square status :: trace) = firstEnding trace := rfl

/-- A move ends the game when the game is not in progress behind it. -/
theorem firstEnding_moveEffects (t : Game) :
    firstEnding (moveEffects click node t) = if t.result = .inProgress then none else some click := by
  by_cases hr : t.result = .inProgress <;> simp [firstEnding, moveEffects, ending?, hr]

/-- A move in a game leaves the results that are final. -/
theorem inProgress_of_move {t : Game} {moves : List Square} (h : Represents t moves)
    (hp : t.player1 ≠ t.player2) {square : Square} (hidle : (t.board square).status = .idle)
    (hr : (Game.move t square).result = .inProgress) : t.result = .inProgress := by
  have hnew := (h.idle_iff square).mp hidle
  refine h.ongoing ?_ (h.not_draw hidle)
  intro hwon
  obtain ⟨line, hl, hc⟩ := h.won_iff.mp hwon
  rw [(h.move hp hidle).won_iff.mpr ⟨line, hl, hc.concat hnew⟩] at hr
  cases hr

/-- A listed session is new, or it was listed before, and then only the board
handler changes its result. -/
theorem result_touch {p : Part} {u v : View} (h : Touch w node p u v)
    (hs : v.session = some s) :
    (s.ttt.result = .inProgress ∧ ∃ message order, p = .command message order) ∨
      ∃ t, u.session = some t ∧ (t.ttt.result = s.ttt.result ∨ ∃ click, p = .board click) := by
  cases h with
  | created hf =>
    cases hs
    exact Or.inl ⟨hf.waiting.result, _, _, rfl⟩
  | dropped => exact Or.inr ⟨s, hs, Or.inl rfl⟩
  | asked => exact Or.inr ⟨s, hs, Or.inl rfl⟩
  | erased => cases hs
  | orphaned => cases hs
  | played => exact Or.inr ⟨_, rfl, Or.inr ⟨_, rfl⟩⟩
  | strayed => exact Or.inr ⟨_, rfl, Or.inr ⟨_, rfl⟩⟩
  | _ =>
    cases hs
    exact Or.inr ⟨_, rfl, Or.inl rfl⟩

/-- The confirm handler ends no game. -/
theorem firstEnding_confirm {u v : View} (h : Touch w node (.confirm click) u v) :
    firstEnding v.trace = firstEnding u.trace := by
  cases h <;> exact (firstEnding_append _ _).trans Option.or_none

/-- The click that ends a game is the first one to end it. -/
theorem firstEnding_board {u v : View} (h : Touch w node (.board click) u v)
    (hs : v.session = some s) (hr : s.ttt.result ≠ .inProgress)
    (hnone : firstEnding u.trace = none) : firstEnding v.trace = some click := by
  cases h with
  | played =>
    cases hs
    dsimp only at hr hnone ⊢
    rw [firstEnding_append, firstEnding_placed, firstEnding_moveEffects, hnone, if_neg hr]
    rfl
  | strayed =>
    cases hs
    dsimp only at hr hnone ⊢
    rw [firstEnding_append, firstEnding_moveEffects, hnone, if_neg hr]
    rfl

/-- A result after a click was there before it, or the click ended the
game. -/
theorem ended_by_click {events : List Event} (hs : s ∈ (run (events ++ [.click click])).tttListG)
    (hr : s.ttt.result ≠ .inProgress) :
    ∃ t ∈ (run events).tttListG, t.node = s.node ∧ (t.ttt.result = s.ttt.result ∨
      (firstEnding (effectsOf s.node (run events).trace) = none →
        firstEnding (effectsOf s.node (run (events ++ [.click click])).trace) = some click)) := by
  have hi := inv_run events
  have hconfirm := confirm_change hi click
  have hboard := board_change (change_inv hi hconfirm) click
  have hfind := find_of_mem (inv_run _) hs
  rw [run_click] at hfind ⊢
  -- the confirm handler comes first, and it changes no result
  have hresult : ∀ u, (view ((run events).confirmClick click) s.node).session = some u →
      ∃ t ∈ (run events).tttListG, t.node = s.node ∧ t.ttt.result = u.ttt.result := by
    intro u hu
    rcases change_view hi hconfirm s.node with hsame | ht
    · rw [hsame] at hu
      obtain ⟨hmem, hnode⟩ := find_mem hu
      exact ⟨u, hmem, hnode, rfl⟩
    · rcases result_touch ht hu with ⟨-, _, _, hp⟩ | ⟨t, hold, hr | ⟨_, hp⟩⟩
      · cases hp
      · obtain ⟨hmem, hnode⟩ := find_mem hold
        exact ⟨t, hmem, hnode, hr⟩
      · cases hp
  have hending : firstEnding (view ((run events).confirmClick click) s.node).trace =
      firstEnding (view (run events) s.node).trace := by
    rcases change_view hi hconfirm s.node with hsame | ht
    · rw [hsame]
    · exact firstEnding_confirm ht
  rcases change_view (change_inv hi hconfirm) hboard s.node with hsame | ht
  · have hu := hfind
    rw [← hsame] at hresult
    obtain ⟨t, hmem, hnode, htr⟩ := hresult s hu
    exact ⟨t, hmem, hnode, Or.inl htr⟩
  · rcases result_touch ht hfind with ⟨-, _, _, hp⟩ | ⟨u, hu, -⟩
    · cases hp
    · obtain ⟨t, hmem, hnode, -⟩ := hresult u hu
      refine ⟨t, hmem, hnode, Or.inr fun hnone => ?_⟩
      exact firstEnding_board ht hfind hr (hending.trans hnone)

/-- A game that is over is in step with its moves. -/
theorem represents_of_result {events : List Event}
    (h : Along World.step (OnlyBoardIds node) World.init events) (hs : s ∈ (run events).tttListG)
    (hn : s.node = node) (hr : s.ttt.result ≠ .inProgress) :
    Represents s.ttt (movesOf (effectsOf node (run events).trace)) := by
  refine (played_run h hs hn).represents ?_
  by_contra hni
  have hl := listed_reached (reached_run events) hs
  rw [hn] at hl
  exact hr (hl.untouched hni).result

/-- A game that a click wins was in progress before it. -/
theorem inProgress_before_win {events : List Event}
    (h : Along World.step (OnlyBoardIds node) World.init (events ++ [.click click]))
    {t : Session} (ht : t ∈ (run events).tttListG) (htn : t.node = node)
    (hs : s ∈ (run (events ++ [.click click])).tttListG) (hsn : s.node = node)
    (hbefore : t.ttt.result ≠ .won) (hwon : s.ttt.result = .won) : t.ttt.result = .inProgress := by
  by_contra hr
  have hrep := represents_of_result h.front ht htn hr
  have hrep' := represents_of_result h hs hsn (by rw [hwon]; simp)
  have hdraw : t.ttt.result = .draw := by
    by_contra hd
    exact hr (hrep.ongoing hbefore hd)
  have hcard : Fintype.card Square = 9 := by decide
  have hlen := (hrep.draw_iff.mp hdraw).1
  have hle := length_le_card hrep'.nodup
  rcases movesOf_click events click node with hsame | ⟨square, status, hconcat, -⟩
  · rw [hsame] at hrep'
    exact hbefore (hrep.won_iff.mpr (hrep'.won_iff.mp hwon))
  · rw [hconcat, List.length_append, List.length_singleton] at hle
    omega

/-- A session that a step wins was not won before it, so the step is a click
on its game in progress. -/
theorem won_by_click {events : List Event} {e : Event}
    (h : Along World.step (OnlyBoardIds node) World.init (events ++ [e]))
    (hs : s ∈ (run (events ++ [e])).tttListG) (hn : s.node = node) (hwon : s.ttt.result = .won)
    (hnot : ¬ WonIn node (run events)) :
    ∃ click, e = .click click ∧ ∃ t ∈ (run events).tttListG, t.node = node ∧
      t.ttt.result = .inProgress ∧ (firstEnding (effectsOf node (run events).trace) = none →
        firstEnding (effectsOf node (run (events ++ [e])).trace) = some click) := by
  have hi := inv_run events
  have hr : s.ttt.result ≠ .inProgress := by
    rw [hwon]
    simp
  have hone : ∀ p, (run events).part p = (run events).step e → ∃ click, p = .board click := by
    intro p hp
    have hfind := find_of_mem (inv_run _) hs
    rw [run_concat, ← hp, hn] at hfind
    have hold : ∀ t, (run events).find node = some t → t.ttt.result ≠ .won := fun t ht hw =>
      hnot ⟨t, (find_mem ht).1, (find_mem ht).2, hw⟩
    rcases change_view hi (part_change hi p) node with hsame | ht
    · have hview : (view (run events) node).session = some s := by
        rw [← hsame]
        exact hfind
      exact absurd hwon (hold s hview)
    · rcases result_touch ht hfind with ⟨hp, -⟩ | ⟨t, ht, hres | hboard⟩
      · exact absurd hp hr
      · exact absurd (hres.trans hwon) (hold t ht)
      · exact hboard
  cases e with
  | command message order =>
    obtain ⟨_, hp⟩ := hone (.command message order) rfl
    cases hp
  | callback callback response =>
    obtain ⟨_, hp⟩ := hone (.callback callback response) rfl
    cases hp
  | click click =>
    obtain ⟨t, ht, htn, hor⟩ := ended_by_click hs hr
    rw [hn] at htn hor
    have hbefore : t.ttt.result ≠ .won := fun hw => hnot ⟨t, ht, htn, hw⟩
    refine ⟨click, rfl, t, ht, htn, inProgress_before_win h ht htn hs hn hbefore hwon, ?_⟩
    exact hor.resolve_left fun hw => hbefore (hw.trans hwon)

end TintempPlusPlus.Endings
