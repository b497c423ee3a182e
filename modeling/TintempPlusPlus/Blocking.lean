import TintempPlusPlus.LiveList
import TintempPlusPlus.Independence

/-!
# A refused challenge shuts the list

Both players of a session have answered and the game was not started: the
last answer was a Nah. Such a session is never erased, and the confirm
handler stops at it for every user who is no player of it. Sessions are
listed in the order of their creation, so everything behind it is out of
reach for everybody else, for ever.
-/

namespace TintempPlusPlus.Blocking

open Discord UniqueID Ttt Handlers ScanLoop Play HandlerLaws Program OneEntry EventRuns Invariant
  Steps Reachable Views Lives Frozen LiveList Independence

/-- The list elements in use, in the order of the list. -/
def nodes (w : World) : List ℕ := w.tttListG.map Session.node

/-- The user who is a player of a session. -/
def seat (s : Session) : Player → Snowflake
  | .one => s.confirm.player1
  | .two => s.confirm.player2

variable {w w' : World} {node : ℕ} {s t : Session} {click : Click} {player : Player} {p : Part}

/-- The user who clicked is the user behind the player found. -/
theorem seat_of_playerOf {user : Snowflake} (h : s.playerOf user = some player) :
    user = seat s player := by
  unfold Session.playerOf at h
  split_ifs at h with h2 h1
  · cases h
    exact h2
  · cases h
    exact h1

/-- Replacing a session by a later state of it keeps the nodes. -/
theorem nodes_replace {pre post : List Session} (hl : w.tttListG = pre ++ s :: post)
    (hl' : w'.tttListG = pre ++ t :: post) (hn : t.node = s.node) : nodes w' = nodes w := by
  rw [nodes, nodes, hl, hl', List.map_append, List.map_append, List.map_cons, List.map_cons, hn]

/-- What a piece of an event does to the order of the list. -/
theorem change_nodes (h : Change w p w') : List.Sublist (nodes w') (nodes w) ∨
    nodes w' = nodes w ++ [w.nextNode] := by
  have hsame : nodes w' = nodes w → List.Sublist (nodes w') (nodes w) ∨
      nodes w' = nodes w ++ [w.nextNode] := fun he => Or.inl (he ▸ List.Sublist.refl _)
  cases h with
  | quiet h => exact hsame rfl
  | @challenged message order mentioned h =>
    obtain ⟨hf, -⟩ := newSession_fresh w order message.author mentioned.id
    refine Or.inr ?_
    simp only [nodes, World.challenge, World.emit, List.map_append, List.map_singleton, hf.node]
  | accepted h => exact hsame (nodes_replace h.list rfl (accept_kin _ _ _ _).node)
  | played h hsq hidle => exact hsame (nodes_replace h.list rfl rfl)
  | strayed h hsq => exact hsame (nodes_replace h.list rfl rfl)
  | dropped h hidle => exact hsame rfl
  | received h hfresh hmessage horphan => exact hsame rfl
  | originSet h hfresh hl huid hno => exact hsame (nodes_replace hl rfl rfl)
  | asked h => exact hsame rfl
  | stored h hfresh hl => exact hsame (nodes_replace hl rfl rfl)
  | announced h hl hr => exact hsame (nodes_replace hl rfl rfl)
  | @erased deployment pre s post h hl =>
    refine Or.inl ?_
    rw [nodes, nodes, hl, List.map_append, List.map_append, List.map_cons]
    exact (List.Sublist.refl _).append (List.sublist_cons_self _ _)

/-- Sessions are listed in the order of their creation. -/
theorem nodes_sorted (hw : Reached w) : (nodes w).Pairwise (· < ·) := by
  refine invariant_reached (I := fun w => (nodes w).Pairwise (· < ·)) List.Pairwise.nil ?_ hw
  intro w p hw hsorted
  rcases change_nodes (part_change hw.inv p) with hsub | hnew
  · exact hsorted.sublist hsub
  · rw [hnew]
    refine List.pairwise_append.mpr ⟨hsorted, List.pairwise_singleton _ _, ?_⟩
    intro n hn m hm
    obtain ⟨s, hs, rfl⟩ := List.mem_map.mp hn
    rw [List.mem_singleton.mp hm]
    exact (hw.inv.sessions s hs).node

/-- A session that was created earlier stands in front. -/
theorem mem_front (hw : Reached w) {pre post : List Session} (hl : w.tttListG = pre ++ t :: post)
    (hs : s ∈ w.tttListG) (hlt : s.node < t.node) : s ∈ pre := by
  have hsorted := nodes_sorted hw
  rw [nodes, hl, List.map_append, List.map_cons, List.pairwise_append] at hsorted
  obtain ⟨-, hrest, -⟩ := hsorted
  rw [hl] at hs
  rcases List.mem_append.mp hs with hpre | hpost
  · exact hpre
  · rcases List.mem_cons.mp hpost with rfl | hpost
    · exact absurd hlt (lt_irrefl _)
    · have hgt := (List.pairwise_cons.mp hrest).1 s.node (List.mem_map_of_mem hpost)
      exact absurd hlt (lt_asymm hgt)

/-- Both players have answered, and the game was not started. -/
structure Refused (s : Session) : Prop where
  /-- Nobody can answer any more. -/
  answered : ∀ player, s.confirm.st.confm player = true
  /-- There is no game. -/
  waiting : Waiting s.ttt

/-- A view that still holds the refused session, with the same players. -/
def ViewRefused (s : Session) (v : View) : Prop :=
  ∃ t, v.session = some t ∧ Refused t ∧ ∀ player, seat t player = seat s player

/-- No touch can change a refused session. -/
theorem viewRefused_touch {v : View} (hw : Reached w) (h : ViewRefused s (view w node))
    (ht : Touch w node p (view w node) v) : ViewRefused s v := by
  have hfinish := viewFinish_reached hw node
  generalize view w node = u at h ht hfinish
  obtain ⟨t, hsession, hr, hu⟩ := h
  cases ht with
  | created hf => cases hsession
  | @confirmed click player pre t' post pending trace hacc hs hy ho =>
    cases hsession
    exact absurd (hr.answered player) (by simp [hacc.unanswered])
  | @started click player pre t' post pending trace hacc hs hy ho =>
    cases hsession
    exact absurd (hr.answered player) (by simp [hacc.unanswered])
  | @declined click player pre t' post pending trace hacc hs hn =>
    cases hsession
    exact absurd (hr.answered player) (by simp [hacc.unanswered])
  | @played click square pre t' post pending trace hturn hs hsq hidle =>
    cases hsession
    exact absurd hturn.user (hr.waiting.turn_ne click)
  | @strayed click pre t' post pending trace hturn hs hsq =>
    cases hsession
    exact absurd hturn.user (hr.waiting.turn_ne click)
  | originSet hcb hfresh hs huid hno =>
    cases hsession
    have hwait := hr.waiting
    exact ⟨_, rfl, ⟨hr.answered, ⟨hwait.turn, hwait.turns, hwait.result, hwait.board⟩⟩, hu⟩
  | dropped hcb hidle => exact ⟨t, hsession, hr, hu⟩
  | asked hcb => exact ⟨t, hsession, hr, hu⟩
  | orphaned hcb => cases hsession
  | stored hcb hfresh hs =>
    cases hsession
    have hwait := hr.waiting
    exact ⟨_, rfl, ⟨hr.answered, ⟨hwait.turn, hwait.turns, hwait.result, hwait.board⟩⟩, hu⟩
  | announced hcb hs hembed =>
    cases hsession
    exact absurd (ended_of_resultEmbed hembed) (not_ended hr.waiting.result)
  | @erased deployment t' pending trace hcb hs =>
    cases hsession
    have hended : Ended t.ttt := (hfinish.finished t rfl).mpr (hfinish.sent hcb)
    exact absurd hended (not_ended hr.waiting.result)

/-- Behind the refused session an outsider has answered only if that was so
at a certain moment before. -/
def ViewShut (s : Session) (before : World) (n : ℕ) (v : View) : Prop :=
  s.node < n → ∀ t, v.session = some t → ∀ player, ¬ IsPlayer (seat t player) s →
    t.confirm.st.confm player = true →
      ∃ t₀ ∈ before.tttListG, t₀.node = n ∧ t₀.confirm.st.confm player = true

/-- The seats are those of the two players. -/
theorem seat_congr {t' : Session} (h1 : t'.confirm.player1 = t.confirm.player1)
    (h2 : t'.confirm.player2 = t.confirm.player2) (player : Player) :
    seat t' player = seat t player := by
  cases player
  · exact h1
  · exact h2

/-- The facts are kept when nobody answers. -/
theorem ViewShut.keep {before : World} {t' : Session} {pending pending' : List Callback}
    {trace trace' : List Effect} (h : ViewShut s before node ⟨some t, pending, trace⟩)
    (h1 : t'.confirm.player1 = t.confirm.player1) (h2 : t'.confirm.player2 = t.confirm.player2)
    (hconfm : ∀ player, t'.confirm.st.confm player = t.confirm.st.confm player) :
    ViewShut s before node ⟨some t', pending', trace'⟩ := by
  rintro hlt u ⟨⟩ player hout hset
  rw [seat_congr h1 h2] at hout
  rw [hconfm] at hset
  exact h hlt t rfl player hout hset

/-- The facts are kept when a player of the refused session answers. -/
theorem ViewShut.answer {before : World} {t' : Session} {pending pending' : List Callback}
    {trace trace' : List Effect} (h : ViewShut s before node ⟨some t, pending, trace⟩)
    (hin : s.node < node → IsPlayer (seat t player) s)
    (h1 : t'.confirm.player1 = t.confirm.player1) (h2 : t'.confirm.player2 = t.confirm.player2)
    (hconfm : ∀ q, t'.confirm.st.confm q = (t.flag player).confirm.st.confm q) :
    ViewShut s before node ⟨some t', pending', trace'⟩ := by
  rintro hlt u ⟨⟩ q hout hset
  rw [seat_congr h1 h2] at hout
  rw [hconfm] at hset
  rcases Player.eq_or_other q player with rfl | rfl
  · exact absurd (hin hlt) hout
  · exact h hlt t rfl _ hout (by simpa [Session.flag] using hset)

/-- The player who answers behind the refused session is a player of it. -/
theorem accepts_player {pre post : List Session} (hw : Reached w) (hs : ViewRefused s (view w s.node))
    (h : Accepts w click player pre t post) (hlt : s.node < t.node) :
    IsPlayer (seat t player) s := by
  obtain ⟨s', hsession, -, hu⟩ := hs
  obtain ⟨hmem, hnode⟩ := find_mem hsession
  have hfront := mem_front hw h.list hmem (hnode.symm ▸ hlt)
  have hreach := h.reach s' hfront
  rw [seat_of_playerOf h.user] at hreach
  rw [isPlayer_iff] at hreach ⊢
  have h1 : s'.confirm.player1 = s.confirm.player1 := hu .one
  have h2 : s'.confirm.player2 = s.confirm.player2 := hu .two
  rwa [h1, h2] at hreach

/-- Every touch keeps the sessions behind a refused one shut. -/
theorem viewShut_touch {before : World} {v : View} (hw : Reached w)
    (hs : ViewRefused s (view w s.node)) (h : ViewShut s before node (view w node))
    (ht : Touch w node p (view w node) v) : ViewShut s before node v := by
  generalize view w node = u at h ht
  cases ht with
  | @created message order player1 player2 t hf =>
    rintro hlt u ⟨⟩ player hout hset
    have hst : t.confirm.st = {} := by
      rw [hf.confirm]
      rfl
    rw [hst] at hset
    cases player <;> cases hset
  | @confirmed click player pre t post pending trace hacc hinv hy ho =>
    exact h.answer (fun hlt => accepts_player hw hs hacc hlt) rfl rfl fun _ => rfl
  | @started click player pre t post pending trace hacc hinv hy ho =>
    exact h.answer (fun hlt => accepts_player hw hs hacc hlt) rfl rfl fun _ => rfl
  | @declined click player pre t post pending trace hacc hinv hn =>
    exact h.answer (fun hlt => accepts_player hw hs hacc hlt) rfl rfl fun _ => rfl
  | played hturn hinv hsq hidle => exact h.keep rfl rfl fun _ => rfl
  | strayed hturn hinv hsq => exact h.keep rfl rfl fun _ => rfl
  | originSet hcb hfresh hinv huid hno => exact h.keep rfl rfl fun _ => rfl
  | dropped hcb hidle => exact h
  | asked hcb => exact h
  | orphaned hcb => exact h
  | stored hcb hfresh hinv => exact h.keep rfl rfl fun player => (by cases player <;> rfl)
  | announced hcb hinv hr => exact h.keep rfl rfl fun _ => rfl
  | erased hcb hinv => exact fun hlt t ht => by cases ht

/-- From a certain moment on a session shuts the list behind it. -/
structure Shuts (before middle : List Event) (s : Session) : Prop where
  /-- The session stays listed and is never started. -/
  stays : ∃ t ∈ (run (before ++ middle)).tttListG, t.node = s.node ∧ Refused t
  /-- Behind it no answer of an outsider is accepted any more. -/
  outsiders : ∀ t ∈ (run (before ++ middle)).tttListG, s.node < t.node → ∀ player,
    ¬ IsPlayer (seat t player) s → t.confirm.st.confm player = true →
      ∃ t₀ ∈ (run before).tttListG, t₀.node = t.node ∧ t₀.confirm.st.confm player = true
  /-- No later challenge that involves an outsider leads to a game. -/
  newcomers : ∀ t ∈ (run (before ++ middle)).tttListG, (run before).nextNode ≤ t.node →
    (∃ player, ¬ IsPlayer (seat t player) s) → Waiting t.ttt

/-- Once both players of a session have answered and its game was not
started, the session stays in the list for ever, and behind it no answer of
anybody but its two players is accepted any more; in particular no later
challenge that involves anybody else leads to a game, however the run goes
on. As everywhere, a second erase of a session is taken to leave the others
where they are. -/
theorem shuts_run {before middle : List Event} (hs : s ∈ (run before).tttListG)
    (hanswered : ∀ player, s.confirm.st.confm player = true)
    (hnot : .initGame s.node ∉ (run before).trace) : Shuts before middle s := by
  have hw := reached_run before
  have hwait := (listed_reached hw hs).untouched fun hi => hnot (mem_effectsOf.mp hi).1
  have hstart : ViewRefused s (view (run before) s.node) := by
    rw [view_of_mem hw.inv hs]
    exact ⟨s, rfl, ⟨hanswered, hwait⟩, fun _ => rfl⟩
  have hshut : ∀ n, ViewShut s (run before) n (view (run before) n) := by
    intro n _ t ht player _ hset
    obtain ⟨hmem, hn⟩ := find_mem ht
    exact ⟨t, hmem, hn, hset⟩
  have hstep : ∀ w p, Reached w →
      (ViewRefused s (view w s.node) ∧ ∀ n, ViewShut s (run before) n (view w n)) →
      ViewRefused s (view (w.part p) s.node) ∧
        ∀ n, ViewShut s (run before) n (view (w.part p) n) := by
    rintro w p hw ⟨hr, hv⟩
    have hchange := part_change hw.inv p
    refine ⟨?_, fun n => ?_⟩
    · rcases change_view hw.inv hchange s.node with hsame | ht
      · rwa [hsame]
      · exact viewRefused_touch hw hr ht
    · rcases change_view hw.inv hchange n with hsame | ht
      · rw [hsame]
        exact hv n
      · exact viewShut_touch hw hr (hv n) ht
  have hlast := invariant_after (I := fun w => ViewRefused s (view w s.node) ∧
    ∀ n, ViewShut s (run before) n (view w n)) hw (middle.flatMap Event.parts) ⟨hstart, hshut⟩ hstep
  rw [← run_append] at hlast
  obtain ⟨hrefused, hall⟩ := hlast
  have houtsiders : ∀ t ∈ (run (before ++ middle)).tttListG, s.node < t.node → ∀ player,
      ¬ IsPlayer (seat t player) s → t.confirm.st.confm player = true →
        ∃ t₀ ∈ (run before).tttListG, t₀.node = t.node ∧ t₀.confirm.st.confm player = true := by
    intro t ht hlt player hout hset
    have hview := hall t.node
    rw [view_of_mem (inv_run _) ht] at hview
    exact hview hlt t rfl player hout hset
  refine ⟨?_, houtsiders, ?_⟩
  · obtain ⟨t, ht, hr, -⟩ := hrefused
    obtain ⟨hmem, hnode⟩ := find_mem ht
    exact ⟨t, hmem, hnode, hr⟩
  · rintro t ht hge ⟨player, hout⟩
    have hinv := (inv_run (before ++ middle)).sessions t ht
    refine hinv.stage.resolve_right fun hstarted => ?_
    have hlt : s.node < t.node := (hw.inv.sessions s hs).node.trans_le hge
    obtain ⟨t₀, hmem, hnode, -⟩ := houtsiders t ht hlt player hout (hstarted.confm player)
    have hold := (hw.inv.sessions t₀ hmem).node
    omega

/-- The challenged player accepts, and the challenger declines. -/
def refused : List Event :=
  opening ++ [.click (clickBy 22 100 "confm_2_y"), .click (clickBy 11 100 "confm_3_n")]

/-- The refused challenge of users 11 and 22 is in the way of users 33 and
44. -/
theorem shuts_refused : ∃ s ∈ (run refused).tttListG,
    Shuts refused [.command otherIncoming ⟨true, true⟩, .click (clickBy 44 100 "confm_5_y")] s := by
  have hmem : (0, true, true) ∈ (run refused).tttListG.map fun t =>
      (t.node, t.confirm.st.isPlayer1Confm, t.confirm.st.isPlayer2Confm) := by decide
  obtain ⟨s, hs, hflags⟩ := List.mem_map.mp hmem
  simp only [Prod.mk.injEq] at hflags
  obtain ⟨hnode, h1, h2⟩ := hflags
  refine ⟨s, hs, shuts_run hs (fun player => ?_) (by rw [hnode]; decide)⟩
  cases player
  · exact h1
  · exact h2

end TintempPlusPlus.Blocking
