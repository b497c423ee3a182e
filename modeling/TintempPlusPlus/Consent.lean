import TintempPlusPlus.Lives
import TintempPlusPlus.Library.Occurrences

/-!
# Consent of both players

A game should start only after both players have said YES and neither has
said Nah. The handshake keeps one flag per player for both answers, so a YES
after the other player's Nah starts the declined game. Runs without such a
click are exactly those in which every start has the consent of both.
-/

namespace TintempPlusPlus.Consent

open Discord UniqueID Ttt Handlers ScanLoop Play HandlerLaws Program EventRuns Invariant Steps
  Reachable Views Lives Occurrences

/-- What must have been done before a session is started. -/
def Agreed (node : ℕ) (before : List Effect) : Prop :=
  ∀ player, .answered node player .yes ∈ before ∧ .answered node player .nah ∉ before

/-- Every start of a session has the consent of its players. -/
def Consented (trace : List Effect) : Prop :=
  ∀ node, BeforeEach (Agreed node) (.initGame node) trace

/-- No YES is accepted for a session that the other player has declined. -/
def NoYesAfterNah (w : World) : Event → Prop
  | .click click => ∀ player pre s post, Accepts w click player pre s post →
    click.customId = s.confirm.btnId.1 → .answered s.node player.other .nah ∉ w.trace
  | _ => True

/-- The consent of the players, read at the view of their session. -/
def ViewConsented (node : ℕ) (v : View) : Prop :=
  BeforeEach (Agreed node) (.initGame node) v.trace

/-- A start after two first answers of which none was a Nah. -/
theorem agreed_of_answers {node : ℕ} {player : Player} {trace : List Effect}
    (hother : ∃ answer, .answered node player.other answer ∈ trace)
    (hnah : .answered node player.other .nah ∉ trace)
    (hself : ¬ ∃ answer, .answered node player answer ∈ trace) :
    Agreed node (trace ++ [.answered node player .yes]) := by
  have hyes : .answered node player.other .yes ∈ trace := by
    obtain ⟨answer, ha⟩ := hother
    cases answer with
    | yes => exact ha
    | nah => exact absurd ha hnah
  intro q
  rcases Player.eq_or_other q player with rfl | rfl
  · refine ⟨by simp, ?_⟩
    intro hn
    have hold : .answered node q .nah ∈ trace := by simpa using hn
    exact hself ⟨.nah, hold⟩
  · refine ⟨List.mem_append_left _ hyes, ?_⟩
    intro hn
    exact hnah (by simpa [Player.other_ne] using hn)

/-- No touch of a session starts it without the consent of its players when
no YES follows a Nah. -/
theorem viewConsented_touch {w : World} {node : ℕ} {p : Part} {v : View} (hw : Reached w)
    (hc : Within NoYesAfterNah w p) (h : ViewConsented node (view w node))
    (ht : Touch w node p (view w node) v) : ViewConsented node v := by
  have hlived := lived_reached hw node
  have hmem : ∀ effect, effect.node? = some node → effect ∈ (view w node).trace →
      effect ∈ w.trace := fun effect _ hm => (mem_effectsOf.mp hm).1
  generalize view w node = u at h ht hlived hmem
  unfold ViewConsented at h ⊢
  cases ht with
  | @started click player pre s post pending trace hacc hs hy ho =>
    have hl := lived_some.mp hlived
    have hnah : .answered s.node player.other .nah ∉ trace := fun hn =>
      hc player pre s post hacc hy (hmem _ rfl hn)
    have hself : ¬ ∃ answer, .answered s.node player answer ∈ trace := by
      rw [← hl.flags, hacc.unanswered]
      exact Bool.false_ne_true
    have hagreed := agreed_of_answers ((hl.flags player.other).mp ho) hnah hself
    have hyes : .initGame s.node ∉ [Effect.answered s.node player .yes] := by simp
    have hx := (h.extend hyes).concat hagreed
    rwa [List.append_assoc] at hx
  | created hf => exact beforeEach_of_notMem (by simp)
  | confirmed hacc hs hy ho => exact h.extend (by simp)
  | declined hacc hs hn => exact h.extend (by simp)
  | played hturn hs hsq hidle => exact h.extend (by simp [moveEffects])
  | strayed hturn hs hsq => exact h.extend (by simp [moveEffects])
  | asked hcb => exact h.extend (by simp)
  | announced hcb hs hr => exact h.extend (by simp)
  | originSet => exact h
  | dropped => exact h
  | orphaned => exact h
  | stored => exact h
  | erased => exact h

/-- Consent at the views is consent in the trace. -/
theorem consented_of_views {w : World} (h : ∀ node, ViewConsented node (view w node)) :
    Consented w.trace := by
  intro node before behind hs
  have hf : BeforeEach (fun start => Agreed node (effectsOf node start)) (.initGame node) w.trace :=
    BeforeEach.of_filter (by simp [Effect.node?]) (h node)
  intro player
  have hboth := hf before behind hs player
  simpa [mem_effectsOf, Effect.node?] using hboth

/-- An accepted YES after the other player's Nah starts the declined game. -/
theorem not_consented_of_start {w : World} (hw : Reached w) {click : Click} {player : Player}
    {pre post : List Session} {s : Session} (h : Accepts w click player pre s post)
    (hy : click.customId = s.confirm.btnId.1)
    (hn : .answered s.node player.other .nah ∈ w.trace) :
    ¬ Consented (w.confirmClick click).trace := by
  have hs := h.mem
  have hmem : .answered s.node player.other .nah ∈ effectsOf s.node w.trace :=
    mem_effectsOf.mpr ⟨hn, rfl⟩
  have ho := ((listed_reached hw hs).flags player.other).mpr ⟨.nah, hmem⟩
  rw [confirmClick_accepts hw.inv h]
  simp only [accept, if_pos hy, ho, Bool.true_eq_false, if_false]
  intro hc
  have hbefore := hc s.node (w.trace ++ [.answered s.node player .yes]) _ (by
    simp only [World.emit, List.append_assoc, List.cons_append, List.nil_append]
    rfl)
  exact (hbefore player.other).2 (List.mem_append_left _ hn)

/-- A longer history has at least the starts of a shorter one. -/
theorem Consented.of_append {trace more : List Effect} (h : Consented (trace ++ more)) :
    Consented trace :=
  fun node => (beforeEach_append.mp (h node)).1

/-- Every start in a run has the consent of both players if and only if no
step of the run accepts a YES for a session that the other player has
declined. -/
theorem consented_iff (events : List Event) :
    Consented (run events).trace ↔ Along World.step NoYesAfterNah World.init events := by
  constructor
  · rintro h before e behind rfl
    cases e with
    | command => trivial
    | callback => trivial
    | click click =>
      intro player pre s post hacc hy hn
      obtain ⟨more, hmore⟩ := trace_run (before ++ [.click click]) behind
      rw [List.append_assoc, List.singleton_append, run_click] at hmore
      have hw := reached_run before
      obtain ⟨last, hlast⟩ := change_trace (board_change (reached_part hw (.confirm click)).inv click)
      rw [hmore] at h
      have hboard := h.of_append
      have hpart : (run before).part (.confirm click) = (run before).confirmClick click := rfl
      rw [hpart] at hlast
      rw [hlast] at hboard
      exact not_consented_of_start hw hacc hy hn hboard.of_append
  · intro h
    exact consented_of_views (view_run h (fun _ => beforeEach_of_notMem (by simp))
      fun w node p v hw hc hv ht => viewConsented_touch hw hc hv ht)

/-- The challenged player declines, and the challenger then presses YES. -/
def declinedThenYes : List Event :=
  opening ++ [.click (clickBy 22 100 "confm_3_n"), .click (clickBy 11 100 "confm_2_y")]

/-- The declined game is started. -/
theorem declinedThenYes_not_consented : ¬ Consented (run declinedThenYes).trace := by
  intro h
  have hb := h 0 ((run declinedThenYes).trace.take 4) ((run declinedThenYes).trace.drop 5)
    (by decide) .two
  exact absurd hb.1 (by decide)

end TintempPlusPlus.Consent
