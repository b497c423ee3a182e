import TintempPlusPlus.Lives

/-!
# One session at two moments of a run

A list element is used for one session only, so a session listed at two
moments was listed in between, and whatever every touch keeps is the same at
both.
-/

namespace TintempPlusPlus.Histories

open Discord UniqueID Ttt Handlers ScanLoop Play HandlerLaws Program OneEntry EventRuns Invariant
  Steps Reachable Views Lives

variable {w : World} {node : ℕ}

/-- A listed session whose result message is sent has a history. -/
theorem trace_ne_nil {s : Session} {pending : List Callback} {trace : List Effect}
    (h : Listed node s pending trace) (hcb : .resultMessage node ∈ pending) : trace ≠ [] := by
  obtain ⟨player, hplayer⟩ := h.answered (Or.inr (h.ready _ hcb rfl))
  obtain ⟨answer, ha⟩ := (h.flags player).mp hplayer
  exact List.ne_nil_of_mem ha

/-- The view of a session that was listed once: it is listed and related to
what it was, or it is gone for good. -/
def ViewFollows (R : Session → Session → Prop) (s : Session) (n : ℕ) (v : View) : Prop :=
  n = s.node → (∃ t, v.session = some t ∧ R s t) ∨ (v.session = none ∧ v.trace ≠ [])

/-- Every touch keeps a reflexive and transitive relation that holds across
the touches of listed sessions. -/
theorem viewFollows_touch {R : Session → Session → Prop} {s : Session} {p : Part} {v : View}
    (htrans : ∀ a b c, R a b → R b c → R a c)
    (htouch : ∀ t u pending trace pending' trace', Listed node t pending trace →
      Touch w node p ⟨some t, pending, trace⟩ ⟨some u, pending', trace'⟩ → R t u)
    (hw : Reached w) (h : ViewFollows R s node (view w node))
    (ht : Touch w node p (view w node) v) : ViewFollows R s node v := by
  have hlived := lived_reached hw node
  generalize view w node = u at h ht hlived
  obtain ⟨session, pending, trace⟩ := u
  obtain ⟨session', pending', trace'⟩ := v
  intro hn
  rcases h hn with ⟨t, hsome, hr⟩ | ⟨hnone, htrace⟩
  · dsimp only at hsome
    subst hsome
    have hl := lived_some.mp hlived
    cases session' with
    | some u => exact Or.inl ⟨u, rfl, htrans _ _ _ hr (htouch t u _ _ _ _ hl ht)⟩
    | none =>
      refine Or.inr ⟨rfl, ?_⟩
      cases ht with
      | erased hcb hs => exact trace_ne_nil hl hcb
  · dsimp only at hnone htrace
    subst hnone
    refine Or.inr ?_
    cases ht with
    | created hf => exact absurd rfl htrace
    | dropped hcb hidle => exact ⟨rfl, htrace⟩
    | orphaned hcb => exact ⟨rfl, htrace⟩
    | asked hcb => exact ⟨rfl, by simp⟩

/-- What every touch of a listed session keeps is kept between two moments
of a run at which the session is listed. -/
theorem kept_between {R : Session → Session → Prop} (hrefl : ∀ a, R a a)
    (htrans : ∀ a b c, R a b → R b c → R a c)
    (htouch : ∀ w node p t u pending trace pending' trace', Listed node t pending trace →
      Touch w node p ⟨some t, pending, trace⟩ ⟨some u, pending', trace'⟩ → R t u)
    {before middle : List Event} {s s' : Session} (hs : s ∈ (run before).tttListG)
    (hs' : s' ∈ (run (before ++ middle)).tttListG) (hn : s'.node = s.node) : R s s' := by
  have hw := reached_run before
  have hany : Along World.part (fun _ _ => True) (run before) (middle.flatMap Event.parts) :=
    fun _ _ _ _ => trivial
  have hview := view_after (I := ViewFollows R s) hw hany ?_
    (fun w n p v hw _ hv ht => viewFollows_touch htrans (htouch w n p) hw hv ht) s.node
  · rw [← run_append, ← hn, view_of_mem (inv_run _) hs', hn] at hview
    rcases hview rfl with ⟨t, hsome, hr⟩ | ⟨hnone, -⟩
    · cases hsome
      exact hr
    · cases hnone
  · intro n hns
    rw [hns, view_of_mem hw.inv hs]
    exact Or.inl ⟨s, rfl, hrefl s⟩

end TintempPlusPlus.Histories
