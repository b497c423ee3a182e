import Mathlib.Data.List.Induction

/-!
# Records that a machine accepts

A partial machine reads a record entry by entry and may refuse an entry. A
record that it reads to the end is accepted. What one accepted entry
preserves holds after every accepted record.
-/

namespace TintempPlusPlus.AcceptedRecords

variable {σ ε : Type*} (next : σ → ε → Option σ)

/-- The state after a record, when no entry is refused. -/
def replay (s : σ) : List ε → Option σ
  | [] => some s
  | e :: es => (next s e).bind fun t => replay t es

variable {next} {s t u : σ} {e : ε} {es fs : List ε}

/-- An accepted entry is replayed first. -/
theorem replay_cons_of_next (h : next s e = some t) :
    replay next s (e :: es) = replay next t es := by
  rw [replay, h, Option.bind_some]

/-- A record is replayed part by part. -/
theorem replay_append (s : σ) (es fs : List ε) :
    replay next s (es ++ fs) = (replay next s es).bind fun t => replay next t fs := by
  induction es generalizing s with
  | nil => rfl
  | cons e es ih =>
    rw [List.cons_append, replay, replay, Option.bind_assoc]
    exact Option.bind_congr fun t _ => ih t

/-- A record goes on from the state that its first part leads to. -/
theorem replay_append_of (h : replay next s es = some t) (hf : replay next t fs = some u) :
    replay next s (es ++ fs) = some u := by
  rw [replay_append, h, Option.bind_some, hf]

/-- The parts of an accepted record are accepted. -/
theorem replay_split (h : replay next s (es ++ fs) = some u) :
    ∃ t, replay next s es = some t ∧ replay next t fs = some u := by
  rw [replay_append] at h
  exact Option.bind_eq_some_iff.mp h

/-- What each accepted entry preserves, about the state and the record read
so far, holds after every accepted record. -/
theorem replay_invariant {I : List ε → σ → Prop} (h0 : I [] s)
    (hstep : ∀ es t e u, I es t → next t e = some u → I (es ++ [e]) u)
    (h : replay next s es = some t) : I es t := by
  induction es using List.reverseRecOn generalizing t with
  | nil =>
    cases h
    exact h0
  | append_singleton es e ih =>
    obtain ⟨u, hu, hlast⟩ := replay_split h
    obtain ⟨v, hv, hnil⟩ := Option.bind_eq_some_iff.mp hlast
    cases hnil
    exact hstep es u e t (ih hu) hv

end TintempPlusPlus.AcceptedRecords
