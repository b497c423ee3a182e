import Mathlib.Data.List.Induction

/-!
# Runs of an event-driven machine

A machine is a total step function on a state and an event, so that every
list of events is a run. Conditions are attached to the steps of a run, each
one read at the state before its step; invariants are carried along the runs
whose steps meet a condition. Nothing here depends on what the machine does.
-/

namespace TintempPlusPlus.EventRuns

variable {σ ε : Type*} (step : σ → ε → σ)

/-- State reached from `s` by the events of a run, oldest first. -/
def after (s : σ) (es : List ε) : σ := es.foldl step s

/-- Without events nothing happens. -/
@[simp] theorem after_nil (s : σ) : after step s [] = s := rfl

/-- The first event comes first. -/
@[simp] theorem after_cons (s : σ) (e : ε) (es : List ε) :
    after step s (e :: es) = after step (step s e) es := rfl

/-- A run goes on where its front part ends. -/
theorem after_append (s : σ) (es fs : List ε) :
    after step s (es ++ fs) = after step (after step s es) fs := by
  simp only [after, List.foldl_append]

/-- The last event comes last. -/
theorem after_concat (s : σ) (es : List ε) (e : ε) :
    after step s (es ++ [e]) = step (after step s es) e := by
  simp only [after, List.foldl_append, List.foldl_cons, List.foldl_nil]

/-- Every step of the run meets `C` at the state before it. -/
def Along (C : σ → ε → Prop) (s : σ) (es : List ε) : Prop :=
  ∀ pre e post, es = pre ++ e :: post → C (after step s pre) e

variable {step} {C D : σ → ε → Prop} {s : σ} {es fs : List ε} {e : ε}

/-- The empty run meets every condition. -/
theorem along_nil : Along step C s [] := by
  intro pre e post h
  simp at h

/-- A run meets a condition at its first event and behind it. -/
theorem along_cons : Along step C s (e :: es) ↔ C s e ∧ Along step C (step s e) es := by
  constructor
  · intro h
    refine ⟨h [] e es rfl, ?_⟩
    intro pre f post hs
    exact h (e :: pre) f post (by rw [hs]; rfl)
  · rintro ⟨he, hes⟩ pre f post hs
    cases pre with
    | nil =>
      obtain ⟨rfl, rfl⟩ := List.cons.inj hs
      exact he
    | cons x pre =>
      obtain ⟨rfl, htail⟩ := List.cons.inj hs
      exact hes pre f post htail

/-- The front part of a run meets its condition. -/
theorem Along.front (h : Along step C s (es ++ fs)) : Along step C s es := by
  intro pre e post hs
  exact h pre e (post ++ fs) (by rw [hs, List.append_assoc]; rfl)

/-- A run meets a condition before its last event and there. -/
theorem along_concat :
    Along step C s (es ++ [e]) ↔ Along step C s es ∧ C (after step s es) e := by
  constructor
  · intro h
    exact ⟨h.front, h es e [] rfl⟩
  · rintro ⟨hes, he⟩ pre f post hs
    rcases List.eq_nil_or_concat post with rfl | ⟨post, g, rfl⟩
    · obtain ⟨rfl, hf⟩ := List.append_inj' hs rfl
      cases hf
      exact he
    · rw [List.concat_eq_append, ← List.cons_append, ← List.append_assoc] at hs
      obtain ⟨rfl, -⟩ := List.append_inj' hs rfl
      exact hes pre f post rfl

/-- A run meets a condition part by part. -/
theorem along_append :
    Along step C s (es ++ fs) ↔ Along step C s es ∧ Along step C (after step s es) fs := by
  induction es generalizing s with
  | nil => simp only [List.nil_append, after_nil, along_nil, true_and]
  | cons e es ih => rw [List.cons_append, along_cons, along_cons, ih, after_cons, and_assoc]

/-- A weaker condition is met as well. -/
theorem Along.mono (h : Along step C s es) (hCD : ∀ t f, C t f → D t f) :
    Along step D s es :=
  fun pre f post hs => hCD _ _ (h pre f post hs)

/-- A condition that can be decided at each step can be decided along a run. -/
instance decidableAlong [∀ s e, Decidable (C s e)] : ∀ s es, Decidable (Along step C s es)
  | _, [] => isTrue along_nil
  | s, e :: es =>
    haveI := decidableAlong (step s e) es
    decidable_of_iff _ along_cons.symm

/-- An invariant that the steps meeting `C` preserve holds at the end of
every run whose steps meet `C`. -/
theorem Along.invariant {I : σ → Prop} (h : Along step C s es) (h0 : I s)
    (hstep : ∀ t f, I t → C t f → I (step t f)) : I (after step s es) := by
  induction es using List.reverseRecOn with
  | nil => exact h0
  | append_singleton es e ih =>
    obtain ⟨hes, he⟩ := along_concat.mp h
    rw [after_concat]
    exact hstep _ _ (ih hes) he

/-- An invariant that every step preserves holds at the end of every run. -/
theorem invariant {I : σ → Prop} (h0 : I s) (hstep : ∀ t f, I t → I (step t f)) :
    I (after step s es) :=
  Along.invariant (C := fun _ _ => True) (fun _ _ _ _ => trivial) h0 (fun t f ht _ => hstep t f ht)

/-- What does not hold at first and holds at the end of a run begins to hold
at one of its steps. -/
theorem exists_first {P : σ → Prop} (h0 : ¬ P s) (h : P (after step s es)) :
    ∃ pre e post, es = pre ++ e :: post ∧ P (after step s (pre ++ [e])) ∧
      ∀ fore rest, pre = fore ++ rest → ¬ P (after step s fore) := by
  induction es generalizing s with
  | nil => exact absurd h h0
  | cons e es ih =>
    by_cases he : P (step s e)
    · refine ⟨[], e, es, rfl, he, ?_⟩
      intro fore rest hs
      rw [(List.append_eq_nil_iff.mp hs.symm).1]
      exact h0
    · obtain ⟨pre, f, post, rfl, hf, hpre⟩ := ih he h
      refine ⟨e :: pre, f, post, rfl, hf, ?_⟩
      intro fore rest hs
      cases fore with
      | nil => exact h0
      | cons x fore =>
        obtain ⟨rfl, htail⟩ := List.cons.inj hs
        exact hpre fore rest htail

section Parts

variable {π : Type*} {part : σ → π → σ} {parts : ε → List π} {D : σ → π → Prop}

/-- A machine whose steps are made of smaller steps runs as those do. -/
theorem after_parts (h : ∀ s e, step s e = after part s (parts e)) (s : σ) (es : List ε) :
    after step s es = after part s (es.flatMap parts) := by
  induction es generalizing s with
  | nil => rfl
  | cons e es ih => rw [after_cons, List.flatMap_cons, after_append, ← h, ih]

/-- A condition on the steps that entails one on the smaller steps. -/
theorem Along.refine (h : ∀ s e, step s e = after part s (parts e))
    (hCD : ∀ s e, C s e → Along part D s (parts e)) (hes : Along step C s es) :
    Along part D s (es.flatMap parts) := by
  induction es generalizing s with
  | nil => exact along_nil
  | cons e es ih =>
    obtain ⟨he, hrest⟩ := along_cons.mp hes
    rw [List.flatMap_cons, along_append, ← h]
    exact ⟨hCD s e he, ih hrest⟩

end Parts

end TintempPlusPlus.EventRuns
