import TintempPlusPlus.Library.EventRuns

/-!
# Code that a call can interrupt

A piece of code changes a state and makes calls. A call that is refused
throws, and the exception leaves the code: what was done before stays done,
and nothing behind the call is reached. Code whose calls are all accepted
behaves as if the calls were not there. An exception that nobody catches may
also end the whole run; up to its end such a run is a plain one.
-/

namespace TintempPlusPlus.Interruptions

open EventRuns

variable {σ κ ι ε : Type*}

/-- What a piece of code leaves behind. -/
@[ext] structure Left (σ κ : Type*) where
  /-- The state. -/
  state : σ
  /-- The calls that were made, oldest first. The last one may be refused. -/
  calls : List κ

/-- Calls made one after another, up to the first one that is refused. -/
def attempt (refused : κ → Bool) : List κ → List κ
  | [] => []
  | call :: calls => if refused call then [call] else call :: attempt refused calls

/-- One piece of code and then another one, which is reached when no call of
the first one is refused. -/
def andThen (refused : κ → Bool) (left : Left σ κ) (next : σ → Left σ κ) : Left σ κ :=
  if left.calls.any refused then left
  else ⟨(next left.state).state, left.calls ++ (next left.state).calls⟩

/-- A loop whose body can be interrupted. -/
def loop (refused : κ → Bool) (body : σ → ι → Left σ κ) (left : Left σ κ) (items : List ι) :
    Left σ κ :=
  items.foldl (fun left item => andThen refused left fun state => body state item) left

variable {refused : κ → Bool} {calls : List κ} {call : κ} {left : Left σ κ}

/-- No other call is made. -/
theorem mem_of_mem_attempt (h : call ∈ attempt refused calls) : call ∈ calls := by
  induction calls with
  | nil => exact h
  | cons first calls ih =>
    rw [attempt] at h
    split_ifs at h
    · exact List.mem_singleton.mp h ▸ List.mem_cons_self
    · rcases List.mem_cons.mp h with rfl | hrest
      · exact List.mem_cons_self
      · exact List.mem_cons_of_mem _ (ih hrest)

/-- Accepted calls are not noticed. -/
theorem andThen_accepted (h : ∀ call ∈ left.calls, refused call = false) (next : σ → Left σ κ) :
    andThen refused left next =
      ⟨(next left.state).state, left.calls ++ (next left.state).calls⟩ := by
  have hany : left.calls.any refused = false := List.any_eq_false.mpr fun call hc => by
    rw [h call hc]
    decide
  rw [andThen, hany]
  rfl

/-- One accepted call is not noticed. -/
theorem andThen_call (h : refused call = false) (state : σ) (next : σ → Left σ κ) :
    andThen refused ⟨state, [call]⟩ next = ⟨(next state).state, call :: (next state).calls⟩ := by
  rw [andThen_accepted]
  · rfl
  · exact fun first hf => List.mem_singleton.mp hf ▸ h

/-- A loop whose calls are all accepted is the loop without them, when every
round makes the calls that an account of the state asks for. -/
theorem loop_accepted {body : σ → ι → Left σ κ} {plain : σ → ι → σ} (account : σ → List κ)
    (hround : ∀ state item, (body state item).state = plain state item ∧
      account state ++ (body state item).calls = account (plain state item))
    (haccepted : ∀ state, ∀ call ∈ account state, refused call = false) (state : σ)
    (items : List ι) :
    loop refused body ⟨state, account state⟩ items =
      ⟨items.foldl plain state, account (items.foldl plain state)⟩ := by
  induction items generalizing state with
  | nil => rfl
  | cons item items ih =>
    obtain ⟨hstate, hcalls⟩ := hround state item
    have hfirst : andThen refused ⟨state, account state⟩ (fun state => body state item) =
        ⟨plain state item, account (plain state item)⟩ := by
      rw [andThen_accepted (haccepted state), hstate, hcalls]
    rw [loop, List.foldl_cons, hfirst]
    exact ih (plain state item)

/-! ## Runs that can end -/

/-- A run that may have ended. -/
structure Course (σ : Type*) where
  /-- The state. -/
  state : σ
  /-- The run has ended. -/
  finished : Bool := false

/-- One step of a run that an event may end. Behind its end nothing happens. -/
def advance (step : σ → ε → σ) (ends : σ → ε → Bool) (course : Course σ) (e : ε) : Course σ :=
  if course.finished then course else ⟨step course.state e, ends course.state e⟩

/-- The run took place in front of a point and not behind it. -/
structure TookPlace (step : σ → ε → σ) (ends : σ → ε → Bool) (s : σ) (es : List ε)
    (course : Course σ) (front behind : List ε) : Prop where
  /-- The point lies in the run. -/
  split : es = front ++ behind
  /-- In front of it everything happened. -/
  state : course.state = after step s front
  /-- Nothing lies behind it if the run goes on. -/
  going : course.finished = false → behind = []
  /-- The last event in front of it ended the run if the run has ended. -/
  ended : course.finished = true →
    ∃ before e, front = before ++ [e] ∧ ends (after step s before) e = true

/-- A run that can end is a plain one up to its end. -/
theorem tookPlace_run (step : σ → ε → σ) (ends : σ → ε → Bool) (s : σ) (es : List ε) :
    ∃ front behind,
      TookPlace step ends s es (after (advance step ends) ⟨s, false⟩ es) front behind := by
  induction es using List.reverseRecOn with
  | nil => exact ⟨[], [], rfl, rfl, fun _ => rfl, fun h => by cases h⟩
  | append_singleton es e ih =>
    obtain ⟨front, behind, h⟩ := ih
    rw [after_concat]
    generalize after (advance step ends) ⟨s, false⟩ es = course at h
    by_cases hfinished : course.finished = true
    · have hstay : advance step ends course e = course := if_pos hfinished
      refine ⟨front, behind ++ [e], ?_, ?_, ?_, ?_⟩
      · rw [h.split, List.append_assoc]
      · rw [hstay]
        exact h.state
      · intro hgoing
        rw [hstay, hfinished] at hgoing
        cases hgoing
      · rw [hstay]
        exact h.ended
    · have hmove : advance step ends course e = ⟨step course.state e, ends course.state e⟩ :=
        if_neg hfinished
      have hall : es = front := by
        rw [h.split, h.going (Bool.not_eq_true _ ▸ hfinished), List.append_nil]
      refine ⟨es ++ [e], [], (List.append_nil _).symm, ?_, fun _ => rfl, ?_⟩
      · rw [hmove, after_concat, hall, h.state]
      · intro hended
        rw [hmove, h.state, ← hall] at hended
        exact ⟨es, e, rfl, hended⟩

end TintempPlusPlus.Interruptions
