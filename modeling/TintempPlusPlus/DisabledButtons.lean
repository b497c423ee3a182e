import TintempPlusPlus.Counter

/-!
# The disabled buttons of a challenge

The ids of the two disabled buttons are written as a literal plus a number of
the shared counter. That is an offset into the literal and not a longer text.
The counter goes up by three for every challenge and by nine for every
started game, so only the first few challenges stay within the literal.
-/

namespace TintempPlusPlus.DisabledButtons

open Discord UniqueID Ttt Handlers Program EventRuns Invariant Steps Reachable Lives Counter

/-- The literal of both ids. -/
abbrev noInteraction : String := "no_interaction_"

/-- Both offsets lie within the literal, and the two disabled buttons have
different ids that are not empty. -/
structure InBounds (button : ConfirmButton) : Prop where
  /-- The offset of the first id. -/
  yes : button.id.1 ≤ noInteraction.length
  /-- The offset of the second id. -/
  no : button.id.2 ≤ noInteraction.length
  /-- The two ids. -/
  ids : ∃ yes no, button.onButtonConfirm = (some yes, some no) ∧ yes ≠ "" ∧ no ≠ "" ∧ yes ≠ no

/-- The confirm button that the event builds, if it adds a session to the
list, is in bounds. -/
def BuildsInBounds (w : World) (e : Event) : Prop :=
  ∀ s, (w.step e).tttListG = w.tttListG ++ [s] → InBounds s.confirm

/-- The first mentioned user is no bot and not the author. -/
def Challenging (message : Incoming) : Prop :=
  ∃ mentioned ∈ message.mentions.head?, mentioned.isBot = false ∧ mentioned.id ≠ message.author

/-- A challenge comes early: there have been so few challenges and started
games that the two numbers of its confirm button are smaller than the length
of the literal. -/
def ChallengesEarly (w : World) : Event → Prop
  | .command message order => Challenging message →
    3 * challenges w + 9 * games w ≤ if order.tttFirst then 11 else 12
  | _ => True

variable {w : World} {p : Part}

/-! ## Offsets into a literal -/

/-- An offset takes as many characters away from the literal. -/
theorem literalFrom_length {literal id : String} {offset : ℕ}
    (h : literalFrom literal offset = some id) : offset + id.length = literal.length := by
  unfold literalFrom at h
  split at h
  · cases h
    rw [String.length_ofList, List.length_drop, String.length_toList]
    omega
  · cases h

/-- An offset within the literal gives a text. -/
theorem literalFrom_some {literal : String} {offset : ℕ} (h : offset ≤ literal.length) :
    ∃ id, literalFrom literal offset = some id :=
  ⟨_, if_pos h⟩

/-- Two different offsets give different texts that are not empty when both
are offsets of characters. -/
theorem literalFrom_apart {literal : String} {a b : ℕ} (hne : a ≠ b) :
    (∃ yes no, (literalFrom literal a, literalFrom literal b) = (some yes, some no) ∧
      yes ≠ "" ∧ no ≠ "" ∧ yes ≠ no) ↔ a < literal.length ∧ b < literal.length := by
  constructor
  · intro h
    obtain ⟨yes, no, heq, hyes, hno, -⟩ := h
    obtain ⟨ha, hb⟩ := Prod.mk.inj heq
    have hla := literalFrom_length ha
    have hlb := literalFrom_length hb
    have hy : yes.length ≠ 0 := fun h => hyes (String.length_eq_zero_iff.mp h)
    have hn : no.length ≠ 0 := fun h => hno (String.length_eq_zero_iff.mp h)
    omega
  · intro h
    obtain ⟨yes, ha⟩ := literalFrom_some h.1.le
    obtain ⟨no, hb⟩ := literalFrom_some h.2.le
    have hla := literalFrom_length ha
    have hlb := literalFrom_length hb
    refine ⟨yes, no, by rw [ha, hb], ?_, ?_, ?_⟩ <;> intro he
    · rw [he, String.length_empty] at hla
      omega
    · rw [he, String.length_empty] at hlb
      omega
    · rw [he] at hla
      omega

/-- A confirm button is in bounds when both of its numbers are smaller than
the length of the literal. -/
theorem init_inBounds {player1 player2 : Snowflake} {uidY uidN : ℕ} (hne : uidY ≠ uidN) :
    InBounds (.init player1 player2 uidY uidN) ↔
      uidY < noInteraction.length ∧ uidN < noInteraction.length := by
  rw [← literalFrom_apart hne]
  constructor
  · exact InBounds.ids
  · intro h
    have hlt := (literalFrom_apart hne).mp h
    exact ⟨hlt.1.le, hlt.2.le, h⟩

/-- The two numbers that a new session has for its confirm button are in
bounds as long as the counter is low. -/
theorem newSession_inBounds (order : DrawOrder) (player1 player2 : Snowflake) (nextID node : ℕ) :
    InBounds (newSession order player1 player2 nextID node).1.confirm ↔
      nextID ≤ if order.tttFirst then 11 else 12 := by
  have hlength : noInteraction.length = 15 := by decide
  obtain ⟨tttFirst, yesFirst⟩ := order
  cases tttFirst <;> cases yesFirst <;>
    simp only [newSession, ConfirmButton.new, Game.new, draw, if_true, if_false,
      Bool.false_eq_true] <;>
    rw [init_inBounds (by omega), hlength] <;> omega

/-! ## Building a confirm button -/

/-- The command either adds the session of a challenge or adds none. -/
theorem command_cases (w : World) (message : Incoming) (order : DrawOrder) :
    (Challenging message ∧
        ∃ opponent, w.command message order = w.challenge message opponent order) ∨
      ¬ Challenging message ∧ (w.command message order).tttListG = w.tttListG ∧
        challenges (w.command message order) = challenges w := by
  unfold World.command Challenging
  cases hm : message.mentions with
  | nil => exact Or.inr ⟨by simp, rfl, rfl⟩
  | cons mentioned rest =>
    dsimp only
    split_ifs with hbot hself
    · exact Or.inr ⟨by simp [hbot], rfl, challenges_emit _ _⟩
    · exact Or.inr ⟨by simp [hself], rfl, challenges_emit _ _⟩
    · exact Or.inl ⟨by simp [hbot, hself], mentioned.id, rfl⟩

/-- The other pieces add no session and post no challenge. -/
theorem part_other (hw : Reached w) (hp : ∀ message order, p ≠ .command message order) :
    (w.part p).tttListG.length ≤ w.tttListG.length ∧ challenges (w.part p) = challenges w := by
  obtain ⟨posted, started, hcounts, hcommand⟩ := change_counts (part_change hw.inv p)
  have hzero : posted = 0 := by
    refine hcommand.resolve_right fun h => ?_
    obtain ⟨message, order, he⟩ := h
    exact hp message order he
  subst hzero
  exact ⟨hcounts.length, hcounts.challenges⟩

/-- The other events add no session and post no challenge. -/
theorem step_other (hw : Reached w) {e : Event} (he : ∀ message order, e ≠ .command message order) :
    (w.step e).tttListG.length ≤ w.tttListG.length ∧ challenges (w.step e) = challenges w := by
  cases e with
  | command message order => exact absurd rfl (he message order)
  | click click =>
    obtain ⟨hlength, hsame⟩ := part_other (p := .confirm click) hw (by simp)
    have hw' := reached_part hw (.confirm click)
    obtain ⟨hlength', hsame'⟩ := part_other (p := .board click) hw' (by simp)
    exact ⟨hlength'.trans hlength, hsame'.trans hsame⟩
  | callback callback response =>
    exact part_other (p := .callback callback response) hw (by simp)

/-- Only a command builds a confirm button. -/
theorem builds_other (hw : Reached w) {e : Event}
    (he : ∀ message order, e ≠ .command message order) : BuildsInBounds w e := by
  intro s hs
  have hlength := (step_other hw he).1
  rw [hs, List.length_append, List.length_singleton] at hlength
  omega

/-- An event builds its confirm button in bounds if and only if it is no late
challenge. -/
theorem builds_iff (hw : Reached w) (e : Event) : BuildsInBounds w e ↔ ChallengesEarly w e := by
  cases e with
  | command message order =>
    have hcount := nextID_reached hw
    rcases command_cases w message order with ⟨hyes, opponent, hadds⟩ | ⟨hno, hsame, -⟩
    · have hnew := newSession_inBounds order message.author opponent w.nextID w.nextNode
      have hlist : (w.step (.command message order)).tttListG =
          w.tttListG ++ [(newSession order message.author opponent w.nextID w.nextNode).1] :=
        congrArg World.tttListG hadds
      constructor
      · intro h _
        rw [← hcount]
        exact hnew.mp (h _ hlist)
      · intro h s hs
        rw [hlist] at hs
        rw [← List.singleton_inj.mp (List.append_cancel_left hs)]
        exact hnew.mpr (hcount ▸ h hyes)
    · constructor
      · intro _ hyes
        exact absurd hyes hno
      · intro _ s hs
        have hself : w.tttListG = w.tttListG ++ [s] := hsame.symm.trans hs
        exact absurd (List.self_eq_append_right.mp hself) (List.cons_ne_nil s [])
  | click click => exact iff_of_true (builds_other hw (by simp)) trivial
  | callback callback response => exact iff_of_true (builds_other hw (by simp)) trivial

/-- An early challenge is at most the fifth one. -/
theorem step_challenges (hw : Reached w) {e : Event} (hearly : ChallengesEarly w e)
    (hle : challenges w ≤ 5) : challenges (w.step e) ≤ 5 := by
  cases e with
  | command message order =>
    show challenges (w.command message order) ≤ 5
    rcases command_cases w message order with ⟨hyes, opponent, hadds⟩ | ⟨-, -, hsame⟩
    · have hbound := hearly hyes
      have hone : challenges (w.challenge message opponent order) = challenges w + 1 :=
        challenges_emit _ _
      rw [hadds, hone]
      split_ifs at hbound <;> omega
    · rw [hsame]
      exact hle
  | click click => exact (step_other hw (by simp)).2.trans_le hle
  | callback callback response => exact (step_other hw (by simp)).2.trans_le hle

/-- A run that stays in bounds has at most five challenges. -/
theorem challenges_le {events : List Event}
    (h : Along World.step BuildsInBounds World.init events) : challenges (run events) ≤ 5 := by
  have hall := Along.invariant (I := fun w => Reached w ∧ challenges w ≤ 5) h
    ⟨reached_init, Nat.zero_le 5⟩ fun w e hi hb =>
      ⟨reached_steps hi.1 [e], step_challenges hi.1 ((builds_iff hi.1 e).mp hb) hi.2⟩
  exact hall.2

/-- In a run every confirm button is built in bounds if and only if every
challenge comes early. -/
theorem buildsInBounds_iff (events : List Event) :
    Along World.step BuildsInBounds World.init events ↔
      Along World.step ChallengesEarly World.init events := by
  constructor
  · intro h before e behind hs
    exact (builds_iff (reached_run before) e).mp (h before e behind hs)
  · intro h before e behind hs
    exact (builds_iff (reached_run before) e).mpr (h before e behind hs)

/-- Six challenges in a row. -/
def sixChallenges : List Event := List.replicate 6 (.command firstIncoming ⟨true, true⟩)

/-- The fifth challenge has an empty id, and both ids of the sixth one lie
behind the literal. -/
theorem sixChallenges_not_inBounds :
    (run sixChallenges).tttListG.map (fun s => (s.confirm.id, s.confirm.onButtonConfirm)) =
        [((2, 3), some "_interaction_", some "interaction_"),
          ((5, 6), some "teraction_", some "eraction_"), ((8, 9), some "action_", some "ction_"),
          ((11, 12), some "ion_", some "on_"), ((14, 15), some "_", some ""),
          ((17, 18), none, none)] ∧
      ¬ Along World.step BuildsInBounds World.init sixChallenges := by
  refine ⟨by decide, fun h => ?_⟩
  have hsixth := h (List.replicate 5 (.command firstIncoming ⟨true, true⟩)) _ [] rfl
  have hbutton := hsixth (newSession ⟨true, true⟩ 11 22 15 5).1 rfl
  exact absurd hbutton.yes (by decide)

end TintempPlusPlus.DisabledButtons
