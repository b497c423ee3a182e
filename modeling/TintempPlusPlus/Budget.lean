import TintempPlusPlus.Library.Potential
import TintempPlusPlus.Reachable

/-!
# How much traffic a run causes

Every request leaves a callback behind, and some callbacks make further
requests. The chains that start at one click or command are short, so the
clicks and commands of a run bound its requests and its callbacks, and
callbacks on their own soon run dry.
-/

namespace TintempPlusPlus.Budget

open Discord UniqueID Ttt Handlers ScanLoop Play HandlerLaws Program OneEntry EventRuns Invariant
  Steps Reachable Potential

/-- The effect is a request to Discord. -/
def isRequest : Effect → Bool
  | .reply _ _ _ _ => true
  | .getOriginalResponse _ _ => true
  | .messageEdit _ _ => true
  | .messageCreate _ _ => true
  | .messageDelete _ _ => true
  | _ => false

/-- The request has no callback. -/
def isDelete : Effect → Bool
  | .messageDelete _ _ => true
  | _ => false

/-- Number of requests of a record. -/
def requests (trace : List Effect) : ℕ := trace.countP isRequest

/-- Number of callbacks that run when a callback has run, itself included:
the longest chain that the program can make of it. -/
def chain : Callback → ℕ
  | .confirmReply _ _ => 2
  | .boardReply _ _ => 3
  | _ => 1

/-- Number of callbacks that are still to run. -/
def load (pending : List Callback) : ℕ := (pending.map chain).sum

/-- What an effect adds to the load, with the requests that need no callback
counted too. -/
def price (effect : Effect) : ℕ :=
  (if isDelete effect then 1 else 0) + (effect.callback?.map chain).getD 0

/-- The load of a world and its requests without callbacks. -/
def debt (w : World) : ℕ := load w.pending + w.trace.countP isDelete

/-- The event runs a callback. -/
def delivers (w : World) : Event → Bool
  | .callback callback response => w.admits callback response
  | _ => false

/-- Number of callbacks that a run has run. -/
def delivered (w : World) (events : List Event) : ℕ := occurrences World.step delivers w events

/-- Number of clicks of a run. -/
def clicks (events : List Event) : ℕ :=
  events.countP fun e => match e with
    | .click _ => true
    | _ => false

/-- Number of commands of a run. -/
def commands (events : List Event) : ℕ :=
  events.countP fun e => match e with
    | .command _ _ => true
    | _ => false

/-- What an event may add to the debt. -/
def fee : Event → ℕ
  | .command _ _ => 1
  | .click _ => 6
  | .callback _ _ => 0

variable {w : World} {s : Session} {click : Click} {player : Player} {callback : Callback}
  {effects : List Effect} {pending : List Callback}

/-- Every click pays six callbacks and every command one. -/
theorem sum_fee (events : List Event) :
    (events.map fee).sum = 6 * clicks events + commands events := by
  induction events with
  | nil => rfl
  | cons e events ih =>
    rw [List.map_cons, List.sum_cons, ih]
    cases e <;> simp [fee, clicks, commands] <;> omega

/-- A callback that is delivered runs. -/
theorem step_delivers {response : Response} (h : delivers w (.callback callback response) = true) :
    w.step (.callback callback response) = (taken w callback).runCallback response callback :=
  if_pos h

/-- A callback that is not delivered leaves everything as it is. -/
theorem step_not_delivers {response : Response}
    (h : ¬ delivers w (.callback callback response) = true) :
    w.step (.callback callback response) = w :=
  if_neg h

/-! ## Debts -/

/-- New effects add their prices. -/
theorem debt_emit (w : World) (effects : List Effect) :
    debt (w.emit effects) = debt w + (effects.map price).sum := by
  have hsum : (effects.map price).sum =
      load (effects.filterMap Effect.callback?) + effects.countP isDelete := by
    induction effects with
    | nil => rfl
    | cons effect effects ih =>
      rw [List.map_cons, List.sum_cons, ih, price, List.countP_cons, List.filterMap_cons]
      cases effect.callback? <;> simp [load] <;> omega
  simp only [debt, World.emit, load, List.map_append, List.sum_append, List.countP_append] at hsum ⊢
  omega

/-- A callback that runs is worth its chain. -/
theorem debt_taken (h : callback ∈ w.pending) :
    debt (taken w callback) + chain callback = debt w := by
  have hperm := (List.perm_cons_erase h).map chain
  have hsum := hperm.sum_eq
  simp only [List.map_cons, List.sum_cons] at hsum
  simp only [debt, load]
  omega

/-- The requests that a callback makes are paid by its chain. -/
theorem debt_runCallback (w : World) (response : Response) (callback : Callback) :
    1 + debt (w.runCallback response callback) ≤ debt w + chain callback := by
  cases callback with
  | log => exact (Nat.add_comm _ _).le
  | created uid posted => cases response <;> exact (Nat.add_comm _ _).le
  | confirmReply click node =>
    rw [World.runCallback, debt_emit]
    simp [price, isDelete, Effect.callback?, chain]
    omega
  | originalResponse click node => cases response <;> exact (Nat.add_comm _ _).le
  | boardReply click node =>
    have hnone : 1 + debt w ≤ debt w + chain (.boardReply click node) := by
      simp only [chain]
      omega
    cases response with
    | error => exact hnone
    | success deployment =>
      cases hf : w.find node with
      | none => simpa only [World.runCallback, hf] using hnone
      | some s =>
        cases hr : resultEmbed click s.ttt.result with
        | none => simpa only [World.runCallback, hf, hr] using hnone
        | some embed =>
          simp only [World.runCallback, hf, hr, World.announce]
          rw [debt_emit]
          simp [price, isDelete, Effect.callback?, chain, debt, World.update]
          omega
  | resultMessage node => cases response <;> exact (Nat.add_comm _ _).le

/-- At most one warning is sent. -/
theorem price_warnings (click : Click) (list : List Session) :
    ((warnings click list).map price).sum ≤ 1 := by
  unfold warnings
  split <;> simp [notYourButton, price, isDelete, Effect.callback?, chain]

/-- An answer asks for two callbacks at most. -/
theorem price_accept (click : Click) (player : Player) (nextID : ℕ) (s : Session) :
    ((accept click player nextID s).2.2.map price).sum ≤ 2 := by
  unfold accept
  dsimp only
  split_ifs <;> simp [price, isDelete, Effect.callback?, chain]

/-- The confirm handler answers one click and warns once. -/
theorem debt_confirm (hi : Inv w) (click : Click) : debt (w.confirmClick click) ≤ debt w + 3 := by
  have hplain : ∀ {effects : List Effect}, (effects.map price).sum ≤ 1 →
      debt (w.emit effects) ≤ debt w + 3 := by
    intro effects h
    rw [debt_emit]
    omega
  have hone : ([notYourButton click].map price).sum ≤ 1 := by
    simp [notYourButton, price, isDelete, Effect.callback?, chain]
  rcases split_first (Addressed click) w.tttListG with hnone | ⟨pre, s, post, hl, ha, hpre⟩
  · rw [World.confirmClick, onConfirmClick_unaddressed _ hnone]
    exact hplain (price_warnings _ _)
  · by_cases hreach : ∀ t ∈ pre, IsPlayer click.user t
    · cases hp : s.playerOf click.user with
      | none =>
        rw [World.confirmClick, hl, onConfirmClick_stranger hpre hreach hp, ← hl]
        exact hplain hone
      | some player =>
        cases hf : s.confirm.st.confm player with
        | true =>
          rw [World.confirmClick, hl, onConfirmClick_answered hpre hreach hp ha hf, ← hl]
          exact hplain (by simp)
        | false =>
          have haccept := price_accept click player w.nextID s
          have hwarn := price_warnings click post
          rw [confirmClick_accepts hi ⟨hl, hreach, hp, ha, hf⟩, debt_emit, List.map_append,
            List.sum_append]
          simp only [debt]
          omega
    · rw [World.confirmClick, hl, onConfirmClick_blocked hpre hreach, ← hl]
      exact hplain hone

/-- A click on the board asks for three callbacks at most. -/
theorem boardBody_price (hd : s.ttt.turn.1 ≠ 0 → DistinctIds s.ttt.board) (click : Click) :
    ((boardBody click () s).emitted.map price).sum ≤ 3 := by
  by_cases hm : click.messageId = s.ttt.game.id
  · by_cases ht : click.user = s.ttt.turn.1
    · have hdistinct := hd (ht ▸ click.userIssued)
      by_cases hsq : ∃ square, click.customId = (s.ttt.board square).id
      · obtain ⟨square, hsq⟩ := hsq
        by_cases hidle : (s.ttt.board square).status = .idle
        · rw [boardBody_move hdistinct hm ht hsq hidle]
          simp [moveEffects, price, isDelete, Effect.callback?, chain]
        · rw [boardBody_taken hdistinct hm ht hsq hidle]
          simp [squareTaken, price, isDelete, Effect.callback?, chain]
      · rw [boardBody_stray hm ht (not_exists.mp hsq)]
        simp [moveEffects, price, isDelete, Effect.callback?, chain]
    · rw [boardBody_waiting hm ht]
      split <;> simp [notYourTurn, price, isDelete, Effect.callback?, chain]
  · rw [show boardBody click () s = _ from boardBody_elsewhere hm]
    simp

/-- The board handler redraws one board or warns once. -/
theorem debt_board (hi : Inv w) (click : Click) : debt (w.boardClick click) ≤ debt w + 3 := by
  rcases split_first (fun s : Session => click.messageId = s.ttt.game.id) w.tttListG with
    hnone | ⟨pre, s, post, hl, hm, hpre⟩
  · rw [World.boardClick, onTttInteraction_elsewhere hnone, debt_emit]
    simp [debt]
  · obtain ⟨hs, hrest⟩ := hi.focus hl
    have hpost : ∀ t ∈ post, click.messageId ≠ t.ttt.game.id :=
      fun t ht => game_ne (hrest t (List.mem_append_right _ ht)).2 hm
    have hd : s.ttt.turn.1 ≠ 0 → DistinctIds s.ttt.board := fun hturn =>
      (hs.stage.resolve_left fun hw => hturn (congrArg Prod.fst hw.turn)).ids.distinctIds
    have hprice := boardBody_price hd click
    rw [World.boardClick, hl, onTttInteraction_at hpre hpost, debt_emit]
    simp only [debt]
    omega

/-- A command asks for one callback at most. -/
theorem debt_command (w : World) (message : Incoming) (order : DrawOrder) :
    debt (w.command message order) ≤ debt w + 1 := by
  unfold World.command
  split
  · exact Nat.le_succ _
  · split_ifs
    · rw [debt_emit]
      simp [rejection, price, isDelete, Effect.callback?, chain]
    · rw [debt_emit]
      simp [rejection, price, isDelete, Effect.callback?, chain]
    · simp only [World.challenge]
      rw [debt_emit]
      simp [price, isDelete, Effect.callback?, chain, debt]

/-- Every event pays for the callbacks that it runs or makes run. -/
theorem debt_step (hi : Inv w) (e : Event) :
    (if delivers w e then 1 else 0) + debt (w.step e) ≤ debt w + fee e := by
  cases e with
  | command message order =>
    have hcommand := debt_command w message order
    simpa [delivers, fee, World.step] using hcommand
  | click click =>
    have hconfirm := debt_confirm hi click
    have hi' : Inv (w.confirmClick click) := change_inv hi (confirm_change hi click)
    have hboard := debt_board hi' click
    simp only [delivers, fee, World.step, Bool.false_eq_true, if_false]
    omega
  | callback callback response =>
    by_cases hd : delivers w (.callback callback response) = true
    · have hmem : callback ∈ w.pending := of_decide_eq_true (Bool.and_eq_true_iff.mp hd).1
      have hrun := debt_runCallback (taken w callback) response callback
      have htaken := debt_taken hmem
      rw [if_pos hd, step_delivers hd]
      simp only [fee]
      omega
    · rw [if_neg hd, step_not_delivers hd]
      simp only [fee]
      omega

/-- The fees of a run bound its callbacks and the debt that is left. -/
theorem delivered_le (hi : Inv w) (events : List Event) :
    delivered w events + debt (after World.step w events) ≤
      debt w + (6 * clicks events + commands events) := by
  rw [← sum_fee]
  refine occurrences_le hi (fun t e ht => ?_) fun t e ht => debt_step ht e
  rw [step_eq_parts]
  exact invariant ht fun _ p hu => change_inv hu (part_change hu p)

/-! ## Requests and callbacks -/

/-- Every request has a callback, except for deletions. -/
theorem requests_append (trace effects : List Effect) : requests (trace ++ effects) =
    requests trace + ((effects.filterMap Effect.callback?).length + effects.countP isDelete) := by
  have hcount : effects.countP isRequest =
      (effects.filterMap Effect.callback?).length + effects.countP isDelete := by
    induction effects with
    | nil => rfl
    | cons effect effects ih =>
      rw [List.countP_cons, List.filterMap_cons, List.countP_cons, ih]
      cases effect <;> simp [isRequest, isDelete, Effect.callback?] <;> omega
  rw [requests, List.countP_append, hcount]
  rfl

/-- What the requests of a record led to: callbacks that have run, callbacks
that are pending, and deletions. -/
def Balanced (n : ℕ) (w : World) : Prop :=
  requests w.trace = n + w.pending.length + w.trace.countP isDelete

variable {n : ℕ}

/-- New effects keep the balance. -/
theorem Balanced.emit (h : Balanced n w) (effects : List Effect) :
    Balanced n (w.emit effects) := by
  simp only [Balanced, World.emit] at h ⊢
  rw [requests_append, List.length_append, List.countP_append]
  omega

/-- A callback that runs is counted as delivered. -/
theorem Balanced.taken (h : Balanced n w) (hmem : callback ∈ w.pending) :
    Balanced (n + 1) (taken w callback) := by
  have hlength := List.length_erase_of_mem hmem
  have hpos := List.length_pos_of_mem hmem
  simp only [Balanced] at h ⊢
  omega

/-- What a callback does keeps the balance. -/
theorem Balanced.runCallback (h : Balanced n w) (response : Response)
    (callback : Callback) : Balanced n (w.runCallback response callback) := by
  cases callback with
  | log => exact h
  | created uid posted => cases response <;> exact h
  | confirmReply click node => exact h.emit _
  | originalResponse click node => cases response <;> exact h
  | boardReply click node =>
    cases response with
    | error => exact h
    | success deployment =>
      simp only [World.runCallback]
      split
      · exact h
      · split
        · exact h
        · exact Balanced.emit (w := w.update _ _) h _
  | resultMessage node => cases response <;> exact h

/-- Every event keeps the balance. -/
theorem Balanced.step (h : Balanced n w) (e : Event) :
    Balanced ((if delivers w e then 1 else 0) + n) (w.step e) := by
  cases e with
  | command message order =>
    simp only [delivers, Bool.false_eq_true, if_false, Nat.zero_add, World.step, World.command]
    split
    · exact h
    · split_ifs
      · exact h.emit _
      · exact h.emit _
      · exact Balanced.emit (w := { w with
          nextID := _, nextNode := w.nextNode + 1, tttListG := _ }) h _
  | click click =>
    simp only [delivers, Bool.false_eq_true, if_false, Nat.zero_add, World.step]
    have hconfirm : Balanced n (w.confirmClick click) :=
      Balanced.emit (w := { w with nextID := _, tttListG := _ }) h _
    exact Balanced.emit (w := { w.confirmClick click with tttListG := _ }) hconfirm _
  | callback callback response =>
    by_cases hd : delivers w (.callback callback response) = true
    · have hmem : callback ∈ w.pending := of_decide_eq_true (Bool.and_eq_true_iff.mp hd).1
      rw [if_pos hd, step_delivers hd, Nat.add_comm]
      exact (h.taken hmem).runCallback response callback
    · rw [if_neg hd, step_not_delivers hd, Nat.zero_add]
      exact h

/-- A run keeps the balance and counts the callbacks that it delivers. -/
theorem balanced_after (h : Balanced n w) (events : List Event) :
    Balanced (n + delivered w events) (after World.step w events) := by
  induction events generalizing w n with
  | nil => exact h
  | cons e events ih =>
    have hrest := ih (h.step e)
    rw [delivered, occurrences_cons, after_cons, ← Nat.add_assoc, Nat.add_comm n]
    exact hrest

/-- The traffic of a run is bounded by its clicks and commands, and its
callbacks run dry. -/
structure Bounded (events : List Event) : Prop where
  /-- Every request has led to one callback that has run, to one that is
  pending, or was a deletion. -/
  balanced : requests (run events).trace = delivered World.init events +
    (run events).pending.length + (run events).trace.countP isDelete
  /-- A click pays for six requests and a command for one. -/
  requests : requests (run events).trace ≤ 6 * clicks events + commands events
  /-- However requests end, callbacks go on for as long as there is load. -/
  settles : ∀ more, clicks more = 0 → commands more = 0 →
    delivered (run events) more + load (run (events ++ more)).pending ≤ load (run events).pending
  /-- There is no load only when no callback is pending. -/
  settled : load (run events).pending = 0 ↔ (run events).pending = []

/-- Every pending callback is worth one or more. -/
theorem length_le_load (pending : List Callback) : pending.length ≤ load pending := by
  induction pending with
  | nil => exact le_rfl
  | cons callback pending ih =>
    have hone : 1 ≤ chain callback := by cases callback <;> simp [chain]
    simp only [load, List.map_cons, List.sum_cons, List.length_cons] at ih ⊢
    omega

/-- In every run the requests are at most six for each click and one for each
command, every request is accounted for, and without further clicks and
commands only a bounded number of callbacks can follow. -/
theorem bounded_run (events : List Event) : Bounded events := by
  have hstart : Balanced 0 World.init := rfl
  have hbalanced : Balanced (0 + delivered World.init events) (run events) :=
    balanced_after hstart events
  have hle : delivered World.init events + debt (run events) ≤
      0 + (6 * clicks events + commands events) := delivered_le inv_init events
  have hload := length_le_load (run events).pending
  rw [Nat.zero_add] at hbalanced hle
  refine ⟨hbalanced, ?_, fun more hclicks hcommands => ?_, ?_⟩
  · rw [hbalanced]
    simp only [debt] at hle
    omega
  · obtain ⟨traced, htraced⟩ := trace_run events more
    have hmore : delivered (run events) more + debt (run (events ++ more)) ≤
        debt (run events) + (6 * clicks more + commands more) := by
      rw [show run (events ++ more) = after World.step (run events) more from after_append ..]
      exact delivered_le (inv_run events) more
    rw [hclicks, hcommands] at hmore
    simp only [debt, htraced, List.countP_append] at hmore
    omega
  · constructor
    · intro hzero
      exact List.length_eq_zero_iff.mp (Nat.le_zero.mp (hzero ▸ hload))
    · intro hnil
      rw [hnil]
      rfl

end TintempPlusPlus.Budget
