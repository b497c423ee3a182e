import TintempPlusPlus.Endings
import TintempPlusPlus.Frozen
import TintempPlusPlus.Handles

/-!
# The announcement of the result

The callback of a board reply reads the result when it runs and congratulates
the user of its own click. As long as only the reply to the click that ended
the game succeeds from that click on, the result is announced once and to the
right user.
-/

namespace TintempPlusPlus.Announcement

open Discord UniqueID Ttt Handlers ScanLoop BoardLaws AlternatingMarks Play HandlerLaws Program
  OneEntry EventRuns Invariant Steps Reachable Views Lives Handles TurnDiscipline Outcome Endings
  Frozen

/-- The effect creates the result message of a list element. -/
def announces (node : ℕ) : Effect → Bool
  | .messageCreate _ (.resultMessage other) => decide (other = node)
  | _ => false

/-- The last event of the run `before ++ [e]` creates this result message. -/
def Issues (node : ℕ) (before : List Event) (e : Event) (message : Message) : Prop :=
  ∃ effects, (run (before ++ [e])).trace = (run before).trace ++ effects ∧
    .messageCreate message (.resultMessage node) ∈ effects

/-- An embed of the message has this description. -/
def Says (message : Message) (text : String) : Prop :=
  ∃ embed ∈ message.embeds, embed.description = text

/-- The announcement of a session is sound. -/
structure SoundAnnouncement (node : ℕ) (events : List Event) : Prop where
  /-- At most one result message is created. -/
  once : (run events).trace.countP (announces node) ≤ 1
  /-- The winner that it names completed a line when the game was first won. -/
  winner : ∀ before e behind, events = before ++ e :: behind → ∀ message,
    Issues node before e message → ∀ user, Says message (mention user ++ " won!") →
      ∃ start rest, before = start ++ rest ∧ FirstWon node start ∧
        ∃ s ∈ (run start).tttListG, s.node = node ∧ ∃ line ∈ lines, Filled s.ttt.board line ∧
          ∀ square ∈ line, OwnMark s.ttt user (s.ttt.board square).status
  /-- A draw is announced of a full board without a line. -/
  draw : ∀ before e behind, events = before ++ e :: behind → ∀ message,
    Issues node before e message → Says message "draw!" →
      ∃ s ∈ (run before).tttListG, s.node = node ∧ Full s.ttt.board ∧ ¬ HasLine s.ttt.board

/-- From the click that ends the game on, no board reply of the session
succeeds but the one to that click, whether the session is still listed or
not. -/
def OnlyEndingReply (node : ℕ) (w : World) : Event → Prop
  | .callback (.boardReply click n) (.success _) => n = node → .boardReply click n ∈ w.pending →
    ∀ ending ∈ firstEnding (effectsOf node w.trace), ending = click
  | _ => True

/-- The clicks on the game message carry ids of the board, no board reply
succeeds after the end of the game but the one to the click that ended it, and
no callback of any session reaches for an erased one. -/
structure Punctual (node : ℕ) (w : World) (e : Event) : Prop where
  /-- A click on the game message names a square. -/
  ids : OnlyBoardIds node w e
  /-- After the end only the reply to the ending click succeeds. -/
  reply : OnlyEndingReply node w e
  /-- The callback finds the session that it reaches for. -/
  reaches : ReachesListed w e

instance (node : ℕ) (w : World) : ∀ e, Decidable (OnlyEndingReply node w e)
  | .callback (.boardReply click n) (.success _) => inferInstanceAs (Decidable
      (n = node → .boardReply click n ∈ w.pending →
        ∀ ending ∈ firstEnding (effectsOf node w.trace), ending = click))
  | .callback (.boardReply _ _) .error => inferInstanceAs (Decidable True)
  | .callback .log _ => inferInstanceAs (Decidable True)
  | .callback (.created _ _) _ => inferInstanceAs (Decidable True)
  | .callback (.confirmReply _ _) _ => inferInstanceAs (Decidable True)
  | .callback (.originalResponse _ _) _ => inferInstanceAs (Decidable True)
  | .callback (.resultMessage _) _ => inferInstanceAs (Decidable True)
  | .command _ _ => inferInstanceAs (Decidable True)
  | .click _ => inferInstanceAs (Decidable True)

instance (node : ℕ) (w : World) (e : Event) : Decidable (Punctual node w e) :=
  decidable_of_iff (OnlyBoardIds node w e ∧ OnlyEndingReply node w e ∧ ReachesListed w e)
    ⟨fun h => ⟨h.1, h.2.1, h.2.2⟩, fun h => ⟨h.ids, h.reply, h.reaches⟩⟩

variable {w : World} {node : ℕ} {click : Click}

/-- Where the announcement of a listed session stands. -/
structure Settled (node : ℕ) (s : Session) (pending : List Callback) (trace : List Effect) :
    Prop where
  /-- No click has ended a game in progress. -/
  ongoing : s.ttt.result = .inProgress → firstEnding trace = none
  /-- A finished game was ended by a click. -/
  ended : s.ttt.result ≠ .inProgress → firstEnding trace ≠ none
  /-- The clicks with a pending reply, and the one that ended the game, have
  left their marks. -/
  marked : ∀ click, .boardReply click node ∈ pending ∨ firstEnding trace = some click →
    ∃ square, click.customId = (s.ttt.board square).id ∧ (s.ttt.board square).status ≠ .idle
  /-- Nothing is announced before a click has ended the game. -/
  silent : firstEnding trace = none → trace.countP (announces node) = 0
  /-- The reply to the click that ended the game is pending, or it has been
  used up. -/
  single : ∀ click, firstEnding trace = some click →
    pending.count (.boardReply click node) + trace.countP (announces node) ≤ 1

/-- The same, read at a view. -/
def ViewSettled (node : ℕ) (v : View) : Prop :=
  match v.session with
  | some s => Settled node s v.pending v.trace
  | none => v.trace.countP (announces node) ≤ 1

variable {s s' : Session} {pending pending' : List Callback} {trace trace' : List Effect}

/-- A settled session has announced at most one result. -/
theorem Settled.count_le (h : Settled node s pending trace) :
    trace.countP (announces node) ≤ 1 := by
  cases he : firstEnding trace with
  | none => exact (h.silent he).trans_le (Nat.zero_le 1)
  | some click => exact (Nat.le_add_left _ _).trans (h.single click he)

/-- The announcement stands where it stood after a change that leaves the
board, the result and the announcements alone and asks for no board reply. -/
theorem Settled.keep (h : Settled node s pending trace)
    (hboard : s'.ttt.board = s.ttt.board) (hresult : s'.ttt.result = s.ttt.result)
    (hending : firstEnding trace' = firstEnding trace)
    (hcount : trace'.countP (announces node) = trace.countP (announces node))
    (hpending : ∀ click, pending'.count (.boardReply click node) ≤
      pending.count (.boardReply click node)) : Settled node s' pending' trace' := by
  refine ⟨?_, ?_, ?_, ?_, ?_⟩ <;> simp only [hboard, hresult, hending, hcount]
  · exact h.ongoing
  · exact h.ended
  · rintro click (hm | he)
    · refine h.marked click (Or.inl (List.count_pos_iff.mp ?_))
      exact (List.count_pos_iff.mpr hm).trans_le (hpending click)
    · exact h.marked click (Or.inr he)
  · exact h.silent
  · exact fun click he => (Nat.add_le_add_right (hpending click) _).trans (h.single click he)

/-- A game that is not started has nothing to announce. -/
theorem Settled.start (h : Settled node s pending trace) (hw : Waiting s.ttt)
    (hresult : s'.ttt.result = s.ttt.result) (hending : firstEnding trace' = firstEnding trace)
    (hcount : trace'.countP (announces node) = trace.countP (announces node)) :
    Settled node s' pending trace' := by
  have hnone : ∀ click, ¬ (.boardReply click node ∈ pending ∨ firstEnding trace = some click) := by
    intro click hm
    obtain ⟨square, -, hs⟩ := h.marked click hm
    rw [hw.board] at hs
    exact hs rfl
  have hnot : firstEnding trace = none := by
    cases he : firstEnding trace with
    | none => rfl
    | some click => exact absurd (Or.inr he) (hnone click)
  refine ⟨?_, ?_, ?_, ?_, ?_⟩ <;> simp only [hending, hcount]
  · exact fun _ => hnot
  · exact fun hr => absurd (hresult.trans hw.result) hr
  · exact fun click hm => absurd hm (hnone click)
  · exact h.silent
  · exact fun click he => absurd (Or.inr he) (hnone click)

/-- A move asks for the one reply that may announce its result. -/
theorem Settled.move {moves : List Square} {square : Square} (h : Settled node s pending trace)
    (hrep : Represents s.ttt moves) (hp : s.ttt.player1 ≠ s.ttt.player2)
    (hids : DistinctIds s.ttt.board) (hsq : click.customId = (s.ttt.board square).id)
    (hidle : (s.ttt.board square).status = .idle) :
    Settled node { s with ttt := Game.move s.ttt square } (pending ++ [.boardReply click node])
      (trace ++ .placed node click square s.ttt.turn.2 ::
        moveEffects click node (Game.move s.ttt square)) := by
  have hmove := hrep.move hp hidle
  have hid : ∀ q, ((Game.move s.ttt square).board q).id = (s.ttt.board q).id := by
    intro q
    simp [Game.move, setStatus_id]
  have hmarked : ∀ q, q ∈ moves ∨ q = square → ((Game.move s.ttt square).board q).status ≠ .idle := by
    intro q hq he
    refine (hmove.idle_iff q).mp he ?_
    simpa using hq
  have hother : ∀ c, (.boardReply c node ∈ pending ∨ firstEnding trace = some c) → c ≠ click := by
    rintro c hm rfl
    obtain ⟨q, hq, hs⟩ := h.marked c hm
    rw [hids q square (hq.symm.trans hsq)] at hs
    exact hs hidle
  have hcount : (trace ++ .placed node click square s.ttt.turn.2 ::
      moveEffects click node (Game.move s.ttt square)).countP (announces node) =
      trace.countP (announces node) := by
    simp [moveEffects, announces, List.countP_append]
  have hending : firstEnding (trace ++ .placed node click square s.ttt.turn.2 ::
      moveEffects click node (Game.move s.ttt square)) = (firstEnding trace).or
        (if (Game.move s.ttt square).result = .inProgress then none else some click) := by
    rw [firstEnding_append, firstEnding_placed, firstEnding_moveEffects]
  have hold : ∀ c, (.boardReply c node ∈ pending ∨ firstEnding trace = some c) →
      ∃ q, c.customId = ((Game.move s.ttt square).board q).id ∧
        ((Game.move s.ttt square).board q).status ≠ .idle := by
    intro c hm
    obtain ⟨q, hq, hs⟩ := h.marked c hm
    refine ⟨q, hq.trans (hid q).symm, hmarked q (Or.inl ?_)⟩
    by_contra hn
    exact hs ((hrep.idle_iff q).mpr hn)
  have hself : ∃ q, click.customId = ((Game.move s.ttt square).board q).id ∧
      ((Game.move s.ttt square).board q).status ≠ .idle :=
    ⟨square, hsq.trans (hid square).symm, hmarked square (Or.inr rfl)⟩
  refine ⟨?_, ?_, ?_, ?_, ?_⟩ <;> simp only [hending, hcount]
  · intro hr
    rw [h.ongoing (inProgress_of_move hrep hp hidle hr), if_pos hr]
    rfl
  · intro hr
    rw [if_neg hr]
    simp
  · rintro c (hm | he)
    · rcases List.mem_append.mp hm with hm | hm
      · exact hold c (Or.inl hm)
      · cases List.mem_singleton.mp hm
        exact hself
    · rcases Option.or_eq_some_iff.mp he with he | ⟨-, he⟩
      · exact hold c (Or.inr he)
      · split_ifs at he
        cases he
        exact hself
  · exact fun he => h.silent (Option.or_eq_none_iff.mp he).1
  · intro c he
    rcases Option.or_eq_some_iff.mp he with he | ⟨hnone, he⟩
    · -- the game had been ended by an earlier click
      have hne := hother c (Or.inr he)
      rw [List.count_append, List.count_singleton]
      simpa [hne.symm] using h.single c he
    · -- this click ends the game
      split_ifs at he
      cases he
      have hfree : pending.count (.boardReply click node) = 0 :=
        List.count_eq_zero_of_not_mem fun hm => hother click (Or.inl hm) rfl
      rw [h.silent hnone, List.count_append, hfree]
      simp

/-- The result of an ended game is announced by the reply that is waited
for. -/
theorem Settled.announce {message : Message} (h : Settled node s pending trace)
    (hm : .boardReply click node ∈ pending) (hending : firstEnding trace = some click)
    (hs' : s'.ttt.board = s.ttt.board) (hr : s'.ttt.result = s.ttt.result) :
    Settled node s' (pending.erase (.boardReply click node) ++ [.resultMessage node])
      (trace ++ [.messageCreate message (.resultMessage node)]) := by
  have hsame : firstEnding (trace ++ [.messageCreate message (.resultMessage node)]) =
      some click := by
    rw [firstEnding_append, hending]
    rfl
  have hone := h.single click hending
  have hpos := List.count_pos_iff.mpr hm
  refine ⟨?_, ?_, ?_, ?_, ?_⟩ <;> simp only [hs', hr, hsame]
  · intro hp
    rw [h.ongoing hp] at hending
    cases hending
  · exact fun _ => Option.some_ne_none click
  · rintro c (hc | hc)
    · rcases List.mem_append.mp hc with hc | hc
      · exact h.marked c (Or.inl (List.mem_of_mem_erase hc))
      · cases List.mem_singleton.mp hc
    · exact h.marked c (Or.inr (hending.trans hc))
  · exact fun he => by cases he
  · rintro c hc
    cases hc
    have hcount : (trace ++ [Effect.messageCreate message (.resultMessage node)]).countP
        (announces node) = trace.countP (announces node) + 1 := by
      simp [List.countP_append, announces]
    rw [hcount, List.count_append, List.count_erase_self, List.count_singleton]
    simp only [beq_iff_eq, reduceCtorEq, if_false]
    omega

/-- Punctual replies on a finished game answer the click that ended it. -/
theorem Settled.ending (h : Settled node s pending trace) (hr : Ended s.ttt)
    (honly : ∀ ending ∈ firstEnding trace, ending = click) : firstEnding trace = some click := by
  have hover : s.ttt.result ≠ .inProgress := by rcases hr with hr | hr <;> rw [hr] <;> decide
  obtain ⟨ending, hending⟩ := Option.ne_none_iff_exists'.mp (h.ended hover)
  rw [hending, honly ending hending]

/-- Every touch keeps the announcement in order when the replies are
punctual. -/
theorem viewSettled_touch {p : Part} {v : View} (hw : Reached w)
    (hc : Within (Punctual node) w p) (hplayed : ViewPlayed node (view w node))
    (h : ViewSettled node (view w node)) (ht : Touch w node p (view w node) v) :
    ViewSettled node v := by
  have hlived := lived_reached hw node
  have hpending : ∀ callback ∈ (view w node).pending, callback ∈ w.pending :=
    fun callback hm => (mem_callbacksOf.mp hm).1
  have htrace : (view w node).trace = effectsOf node w.trace := rfl
  generalize view w node = u at h ht hlived hplayed hpending htrace
  cases ht with
  | created hf =>
    refine ⟨fun _ => rfl, fun hr => ?_, fun click hm => by simp [firstEnding] at hm, fun _ => rfl,
      fun click he => by cases he⟩
    rw [hf.ttt] at hr
    exact absurd rfl hr
  | confirmed hacc hs hy ho =>
    refine h.keep rfl rfl ?_ (by simp [announces]) (by simp)
    rw [firstEnding_append]
    exact Option.or_none
  | @started click player pre s post pending trace hacc hs hy ho =>
    refine h.start (accepts_waiting hacc hs) rfl ?_ (by simp [announces])
    rw [firstEnding_append]
    exact Option.or_none
  | declined hacc hs hn =>
    refine h.keep rfl rfl ?_ (by simp [announces]) (fun _ => le_rfl)
    rw [firstEnding_append]
    exact Option.or_none
  | @played click square pre s post pending trace hturn hs hsq hidle =>
    have hrep := (hplayed s rfl).represents ((lived_some.mp hlived).playing hturn).1
    exact h.move hrep hs.versus hturn.started.ids.distinctIds hsq hidle
  | @strayed click pre s post pending trace hturn hs hsq =>
    obtain ⟨square, hin⟩ := clicked_board (hc.mono fun _ _ hboth => hboth.ids) hturn
    exact absurd hin (hsq square)
  | originSet => exact h.keep rfl rfl rfl rfl fun _ => le_rfl
  | @dropped node callback response session pending trace hcb hidle =>
    cases session with
    | none => exact h
    | some s => exact h.keep rfl rfl rfl rfl fun c => List.erase_sublist.count_le _
  | @asked node click response session pending trace hcb =>
    have hcount : (trace ++ [Effect.getOriginalResponse click (.originalResponse click node)]).countP
        (announces node) = trace.countP (announces node) := by simp [announces]
    cases session with
    | none => exact hcount.trans_le h
    | some s =>
      refine h.keep rfl rfl ?_ hcount ?_
      · rw [firstEnding_append]
        exact Option.or_none
      · intro c
        simp
  | orphaned hcb => exact h
  | stored hcb hfresh hs => exact h.keep rfl rfl rfl rfl fun c => List.erase_sublist.count_le _
  | @announced click deployment s embed pending trace hcb hs hr =>
    have honly := hc.reply rfl (hpending _ hcb)
    rw [← htrace] at honly
    exact h.announce hcb (h.ending (ended_of_resultEmbed hr) honly) rfl rfl
  | erased hcb hs => exact h.count_le

/-- The announcements stand as they should at the end of every punctual
run. -/
theorem settled_run {events : List Event}
    (h : Along World.step (Punctual node) World.init events) :
    ViewSettled node (view (run events) node) := by
  have hview := view_run (I := fun n v => n = node → ViewPlayed n v ∧ ViewSettled n v) h
    (fun n _ => ⟨fun _ hs => (by cases hs), Nat.zero_le 1⟩) ?_ node rfl
  · exact hview.2
  · rintro w n p v hw hc hv ht rfl
    obtain ⟨hplayed, hsettled⟩ := hv rfl
    exact ⟨viewPlayed_touch hw (hc.mono fun _ _ hboth => hboth.ids) hplayed ht,
      viewSettled_touch hw hc hplayed hsettled ht⟩

/-- An announcement is about the session that it announces. -/
theorem node_of_announces (effect : Effect) (h : announces node effect = true) :
    effect.node? = some node := by
  cases effect with
  | messageCreate message callback =>
    cases callback <;> simp_all [announces, Effect.node?, Callback.node?]
  | _ => simp [announces] at h

/-- A result message comes from the callback of a board reply. -/
theorem announced_change {p : Part} {w' : World} {effects : List Effect} {message : Message}
    (h : Change w p w') (htrace : w'.trace = w.trace ++ effects)
    (hm : .messageCreate message (.resultMessage node) ∈ effects) :
    ∃ click deployment s embed, p = .callback (.boardReply click node) (.success deployment) ∧
      .boardReply click node ∈ w.pending ∧ s ∈ w.tttListG ∧ s.node = node ∧
      resultEmbed click s.ttt.result = some embed ∧ message = resultMessage click s embed := by
  have hnone : w'.trace = w.trace → effects = [] := by
    intro hs
    exact List.self_eq_append_right.mp (hs.symm.trans htrace)
  have hsame : ∀ more, w'.trace = w.trace ++ more → effects = more := by
    intro more hs
    exact List.append_cancel_left (htrace.symm.trans hs)
  cases h with
  | quiet hwarn =>
    rw [hsame _ rfl] at hm
    cases hwarn _ hm
  | challenged hself =>
    rw [hsame _ rfl] at hm
    simp at hm
  | @accepted click player pre s post hacc =>
    rw [hsame _ rfl] at hm
    rcases List.mem_append.mp hm with hm | hm
    · unfold accept at hm
      split_ifs at hm <;> simp at hm
    · cases warning_of_mem_warnings _ hm
  | @played click square pre s post hturn hsq hidle =>
    rw [hsame _ rfl] at hm
    simp [moveEffects] at hm
  | @strayed click pre s post hturn hsq =>
    rw [hsame _ rfl] at hm
    simp [moveEffects] at hm
  | @announced click deployment pre s post embed hcb hl hr =>
    rw [hsame _ rfl] at hm
    have hs := mem_of_split hl
    simp only [List.mem_cons, Effect.messageCreate.injEq, Callback.resultMessage.injEq,
      reduceCtorEq, List.not_mem_nil, or_false] at hm
    obtain ⟨rfl, rfl⟩ := hm
    exact ⟨click, deployment, s, embed, rfl, hcb, hs, rfl, hr, rfl⟩
  | asked hcb =>
    rw [hsame _ rfl] at hm
    simp at hm
  | _ =>
    rw [hnone rfl] at hm
    cases hm

/-- The last event of a run issues a result message when it runs the callback
of a board reply on an ended game. -/
theorem issues_reply {before : List Event} {e : Event} {message : Message}
    (h : Issues node before e message) :
    ∃ click deployment s embed, e = .callback (.boardReply click node) (.success deployment) ∧
      .boardReply click node ∈ (run before).pending ∧ s ∈ (run before).tttListG ∧
      s.node = node ∧ resultEmbed click s.ttt.result = some embed ∧
      message = resultMessage click s embed := by
  obtain ⟨effects, htrace, hm⟩ := h
  have hi := inv_run before
  rw [run_concat] at htrace
  cases e with
  | command m order =>
    obtain ⟨click, deployment, s, embed, hp, -⟩ :=
      announced_change (part_change hi (.command m order)) htrace hm
    cases hp
  | callback cb response =>
    obtain ⟨click, deployment, s, embed, hp, hrest⟩ :=
      announced_change (part_change hi (.callback cb response)) htrace hm
    cases hp
    exact ⟨click, deployment, s, embed, rfl, hrest⟩
  | click click =>
    have hconfirm := confirm_change hi click
    have hboard := board_change (change_inv hi hconfirm) click
    obtain ⟨first, hfirst⟩ := change_trace hconfirm
    obtain ⟨second, hsecond⟩ := change_trace hboard
    have heffects : effects = first ++ second := by
      have hall : (run before).trace ++ effects = (run before).trace ++ (first ++ second) := by
        rw [← htrace, ← List.append_assoc, ← hfirst, ← hsecond]
        rfl
      exact List.append_cancel_left hall
    rw [heffects] at hm
    rcases List.mem_append.mp hm with hm | hm
    · obtain ⟨_, _, _, _, hp, -⟩ := announced_change hconfirm hfirst hm
      cases hp
    · obtain ⟨_, _, _, _, hp, -⟩ := announced_change hboard hsecond hm
      cases hp

/-- A description that names a winner names one user, and not a draw. -/
theorem winner_text {user other : Snowflake} :
    mention user ++ " won!" = mention other ++ " won!" ↔ user = other := by
  rw [String.append_left_inj, mention_inj]

/-- No user is called a draw. -/
theorem winner_ne_draw {user : Snowflake} : mention user ++ " won!" ≠ "draw!" := by
  intro h
  have hchars := congrArg String.toList h
  simp [mention, String.toList_append] at hchars

/-- The session of an announced result, with the click that ended it. -/
theorem announced_click {before : List Event} {e : Event} {message : Message}
    (h : Along World.step (Punctual node) World.init (before ++ [e]))
    (hissues : Issues node before e message) :
    ∃ click, ∃ s ∈ (run before).tttListG, s.node = node ∧
      firstEnding (effectsOf node (run before).trace) = some click ∧
      ∃ embed, resultEmbed click s.ttt.result = some embed ∧ message.embeds = [embed] := by
  obtain ⟨click, deployment, s, embed, rfl, hcb, hs, hn, hr, rfl⟩ := issues_reply hissues
  obtain ⟨hbefore, hlast⟩ := along_concat.mp h
  have hsettled := settled_run hbefore
  rw [← hn, view_of_mem (inv_run before) hs, hn] at hsettled
  exact ⟨click, s, hs, hn, hsettled.ending (ended_of_resultEmbed hr) (hlast.reply rfl hcb), embed, hr,
    rfl⟩

/-- A won session has a first moment at which it was won, by the click that
ended the game and with a line of that click's user. -/
theorem first_win {events : List Event}
    (h : Along World.step (Punctual node) World.init events) (hs : s ∈ (run events).tttListG)
    (hn : s.node = node) (hwon : s.ttt.result = .won)
    (hending : firstEnding (effectsOf node (run events).trace) = some click) :
    ∃ start rest, events = start ++ rest ∧ FirstWon node start ∧
      ∃ u ∈ (run start).tttListG, u.node = node ∧ ∃ line ∈ lines, Filled u.ttt.board line ∧
        ∀ square ∈ line, OwnMark u.ttt click.user (u.ttt.board square).status := by
  have hinit : ¬ WonIn node World.init := by
    rintro ⟨t, ht, -⟩
    cases ht
  obtain ⟨pre, e, post, rfl, ⟨u, hu, hun, huwon⟩, hpre⟩ :=
    exists_first (P := WonIn node) hinit ⟨s, hs, hn, hwon⟩
  have hnot : ¬ WonIn node (run pre) := hpre pre [] (List.append_nil _).symm
  rw [List.append_cons] at h hending ⊢
  have hstart := h.front.mono fun _ _ hboth => hboth.ids
  obtain ⟨winning, rfl, t, ht, htn, htr, hfirst⟩ := won_by_click hstart hu hun huwon hnot
  have hsettled := settled_run h.front.front
  rw [← htn, view_of_mem (inv_run pre) ht, htn] at hsettled
  have hwinning := hfirst (hsettled.ongoing htr)
  -- the click that ended the game is the one that won it
  have hsame : winning = click := by
    obtain ⟨more, hmore⟩ := trace_run (pre ++ [.click winning]) post
    rw [hmore, effectsOf_append, firstEnding_append, hwinning] at hending
    exact Option.some.inj hending
  subst hsame
  have hexact := exactOutcome_of_represents
    (represents_of_result hstart hu hun (by rw [huwon]; simp))
  obtain ⟨line, hline, hfilled⟩ := hexact.won.mp huwon
  refine ⟨pre ++ [.click winning], post, rfl, ⟨⟨u, hu, hun, huwon⟩, ?_⟩, u, hu, hun, line, hline,
    hfilled, fun square hsquare => ?_⟩
  · intro before behind hsplit hne
    rcases List.eq_nil_or_concat behind with rfl | ⟨fore, last, rfl⟩
    · exact absurd rfl hne
    · rw [List.concat_eq_append, ← List.append_assoc] at hsplit
      exact hpre before fore (List.append_inj' hsplit rfl).1
  · refine winner_owns_line hstart ht htn hu hun ?_ huwon
      ((hexact.flag square).mpr ⟨line, hline, hfilled, hsquare⟩)
    rw [htr]
    simp

/-- In every run in which the clicks on the session's game message carry ids
of its board, from the end of the game on no board reply succeeds but the one
to the click that ended it, and no callback reaches for an erased session, the
announcement of the session is sound. -/
theorem soundAnnouncement_run {events : List Event}
    (h : Along World.step (Punctual node) World.init events) : SoundAnnouncement node events := by
  have hfront : ∀ before e behind, events = before ++ e :: behind →
      Along World.step (Punctual node) World.init (before ++ [e]) := by
    rintro before e behind rfl
    rw [List.append_cons] at h
    exact h.front
  refine ⟨?_, ?_, ?_⟩
  · have hsettled := settled_run h
    rw [← countP_view (announces node) node_of_announces]
    unfold ViewSettled at hsettled
    split at hsettled
    · exact hsettled.count_le
    · exact hsettled
  · intro before e behind hsplit message hissues user ⟨embed, hembed, htext⟩
    obtain ⟨click, s, hs, hn, hending, shown, hr, hshown⟩ :=
      announced_click (hfront before e behind hsplit) hissues
    rw [hshown, List.mem_singleton] at hembed
    subst hembed
    rcases resultEmbed_cases hr with ⟨hwon, hsaid⟩ | ⟨-, hsaid⟩
    · rw [← winner_text.mp (hsaid.symm.trans htext)]
      exact first_win (hfront before e behind hsplit).front hs hn hwon hending
    · exact absurd (htext.symm.trans hsaid) winner_ne_draw
  · intro before e behind hsplit message hissues ⟨embed, hembed, htext⟩
    obtain ⟨click, s, hs, hn, hending, shown, hr, hshown⟩ :=
      announced_click (hfront before e behind hsplit) hissues
    rw [hshown, List.mem_singleton] at hembed
    subst hembed
    have hdraw : s.ttt.result = .draw := by
      rcases resultEmbed_cases hr with ⟨-, hsaid⟩ | ⟨hdraw, -⟩
      · exact absurd (hsaid.symm.trans htext) winner_ne_draw
      · exact hdraw
    have hstart := (hfront before e behind hsplit).front.mono fun _ _ hboth => hboth.ids
    have hexact := exactOutcome_of_represents
      (represents_of_result hstart hs hn (by rw [hdraw]; simp))
    exact ⟨s, hs, hn, hexact.draw.mp hdraw⟩

/-- The reply to the winning click ends well, the reply to the move before it
fails, and the result message is posted. -/
def winningReply : List Event :=
  topRow ++
    [.callback (.boardReply (clickBy 11 101 "p_002_6") 0) (succeeds 101),
      .callback (.boardReply (clickBy 22 101 "p_101_8") 0) .error,
      .callback (.resultMessage 0) (succeeds 102)]

/-- The reply to the winning click announces the top row, once. -/
theorem soundAnnouncement_topRow :
    SoundAnnouncement 0 winningReply ∧ (run winningReply).trace.countP (announces 0) = 1 := by
  have hpunctual : Along World.step (Punctual 0) World.init winningReply := by decide
  exact ⟨soundAnnouncement_run hpunctual, by decide⟩

/-- The reply to the move before the winning click comes late and announces
the result as well. -/
theorem bothReplies_not_sound : ¬ SoundAnnouncement 0 bothReplies := by
  intro h
  have hcount : (run bothReplies).trace.countP (announces 0) = 2 := by decide
  have honce := h.once
  omega

end TintempPlusPlus.Announcement
