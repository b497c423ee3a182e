import TintempPlusPlus.Histories

/-!
# Marks are permanent

Nothing in `init_game` keeps a second call from wiping the board, and
nothing in the first YES keeps a second "(1/2)" reply from being sent. That
neither happens follows from the flags: a YES is accepted once per player,
and the second accepted answer of a session never asks for a reply.
-/

namespace TintempPlusPlus.Permanence

open Discord UniqueID Ttt Handlers ScanLoop BoardLaws Play HandlerLaws Program OneEntry EventRuns
  Invariant Steps Reachable Views Lives Histories

/-- `ttt::init_game` was executed for a list element. -/
def starts (node : ℕ) : Effect → Bool
  | .initGame other => decide (other = node)
  | _ => false

/-- The "(1/2)" reply was sent for a list element. -/
def sendsReply (node : ℕ) : Effect → Bool
  | .reply _ _ _ (.confirmReply _ other) => decide (other = node)
  | _ => false

/-- Marks and won flags that are set stay as they are. -/
structure MarksKept (t u : Game) : Prop where
  /-- A marked square keeps its mark. -/
  status : ∀ square, (t.board square).status ≠ .idle →
    (u.board square).status = (t.board square).status
  /-- A won square stays won. -/
  won : ∀ square, (t.board square).won = true → (u.board square).won = true

/-- In the run no session is started twice, and no mark is lost. -/
structure MarksPermanent (events : List Event) : Prop where
  /-- The game is initialised at most once for each session. -/
  startsOnce : ∀ node, (run events).trace.countP (starts node) ≤ 1
  /-- The "(1/2)" reply is sent at most once for each session. -/
  repliesOnce : ∀ node, (run events).trace.countP (sendsReply node) ≤ 1
  /-- A session listed at two moments has kept its marks and won flags. -/
  kept : ∀ before middle behind, events = before ++ middle ++ behind →
    ∀ s ∈ (run before).tttListG, ∀ s' ∈ (run (before ++ middle)).tttListG,
      s'.node = s.node → MarksKept s.ttt s'.ttt

variable {w : World} {node : ℕ} {t u : Game}

/-- Nothing that happened takes no mark away. -/
theorem MarksKept.refl (t : Game) : MarksKept t t := ⟨fun _ _ => rfl, fun _ => id⟩

/-- Marks are kept from step to step. -/
theorem MarksKept.trans {v : Game} (h : MarksKept t u) (h' : MarksKept u v) : MarksKept t v := by
  refine ⟨fun square hs => ?_, fun square hw => h'.won square (h.won square hw)⟩
  have hu := h.status square hs
  exact (h'.status square (hu ▸ hs)).trans hu

/-- An untouched board has nothing to lose. -/
theorem marksKept_of_waiting (h : Waiting t) : MarksKept t u := by
  constructor <;> simp [h.board]

/-- The same board has the same marks. -/
theorem marksKept_of_board (h : u.board = t.board) : MarksKept t u := by
  constructor <;> simp [h]

/-- Passing the turn marks nothing and clears no flag. -/
theorem marksKept_pass (t : Game) : MarksKept t t.fetchWinner.swapTurn := by
  refine ⟨fun square _ => ?_, fun square hw => ?_⟩
  · rw [swapTurn_board, fetchWinner_status]
  · rw [swapTurn_board, ((fetchWinner_spec t).1 square).2.2]
    exact Or.inl hw

/-- A move marks an idle square and clears no flag. -/
theorem marksKept_move {square : Square} (hidle : (t.board square).status = .idle) :
    MarksKept t (Game.move t square) := by
  have hset : MarksKept t (t.setStatus square t.turn.2) := by
    refine ⟨fun other hs => ?_, fun other hw => (setStatus_won t square other t.turn.2).trans hw⟩
    have hne : other ≠ square := by
      rintro rfl
      exact hs hidle
    simp [Game.setStatus, Function.update_of_ne hne]
  exact hset.trans (marksKept_pass _)

/-- Every touch of a listed session keeps its marks. -/
theorem marksKept_touch {p : Part} {s s' : Session} {pending pending' : List Callback}
    {trace trace' : List Effect}
    (h : Touch w node p ⟨some s, pending, trace⟩ ⟨some s', pending', trace'⟩) :
    MarksKept s.ttt s'.ttt := by
  cases h with
  | started h hs hy ho => exact marksKept_of_waiting (accepts_waiting h hs)
  | played h hs hsq hidle =>
    dsimp only
    exact marksKept_move hidle
  | strayed h hs hsq =>
    dsimp only
    exact marksKept_pass _
  | _ => exact marksKept_of_board rfl

/-- How often a list element was started and asked for a reply, at its
view. -/
structure ViewOnce (node : ℕ) (v : View) : Prop where
  /-- It was started at most once. -/
  starts : v.trace.countP (starts node) ≤ 1
  /-- It was replied to at most once. -/
  replies : v.trace.countP (sendsReply node) ≤ 1
  /-- A reply answers a YES. -/
  asked : 0 < v.trace.countP (sendsReply node) → ∃ player, .answered node player .yes ∈ v.trace

/-- A game that was started counts as one. -/
theorem countP_starts_pos {trace : List Effect} :
    0 < trace.countP (starts node) ↔ .initGame node ∈ trace := by
  rw [List.countP_pos_iff]
  constructor
  · rintro ⟨effect, hm, hs⟩
    cases effect <;> simp_all [starts]
  · exact fun hm => ⟨_, hm, by simp [starts]⟩

/-- The counts stay when nothing counted is added. -/
theorem ViewOnce.extend {v v' : View} {effects : List Effect} (h : ViewOnce node v)
    (htrace : v'.trace = v.trace ++ effects) (hs : effects.countP (Permanence.starts node) = 0)
    (hr : effects.countP (sendsReply node) = 0) : ViewOnce node v' := by
  refine ⟨?_, ?_, ?_⟩ <;> rw [htrace, List.countP_append]
  · rw [hs]
    exact h.starts
  · rw [hr]
    exact h.replies
  · rw [hr]
    intro hpos
    obtain ⟨player, hm⟩ := h.asked hpos
    exact ⟨player, List.mem_append_left _ hm⟩

/-- Every touch keeps the counts. -/
theorem viewOnce_touch {p : Part} {v : View} (hw : Reached w) (h : ViewOnce node (view w node))
    (ht : Touch w node p (view w node) v) : ViewOnce node v := by
  have hlived := lived_reached hw node
  generalize view w node = u at h ht hlived
  cases ht with
  | created hf => exact ⟨by simp, by simp, by simp⟩
  | @confirmed click player pre s post pending trace hacc hs hy ho =>
    have hl := lived_some.mp hlived
    -- neither player has answered, so no reply was sent before
    have hnone : trace.countP (sendsReply s.node) = 0 := by
      by_contra hpos
      obtain ⟨q, hq⟩ := h.asked (Nat.pos_of_ne_zero hpos)
      have hflag := (hl.flags q).mpr ⟨.yes, hq⟩
      rcases Player.eq_or_other q player with rfl | rfl
      · rw [hacc.unanswered] at hflag
        cases hflag
      · rw [ho] at hflag
        cases hflag
    refine ⟨?_, ?_, fun _ => ⟨player, by simp⟩⟩
    · rw [List.countP_append]
      simpa [starts] using h.starts
    · rw [List.countP_append, hnone]
      simp [sendsReply]
  | @started click player pre s post pending trace hacc hs hy ho =>
    have hl := lived_some.mp hlived
    -- the game was untouched, so it was not started before
    have hnone : trace.countP (starts s.node) = 0 := by
      by_contra hpos
      have hinit := countP_starts_pos.mp (Nat.pos_of_ne_zero hpos)
      exact hl.begun hinit (congrArg Prod.fst (accepts_waiting hacc hs).turn)
    refine ⟨?_, ?_, fun _ => ⟨player, by simp⟩⟩
    · rw [List.countP_append, hnone]
      simp [starts]
    · rw [List.countP_append]
      simpa [sendsReply] using h.replies
  | declined => exact h.extend rfl rfl rfl
  | played => exact h.extend rfl rfl rfl
  | strayed => exact h.extend rfl rfl rfl
  | asked => exact h.extend rfl rfl rfl
  | announced => exact h.extend rfl rfl rfl
  | originSet => exact h.extend (List.append_nil _).symm rfl rfl
  | dropped => exact h.extend (List.append_nil _).symm rfl rfl
  | orphaned => exact h.extend (List.append_nil _).symm rfl rfl
  | stored => exact h.extend (List.append_nil _).symm rfl rfl
  | erased => exact h.extend (List.append_nil _).symm rfl rfl

/-- In every reached world a list element was started and asked for a reply
at most once. -/
theorem viewOnce_reached (hw : Reached w) (node : ℕ) : ViewOnce node (view w node) :=
  view_reached (I := ViewOnce) (fun _ => ⟨by simp, by simp, by simp⟩)
    (fun _ _ _ _ hw h ht => viewOnce_touch hw h ht) hw node

/-- In every run each session is started at most once, its "(1/2)" reply is
sent at most once, and its marks and won flags stay until it is erased. -/
theorem marksPermanent_run (events : List Event) : MarksPermanent events := by
  refine ⟨fun node => ?_, fun node => ?_, ?_⟩
  · have hstarts : ∀ effect, starts node effect = true → effect.node? = some node := by
      intro effect h
      cases effect <;> simp_all [starts, Effect.node?]
    rw [← countP_view (starts node) hstarts]
    exact (viewOnce_reached (reached_run events) node).starts
  · have hreplies : ∀ effect, sendsReply node effect = true → effect.node? = some node := by
      intro effect h
      cases effect with
      | reply click type message callback =>
        cases callback <;> simp_all [sendsReply, Effect.node?, Callback.node?]
      | _ => simp [sendsReply] at h
    rw [← countP_view (sendsReply node) hreplies]
    exact (viewOnce_reached (reached_run events) node).replies
  · rintro before middle behind rfl s hs s' hs' hn
    exact kept_between (R := fun a b => MarksKept a.ttt b.ttt) (fun a => MarksKept.refl a.ttt)
      (fun _ _ _ h h' => h.trans h') (fun _ _ _ _ _ _ _ _ _ _ ht => marksKept_touch ht) hs hs' hn

end TintempPlusPlus.Permanence
