import TintempPlusPlus.Lives

/-!
# What the counter counts

A challenge draws three numbers, for the session and for its two confirm
buttons, and a started game draws nine, one for each square. Nothing else
draws a number, so the counter tells how much of both there has been.
-/

namespace TintempPlusPlus.Counter

open Discord UniqueID Ttt Handlers HandlerLaws Program EventRuns Invariant Steps Reachable Lives

/-- The request that posts a challenge. -/
def posts : Effect → Bool
  | .messageCreate _ (.created _ _) => true
  | _ => false

/-- An execution of `ttt::init_game`. -/
def begins : Effect → Bool
  | .initGame _ => true
  | _ => false

/-- Number of challenges so far. -/
def challenges (w : World) : ℕ := w.trace.countP posts

/-- Number of started games so far. -/
def games (w : World) : ℕ := w.trace.countP begins

variable {w w' : World} {p : Part} {s : Session} {effects : List Effect}

/-- New effects add the challenges among them. -/
theorem challenges_emit (w : World) (effects : List Effect) :
    challenges (w.emit effects) = challenges w + effects.countP posts :=
  List.countP_append

/-- New effects add the started games among them. -/
theorem games_emit (w : World) (effects : List Effect) :
    games (w.emit effects) = games w + effects.countP begins :=
  List.countP_append

/-- Warnings count for nothing. -/
theorem countP_warnings (h : ∀ effect ∈ effects, Warning effect) :
    effects.countP posts = 0 ∧ effects.countP begins = 0 := by
  simp only [List.countP_eq_zero]
  constructor <;> intro effect he <;> cases h effect he <;> simp [posts, begins]

/-- What happens to the counter, to what it counts and to the length of the
list when some challenges are posted and some games are started. -/
structure Counts (w w' : World) (posted started : ℕ) : Prop where
  /-- Challenges are counted. -/
  challenges : challenges w' = challenges w + posted
  /-- Started games are counted. -/
  games : games w' = games w + started
  /-- A challenge draws three numbers and a game nine. -/
  nextID : w'.nextID = w.nextID + 3 * posted + 9 * started
  /-- Only a challenge makes the list longer. -/
  length : w'.tttListG.length ≤ w.tttListG.length + posted

/-- A change with a trace and a counter that stay. -/
theorem counts_still (htrace : w'.trace = w.trace) (hnext : w'.nextID = w.nextID)
    (hlength : w'.tttListG.length ≤ w.tttListG.length) : Counts w w' 0 0 := by
  refine ⟨?_, ?_, hnext, hlength⟩
  · rw [challenges, htrace]
    rfl
  · rw [games, htrace]
    rfl

/-- A change of one session together with its requests. -/
theorem counts_emit {pre post : List Session} {s' : Session} {started : ℕ}
    (hl : w.tttListG = pre ++ s :: post) (hl' : w'.tttListG = pre ++ s' :: post)
    (htrace : w'.trace = w.trace) (hnext : w'.nextID = w.nextID + 9 * started)
    (hposts : effects.countP posts = 0) (hbegins : effects.countP begins = started) :
    Counts w (w'.emit effects) 0 started := by
  refine ⟨?_, ?_, ?_, ?_⟩
  · rw [challenges_emit, challenges, htrace, hposts]
    rfl
  · rw [games_emit, games, htrace, hbegins]
    rfl
  · exact hnext
  · show w'.tttListG.length ≤ _
    rw [hl, hl', List.length_append, List.length_append]
    exact le_rfl

/-- An accepted answer draws nine numbers when it starts the game. -/
theorem accept_counts (click : Click) (player : Player) (nextID : ℕ) (s : Session) :
    (accept click player nextID s).2.1 =
        nextID + 9 * (accept click player nextID s).2.2.countP begins ∧
      (accept click player nextID s).2.2.countP posts = 0 := by
  unfold accept
  split_ifs
  · exact ⟨rfl, rfl⟩
  · exact ⟨rfl, rfl⟩
  · dsimp only
    split_ifs <;> exact ⟨rfl, rfl⟩

/-- Every change counts correctly, and only a command posts a challenge. -/
theorem change_counts (h : Change w p w') :
    ∃ posted started, Counts w w' posted started ∧
      (posted = 0 ∨ ∃ message order, p = .command message order) := by
  cases h with
  | quiet hwarn =>
    obtain ⟨hposts, hbegins⟩ := countP_warnings hwarn
    refine ⟨0, 0, ⟨?_, ?_, rfl, le_rfl⟩, Or.inl rfl⟩
    · rw [challenges_emit, hposts]
    · rw [games_emit, hbegins]
  | @challenged message order mentioned hne =>
    obtain ⟨-, hnext⟩ := newSession_fresh w order message.author mentioned.id
    refine ⟨1, 0, ⟨challenges_emit _ _, games_emit _ _, hnext, ?_⟩, Or.inr ⟨_, _, rfl⟩⟩
    simp [World.challenge, World.emit]
  | @accepted click player pre s post hacc =>
    obtain ⟨hnext, hposts⟩ := accept_counts click player w.nextID s
    have hwarn : ∀ effect ∈ warnings click post, Warning effect := warning_of_mem_warnings
    obtain ⟨hwarnp, hwarnb⟩ := countP_warnings hwarn
    refine ⟨0, _, counts_emit hacc.list rfl rfl hnext ?_ ?_, Or.inl rfl⟩
    · rw [List.countP_append, hposts, hwarnp]
    · rw [List.countP_append, hwarnb]
      rfl
  | played hturn => exact ⟨0, 0, counts_emit hturn.list rfl rfl rfl rfl rfl, Or.inl rfl⟩
  | strayed hturn => exact ⟨0, 0, counts_emit hturn.list rfl rfl rfl rfl rfl, Or.inl rfl⟩
  | dropped => exact ⟨0, 0, counts_still rfl rfl le_rfl, Or.inl rfl⟩
  | received => exact ⟨0, 0, counts_still rfl rfl le_rfl, Or.inl rfl⟩
  | originSet _ _ hl =>
    refine ⟨0, 0, counts_still rfl rfl ?_, Or.inl rfl⟩
    rw [hl]
    simp
  | asked => exact ⟨0, 0, ⟨challenges_emit _ _, games_emit _ _, rfl, le_rfl⟩, Or.inl rfl⟩
  | stored _ _ hl =>
    refine ⟨0, 0, counts_still rfl rfl ?_, Or.inl rfl⟩
    rw [hl]
    simp
  | announced _ hl => exact ⟨0, 0, counts_emit hl rfl rfl rfl rfl rfl, Or.inl rfl⟩
  | erased _ hl =>
    refine ⟨0, 0, counts_still rfl rfl ?_, Or.inl rfl⟩
    rw [hl]
    simp

/-- The counter has gone up by three for every challenge and by nine for
every started game. -/
theorem nextID_reached (hw : Reached w) : w.nextID = 3 * challenges w + 9 * games w := by
  refine invariant_reached (I := fun w => w.nextID = 3 * challenges w + 9 * games w) rfl ?_ hw
  intro w p hw h
  obtain ⟨posted, started, hcounts, -⟩ := change_counts (part_change hw.inv p)
  rw [hcounts.challenges, hcounts.games, hcounts.nextID, h]
  ring

end TintempPlusPlus.Counter
