import TintempPlusPlus.Frozen
import TintempPlusPlus.Library.LineGame
import TintempPlusPlus.Library.AcceptedRecords

/-!
# Every session is a match

The abstract side is a match between two users: answers to a challenge, then
a line game on nine squares in which turns may be missed. It knows nothing of
messages, buttons, counters or lists. What the program records about one
session is accepted entry by entry by the rules of the match, and the stored
session stands for the match that its record leads to.
-/

namespace TintempPlusPlus.Matches

open Discord UniqueID Ttt Handlers ScanLoop BoardLaws AlternatingMarks LineGame Play HandlerLaws
  Program EventRuns Invariant Steps Reachable Views Lives Frozen AcceptedRecords

/-- A match between two users. -/
structure Match where
  /-- The answers to the challenge, newest first. -/
  answers : List (Player × Answer) := []
  /-- The position, once the match has begun. -/
  position : Option (Position Square) := none
  /-- The click that has marked a square in the current turn. -/
  hand : Option Click := none

/-- Both users have answered, the last one with YES. -/
def agreed : List (Player × Answer) → Bool
  | [(_, .yes), _] => true
  | _ => false

/-- What a position is worth. -/
def outcome (p : Position Square) : Result :=
  if Decided lines p then .won else if 9 ≤ p.turns then .draw else .inProgress

/-- The result that a result message speaks of. -/
def announced (message : Message) : Result :=
  if message.embeds.map Embed.description = ["draw!"] then .draw else .won

/-- The rules: how a match between these users goes on with an entry of the
record, when they allow the entry. -/
def Match.next (users : Side → Snowflake) (m : Match) : Effect → Option Match
  | .answered _ player answer =>
    if player ∈ m.answers.map Prod.fst then none
    else some { m with answers := (player, answer) :: m.answers }
  | .initGame _ =>
    if agreed m.answers = true ∧ m.position.isNone = true then some { m with position := some {} }
    else none
  | .placed _ click square status =>
    m.position.bind fun p =>
      if m.hand = none ∧ p.marks square = none ∧ click.user = users p.side ∧
          status = statusOf (some p.side) then
        some { m with position := some (p.put square), hand := some click }
      else none
  | .moved _ click result =>
    m.position.bind fun p =>
      if (m.hand = none ∨ m.hand = some click) ∧ click.user = users p.side ∧
          result = outcome (p.finish lines 9) then
        some { m with position := some (p.finish lines 9), hand := none }
      else none
  | .messageCreate message (.resultMessage _) =>
    m.position.bind fun p => if announced message = outcome p then some m else none
  | _ => some m

/-- The user who plays a side. -/
def userOf (t : Game) (side : Side) : Snowflake := (sideTurn t side).1

/-- The game object shows the position. -/
structure Shows (t : Game) (p : Position Square) : Prop where
  /-- The board carries the marks. -/
  status : ∀ square, (t.board square).status = statusOf (p.marks square)
  /-- The same side has the turn. -/
  turn : t.turn = sideTurn t p.side
  /-- The same turns are counted. -/
  turns : t.turns = p.turns
  /-- The result is what the position is worth. -/
  result : t.result = outcome p
  /-- The flags mark the filled lines. -/
  flag : ∀ square, (t.board square).won = true ↔
    ∃ line ∈ lines, Fills p.marks line ∧ square ∈ line

/-- The game object shows the marks and the turn of the position, but flags
and result may be those of an earlier position. -/
structure Lags (t : Game) (p : Position Square) : Prop where
  /-- The board carries the marks. -/
  status : ∀ square, (t.board square).status = statusOf (p.marks square)
  /-- The same side has the turn. -/
  turn : t.turn = sideTurn t p.side
  /-- The same turns are counted. -/
  turns : t.turns = p.turns
  /-- A won game is decided. -/
  won : t.result = .won → Decided lines p
  /-- A drawn game has no turns left. -/
  draw : t.result = .draw → 9 ≤ p.turns
  /-- No game expires. -/
  expired : t.result ≠ .expired
  /-- Flags are set on filled lines only. -/
  flag : ∀ square, (t.board square).won = true →
    ∃ line ∈ lines, Fills p.marks line ∧ square ∈ line

/-- The game object between the search for a winner and the passing of the
turn. -/
structure Found (t : Game) (p : Position Square) : Prop where
  /-- The board carries the marks. -/
  status : ∀ square, (t.board square).status = statusOf (p.marks square)
  /-- The same side has the turn. -/
  turn : t.turn = sideTurn t p.side
  /-- The same turns are counted. -/
  turns : t.turns = p.turns
  /-- The game is won when a line is filled. -/
  won : t.result = .won ↔ Decided lines p
  /-- An open game with turns left is in progress. -/
  going : ¬ Decided lines p → p.turns < 9 → t.result = .inProgress
  /-- The flags mark the filled lines. -/
  flag : ∀ square, (t.board square).won = true ↔
    ∃ line ∈ lines, Fills p.marks line ∧ square ∈ line

variable {t u : Game} {p : Position Square} {square : Square}

/-- A line of the board is filled when its marks fill it. -/
theorem filled_iff_fills {board : Board} {marks : Square → Option Side}
    (h : ∀ square, (board square).status = statusOf (marks square)) {line : List Square}
    (hl : line ∈ lines) : Filled board line ↔ Fills marks line := by
  constructor
  · rintro ⟨status, hs, hall⟩
    obtain ⟨first, hfirst⟩ := List.exists_mem_of_ne_nil line (lines_ne_nil line hl)
    have hm : marks first ≠ none := by
      rw [← statusOf_ne_idle, ← h first, hall first hfirst]
      exact hs
    obtain ⟨side, hside⟩ := Option.ne_none_iff_exists'.mp hm
    refine ⟨side, fun other ho => ?_⟩
    rw [← hside, ← statusOf_inj, ← h, ← h, hall _ ho, hall _ hfirst]
  · rintro ⟨side, hall⟩
    refine ⟨statusOf (some side), statusOf_ne_idle.mpr (Option.some_ne_none side), ?_⟩
    intro other ho
    rw [h, hall other ho]

/-- The outcome is a win when a line is filled. -/
theorem outcome_won_iff : outcome p = .won ↔ Decided lines p := by
  unfold outcome
  split_ifs with hd hn
  · simp [hd]
  · simp [hd]
  · simp [hd]

/-- A position with a result other than a win has no filled line. -/
theorem outcome_draw_iff : outcome p = .draw ↔ ¬ Decided lines p ∧ 9 ≤ p.turns := by
  unfold outcome
  split_ifs with hd hn
  · simp [hd]
  · simp [hd, hn]
  · simp [hn]

/-- The outcome is open when no line is filled and turns are left. -/
theorem outcome_inProgress_iff : outcome p = .inProgress ↔ ¬ Decided lines p ∧ p.turns < 9 := by
  unfold outcome
  split_ifs with hd hn
  · simp [hd]
  · simp [hn]
  · simp [hd, not_le.mp hn]

/-- No position expires. -/
theorem outcome_ne_expired : outcome p ≠ .expired := by
  unfold outcome
  split_ifs <;> decide

/-- What shows a position meets the weaker facts about what lags behind it. -/
theorem Shows.lags (h : Shows t p) : Lags t p := by
  refine ⟨h.status, h.turn, h.turns, ?_, ?_, ?_, fun square => (h.flag square).mp⟩
  · rw [h.result]
    exact outcome_won_iff.mp
  · rw [h.result]
    exact fun hd => (outcome_draw_iff.mp hd).2
  · rw [h.result]
    exact outcome_ne_expired

/-- A free square is an idle one. -/
theorem Shows.free_iff (h : Shows t p) : p.marks square = none ↔ (t.board square).status = .idle := by
  rw [h.status, ← statusOf_inj]
  rfl

/-- Setting the status of a free square marks it. -/
theorem Shows.put (h : Shows t p) (hi : (t.board square).status = .idle) :
    Lags (t.setStatus square t.turn.2) (p.put square) := by
  have hfree := h.free_iff.mpr hi
  have hl := h.lags
  refine ⟨?_, h.turn, h.turns, fun hw => (hl.won hw).put hfree, hl.draw, hl.expired, ?_⟩
  · intro other
    by_cases ho : other = square
    · subst ho
      rw [put_marks_self, ← sideTurn_snd t, ← h.turn]
      simp [Game.setStatus]
    · rw [put_marks_of_ne p ho, ← h.status]
      simp [Game.setStatus, Function.update_of_ne ho]
  · intro other
    rw [setStatus_won]
    intro hw
    obtain ⟨line, hmem, hf, hin⟩ := (h.flag other).mp hw
    exact ⟨line, hmem, hf.put hfree, hin⟩

/-- Passing the turn moves on to the other side. -/
theorem swap_opponent (hp : t.player1 ≠ t.player2) {side : Side} (ht : t.turn = sideTurn t side) :
    (if t.turn.1 = t.player1 then t.player2 else t.player1,
      if t.turn.2 = .x then Status.o else Status.x) = sideTurn t (opponent side) := by
  rw [ht]
  cases side with
  | first => simp [sideTurn, opponent]
  | second => simp [sideTurn, opponent, hp.symm]

/-- The search brings flags and result up to date. -/
theorem Lags.search (h : Lags t p) : Found t.fetchWinner p := by
  obtain ⟨hb, hr, hn, -⟩ := fetchWinner_spec t
  have hfill : ∀ line ∈ lines, Filled t.board line ↔ Fills p.marks line :=
    fun line hl => filled_iff_fills h.status hl
  refine ⟨?_, ?_, ?_, ?_, ?_, ?_⟩
  · exact fun square => (fetchWinner_status t square).trans (h.status square)
  · rw [fetchWinner_turn, sideTurn_congr (fetchWinner_player1 t) (fetchWinner_player2 t)]
    exact h.turn
  · exact (fetchWinner_turns t).trans h.turns
  · rw [hr]
    constructor
    · rintro (hw | ⟨line, hl, hf⟩)
      · exact h.won hw
      · exact ⟨line, hl, (hfill line hl).mp hf⟩
    · rintro ⟨line, hl, hf⟩
      exact Or.inr ⟨line, hl, (hfill line hl).mpr hf⟩
  · intro hd hlt
    rw [hn fun line hl hf => hd ⟨line, hl, (hfill line hl).mp hf⟩]
    cases hres : t.result with
    | inProgress => rfl
    | expired => exact absurd hres h.expired
    | draw => exact absurd (h.draw hres) (not_le.mpr hlt)
    | won => exact absurd (h.won hres) hd
  · intro square
    rw [(hb square).2.2]
    constructor
    · rintro (hw | ⟨line, hl, hf, hin⟩)
      · exact h.flag square hw
      · exact ⟨line, hl, (hfill line hl).mp hf, hin⟩
    · rintro ⟨line, hl, hf, hin⟩
      exact Or.inr ⟨line, hl, (hfill line hl).mpr hf, hin⟩

/-- Passing the turn finishes the turn of the position. -/
theorem Found.pass (h : Found t p) (hp : t.player1 ≠ t.player2) :
    Shows t.swapTurn (p.finish lines 9) := by
  have hdecided : Decided lines (p.finish lines 9) ↔ Decided lines p :=
    decided_congr (finish_marks p)
  have hturns : t.swapTurn.turns = (p.finish lines 9).turns := by
    rw [swapTurn_turns, finish_turns, h.turns]
  have hflag : ∀ square, (t.swapTurn.board square).won = true ↔
      ∃ line ∈ lines, Fills (p.finish lines 9).marks line ∧ square ∈ line := by
    rw [swapTurn_board, finish_marks]
    exact h.flag
  have hstatus : ∀ square, (t.swapTurn.board square).status =
      statusOf ((p.finish lines 9).marks square) := by
    rw [swapTurn_board, finish_marks]
    exact h.status
  by_cases hd : 9 ≤ t.turns + 1 ∧ t.result ≠ .won
  · -- enough turns without a line: the turn stays where it is
    have hopen : ¬ Decided lines p := fun he => hd.2 (h.won.mpr he)
    have hlate : 9 ≤ p.turns + 1 := by
      rw [← h.turns]
      exact hd.1
    refine ⟨hstatus, ?_, hturns, ?_, hflag⟩
    · rw [swapTurn_draw hd.1 hd.2, finish_side, if_pos ⟨hopen, hlate⟩]
      exact h.turn
    · rw [swapTurn_draw hd.1 hd.2, eq_comm, outcome_draw_iff, hdecided, finish_turns]
      exact ⟨hopen, hlate⟩
  · have hnot : ¬ (¬ Decided lines p ∧ 9 ≤ p.turns + 1) := by
      rintro ⟨hopen, hlate⟩
      rw [← h.turns] at hlate
      exact hd ⟨hlate, fun hw => hopen (h.won.mp hw)⟩
    refine ⟨hstatus, ?_, hturns, ?_, hflag⟩
    · rw [swapTurn_pass hd, finish_side, if_neg hnot]
      exact swap_opponent hp h.turn
    · rw [swapTurn_pass hd]
      dsimp only
      by_cases he : Decided lines p
      · rw [h.won.mpr he, eq_comm, outcome_won_iff, hdecided]
        exact he
      · have hlt : p.turns + 1 < 9 := not_le.mp fun hge => hnot ⟨he, hge⟩
        rw [h.going he (Nat.lt_of_succ_lt hlt), eq_comm, outcome_inProgress_iff, hdecided,
          finish_turns]
        exact ⟨he, hlt⟩

/-- The end of the board handler brings the game object up to date. -/
theorem Lags.pass (h : Lags t p) (hp : t.player1 ≠ t.player2) :
    Shows t.fetchWinner.swapTurn (p.finish lines 9) := by
  refine h.search.pass ?_
  rw [fetchWinner_player1, fetchWinner_player2]
  exact hp

/-- A move marks its square and finishes the turn. -/
theorem Shows.move (h : Shows t p) (hp : t.player1 ≠ t.player2)
    (hi : (t.board square).status = .idle) :
    Shows (Game.move t square) ((p.put square).finish lines 9) :=
  (h.put hi).pass hp

/-- A started game shows the empty position. -/
theorem shows_start {s : Session} {player : Player} {nextID : ℕ} (hw : Waiting s.ttt) :
    Shows ((s.flag player).start nextID).1.ttt {} := by
  have hnone : ∀ line ∈ lines, ¬ Fills (fun _ : Square => none) line := by
    rintro line hl ⟨side, hside⟩
    obtain ⟨first, hfirst⟩ := List.exists_mem_of_ne_nil line (lines_ne_nil line hl)
    cases hside first hfirst
  have hundecided : ¬ Decided lines ({} : Position Square) := fun ⟨line, hl, hf⟩ => hnone line hl hf
  refine ⟨fun _ => rfl, rfl, hw.turns, ?_, fun square => ⟨fun hf => (by cases hf), ?_⟩⟩
  · exact hw.result.trans (outcome_inProgress_iff.mpr ⟨hundecided, by decide⟩).symm
  · rintro ⟨line, hl, hf, -⟩
    exact absurd hf (hnone line hl)

/-- What does not change the play shows the same position. -/
theorem Shows.congr (h : Shows t p) (hs : SamePlay t u) (h1 : u.player1 = t.player1)
    (h2 : u.player2 = t.player2) : Shows u p := by
  refine ⟨?_, ?_, ?_, ?_, ?_⟩
  · exact fun square => (hs.status square).trans (h.status square)
  · rw [hs.turn, sideTurn_congr h1 h2]
    exact h.turn
  · exact hs.turns.trans h.turns
  · exact hs.result.trans h.result
  · intro square
    rw [hs.won]
    exact h.flag square

/-- The session stands for the match. -/
structure Stands (s : Session) (m : Match) : Prop where
  /-- The flags are set for the users who have answered. -/
  flags : ∀ player, s.confirm.st.confm player = true ↔ player ∈ m.answers.map Prod.fst
  /-- Nobody answers twice. -/
  once : (m.answers.map Prod.fst).Nodup
  /-- No turn is unfinished. -/
  hand : m.hand = none
  /-- The match has begun exactly when it was agreed on. -/
  begun : m.position.isSome = agreed m.answers
  /-- Before that the game is untouched. -/
  waiting : m.position = none → Waiting s.ttt
  /-- The game shows the position. -/
  shows : ∀ p, m.position = some p → Shows s.ttt p

/-- The record of a list element is accepted by the rules of a match, and its
session, while listed, stands for the match that the record leads to. -/
def Refines (v : View) : Prop :=
  ∃ users m, replay (Match.next users) {} v.trace = some m ∧
    ∀ s, v.session = some s → users = userOf s.ttt ∧ Stands s m

variable {w : World} {node : ℕ} {s : Session} {m : Match} {player : Player}

/-- The users of the sides are the two players. -/
theorem userOf_congr (h1 : u.player1 = t.player1) (h2 : u.player2 = t.player2) :
    userOf u = userOf t := by
  funext side
  rw [userOf, userOf, sideTurn_congr h1 h2]

/-- A session with an answer by one player only. -/
theorem Stands.single (h : Stands s m) (hself : s.confirm.st.confm player = false)
    (ho : s.confirm.st.confm player.other = true) :
    ∃ answer, m.answers = [(player.other, answer)] := by
  have hnot : player ∉ m.answers.map Prod.fst := by
    rw [← h.flags, hself]
    decide
  have hin : player.other ∈ m.answers.map Prod.fst := (h.flags _).mp ho
  have hall : ∀ q ∈ m.answers.map Prod.fst, q = player.other := fun q hq =>
    (Player.eq_or_other q player).resolve_left fun he => hnot (he ▸ hq)
  have honce := h.once
  rcases hans : m.answers with _ | ⟨⟨q, answer⟩, _ | ⟨⟨r, other⟩, rest⟩⟩ <;>
    rw [hans] at hin hall honce
  · cases hin
  · exact ⟨answer, by rw [hall q List.mem_cons_self]⟩
  · have hq := hall q (by simp)
    have hr := hall r (by simp)
    simp [hq, hr] at honce

/-- A session without answers. -/
theorem Stands.empty (h : Stands s m) (hself : s.confirm.st.confm player = false)
    (ho : s.confirm.st.confm player.other = false) : m.answers = [] := by
  have hnone : ∀ q, q ∉ m.answers.map Prod.fst := by
    intro q hq
    have hset := (h.flags q).mpr hq
    rcases Player.eq_or_other q player with rfl | rfl
    · rw [hself] at hset
      cases hset
    · rw [ho] at hset
      cases hset
  exact List.map_eq_nil_iff.mp (List.eq_nil_iff_forall_not_mem.mpr hnone)

/-- An answer that starts nothing. -/
theorem Stands.answer (h : Stands s m) (s' : Session) {answer : Answer}
    (hself : s.confirm.st.confm player = false) (hw : Waiting s'.ttt)
    (hflag : s'.confirm = (s.flag player).confirm) (hposition : m.position = none)
    (hagreed : agreed ((player, answer) :: m.answers) = false) :
    Stands s' { m with answers := (player, answer) :: m.answers } := by
  have hnot : player ∉ m.answers.map Prod.fst := by
    rw [← h.flags, hself]
    decide
  refine ⟨?_, List.nodup_cons.mpr ⟨hnot, h.once⟩, h.hand, ?_, fun _ => hw, ?_⟩
  · intro q
    rw [List.map_cons, List.mem_cons, ← h.flags, hflag]
    rcases Player.eq_or_other q player with rfl | rfl
    · simp [Session.flag]
    · simp [Session.flag, Player.other_ne]
  · dsimp only
    rw [hposition, hagreed]
    rfl
  · intro p hp
    cases hposition.symm.trans hp

/-- What changes neither the play nor the answers stands for the same
match. -/
theorem Stands.keep (h : Stands s m) {s' : Session} (hconfirm : ∀ q, s'.confirm.st.confm q =
    s.confirm.st.confm q) (hw : Waiting s.ttt → Waiting s'.ttt) (hs : SamePlay s.ttt s'.ttt)
    (h1 : s'.ttt.player1 = s.ttt.player1) (h2 : s'.ttt.player2 = s.ttt.player2) : Stands s' m :=
  ⟨fun q => (by rw [hconfirm]; exact h.flags q), h.once, h.hand, h.begun, fun hn => hw (h.waiting hn),
    fun p hp => (h.shows p hp).congr hs h1 h2⟩

/-- A player who has not answered finds a match that has not begun. -/
theorem Stands.unbegun (h : Stands s m) (hself : s.confirm.st.confm player = false) :
    m.position = none := by
  have hbegun := h.begun
  cases hm : m.position with
  | none => rfl
  | some p =>
    rw [hm] at hbegun
    cases ho : s.confirm.st.confm player.other with
    | false =>
      rw [h.empty hself ho] at hbegun
      cases hbegun
    | true =>
      obtain ⟨answer, hans⟩ := h.single hself ho
      rw [hans] at hbegun
      cases answer <;> cases hbegun

/-- The text of a won game is not that of a draw. -/
theorem announced_resultMessage {click : Click} {embed : Embed}
    (h : resultEmbed click s.ttt.result = some embed) :
    announced (resultMessage click s embed) = s.ttt.result := by
  have hwon : mention click.user ++ " won!" ≠ "draw!" := by
    intro he
    have hl := congrArg (fun text => text.toList.head?) he
    simp [mention, String.toList_append] at hl
  rcases resultEmbed_cases h with ⟨hr, hd⟩ | ⟨hr, hd⟩
  · rw [hr, announced, resultMessage, List.map_singleton, hd, if_neg (by simpa using hwon)]
  · rw [hr, announced, resultMessage, List.map_singleton, hd, if_pos rfl]

/-- Entries that the rules have nothing to say about. -/
theorem replay_request {users : Side → Snowflake} {effects : List Effect}
    (h : ∀ effect ∈ effects, m.next users effect = some m) :
    replay (Match.next users) m effects = some m := by
  induction effects with
  | nil => rfl
  | cons effect effects ih =>
    obtain ⟨hhead, htail⟩ := List.forall_mem_cons.mp h
    rw [replay_cons_of_next hhead]
    exact ih htail

/-- The requests at the end of the board handler change no match. -/
theorem replay_moveEffects {users : Side → Snowflake} {click : Click} {p : Position Square}
    (hm : m.position = some p) (hh : m.hand = none ∨ m.hand = some click)
    (hu : click.user = users p.side) (hs : Shows t (p.finish lines 9)) :
    replay (Match.next users) m (moveEffects click node t) =
      some { m with position := some (p.finish lines 9), hand := none } := by
  have hnext : m.next users (.moved node click t.result) =
      some { m with position := some (p.finish lines 9), hand := none } := by
    simp only [Match.next, hm, Option.bind_some]
    rw [if_pos ⟨hh, hu, hs.result⟩]
  rw [moveEffects, replay_cons_of_next hnext]
  exact replay_request (by simp [Match.next])

/-- A started game has a position. -/
theorem Stands.position_of_turn (h : Stands s m) {click : Click} (hu : click.user = s.ttt.turn.1) :
    ∃ p, m.position = some p := by
  exact Option.ne_none_iff_exists'.mp fun hn => (h.waiting hn).turn_ne click hu

/-- The second YES begins the match. -/
theorem Stands.start (h : Stands s m) (hself : s.confirm.st.confm player = false)
    (ho : s.confirm.st.confm player.other = true) (hw : Waiting s.ttt) (nextID : ℕ) :
    Stands ((s.flag player).start nextID).1
      { answers := (player, .yes) :: m.answers, position := some {} } := by
  have hnot : player ∉ m.answers.map Prod.fst := by
    rw [← h.flags, hself]
    decide
  obtain ⟨answer, hans⟩ := h.single hself ho
  refine ⟨?_, List.nodup_cons.mpr ⟨hnot, h.once⟩, rfl, ?_, fun hn => (by cases hn), ?_⟩
  · intro q
    rw [List.map_cons, List.mem_cons, ← h.flags]
    rcases Player.eq_or_other q player with rfl | rfl
    · simp [Session.start, Session.flag]
    · simp [Session.start, Session.flag, Player.other_ne]
  · rw [hans]
    rfl
  · rintro p ⟨⟩
    exact shows_start hw

/-- An accepted continuation of a record that is kept in step with the
session. -/
theorem refines_extend {users : Side → Snowflake} {m' : Match} {s' : Session}
    {pending : List Callback} {trace effects : List Effect}
    (hm : replay (Match.next users) {} trace = some m)
    (hnext : replay (Match.next users) m effects = some m') (hu : users = userOf s'.ttt)
    (hs : Stands s' m') : Refines ⟨some s', pending, trace ++ effects⟩ := by
  refine ⟨users, m', replay_append_of hm hnext, ?_⟩
  rintro t ⟨⟩
  exact ⟨hu, hs⟩

/-- A finished turn. -/
theorem refines_turn {pending : List Callback} {trace effects : List Effect} {q : Position Square}
    (hm : replay (Match.next (userOf s.ttt)) {} trace = some m) (hst : Stands s m)
    (hp : m.position = some p) (hq : Shows u q) (h1 : u.player1 = s.ttt.player1)
    (h2 : u.player2 = s.ttt.player2) (hnext : replay (Match.next (userOf s.ttt)) m effects =
      some { m with position := some q, hand := none }) :
    Refines ⟨some { s with ttt := u }, pending, trace ++ effects⟩ := by
  refine refines_extend hm hnext (userOf_congr h1 h2).symm ⟨hst.flags, hst.once, rfl, ?_,
    fun hn => (by cases hn), ?_⟩
  · rw [← hst.begun, hp]
    rfl
  · rintro r ⟨⟩
    exact hq

/-- The play and the answers stay as they are. -/
theorem refines_still {s' : Session} {pending pending' : List Callback}
    {trace effects : List Effect} (h : Refines ⟨some s, pending, trace⟩)
    (hrecord : ∀ users m, Stands s m → ∀ effect ∈ effects, Match.next users m effect = some m)
    (hconfirm : ∀ q, s'.confirm.st.confm q = s.confirm.st.confm q)
    (hw : Waiting s.ttt → Waiting s'.ttt) (hplay : SamePlay s.ttt s'.ttt)
    (h1 : s'.ttt.player1 = s.ttt.player1) (h2 : s'.ttt.player2 = s.ttt.player2) :
    Refines ⟨some s', pending', trace ++ effects⟩ := by
  obtain ⟨users, m, hm, hall⟩ := h
  obtain ⟨rfl, hst⟩ := hall s rfl
  exact refines_extend hm (replay_request (hrecord _ m hst)) (userOf_congr h1 h2).symm
    (hst.keep hconfirm hw hplay h1 h2)

/-- A move is accepted by the rules. -/
theorem refines_played {click : Click} {pending pending' : List Callback} {trace : List Effect}
    (h : Refines ⟨some s, pending, trace⟩) (hp : s.ttt.player1 ≠ s.ttt.player2)
    (hu : click.user = s.ttt.turn.1) (hidle : (s.ttt.board square).status = .idle) :
    Refines ⟨some { s with ttt := Game.move s.ttt square }, pending',
      trace ++ .placed s.node click square s.ttt.turn.2 ::
        moveEffects click s.node (Game.move s.ttt square)⟩ := by
  obtain ⟨users, m, hm, hall⟩ := h
  obtain ⟨rfl, hst⟩ := hall s rfl
  obtain ⟨p, hposition⟩ := hst.position_of_turn hu
  have hshows := hst.shows p hposition
  have hnew := hshows.move hp hidle
  have huser : click.user = userOf s.ttt p.side := by
    rw [userOf, ← hshows.turn]
    exact hu
  have hstatus : s.ttt.turn.2 = statusOf (some p.side) := by
    rw [hshows.turn, sideTurn_snd]
  have hmark : m.next (userOf s.ttt) (.placed s.node click square s.ttt.turn.2) =
      some { m with position := some (p.put square), hand := some click } := by
    simp only [Match.next, hposition, Option.bind_some]
    rw [if_pos ⟨hst.hand, hshows.free_iff.mpr hidle, huser, hstatus⟩]
  have h1 : (Game.move s.ttt square).player1 = s.ttt.player1 := by simp [Game.move, Game.setStatus]
  have h2 : (Game.move s.ttt square).player2 = s.ttt.player2 := by simp [Game.move, Game.setStatus]
  refine refines_turn hm hst hposition hnew h1 h2 ?_
  rw [replay_cons_of_next hmark]
  exact replay_moveEffects (m := { m with position := some (p.put square), hand := some click })
    rfl (Or.inr rfl) huser hnew

/-- A missed turn is accepted by the rules. -/
theorem refines_strayed {click : Click} {pending pending' : List Callback} {trace : List Effect}
    (h : Refines ⟨some s, pending, trace⟩) (hp : s.ttt.player1 ≠ s.ttt.player2)
    (hu : click.user = s.ttt.turn.1) :
    Refines ⟨some { s with ttt := s.ttt.fetchWinner.swapTurn }, pending',
      trace ++ moveEffects click s.node s.ttt.fetchWinner.swapTurn⟩ := by
  obtain ⟨users, m, hm, hall⟩ := h
  obtain ⟨rfl, hst⟩ := hall s rfl
  obtain ⟨p, hposition⟩ := hst.position_of_turn hu
  have hshows := hst.shows p hposition
  have hnew := hshows.lags.pass hp
  have huser : click.user = userOf s.ttt p.side := by
    rw [userOf, ← hshows.turn]
    exact hu
  have h1 : s.ttt.fetchWinner.swapTurn.player1 = s.ttt.player1 := by simp
  have h2 : s.ttt.fetchWinner.swapTurn.player2 = s.ttt.player2 := by simp
  exact refines_turn hm hst hposition hnew h1 h2
    (replay_moveEffects hposition (Or.inl hst.hand) huser hnew)

/-- Every touch is accepted by the rules. -/
theorem refines_touch {p : Part} {v v' : View} (h : Refines v) (ht : Touch w node p v v') :
    Refines v' := by
  cases ht with
  | @created message order player1 player2 s hf =>
    refine ⟨userOf s.ttt, {}, rfl, ?_⟩
    rintro t ⟨⟩
    have hst : s.confirm.st = {} := by
      rw [hf.confirm]
      rfl
    refine ⟨rfl, ?_, List.nodup_nil, rfl, rfl, fun _ => hf.waiting, fun p hp => by cases hp⟩
    intro player
    rw [hst]
    cases player <;> simp [ConfirmStatus.confm]
  | @confirmed click player pre s post pending trace hacc hs hy ho =>
    obtain ⟨users, m, hm, hall⟩ := h
    obtain ⟨rfl, hst⟩ := hall s rfl
    have hself := hacc.unanswered
    have hans := hst.empty hself ho
    have hagreed : agreed ((player, .yes) :: m.answers) = false := by
      rw [hans]
      rfl
    have hwait : Waiting s.ttt := accepts_waiting hacc hs
    refine refines_extend hm ?_ rfl (hst.answer (s.flag player) hself hwait rfl
      (hst.unbegun hself) hagreed)
    rw [replay_cons_of_next (t := { m with answers := (player, .yes) :: m.answers })
      (by simp [Match.next, hans])]
    exact replay_request (by simp [Match.next])
  | @started click player pre s post pending trace hacc hs hy ho =>
    obtain ⟨users, m, hm, hall⟩ := h
    obtain ⟨rfl, hst⟩ := hall s rfl
    have hself := hacc.unanswered
    obtain ⟨answer, hans⟩ := hst.single hself ho
    have hwait : Waiting s.ttt := accepts_waiting hacc hs
    refine refines_extend hm ?_ rfl (hst.start hself ho hwait w.nextID)
    rw [replay_cons_of_next (t := { m with answers := (player, .yes) :: m.answers })
      (by simp [Match.next, hans, Ne.symm (Player.other_ne player)])]
    rw [replay_cons_of_next (t := { answers := (player, .yes) :: m.answers, position := some {} })
      (by simp [Match.next, hans, hst.unbegun hself, hst.hand, agreed])]
    rfl
  | @declined click player pre s post pending trace hacc hs hn =>
    obtain ⟨users, m, hm, hall⟩ := h
    obtain ⟨rfl, hst⟩ := hall s rfl
    have hself := hacc.unanswered
    have hnot : player ∉ m.answers.map Prod.fst := by
      rw [← hst.flags, hself]
      decide
    have hwait := accepts_waiting hacc hs
    have hagreed : agreed ((player, .nah) :: m.answers) = false := by
      rcases m.answers with _ | ⟨_, _ | _⟩ <;> rfl
    refine refines_extend hm ?_ rfl (hst.answer _ hself
      ⟨hwait.turn, hwait.turns, hwait.result, hwait.board⟩ rfl (hst.unbegun hself) hagreed)
    rw [replay_cons_of_next (t := { m with answers := (player, .nah) :: m.answers })
      (by rw [Match.next, if_neg hnot])]
    rfl
  | @played click square pre s post pending trace hturn hs hsq hidle =>
    exact refines_played h hs.versus hturn.user hidle
  | @strayed click pre s post pending trace hturn hs hsq =>
    exact refines_strayed h hs.versus hturn.user
  | @originSet uid posted deployment s pending trace hcb hfresh hs huid hno =>
    have hstill : Refines ⟨some { s with ttt := s.ttt.setOrigin (posted.deployed deployment) },
        pending, trace ++ []⟩ := refines_still h (by simp)
      (fun _ => rfl) (fun hw => ⟨hw.turn, hw.turns, hw.result, hw.board⟩)
      ⟨fun _ => rfl, fun _ => rfl, rfl, rfl, rfl⟩ rfl rfl
    rwa [List.append_nil] at hstill
  | dropped => exact h
  | asked =>
    obtain ⟨users, m, hm, hall⟩ := h
    exact ⟨users, m, replay_append_of hm (replay_request (by simp [Match.next])), hall⟩
  | orphaned => exact h
  | @stored click deployment s pending trace hcb hfresh hs =>
    have hstill : Refines ⟨some (s.store ((confirmedReply click).deployed deployment)),
        pending.erase (.originalResponse click s.node), trace ++ []⟩ := refines_still h (by simp)
      (fun _ => rfl) (fun hw => ⟨hw.turn, hw.turns, hw.result, hw.board⟩)
      ⟨fun _ => rfl, fun _ => rfl, rfl, rfl, rfl⟩ rfl rfl
    rwa [List.append_nil] at hstill
  | @announced click deployment s embed pending trace hcb hs hr =>
    have hended := ended_of_resultEmbed hr
    refine refines_still h ?_ (fun _ => rfl) (fun hw => ⟨hw.turn, hw.turns, hw.result, hw.board⟩)
      ⟨fun _ => rfl, fun _ => rfl, rfl, rfl, rfl⟩ rfl rfl
    intro users m hst effect he
    obtain ⟨p, hp⟩ : ∃ p, m.position = some p := by
      refine Option.ne_none_iff_exists'.mp fun hn => ?_
      exact not_ended (hst.waiting hn).result hended
    have hsaid : announced (resultMessage click s embed) = outcome p := by
      rw [announced_resultMessage hr, (hst.shows p hp).result]
    rw [List.mem_singleton.mp he]
    simp only [Match.next, hp, Option.bind_some]
    rw [if_pos hsaid]
  | erased =>
    obtain ⟨users, m, hm, -⟩ := h
    exact ⟨users, m, hm, fun t ht => by cases ht⟩

/-- In every reached world every list element refines a match. -/
theorem refines_reached (hw : Reached w) (node : ℕ) : Refines (view w node) :=
  view_reached (I := fun _ => Refines) (fun _ => ⟨fun _ => 0, {}, rfl, fun _ hs => by cases hs⟩)
    (fun _ _ _ _ _ h ht => refines_touch h ht) hw node

/-- A listed session stands for the match that its record leads to. -/
theorem match_reached (hw : Reached w) (hs : s ∈ w.tttListG) :
    ∃ m, replay (Match.next (userOf s.ttt)) {} (effectsOf s.node w.trace) = some m ∧
      Stands s m := by
  obtain ⟨users, m, hm, hall⟩ := refines_reached hw s.node
  rw [view_of_mem hw.inv hs] at hm hall
  obtain ⟨rfl, hst⟩ := hall s rfl
  exact ⟨m, hm, hst⟩

/-- In every run the record of every session, listed or erased, is accepted
by the rules of a match between two users, who are the players of the stored
session; and while the session is listed, it stands for the match that its
record leads to. -/
theorem refines_run (events : List Event) (node : ℕ) : Refines (view (run events) node) :=
  refines_reached (reached_run events) node

end TintempPlusPlus.Matches
