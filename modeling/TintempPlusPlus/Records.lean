import TintempPlusPlus.Matches
import TintempPlusPlus.StartedGames

/-!
# What the record of a match says about its position

The rules of a match alone determine how a position and the record that led
to it belong together: turns are counted by the clicks that reached the end
of the board handler, and every mark was set once, by the user who plays its
side. The sessions of the program inherit these facts in every run, with any
ids clicked in any order.
-/

namespace TintempPlusPlus.Records

open Discord UniqueID Ttt Handlers BoardLaws AlternatingMarks LineGame Play Program Invariant
  Reachable Views Lives Matches AcceptedRecords TurnDiscipline StartedGames

/-- A turn was finished. -/
def isMoved : Effect → Bool
  | .moved _ _ _ => true
  | _ => false

/-- A square was marked. -/
def isPlaced : Effect → Bool
  | .placed _ _ _ _ => true
  | _ => false

/-- This square was marked. -/
def isPlacedOn (square : Square) : Effect → Bool
  | .placed _ _ other _ => decide (other = square)
  | _ => false

/-- The position is the one that the record says. -/
structure Kept (users : Side → Snowflake) (record : List Effect) (p : Position Square) : Prop where
  /-- Every finished turn is counted. -/
  turns : p.turns = record.countP isMoved
  /-- Every mark was set once. -/
  marks : ∀ square, record.countP (isPlacedOn square) = if p.marks square = none then 0 else 1
  /-- It was set by the user who plays its side. -/
  owner : ∀ node click square status, .placed node click square status ∈ record →
    ∃ side, p.marks square = some side ∧ click.user = users side ∧ status = statusOf (some side)
  /-- The sides take turns until nine turns have passed. -/
  side : p.turns < 9 → p.side = sideAt p.turns

/-- The match is the one that the record says. -/
structure Books (users : Side → Snowflake) (record : List Effect) (m : Match) : Prop where
  /-- Nobody plays before the match has begun. -/
  blank : m.position = none → m.hand = none ∧
    ∀ effect ∈ record, isMoved effect = false ∧ isPlaced effect = false
  /-- After that the position is the one of the record. -/
  kept : ∀ p, m.position = some p → Kept users record p
  /-- A turn marks one square at most. -/
  order : record.countP isPlaced ≤ record.countP isMoved + if m.hand = none then 0 else 1

variable {users : Side → Snowflake} {record : List Effect} {m m' : Match} {p : Position Square}
  {effect : Effect} {click : Click} {square : Square} {node : ℕ} {status : Status}

/-- Only the moments of the play are counted. -/
theorem isPlacedOn_of_not (h : isPlaced effect = false) (square : Square) :
    isPlacedOn square effect = false := by
  cases effect <;> first | rfl | cases h

/-- Marks are counted square by square. -/
theorem countP_isPlaced (record : List Effect) :
    ∑ square, record.countP (isPlacedOn square) = record.countP isPlaced := by
  induction record with
  | nil => simp
  | cons effect record ih =>
    have hone : ∑ square, (if isPlacedOn square effect = true then 1 else 0) =
        if isPlaced effect = true then 1 else 0 := by
      cases effect <;> simp [isPlacedOn, isPlaced]
    simp only [List.countP_cons, Finset.sum_add_distrib, ih, hone]

/-- An entry that is no moment of the play. -/
theorem Kept.keep (h : Kept users record p) (hm : isMoved effect = false)
    (hp : isPlaced effect = false) : Kept users (record ++ [effect]) p := by
  refine ⟨?_, fun square => ?_, fun node click square status hin => ?_, h.side⟩
  · simpa [hm] using h.turns
  · simpa [isPlacedOn_of_not hp square] using h.marks square
  · rcases List.mem_append.mp hin with hold | hnew
    · exact h.owner node click square status hold
    · rw [← List.mem_singleton.mp hnew] at hp
      cases hp

/-- A mark on a free square. -/
theorem Kept.put (h : Kept users record p) (hfree : p.marks square = none)
    (hu : click.user = users p.side) (hs : status = statusOf (some p.side)) :
    Kept users (record ++ [.placed node click square status]) (p.put square) := by
  refine ⟨?_, fun other => ?_, fun node' click' other status' hin => ?_, h.side⟩
  · simpa [isMoved] using h.turns
  · by_cases ho : other = square
    · subst ho
      simpa [isPlacedOn, hfree] using h.marks other
    · simpa [isPlacedOn, Ne.symm ho, put_marks_of_ne p ho] using h.marks other
  · rcases List.mem_append.mp hin with hold | hnew
    · obtain ⟨side, hmark, howner⟩ := h.owner node' click' other status' hold
      have hne : other ≠ square := by
        rintro rfl
        rw [hfree] at hmark
        cases hmark
      exact ⟨side, (put_marks_of_ne p hne).trans hmark, howner⟩
    · cases List.mem_singleton.mp hnew
      exact ⟨p.side, put_marks_self p square, hu, hs⟩

/-- The end of a turn. -/
theorem Kept.finish {result : Result} (h : Kept users record p) :
    Kept users (record ++ [.moved node click result]) (p.finish lines 9) := by
  refine ⟨?_, fun square => ?_, fun node' click' square status hin => ?_, fun hlt => ?_⟩
  · simpa [isMoved] using h.turns
  · simpa [isPlacedOn] using h.marks square
  · rw [finish_marks]
    exact h.owner node' click' square status (by simpa using hin)
  · rw [finish_turns] at hlt ⊢
    have hnot : ¬ (¬ Decided lines p ∧ 9 ≤ p.turns + 1) := fun hc => absurd hc.2 (not_le.mpr hlt)
    rw [finish_side, if_neg hnot, h.side (Nat.lt_of_succ_lt hlt)]
    rcases Nat.mod_two_eq_zero_or_one p.turns with he | he
    · have hodd : (p.turns + 1) % 2 ≠ 0 := by omega
      rw [sideAt, if_pos he, sideAt, if_neg hodd]
      rfl
    · have heven : (p.turns + 1) % 2 = 0 := by omega
      rw [sideAt, if_neg (by omega), sideAt, if_pos heven]
      rfl

/-- A match that begins has no record of a play yet. -/
theorem kept_nil (h : ∀ effect ∈ record, isMoved effect = false ∧ isPlaced effect = false) :
    Kept users record {} := by
  have hnone : ∀ q : Effect → Bool, (∀ effect ∈ record, q effect = false) → record.countP q = 0 := by
    intro q hq
    refine List.countP_eq_zero.mpr fun effect he => ?_
    rw [hq effect he]
    decide
  refine ⟨?_, fun square => ?_, fun node click square status hin => ?_, fun _ => rfl⟩
  · exact (hnone isMoved fun effect he => (h effect he).1).symm
  · exact hnone _ fun effect he => isPlacedOn_of_not (h effect he).2 square
  · cases (h _ hin).2

/-- An entry that is no moment of the play and does not begin it. -/
theorem Books.keep (h : Books users record m) (hposition : m'.position = m.position)
    (hhand : m'.hand = m.hand) (hm : isMoved effect = false) (hp : isPlaced effect = false) :
    Books users (record ++ [effect]) m' := by
  refine ⟨?_, ?_, ?_⟩
  · rw [hposition, hhand]
    intro hn
    obtain ⟨hh, hall⟩ := h.blank hn
    exact ⟨hh, List.forall_mem_append.mpr ⟨hall, List.forall_mem_singleton.mpr ⟨hm, hp⟩⟩⟩
  · rw [hposition]
    exact fun p hposition => (h.kept p hposition).keep hm hp
  · rw [hhand]
    simpa [hm, hp] using h.order

/-- Every accepted entry keeps the books. -/
theorem books_next (h : Books users record m) (hn : m.next users effect = some m') :
    Books users (record ++ [effect]) m' := by
  have horder := h.order
  cases effect with
  | answered node player answer =>
    rw [Match.next] at hn
    split_ifs at hn
    cases hn
    exact h.keep rfl rfl rfl rfl
  | initGame node =>
    rw [Match.next] at hn
    split_ifs at hn with hc
    cases hn
    obtain ⟨hh, hall⟩ := h.blank (Option.isNone_iff_eq_none.mp hc.2)
    refine ⟨fun hnone => (by cases hnone), ?_, ?_⟩
    · rintro p ⟨⟩
      exact (kept_nil hall).keep rfl rfl
    · simpa [isMoved, isPlaced] using horder
  | placed node click square status =>
    obtain ⟨p, hp, hn⟩ := Option.bind_eq_some_iff.mp hn
    split_ifs at hn with hc
    cases hn
    obtain ⟨hh, hfree, hu, hs⟩ := hc
    refine ⟨fun hnone => (by cases hnone), ?_, ?_⟩
    · rintro q ⟨⟩
      exact (h.kept p hp).put hfree hu hs
    · rw [hh] at horder
      simpa [isMoved, isPlaced] using horder
  | moved node click result =>
    obtain ⟨p, hp, hn⟩ := Option.bind_eq_some_iff.mp hn
    split_ifs at hn with hc
    cases hn
    refine ⟨fun hnone => (by cases hnone), ?_, ?_⟩
    · rintro q ⟨⟩
      exact (h.kept p hp).finish
    · have hle : (if m.hand = none then 0 else 1) ≤ 1 := by
        split_ifs <;> decide
      simp only [List.countP_append, List.countP_singleton, isMoved, isPlaced]
      simp
      omega
  | reply click type message callback =>
    cases hn
    exact h.keep rfl rfl rfl rfl
  | getOriginalResponse click callback =>
    cases hn
    exact h.keep rfl rfl rfl rfl
  | messageEdit message callback =>
    cases hn
    exact h.keep rfl rfl rfl rfl
  | messageCreate message callback =>
    have hsame : m' = m := by
      cases callback with
      | resultMessage node =>
        obtain ⟨p, hp, hn⟩ := Option.bind_eq_some_iff.mp hn
        split_ifs at hn
        exact (Option.some.inj hn).symm
      | _ => exact (Option.some.inj hn).symm
    rw [hsame]
    exact h.keep rfl rfl rfl rfl
  | messageDelete id channelId =>
    cases hn
    exact h.keep rfl rfl rfl rfl

/-- Every accepted record keeps its books. -/
theorem books_replay (h : replay (Match.next users) {} record = some m) : Books users record m := by
  refine replay_invariant (I := Books users) ?_ (fun _ _ _ _ hb hn => books_next hb hn) h
  exact ⟨fun _ => ⟨rfl, by simp⟩, fun p hp => (by cases hp), Nat.zero_le _⟩

/-- The bookkeeping of a started game in a run with any ids clicked. -/
structure Bookkeeping (trace : List Effect) (s : Session) : Prop where
  /-- Every click that reached the end of the board handler is a turn. -/
  turns : s.ttt.turns = trace.countP isMoved
  /-- Every click that set a status is a marked square. -/
  marks : (marked s.ttt.board).card = trace.countP isPlaced
  /-- A turn marks one square at most. -/
  order : (marked s.ttt.board).card ≤ s.ttt.turns
  /-- The players take turns until nine turns have passed. -/
  turn : s.ttt.turns < 9 → s.ttt.turn = sideTurn s.ttt (sideAt s.ttt.turns)
  /-- The game is won exactly when a line is filled. -/
  won : s.ttt.result = .won ↔ ∃ line ∈ lines, Filled s.ttt.board line
  /-- It is drawn exactly when nine turns have passed without that. -/
  draw : s.ttt.result = .draw ↔ (∀ line ∈ lines, ¬ Filled s.ttt.board line) ∧ 9 ≤ s.ttt.turns
  /-- It goes on otherwise. -/
  going : s.ttt.result = .inProgress ↔
    (∀ line ∈ lines, ¬ Filled s.ttt.board line) ∧ s.ttt.turns < 9
  /-- The flags mark the filled lines. -/
  flag : ∀ square, (s.ttt.board square).won = true ↔
    ∃ line ∈ lines, Filled s.ttt.board line ∧ square ∈ line

variable {w : World} {s : Session}

/-- A started game has a position, and its record keeps the books. -/
theorem position_of_started (hw : Reached w) (hs : s ∈ w.tttListG)
    (hi : .initGame s.node ∈ w.trace) : ∃ m p, m.position = some p ∧ Shows s.ttt p ∧
      m.hand = none ∧ Books (userOf s.ttt) (effectsOf s.node w.trace) m := by
  obtain ⟨m, hm, hst⟩ := match_reached hw hs
  have hbegun := (listed_reached hw hs).begun (mem_effectsOf.mpr ⟨hi, rfl⟩)
  obtain ⟨p, hp⟩ : ∃ p, m.position = some p := by
    refine Option.ne_none_iff_exists'.mp fun hn => hbegun ?_
    rw [(hst.waiting hn).turn]
  exact ⟨m, p, hp, hst.shows p hp, hst.hand, books_replay hm⟩

/-- A position is decided when the board that shows it has a filled line. -/
theorem decided_iff_filled {t : Game} (h : Shows t p) :
    Decided lines p ↔ ∃ line ∈ lines, Filled t.board line := by
  constructor
  · rintro ⟨line, hl, hf⟩
    exact ⟨line, hl, (filled_iff_fills h.status hl).mpr hf⟩
  · rintro ⟨line, hl, hf⟩
    exact ⟨line, hl, (filled_iff_fills h.status hl).mp hf⟩

/-- As many squares are marked as marks were recorded. -/
theorem card_marked {t : Game} (h : Shows t p) (hk : Kept users record p) :
    (marked t.board).card = record.countP isPlaced := by
  have hone : ∀ square, (if (t.board square).status ≠ .idle then 1 else 0) =
      record.countP (isPlacedOn square) := by
    intro square
    rw [hk.marks square]
    by_cases hm : p.marks square = none
    · rw [if_pos hm, if_neg (not_not.mpr (h.free_iff.mp hm))]
    · rw [if_neg hm, if_pos (fun he => hm (h.free_iff.mpr he))]
  rw [← countP_isPlaced, marked, Finset.card_filter]
  exact Finset.sum_congr rfl fun square _ => hone square

/-- In every run, whatever ids are clicked, a started session keeps its
books. -/
theorem bookkeeping_run (events : List Event) (hs : s ∈ (run events).tttListG)
    (hi : .initGame s.node ∈ (run events).trace) :
    Bookkeeping (effectsOf s.node (run events).trace) s := by
  obtain ⟨m, p, hp, hshows, hhand, hbooks⟩ := position_of_started (reached_run events) hs hi
  have hkept := hbooks.kept p hp
  have hturns : s.ttt.turns = (effectsOf s.node (run events).trace).countP isMoved :=
    hshows.turns.trans hkept.turns
  have hmarks := card_marked hshows hkept
  have horder := hbooks.order
  have hopen : ¬ Decided lines p ↔ ∀ line ∈ lines, ¬ Filled s.ttt.board line := by
    rw [decided_iff_filled hshows]
    exact ⟨fun hn line hl hf => hn ⟨line, hl, hf⟩, fun hn ⟨line, hl, hf⟩ => hn line hl hf⟩
  refine ⟨hturns, hmarks, ?_, ?_, ?_, ?_, ?_, ?_⟩
  · rw [hmarks, hturns]
    rwa [hhand, if_pos rfl, Nat.add_zero] at horder
  · intro hlt
    rw [hshows.turns] at hlt ⊢
    rw [hshows.turn, hkept.side hlt]
  · rw [hshows.result, outcome_won_iff, decided_iff_filled hshows]
  · rw [hshows.result, outcome_draw_iff, hopen, hshows.turns]
  · rw [hshows.result, outcome_inProgress_iff, hopen, hshows.turns]
  · intro square
    rw [hshows.flag square]
    constructor
    · rintro ⟨line, hl, hf, hin⟩
      exact ⟨line, hl, (filled_iff_fills hshows.status hl).mpr hf, hin⟩
    · rintro ⟨line, hl, hf, hin⟩
      exact ⟨line, hl, (filled_iff_fills hshows.status hl).mp hf, hin⟩

/-- The books of the game in which user 11 takes the top row. -/
theorem bookkeeping_topRow :
    ∃ s ∈ (run topRow).tttListG, Bookkeeping (effectsOf s.node (run topRow).trace) s := by
  have hmem : 0 ∈ (run topRow).tttListG.map Session.node := by decide
  obtain ⟨s, hs, hn⟩ := List.mem_map.mp hmem
  exact ⟨s, hs, bookkeeping_run topRow hs (by rw [hn]; decide)⟩

/-- Where the mark of a square comes from. -/
structure Provenance (trace : List Effect) (s : Session) (square : Square) : Prop where
  /-- An idle square was never marked, any other one once. -/
  once : trace.countP (isPlacedOn square) = if (s.ttt.board square).status = .idle then 0 else 1
  /-- A click that marked the square was made by the player of its mark. -/
  owner : ∀ click status, .placed s.node click square status ∈ trace →
    (s.ttt.board square).status = status ∧
      ((click.user, status) = (s.ttt.player1, .x) ∨ (click.user, status) = (s.ttt.player2, .o))

/-- In every run, whatever ids are clicked, the mark of every square of every
listed session was set by exactly one click, which was made by the player
whose mark it is; an idle square was marked by none. -/
theorem provenance_run (events : List Event) (hs : s ∈ (run events).tttListG) (square : Square) :
    Provenance (effectsOf s.node (run events).trace) s square := by
  have hw := reached_run events
  obtain ⟨m, hm, hst⟩ := match_reached hw hs
  have hbooks := books_replay hm
  cases hp : m.position with
  | none =>
    have hblank := (hbooks.blank hp).2
    refine ⟨?_, fun click status hin => ?_⟩
    · rw [(hst.waiting hp).board, if_pos rfl, List.countP_eq_zero]
      intro effect he
      rw [isPlacedOn_of_not (hblank effect he).2]
      decide
    · cases (hblank _ hin).2
  | some p =>
    have hshows := hst.shows p hp
    have hkept := hbooks.kept p hp
    refine ⟨?_, fun click status hin => ?_⟩
    · rw [hkept.marks square]
      exact if_congr hshows.free_iff rfl rfl
    · obtain ⟨side, hmark, hu, rfl⟩ := hkept.owner s.node click square status hin
      refine ⟨by rw [hshows.status, hmark], ?_⟩
      cases side with
      | first => exact Or.inl (by rw [hu]; rfl)
      | second => exact Or.inr (by rw [hu]; rfl)

/-- The marks of the game in which user 11 takes the top row. -/
theorem provenance_topRow : ∃ s ∈ (run topRow).tttListG,
    ∀ square, Provenance (effectsOf s.node (run topRow).trace) s square := by
  have hmem : 0 ∈ (run topRow).tttListG.map Session.node := by decide
  obtain ⟨s, hs, -⟩ := List.mem_map.mp hmem
  exact ⟨s, hs, fun square => provenance_run topRow hs square⟩

end TintempPlusPlus.Records
