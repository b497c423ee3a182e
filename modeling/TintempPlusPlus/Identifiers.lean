import TintempPlusPlus.Counter
import TintempPlusPlus.Histories

/-!
# Nobody shares an identifier

Every number of the shared counter is drawn once: by a new session for its
uid and its two confirm buttons, or by a started game for a square. A number
therefore belongs to one list element for good, and so do the uids and the
custom ids made from it.
-/

namespace TintempPlusPlus.Identifiers

open Discord UniqueID Ttt Handlers ScanLoop Play HandlerLaws Program OneEntry EventRuns Invariant
  Steps Reachable Views Lives Histories Counter

/-- The number was drawn for the session or for a square of its board. -/
def Carries (s : Session) (n : ℕ) : Prop :=
  n ∈ stamps s ∨ ∃ square, (s.ttt.board square).id = pairId square n

/-- The custom ids of the initialised squares. -/
def boardIds (s : Session) : List String :=
  (squares.map fun square => (s.ttt.board square).id).filter fun id => decide (id ≠ "")

/-- The custom ids that clicks are matched with. -/
def matchIds (s : Session) : List String :=
  [s.confirm.btnId.1, s.confirm.btnId.2] ++ boardIds s

/-- The session is listed at some moment of the run. -/
def Appears (events : List Event) (s : Session) : Prop :=
  ∃ before behind, events = before ++ behind ∧ s ∈ (run before).tttListG

/-- The identifiers of all sessions of a run are unique. -/
structure IdsUnique (events : List Event) : Prop where
  /-- The ids have the formats of confirm buttons and squares. -/
  formats : ∀ s, Appears events s → ∀ id ∈ matchIds s,
    (∃ n, id = confirmYesId n) ∨ (∃ n, id = confirmNoId n) ∨ ∃ square n, id = pairId square n
  /-- Different sessions have different uids. -/
  uids : ∀ s t, Appears events s → Appears events t → s.node ≠ t.node → s.ttt.uid ≠ t.ttt.uid
  /-- The ids of one session are different. -/
  within : ∀ s, Appears events s → (matchIds s).Nodup
  /-- Different sessions share no id. -/
  across : ∀ s t, Appears events s → Appears events t → s.node ≠ t.node →
    (matchIds s).Disjoint (matchIds t)
  /-- The challenge is posted from a copy that carries the ids of the stored
  session. -/
  copies : ∀ before message order behind, events = before ++ .command message order :: behind →
    ∀ more posted uid, (run (before ++ [.command message order])).trace =
      (run before).trace ++ more → .messageCreate posted (.created uid posted) ∈ more →
      ∃ s ∈ (run (before ++ [.command message order])).tttListG,
        s.node = (run before).nextNode ∧ s.ttt.uid = uid ∧
          posted.customIds = [s.confirm.btnId.1, s.confirm.btnId.2]

variable {w : World} {s t : Session} {n : ℕ}

/-- Nine numbers are drawn for a board. -/
theorem drawIndex_lt (square : Square) : drawIndex square < 9 := by
  revert square
  decide

/-- Waiting games have no board ids. -/
theorem waiting_ids (h : Waiting s.ttt) (square : Square) : (s.ttt.board square).id = "" := by
  rw [h.board]

/-- A number that a session carries has been drawn. -/
theorem carries_drawn (hs : SessionInv w s) (h : Carries s n) : n ≤ w.nextID := by
  rcases h with hstamp | ⟨square, hid⟩
  · exact hs.drawn n hstamp
  · rcases hs.stage with hwait | hstarted
    · rw [waiting_ids hwait] at hid
      exact absurd hid.symm (pairId_ne_empty _ _)
    · obtain ⟨m, hm, hids⟩ := hstarted.ids
      rw [hids] at hid
      have hn := (pairId_inj.mp hid).2
      have hlt := drawIndex_lt square
      omega

/-- What keeps the stamps and the board ids keeps the numbers. -/
theorem carries_congr {s' : Session} (hstamps : stamps s' = stamps s)
    (hids : ∀ square, (s'.ttt.board square).id = (s.ttt.board square).id) :
    Carries s' n ↔ Carries s n := by
  simp only [Carries, hstamps, hids]

/-- A session that a change leaves carries what it carried, or it is the one
session that was given new numbers. -/
def DrawnBy (w w' : World) (node : ℕ) : Prop :=
  ∀ s' ∈ w'.tttListG, ∀ n, Carries s' n →
    (∃ s ∈ w.tttListG, s.node = s'.node ∧ Carries s n) ∨ (s'.node = node ∧ w.nextID < n)

/-- A list that only loses sessions carries no new number. -/
theorem drawnBy_subset {w' : World} (h : w'.tttListG ⊆ w.tttListG) (node : ℕ) :
    DrawnBy w w' node :=
  fun s' hs' _ hn => Or.inl ⟨s', h hs', rfl, hn⟩

/-- One session is changed. -/
theorem drawnBy_replace {w' : World} {pre post : List Session} {s' : Session}
    (hl : w.tttListG = pre ++ s :: post) (hl' : w'.tttListG = pre ++ s' :: post)
    (hnode : s'.node = s.node) (h : ∀ n, Carries s' n → Carries s n ∨ w.nextID < n) :
    DrawnBy w w' s.node := by
  intro t ht n hn
  rw [hl'] at ht
  rw [hl]
  rcases mem_entry.mp ht with rfl | ht
  · rcases h n hn with hold | hnew
    · exact Or.inl ⟨s, List.mem_append_cons_self, hnode.symm, hold⟩
    · exact Or.inr ⟨hnode, hnew⟩
  · exact Or.inl ⟨t, mem_entry.mpr (Or.inr ht), rfl, hn⟩

/-- An answer leaves the numbers of a session or draws new ones. -/
theorem accept_carries {click : Click} {player : Player} {nextID : ℕ}
    (h : Carries (accept click player nextID s).1 n) : Carries s n ∨ nextID < n := by
  rcases h with hstamp | ⟨square, hid⟩
  · rw [(accept_kin click player nextID s).stamps] at hstamp
    exact Or.inl (Or.inl hstamp)
  · unfold accept at hid
    split_ifs at hid with hy ho
    · exact Or.inl (Or.inr ⟨square, hid⟩)
    · have hn : n = nextID + 1 + drawIndex square := (pairId_inj.mp hid).2.symm
      exact Or.inr (by omega)
    · exact Or.inl (Or.inr ⟨square, hid⟩)

/-- A change gives new numbers to one session at most. -/
theorem change_drawnBy {p : Part} {w' : World} (h : Change w p w') :
    ∃ node, DrawnBy w w' node := by
  cases h with
  | quiet => exact ⟨0, drawnBy_subset (List.Subset.refl _) 0⟩
  | @challenged message order mentioned hne =>
    obtain ⟨hf, -⟩ := newSession_fresh w order message.author mentioned.id
    refine ⟨w.nextNode, fun s' hs' n hn => ?_⟩
    rcases List.mem_append.mp hs' with hold | hnew
    · exact Or.inl ⟨s', hold, rfl, hn⟩
    · rw [List.mem_singleton.mp hnew] at hn ⊢
      refine Or.inr ⟨hf.node, ?_⟩
      rcases hn with hstamp | ⟨square, hid⟩
      · exact (hf.new n hstamp).1
      · rw [waiting_ids hf.waiting] at hid
        exact absurd hid.symm (pairId_ne_empty _ _)
  | @accepted click player pre s post hacc =>
    exact ⟨s.node, drawnBy_replace hacc.list rfl (accept_kin _ _ _ _).node
      fun n hn => accept_carries hn⟩
  | @played click square pre s post hturn hsq hidle =>
    refine ⟨s.node, drawnBy_replace hturn.list rfl rfl fun n hn => Or.inl ?_⟩
    refine (carries_congr (move_kin s square).stamps fun other => ?_).mp hn
    simp [Game.move, setStatus_id]
  | @strayed click pre s post hturn hsq =>
    refine ⟨s.node, drawnBy_replace hturn.list rfl rfl fun n hn => Or.inl ?_⟩
    exact (carries_congr (pass_kin s).stamps fun other => by simp).mp hn
  | dropped => exact ⟨0, drawnBy_subset (List.Subset.refl _) 0⟩
  | received => exact ⟨0, drawnBy_subset (List.Subset.refl _) 0⟩
  | @originSet uid posted deployment pre s post hcb hfresh hl huid hno =>
    exact ⟨s.node, drawnBy_replace hl rfl rfl fun n hn => Or.inl hn⟩
  | asked => exact ⟨0, drawnBy_subset (List.Subset.refl _) 0⟩
  | @stored click deployment pre s post hcb hfresh hl =>
    exact ⟨s.node, drawnBy_replace hl rfl rfl fun n hn => Or.inl hn⟩
  | @announced click deployment pre s post embed hcb hl hr =>
    exact ⟨s.node, drawnBy_replace hl rfl rfl fun n hn => Or.inl hn⟩
  | @erased deployment pre s post hcb hl =>
    refine ⟨0, drawnBy_subset ?_ 0⟩
    intro t ht
    rw [hl]
    exact mem_entry.mpr (Or.inr ht)

/-- The counter never goes back. -/
theorem change_nextID {p : Part} {w' : World} (h : Change w p w') : w.nextID ≤ w'.nextID := by
  obtain ⟨posted, started, hcounts, -⟩ := change_counts h
  rw [hcounts.nextID]
  omega

/-- Listed sessions share no number. -/
def NumbersApart (w : World) : Prop :=
  ∀ s ∈ w.tttListG, ∀ t ∈ w.tttListG, ∀ n, Carries s n → Carries t n → s.node = t.node

/-- In every reached world no two sessions carry one number. -/
theorem numbersApart_reached (hw : Reached w) : NumbersApart w := by
  refine invariant_reached (I := NumbersApart) ?_ ?_ hw
  · intro s hs
    cases hs
  · intro w p hw h s' hs' t' ht' n hs hn
    obtain ⟨node, hdrawn⟩ := change_drawnBy (part_change hw.inv p)
    rcases hdrawn s' hs' n hs with ⟨s, hmem, hnode, hold⟩ | ⟨hnode, hnew⟩ <;>
      rcases hdrawn t' ht' n hn with ⟨t, hmem', hnode', hold'⟩ | ⟨hnode', hnew'⟩
    · rw [← hnode, ← hnode']
      exact h s hmem t hmem' n hold hold'
    · have hle := carries_drawn (hw.inv.sessions s hmem) hold
      omega
    · have hle := carries_drawn (hw.inv.sessions t hmem') hold'
      omega
    · rw [hnode, hnode']

/-- A number that a session carries stays with its list element. -/
theorem carried_after {before middle : List Event} (hs : s ∈ (run before).tttListG)
    (ht : t ∈ (run (before ++ middle)).tttListG) (hn : Carries s n) (hn' : Carries t n) :
    s.node = t.node := by
  have hw := reached_run before
  have hinv : n ≤ (run (before ++ middle)).nextID ∧
      ∀ t ∈ (run (before ++ middle)).tttListG, Carries t n → s.node = t.node := by
    rw [run_append]
    refine invariant_after (I := fun w => n ≤ w.nextID ∧
      ∀ t ∈ w.tttListG, Carries t n → s.node = t.node) hw _ ⟨?_, ?_⟩ ?_
    · exact carries_drawn (hw.inv.sessions s hs) hn
    · exact fun t ht => numbersApart_reached hw s hs t ht n hn
    · rintro w p hw ⟨hle, hall⟩
      have hchange := part_change hw.inv p
      refine ⟨hle.trans (change_nextID hchange), fun t' ht' hc => ?_⟩
      obtain ⟨node, hdrawn⟩ := change_drawnBy hchange
      rcases hdrawn t' ht' n hc with ⟨t, hmem, hnode, hold⟩ | ⟨-, hnew⟩
      · rw [← hnode]
        exact hall t hmem hold
      · omega
  exact hinv.2 t ht hn'

/-- A number belongs to one list element over the whole run. -/
theorem carried_once {events : List Event} (hs : Appears events s) (ht : Appears events t)
    (hn : Carries s n) (hn' : Carries t n) : s.node = t.node := by
  obtain ⟨before, behind, hsplit, hmem⟩ := hs
  obtain ⟨before', behind', rfl, hmem'⟩ := ht
  rcases List.append_eq_append_iff.mp hsplit with ⟨middle, rfl, -⟩ | ⟨middle, rfl, -⟩
  · exact (carried_after hmem' hmem hn' hn).symm
  · exact carried_after hmem hmem' hn hn'

/-- The id of an initialised square carries a number of the session. -/
theorem mem_boardIds (hs : SessionInv w s) {id : String} (h : id ∈ boardIds s) :
    ∃ square n, id = pairId square n ∧ Carries s n := by
  obtain ⟨hmap, hne⟩ := List.mem_filter.mp h
  obtain ⟨square, -, rfl⟩ := List.mem_map.mp hmap
  rcases hs.stage with hwait | hstarted
  · rw [waiting_ids hwait] at hne
    simp at hne
  · obtain ⟨m, -, hids⟩ := hstarted.ids
    exact ⟨square, _, hids square, Or.inr ⟨square, hids square⟩⟩

/-- Each of the ids that clicks are matched with is of one of three kinds. -/
theorem mem_matchIds (hs : SessionInv w s) {id : String} (h : id ∈ matchIds s) :
    id = confirmYesId s.confirm.id.1 ∨ id = confirmNoId s.confirm.id.2 ∨
      ∃ square n, id = pairId square n ∧ Carries s n := by
  rcases List.mem_append.mp h with hbtn | hboard
  · rw [hs.btnId] at hbtn
    simp only [buttonIds, List.mem_cons, List.not_mem_nil, or_false] at hbtn
    exact hbtn.imp_right Or.inl
  · exact Or.inr (Or.inr (mem_boardIds hs hboard))

/-- Equal ids of two sessions carry a common number. -/
theorem matchIds_common {w' : World} (hs : SessionInv w s) (ht : SessionInv w' t) {id : String}
    (h : id ∈ matchIds s) (h' : id ∈ matchIds t) : ∃ n, Carries s n ∧ Carries t n := by
  have hyes : Carries s s.confirm.id.1 := Or.inl (by simp [stamps])
  have hno : Carries s s.confirm.id.2 := Or.inl (by simp [stamps])
  rcases mem_matchIds hs h with rfl | rfl | ⟨square, n, rfl, hn⟩
  · rcases mem_matchIds ht h' with he | he | ⟨other, m, he, -⟩
    · exact ⟨_, hyes, Or.inl (by simp [stamps, confirmYesId_inj.mp he])⟩
    · exact absurd he (confirmYesId_ne_confirmNoId _ _)
    · exact absurd he.symm (pairId_ne_confirmYesId _ _ _)
  · rcases mem_matchIds ht h' with he | he | ⟨other, m, he, -⟩
    · exact absurd he.symm (confirmYesId_ne_confirmNoId _ _)
    · exact ⟨_, hno, Or.inl (by simp [stamps, confirmNoId_inj.mp he])⟩
    · exact absurd he.symm (pairId_ne_confirmNoId _ _ _)
  · rcases mem_matchIds ht h' with he | he | ⟨other, m, he, hm⟩
    · exact absurd he (pairId_ne_confirmYesId _ _ _)
    · exact absurd he (pairId_ne_confirmNoId _ _ _)
    · exact ⟨n, hn, (pairId_inj.mp he).2 ▸ hm⟩

/-- The initialised squares of a session have different ids. -/
theorem boardIds_nodup (hs : SessionInv w s) : (boardIds s).Nodup := by
  rcases hs.stage with hwait | hstarted
  · have hnone : boardIds s = [] := by
      refine List.filter_eq_nil_iff.mpr fun id hid => ?_
      obtain ⟨square, -, rfl⟩ := List.mem_map.mp hid
      simp [waiting_ids hwait]
    rw [hnone]
    exact List.nodup_nil
  · exact (squares_nodup.map fun a b hab => hstarted.ids.distinctIds a b hab).filter _

/-- The ids of one session are different. -/
theorem matchIds_nodup (hs : SessionInv w s) : (matchIds s).Nodup := by
  refine List.nodup_append.mpr ⟨?_, boardIds_nodup hs, ?_⟩
  · simpa using hs.buttons
  · intro id hbtn other hother
    obtain ⟨square, n, rfl, -⟩ := mem_boardIds hs hother
    rw [hs.btnId] at hbtn
    simp only [buttonIds, List.mem_cons, List.not_mem_nil, or_false] at hbtn
    rcases hbtn with rfl | rfl
    · exact (pairId_ne_confirmYesId _ _ _).symm
    · exact (pairId_ne_confirmNoId _ _ _).symm

/-- A challenge is posted for the session that it adds. -/
theorem challenge_copies {message : Incoming} {order : DrawOrder} {posted : Message} {uid : ℕ}
    {more : List Effect} (htrace : (w.command message order).trace = w.trace ++ more)
    (h : .messageCreate posted (.created uid posted) ∈ more) :
    ∃ s ∈ (w.command message order).tttListG, s.node = w.nextNode ∧ s.ttt.uid = uid ∧
      posted.customIds = [s.confirm.btnId.1, s.confirm.btnId.2] := by
  have hchange := command_change (w := w) message order
  generalize w.command message order = w' at hchange htrace ⊢
  cases hchange with
  | quiet hwarn =>
    rw [← List.append_cancel_left htrace] at h
    cases hwarn _ h
  | @challenged _ _ mentioned hne =>
    obtain ⟨hf, -⟩ := newSession_fresh w order message.author mentioned.id
    rw [← List.append_cancel_left htrace, List.mem_singleton] at h
    simp only [Effect.messageCreate.injEq, Callback.created.injEq] at h
    obtain ⟨rfl, rfl, -⟩ := h
    exact ⟨_, List.mem_append_right _ (List.mem_singleton_self _), hf.node, rfl,
      hf.customIds message⟩

/-- Every session that appears in a run is well formed. -/
theorem appears_inv {events : List Event} (h : Appears events s) : ∃ w, SessionInv w s := by
  obtain ⟨before, behind, -, hmem⟩ := h
  exact ⟨_, (inv_run before).sessions s hmem⟩

/-- In every run all uids and all custom ids that clicks are matched with are
unique. -/
theorem idsUnique_run (events : List Event) : IdsUnique events := by
  refine ⟨?_, ?_, ?_, ?_, ?_⟩
  · intro s hs id hid
    obtain ⟨w, hinv⟩ := appears_inv hs
    rcases mem_matchIds hinv hid with he | he | ⟨square, n, he, -⟩
    · exact Or.inl ⟨_, he⟩
    · exact Or.inr (Or.inl ⟨_, he⟩)
    · exact Or.inr (Or.inr ⟨square, n, he⟩)
  · intro s t hs ht hne huid
    exact hne (carried_once hs ht (n := s.ttt.uid) (Or.inl (by simp [stamps]))
      (Or.inl (by simp [stamps, huid])))
  · intro s hs
    obtain ⟨w, hinv⟩ := appears_inv hs
    exact matchIds_nodup hinv
  · intro s t hs ht hne id hid hid'
    obtain ⟨w, hinv⟩ := appears_inv hs
    obtain ⟨w', hinv'⟩ := appears_inv ht
    obtain ⟨n, hn, hn'⟩ := matchIds_common hinv hinv' hid hid'
    exact hne (carried_once hs ht hn hn')
  · intro before message order behind _ more posted uid htrace hmem
    rw [run_concat] at htrace ⊢
    exact challenge_copies htrace hmem

end TintempPlusPlus.Identifiers
