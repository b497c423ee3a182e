import TintempPlusPlus.Lives

/-!
# The buttons shown on a message

Discord sends a click only from a button that is shown on the clicked
message. A button gets onto a message when the message is returned to the
program, edited, or replaced by the reply to a click on it. Along such clicks
the confirm buttons of a session are shown on its own challenge message and
nowhere else.
-/

namespace TintempPlusPlus.Display

open Discord UniqueID Ttt Handlers ScanLoop Play HandlerLaws Program OneEntry EventRuns Invariant
  Steps Reachable Views Lives

/-- The message that an effect puts in the place of a deployed one. -/
def shows? : Effect → Option (Snowflake × Message)
  | .messageEdit message _ => some (message.id, message)
  | .reply click .updateMessage message _ => some (click.messageId, message)
  | _ => none

/-- The messages that were shown under each message id. -/
def shows (w : World) : List (Snowflake × Message) :=
  w.returned.map (fun message => (message.id, message)) ++ w.trace.filterMap shows?

/-- The custom id of the click was shown on the clicked message. -/
def Shown (w : World) (click : Click) : Prop :=
  ∃ shown ∈ shows w, shown.1 = click.messageId ∧ click.customId ∈ shown.2.customIds

/-- Discord sends only clicks on shown buttons. -/
def ClicksShown (w : World) : Event → Prop
  | .click click => Shown w click
  | _ => True

instance (w : World) (click : Click) : Decidable (Shown w click) :=
  inferInstanceAs (Decidable (∃ shown ∈ shows w, _))

instance (w : World) : ∀ e, Decidable (ClicksShown w e)
  | .click click => inferInstanceAs (Decidable (Shown w click))
  | .command _ _ => inferInstanceAs (Decidable True)
  | .callback _ _ => inferInstanceAs (Decidable True)

/-- The message has a confirm button of the session. -/
def Offers (s : Session) (message : Message) : Prop :=
  s.confirm.btnId.1 ∈ message.customIds ∨ s.confirm.btnId.2 ∈ message.customIds

/-- The message has no buttons but the confirm buttons of the session. -/
def ButtonsOf (s : Session) (message : Message) : Prop :=
  ∀ id ∈ message.customIds, id = s.confirm.btnId.1 ∨ id = s.confirm.btnId.2

/-- The confirm buttons of the message carry numbers up to a bound. -/
def Drawn (bound : ℕ) (message : Message) : Prop :=
  ∀ n, confirmYesId n ∈ message.customIds ∨ confirmNoId n ∈ message.customIds → n ≤ bound

/-- The message has no confirm buttons. -/
def Plain (message : Message) : Prop :=
  ∀ n, confirmYesId n ∉ message.customIds ∧ confirmNoId n ∉ message.customIds

variable {w w' : World} {s s' t : Session} {message : Message} {click : Click}

/-- A message is shown when it was returned or an effect of the trace shows
it. -/
theorem mem_shows {shown : Snowflake × Message} : shown ∈ shows w ↔
    (∃ message ∈ w.returned, (message.id, message) = shown) ∨
      ∃ effect ∈ w.trace, shows? effect = some shown := by
  simp only [shows, List.mem_append, List.mem_map, List.mem_filterMap]

/-- New effects add the messages that they show. -/
theorem mem_shows_emit {effects : List Effect} {shown : Snowflake × Message} :
    shown ∈ shows (w.emit effects) ↔
      shown ∈ shows w ∨ ∃ effect ∈ effects, shows? effect = some shown := by
  simp only [mem_shows, World.emit, List.mem_append, or_and_right, exists_or, or_assoc]

/-- A returned message is shown. -/
theorem mem_shows_receive {shown : Snowflake × Message} :
    shown ∈ shows (w.receive message) ↔ shown = (message.id, message) ∨ shown ∈ shows w := by
  simp only [mem_shows, World.receive, List.exists_mem_cons_iff, or_assoc, eq_comm]

/-- A message without confirm buttons has only buttons of drawn numbers. -/
theorem Plain.drawn (h : Plain message) (bound : ℕ) : Drawn bound message := by
  intro n hn
  rcases hn with hn | hn
  · exact absurd hn (h n).1
  · exact absurd hn (h n).2

/-- A message without confirm buttons offers no answer. -/
theorem Plain.not_offers (h : Plain message) (hs : SessionInv w s) : ¬ Offers s message := by
  unfold Offers
  rw [hs.btnId]
  rintro (hn | hn)
  · exact (h _).1 hn
  · exact (h _).2 hn

/-- A message without buttons is plain. -/
theorem plain_of_nil (h : message.customIds = []) : Plain message := by
  intro n
  simp [h]

/-- A message with a drawn board has no confirm buttons. -/
theorem plain_board {nextID : ℕ} {board : Board} (h : Numbered nextID board)
    (hm : message.customIds = squares.map fun square => (board square).id) : Plain message := by
  obtain ⟨n, -, hids⟩ := h
  intro k
  rw [hm]
  simp only [List.mem_map, not_exists, not_and]
  refine ⟨fun square _ he => ?_, fun square _ he => ?_⟩
  · rw [hids] at he
    exact pairId_ne_confirmYesId _ _ _ he
  · rw [hids] at he
    exact pairId_ne_confirmNoId _ _ _ he

/-- The confirm buttons of a session carry its numbers. -/
theorem ButtonsOf.drawn (h : ButtonsOf s message) (hbtn : s.confirm.btnId = buttonIds s.confirm.id)
    {bound : ℕ} (hbound : ∀ n ∈ stamps s, n ≤ bound) : Drawn bound message := by
  intro n hn
  have hid : n = s.confirm.id.1 ∨ n = s.confirm.id.2 := by
    rcases hn with hn | hn <;> have hb := h _ hn <;> rw [hbtn] at hb
    · rcases hb with hb | hb
      · exact Or.inl (confirmYesId_inj.mp hb)
      · exact absurd hb (confirmYesId_ne_confirmNoId _ _)
    · rcases hb with hb | hb
      · exact absurd hb.symm (confirmYesId_ne_confirmNoId _ _)
      · exact Or.inr (confirmNoId_inj.mp hb)
  rcases hid with rfl | rfl
  · exact hbound _ (by simp [stamps])
  · exact hbound _ (by simp [stamps])

/-- A session whose button is on a message with another session's buttons
only shares a number with it. -/
theorem offers_unique (h : Offers t message) (hb : ButtonsOf s message)
    (hs : s.confirm.btnId = buttonIds s.confirm.id)
    (ht : t.confirm.btnId = buttonIds t.confirm.id) : ¬ (stamps s).Disjoint (stamps t) := by
  intro hapart
  have hd : ∀ m ∈ stamps s, ∀ n ∈ stamps t, m ≠ n :=
    fun m hm n hn he => hapart hm (he ▸ hn)
  unfold Offers at h
  unfold ButtonsOf at hb
  rw [ht] at h
  rw [hs] at hb
  rcases h with h | h <;> rcases hb _ h with he | he
  · exact hd _ (by simp [stamps]) _ (by simp [stamps]) (confirmYesId_inj.mp he).symm
  · exact confirmYesId_ne_confirmNoId _ _ he
  · exact confirmYesId_ne_confirmNoId _ _ he.symm
  · exact hd _ (by simp [stamps]) _ (by simp [stamps]) (confirmNoId_inj.mp he).symm

/-- A message whose confirm buttons were drawn before has no button of a
session that is new. -/
theorem Drawn.not_offers {bound : ℕ} (h : Drawn bound message)
    (hbtn : s.confirm.btnId = buttonIds s.confirm.id) (hnew : ∀ n ∈ stamps s, bound < n) :
    ¬ Offers s message := by
  unfold Offers
  rw [hbtn]
  rintro (hn | hn)
  · exact absurd (h _ (Or.inl hn)) (not_le.mpr (hnew _ (by simp [stamps])))
  · exact absurd (h _ (Or.inr hn)) (not_le.mpr (hnew _ (by simp [stamps])))

/-- The session number that a callback posts a challenge for. -/
def posting : Callback → Option ℕ
  | .created uid _ => some uid
  | _ => none

/-- The session numbers whose challenge message has not been returned. -/
def postings (pending : List Callback) : List ℕ := pending.filterMap posting

/-- The challenges that are being posted are those with a pending callback. -/
theorem mem_postings {uid : ℕ} {pending : List Callback} :
    uid ∈ postings pending ↔ ∃ posted, .created uid posted ∈ pending := by
  simp only [postings, List.mem_filterMap]
  constructor
  · rintro ⟨callback, hm, he⟩
    cases callback <;> cases he
    exact ⟨_, hm⟩
  · rintro ⟨posted, hm⟩
    exact ⟨_, hm, rfl⟩

/-- No new challenge is among the callbacks. -/
def NoPosting (pending pending' : List Callback) : Prop :=
  ∃ kept more, pending' = kept ++ more ∧ kept.Sublist pending ∧
    ∀ callback ∈ more, posting callback = none

/-- No challenge is added to the ones being posted. -/
theorem NoPosting.mem {pending pending' : List Callback} (h : NoPosting pending pending') {uid : ℕ}
    {posted : Message} (hm : .created uid posted ∈ pending') : .created uid posted ∈ pending := by
  obtain ⟨kept, more, rfl, hkept, hmore⟩ := h
  rcases List.mem_append.mp hm with hm | hm
  · exact hkept.subset hm
  · cases hmore _ hm

/-- No number is added to the ones being posted. -/
theorem NoPosting.subset {pending pending' : List Callback} (h : NoPosting pending pending')
    {uid : ℕ} (hm : uid ∈ postings pending') : uid ∈ postings pending := by
  obtain ⟨posted, hmem⟩ := mem_postings.mp hm
  exact mem_postings.mpr ⟨posted, h.mem hmem⟩

/-- The numbers being posted stay different. -/
theorem NoPosting.nodup {pending pending' : List Callback} (h : NoPosting pending pending')
    (hn : (postings pending).Nodup) : (postings pending').Nodup := by
  obtain ⟨kept, more, rfl, hkept, hmore⟩ := h
  have hnil : more.filterMap posting = [] := List.filterMap_eq_nil_iff.mpr hmore
  rw [postings, List.filterMap_append, hnil, List.append_nil]
  exact (hkept.filterMap posting).nodup hn

/-- Effects that post no challenge add none. -/
theorem noPosting_emit {kept pending : List Callback} {effects : List Effect}
    (hkept : kept.Sublist pending)
    (h : ∀ effect ∈ effects, ∀ callback, effect.callback? = some callback →
      posting callback = none) :
    NoPosting pending (kept ++ effects.filterMap Effect.callback?) := by
  refine ⟨kept, _, rfl, hkept, ?_⟩
  intro callback hm
  obtain ⟨effect, he, hs⟩ := List.mem_filterMap.mp hm
  exact h effect he callback hs

/-- A callback that runs adds no challenge. -/
theorem noPosting_erase (pending : List Callback) (callback : Callback) :
    NoPosting pending (pending.erase callback) :=
  ⟨_, [], (List.append_nil _).symm, List.erase_sublist, by simp⟩

/-- A callback that posts a challenge is awaited once. -/
theorem not_posting_erase {pending : List Callback} {uid : ℕ} {posted : Message}
    (h : .created uid posted ∈ pending) (hn : (postings pending).Nodup) :
    uid ∉ postings (pending.erase (.created uid posted)) := by
  have hperm := (List.perm_cons_erase h).filterMap posting
  have hnodup : (uid :: postings (pending.erase (.created uid posted))).Nodup :=
    hperm.nodup_iff.mp hn
  exact (List.nodup_cons.mp hnodup).1

/-- The stored challenge message of a session shows its confirm buttons. -/
structure OriginButtons (s : Session) : Prop where
  /-- There are no other buttons. -/
  buttons : ButtonsOf s s.ttt.origin
  /-- There is no message id before the message is stored. -/
  missing : s.ttt.haveOrigin = false → s.ttt.origin.id = 0

/-- Confirm buttons are shown on the challenge message of their session. -/
structure Displayed (w : World) : Prop where
  /-- Shown confirm buttons carry drawn numbers. -/
  drawn : ∀ shown ∈ shows w, Drawn w.nextID shown.2
  /-- The buttons of a listed session are shown on its own message. -/
  own : ∀ shown ∈ shows w, shown.1 ≠ 0 → ∀ s ∈ w.tttListG, Offers s shown.2 →
    shown.1 = s.ttt.origin.id
  /-- The stored messages show the buttons of their sessions. -/
  origin : ∀ s ∈ w.tttListG, OriginButtons s
  /-- A challenge that is being posted has drawn numbers. -/
  posted : ∀ uid posted, .created uid posted ∈ w.pending →
    Drawn w.nextID posted ∧ uid ≤ w.nextID
  /-- It carries the buttons of one session. -/
  addressee : ∀ uid posted, .created uid posted ∈ w.pending → ∀ s ∈ w.tttListG,
    Offers s posted → s.ttt.uid = uid
  /-- That session has no stored message and no other buttons. -/
  waited : ∀ uid posted, .created uid posted ∈ w.pending → ∀ s ∈ w.tttListG,
    s.ttt.uid = uid → s.ttt.haveOrigin = false ∧ ButtonsOf s posted
  /-- A challenge is posted once. -/
  single : (postings w.pending).Nodup

/-- In the beginning nothing is shown. -/
theorem displayed_init : Displayed World.init := by
  refine ⟨?_, ?_, ?_, ?_, ?_, ?_, List.nodup_nil⟩ <;> simp [World.init, shows]

/-- Nothing is shown that touches a listed session, and no session is new or
changed. -/
theorem Displayed.keep (h : Displayed w) (hid : w'.nextID = w.nextID)
    (hlist : w'.tttListG ⊆ w.tttListG) (hpending : NoPosting w.pending w'.pending)
    (hshows : ∀ shown ∈ shows w', shown ∈ shows w ∨
      Drawn w.nextID shown.2 ∧ ∀ s ∈ w.tttListG, ¬ Offers s shown.2) : Displayed w' := by
  refine ⟨?_, ?_, fun s hs => h.origin s (hlist hs), ?_, ?_, ?_, hpending.nodup h.single⟩
  · intro shown hm
    rw [hid]
    rcases hshows shown hm with ho | hn
    · exact h.drawn shown ho
    · exact hn.1
  · intro shown hm hne s hs hoffers
    rcases hshows shown hm with ho | hn
    · exact h.own shown ho hne s (hlist hs) hoffers
    · exact absurd hoffers (hn.2 s (hlist hs))
  · intro uid posted hm
    rw [hid]
    exact h.posted uid posted (hpending.mem hm)
  · exact fun uid posted hm s hs => h.addressee uid posted (hpending.mem hm) s (hlist hs)
  · exact fun uid posted hm s hs => h.waited uid posted (hpending.mem hm) s (hlist hs)

/-- One session is changed, and what is shown in addition has no confirm
buttons or is its own challenge message. -/
theorem Displayed.replace {pre post : List Session} (h : Displayed w) (hi : Inv w)
    (hl : w.tttListG = pre ++ s :: post) (hl' : w'.tttListG = pre ++ s' :: post)
    (hk : Kin s s') (hid : w.nextID ≤ w'.nextID) (horigin : OriginButtons s')
    (hmoved : s'.ttt.origin.id = s.ttt.origin.id ∨ s.ttt.haveOrigin = false)
    (hhave : s'.ttt.haveOrigin = s.ttt.haveOrigin ∨ s.ttt.uid ∉ postings w'.pending)
    (hpending : NoPosting w.pending w'.pending)
    (hshows : ∀ shown ∈ shows w', shown ∈ shows w ∨ Plain shown.2 ∨
      shown.1 = s'.ttt.origin.id ∧ ButtonsOf s shown.2) : Displayed w' := by
  obtain ⟨hs, hrest⟩ := hi.focus hl
  have hoffers : ∀ message, Offers s' message ↔ Offers s message := by
    intro message
    simp only [Offers, hk.btnId]
  have hold : ∀ {p : Session → Prop}, (∀ t ∈ w.tttListG, p t) → p s ∧ ∀ t ∈ pre ++ post, p t := by
    intro p hp
    rw [hl] at hp
    exact forall_entry.mp hp
  refine ⟨?_, ?_, ?_, ?_, ?_, ?_, hpending.nodup h.single⟩
  · intro shown hm n hn
    rcases hshows shown hm with ho | hp | hb
    · exact (h.drawn shown ho n hn).trans hid
    · exact hp.drawn _ n hn
    · exact (hb.2.drawn hs.btnId hs.drawn n hn).trans hid
  · intro shown hm hne
    rw [hl']
    refine forall_entry.mpr ⟨fun hof => ?_, fun t ht hof => ?_⟩
    · rw [hoffers] at hof
      rcases hshows shown hm with ho | hp | hb
      · have hown := (hold (h.own shown ho hne)).1 hof
        rcases hmoved with hsame | hno
        · exact hown.trans hsame.symm
        · rw [(hold h.origin).1.missing hno] at hown
          exact absurd hown hne
      · exact absurd hof (hp.not_offers hs)
      · exact hb.1
    · rcases hshows shown hm with ho | hp | hb
      · exact (hold (h.own shown ho hne)).2 t ht hof
      · exact absurd hof (hp.not_offers (hrest t ht).1)
      · exact absurd (hrest t ht).2.stamps (offers_unique hof hb.2 hs.btnId (hrest t ht).1.btnId)
  · rw [hl']
    exact forall_entry.mpr ⟨horigin, (hold h.origin).2⟩
  · intro uid posted hm
    obtain ⟨hd, hu⟩ := h.posted uid posted (hpending.mem hm)
    exact ⟨fun n hn => (hd n hn).trans hid, hu.trans hid⟩
  · intro uid posted hm
    have hall := hold (h.addressee uid posted (hpending.mem hm))
    rw [hl']
    refine forall_entry.mpr ⟨fun hof => ?_, hall.2⟩
    rw [hk.uid]
    exact hall.1 ((hoffers posted).mp hof)
  · intro uid posted hm
    have hall := hold (h.waited uid posted (hpending.mem hm))
    rw [hl']
    refine forall_entry.mpr ⟨fun hu => ?_, hall.2⟩
    rw [hk.uid] at hu
    obtain ⟨hno, hb⟩ := hall.1 hu
    rcases hhave with hsame | hgone
    · rw [hsame]
      refine ⟨hno, ?_⟩
      unfold ButtonsOf
      rw [hk.btnId]
      exact hb
    · refine absurd (mem_postings.mpr ⟨posted, ?_⟩) hgone
      rw [hu]
      exact hm

/-- A new challenge has new buttons. -/
theorem displayed_challenge (h : Displayed w) (hi : Inv w) (incoming : Incoming)
    (mentioned : Snowflake) (order : DrawOrder) :
    Displayed (w.challenge incoming mentioned order) := by
  obtain ⟨hf, hnext⟩ := newSession_fresh w order incoming.author mentioned
  unfold World.challenge
  generalize newSession order incoming.author mentioned w.nextID w.nextNode = pushed at hf hnext
  obtain ⟨s, nextID⟩ := pushed
  dsimp only at hf hnext ⊢
  subst hnext
  have hbtn : s.confirm.btnId = buttonIds s.confirm.id := by
    rw [hf.confirm]
    rfl
  have hbuttons := hf.customIds incoming
  have hboth : ButtonsOf s (challengeMessage incoming s) := by
    simp [ButtonsOf, hbuttons]
  have hnew : ∀ n ∈ stamps s, w.nextID < n := fun n hn => (hf.new n hn).1
  have horigin : s.ttt.origin = {} ∧ s.ttt.haveOrigin = false := by
    rw [hf.ttt]
    exact ⟨rfl, rfl⟩
  have huid : s.ttt.uid ∈ stamps s := by simp [stamps]
  have hshows : ∀ shown, shown ∈ shows ({ w with
      nextID := w.nextID + 3
      nextNode := w.nextNode + 1
      tttListG := w.tttListG ++ [s] }.emit [.messageCreate (challengeMessage incoming s)
        (.created s.ttt.uid (challengeMessage incoming s))]) ↔ shown ∈ shows w := by
    intro shown
    rw [mem_shows_emit]
    simp [shows?, shows]
  have hpending : ∀ uid posted, .created uid posted ∈ w.pending ++
      [.created s.ttt.uid (challengeMessage incoming s)] → .created uid posted ∈ w.pending ∨
        uid = s.ttt.uid ∧ posted = challengeMessage incoming s := by
    intro uid posted hm
    simpa using hm
  have hlast : ∀ {p : Session → Prop}, (∀ t ∈ w.tttListG, p t) → p s →
      ∀ t ∈ w.tttListG ++ [s], p t := fun hall hself =>
    List.forall_mem_append.mpr ⟨hall, List.forall_mem_singleton.mpr hself⟩
  refine ⟨?_, ?_, hlast h.origin ?_, ?_, ?_, ?_, ?_⟩
  · intro shown hm n hn
    exact (h.drawn shown ((hshows shown).mp hm) n hn).trans (Nat.le_add_right _ _)
  · intro shown hm hne
    refine hlast (h.own shown ((hshows shown).mp hm) hne) ?_
    exact fun hof => absurd hof ((h.drawn shown ((hshows shown).mp hm)).not_offers hbtn hnew)
  · refine ⟨?_, fun _ => ?_⟩
    · simp [ButtonsOf, horigin.1, Message.customIds]
    · rw [horigin.1]
  · intro uid posted hm
    rcases hpending uid posted hm with ho | ⟨rfl, rfl⟩
    · obtain ⟨hd, hu⟩ := h.posted uid posted ho
      exact ⟨fun n hn => (hd n hn).trans (Nat.le_add_right _ _), hu.trans (Nat.le_add_right _ _)⟩
    · exact ⟨hboth.drawn hbtn fun n hn => (hf.new n hn).2, (hf.new _ huid).2⟩
  · intro uid posted hm
    rcases hpending uid posted hm with ho | ⟨rfl, rfl⟩
    · refine hlast (h.addressee uid posted ho) ?_
      exact fun hof => absurd hof ((h.posted uid posted ho).1.not_offers hbtn hnew)
    · refine hlast (fun t ht hof => ?_) fun _ => rfl
      have ht' := hi.sessions t ht
      refine absurd ?_ (offers_unique hof hboth hbtn ht'.btnId)
      exact fun n hn hold => absurd (ht'.drawn n hold) (not_le.mpr (hnew n hn))
  · intro uid posted hm
    rcases hpending uid posted hm with ho | ⟨rfl, rfl⟩
    · refine hlast (h.waited uid posted ho) fun hu => ?_
      have hle := (h.posted uid posted ho).2
      have hlt := hnew _ huid
      omega
    · refine hlast (fun t ht hu => ?_) fun _ => ⟨?_, hboth⟩
      · have hle := (hi.sessions t ht).drawn t.ttt.uid (by simp [stamps])
        have hlt := hnew _ huid
        omega
      · exact horigin.2
  · have hall : postings (w.pending ++ [.created s.ttt.uid (challengeMessage incoming s)]) =
        postings w.pending ++ [s.ttt.uid] := List.filterMap_append
    simp only [World.emit, List.filterMap_cons, Effect.callback?, List.filterMap_nil]
    rw [hall]
    refine h.single.append (List.nodup_singleton _) (List.disjoint_singleton.mpr fun hm => ?_)
    obtain ⟨posted, hposted⟩ := mem_postings.mp hm
    exact absurd (h.posted _ posted hposted).2 (not_le.mpr (hnew _ huid))

/-- What an accepted answer shows: the challenge message again, or the new
board. -/
theorem accept_shows {player : Player} {nextID : ℕ} (hgame : s.ttt.game.customIds = []) :
    ∀ effect ∈ (accept click player nextID s).2.2, ∀ shown, shows? effect = some shown →
      Plain shown.2 ∨ shown.2.customIds = s.ttt.origin.customIds ∧
        (shown.1 = s.ttt.origin.id ∨
          click.customId = s.confirm.btnId.1 ∧ shown.1 = click.messageId) := by
  unfold accept
  split_ifs with hy ho
  · simp [shows?]
  · intro effect hm shown hs
    simp only [List.mem_cons, List.not_mem_nil, or_false] at hm
    rcases hm with rfl | rfl | rfl | rfl
    · cases hs
    · cases hs
    · cases hs
      exact Or.inr ⟨rfl, Or.inr ⟨hy, rfl⟩⟩
    · cases hs
      refine Or.inl ?_
      have hflag : (s.flag player).ttt.game.customIds = [] := hgame
      have hids := start_started nextID (s := s.flag player)
        (flag_all (Bool.eq_true_of_not_eq_false ho))
      refine plain_board hids.ids ?_
      rw [start_customIds, hflag, List.nil_append]
  · intro effect hm shown hs
    rcases List.mem_append.mp hm with hm | hm
    · simp only [List.mem_cons, List.not_mem_nil, or_false] at hm
      rcases hm with rfl | rfl
      · cases hs
      · cases hs
        exact Or.inr ⟨rfl, Or.inl rfl⟩
    · split_ifs at hm
      · cases List.mem_singleton.mp hm
        cases hs
      · cases hm

/-- An accepted answer leaves the challenge message in its place. -/
theorem accept_origin (click : Click) (player : Player) (nextID : ℕ) (s : Session) :
    (accept click player nextID s).1.ttt.origin.customIds = s.ttt.origin.customIds ∧
      (accept click player nextID s).1.ttt.haveOrigin = s.ttt.haveOrigin := by
  unfold accept
  split_ifs <;> exact ⟨rfl, rfl⟩

/-- A later state of a session with the same challenge message has the same
buttons on it. -/
theorem OriginButtons.congr (h : OriginButtons s) (hk : Kin s s')
    (hids : s'.ttt.origin.customIds = s.ttt.origin.customIds)
    (hid : s'.ttt.origin.id = s.ttt.origin.id)
    (hhave : s'.ttt.haveOrigin = s.ttt.haveOrigin) : OriginButtons s' := by
  refine ⟨?_, ?_⟩
  · unfold ButtonsOf
    rw [hids, hk.btnId]
    exact h.buttons
  · rw [hhave, hid]
    exact h.missing

/-- A message of the board handler shows the board. -/
theorem moveEffects_shows {node nextID : ℕ} {t : Game} (h : Numbered nextID t.board) :
    ∀ effect ∈ moveEffects click node t, ∀ shown, shows? effect = some shown →
      Plain shown.2 := by
  intro effect hm shown hs
  simp only [moveEffects, List.mem_cons, List.not_mem_nil, or_false] at hm
  rcases hm with rfl | rfl
  · cases hs
  · cases hs
    refine plain_board h ?_
    rw [fetchTttTurn_customIds]
    rfl

/-- A warning shows no message. -/
theorem warning_shows {effect : Effect} (h : Warning effect) : shows? effect = none := by
  cases h <;> rfl

/-- A warning posts no challenge. -/
theorem warning_posting {effect : Effect} (h : Warning effect) :
    ∀ callback, effect.callback? = some callback → posting callback = none := by
  intro callback hs
  cases h <;> cases hs <;> rfl

/-- An answer posts no challenge. -/
theorem accept_posting {player : Player} {nextID : ℕ} :
    ∀ effect ∈ (accept click player nextID s).2.2, ∀ callback,
      effect.callback? = some callback → posting callback = none := by
  intro effect hm callback hs
  unfold accept at hm
  split_ifs at hm
  · simp only [List.mem_cons, List.not_mem_nil, or_false] at hm
    rcases hm with rfl | rfl <;> cases hs
    rfl
  · simp only [List.mem_cons, List.not_mem_nil, or_false] at hm
    rcases hm with rfl | rfl | rfl | rfl <;> cases hs <;> rfl
  · rcases List.mem_append.mp hm with hm | hm
    · simp only [List.mem_cons, List.not_mem_nil, or_false] at hm
      rcases hm with rfl | rfl <;> cases hs
      rfl
    · split_ifs at hm
      · cases List.mem_singleton.mp hm
        cases hs
      · cases hm

/-- A click on a shown button keeps the buttons in their places when its
answer is accepted. -/
theorem displayed_accepted {player : Player} {pre post : List Session} (h : Displayed w)
    (hw : Reached w) (hc : Shown w click) (hacc : Accepts w click player pre s post) :
    Displayed ({ w with
      nextID := (accept click player w.nextID s).2.1
      tttListG := pre ++ (accept click player w.nextID s).1 :: post }.emit
      ((accept click player w.nextID s).2.2 ++ warnings click post)) := by
  have hmem := hacc.mem
  obtain ⟨hs, -⟩ := hw.inv.focus hacc.list
  have hl := listed_reached hw hmem
  have hgame : s.ttt.game.customIds = [] := by
    rw [hl.plain fun hinit => hl.begun hinit (congrArg Prod.fst (accepts_waiting hacc hs).turn)]
    simp [Message.customIds, hl.blank]
  obtain ⟨hids, hhave⟩ := accept_origin click player w.nextID s
  have hkin := accept_kin click player w.nextID s
  have horigin := (accept_ids click player w.nextID s).2
  refine h.replace hw.inv hacc.list rfl hkin (accept_nextID_le _ _ _ _)
    ((h.origin s hmem).congr hkin hids horigin hhave) (Or.inl horigin) (Or.inl hhave)
    (noPosting_emit (List.Sublist.refl _) ?_) ?_
  · refine List.forall_mem_append.mpr ⟨accept_posting, ?_⟩
    exact fun effect he => warning_posting (warning_of_mem_warnings effect he)
  · intro shown hm
    rcases mem_shows_emit.mp hm with ho | ⟨effect, he, hs'⟩
    · exact Or.inl ho
    · rcases List.mem_append.mp he with he | he
      · rcases accept_shows hgame effect he shown hs' with hp | ⟨hsame, hid⟩
        · exact Or.inr (Or.inl hp)
        · have hb : ButtonsOf s shown.2 := by
            unfold ButtonsOf
            rw [hsame]
            exact (h.origin s hmem).buttons
          refine Or.inr (Or.inr ⟨?_, hb⟩)
          rw [horigin]
          rcases hid with hid | ⟨hy, hid⟩
          · exact hid
          · -- the YES was shown on the challenge message
            obtain ⟨known, hknown, hk, hin⟩ := hc
            rw [hid, ← hk]
            refine h.own known hknown (hk ▸ click.messageIssued) s hmem (Or.inl ?_)
            rw [← hy]
            exact hin
      · rw [warning_shows (warning_of_mem_warnings effect he)] at hs'
        cases hs'

/-- A move or a passed turn shows the board. -/
theorem displayed_turn {pre post : List Session} {effects : List Effect} (h : Displayed w)
    (hi : Inv w) (hl : w.tttListG = pre ++ s :: post) (hk : Kin s s')
    (horigin : s'.ttt.origin = s.ttt.origin) (hhave : s'.ttt.haveOrigin = s.ttt.haveOrigin)
    (hshows : ∀ effect ∈ effects, ∀ shown, shows? effect = some shown → Plain shown.2)
    (hposting : ∀ effect ∈ effects, ∀ callback, effect.callback? = some callback →
      posting callback = none) :
    Displayed ({ w with tttListG := pre ++ s' :: post }.emit effects) := by
  have hmem := mem_of_split hl
  refine h.replace hi hl rfl hk le_rfl
    ((h.origin s hmem).congr hk (by rw [horigin]) (by rw [horigin]) hhave)
    (Or.inl (by rw [horigin])) (Or.inl hhave) (noPosting_emit (List.Sublist.refl _) hposting) ?_
  intro shown hm
  rcases mem_shows_emit.mp hm with ho | ⟨effect, he, hs⟩
  · exact Or.inl ho
  · exact Or.inr (Or.inl (hshows effect he shown hs))

/-- A move posts no challenge. -/
theorem moveEffects_posting {node : ℕ} {t : Game} :
    ∀ effect ∈ moveEffects click node t, ∀ callback, effect.callback? = some callback →
      posting callback = none := by
  intro effect hm callback hs
  simp only [moveEffects, List.mem_cons, List.not_mem_nil, or_false] at hm
  rcases hm with rfl | rfl <;> cases hs
  rfl

/-- Every change keeps the buttons in their places when the clicks are made
on shown buttons. -/
theorem displayed_change {p : Part} (h : Displayed w) (hw : Reached w)
    (hc : Within ClicksShown w p) (hch : Change w p w') : Displayed w' := by
  have hi := hw.inv
  cases hch with
  | quiet hwarn =>
    refine h.keep rfl (List.Subset.refl _) (noPosting_emit (List.Sublist.refl _)
      fun effect he => warning_posting (hwarn effect he)) ?_
    intro shown hm
    rcases mem_shows_emit.mp hm with ho | ⟨effect, he, hs⟩
    · exact Or.inl ho
    · rw [warning_shows (hwarn effect he)] at hs
      cases hs
  | challenged hself => exact displayed_challenge h hi _ _ _
  | accepted hacc => exact displayed_accepted h hw hc hacc
  | @played click square pre s post hturn hsq hidle =>
    refine displayed_turn h hi hturn.list (move_kin s square) (by simp [Game.move, Game.setStatus])
      (by simp [Game.move, Game.setStatus]) ?_ ?_
    · refine List.forall_mem_cons.mpr ⟨fun shown hs => (by cases hs), ?_⟩
      exact moveEffects_shows (started_move hturn.started square).ids
    · exact List.forall_mem_cons.mpr ⟨fun callback hs => (by cases hs), moveEffects_posting⟩
  | @strayed click pre s post hturn hsq =>
    exact displayed_turn h hi hturn.list (pass_kin s) (by simp) (by simp)
      (moveEffects_shows (started_pass hturn.started).ids) moveEffects_posting
  | dropped hcb hidle =>
    exact h.keep rfl (List.Subset.refl _) (noPosting_erase _ _) fun _ hm => Or.inl hm
  | @received callback deployment message hcb hfresh hmessage horphan =>
    refine h.keep rfl (List.Subset.refl _) (noPosting_erase _ _) fun shown hm => ?_
    rcases mem_shows_receive.mp hm with rfl | ho
    · refine Or.inr ?_
      cases callback with
      | created uid posted =>
        cases hmessage
        refine ⟨(h.posted uid _ hcb).1, fun s hs hof => ?_⟩
        have huid := h.addressee uid _ hcb s hs hof
        have hhave := horphan s hs huid
        rw [(h.waited uid _ hcb s hs huid).1] at hhave
        cases hhave
      | originalResponse click node =>
        cases hmessage
        have hplain : Plain ((confirmedReply click).deployed deployment) := plain_of_nil rfl
        exact ⟨hplain.drawn _, fun s hs => hplain.not_offers (hi.sessions s hs)⟩
      | _ => cases hmessage
    · exact Or.inl ho
  | @originSet uid posted deployment pre s post hcb hfresh hl huid hno =>
    have hmem := mem_of_split hl
    have hb : ButtonsOf s posted := (h.waited uid posted hcb s hmem huid.symm).2
    refine h.replace hi hl rfl (setOrigin_kin s _) le_rfl
      ⟨hb, fun hn => by cases hn⟩ (Or.inr hno) (Or.inr ?_) (noPosting_erase _ _) ?_
    · rw [← huid]
      exact not_posting_erase hcb h.single
    · intro shown hm
      rcases mem_shows_receive.mp hm with rfl | ho
      · exact Or.inr (Or.inr ⟨rfl, hb⟩)
      · exact Or.inl ho
  | @asked click node response hcb =>
    refine h.keep rfl (List.Subset.refl _) (noPosting_emit List.erase_sublist ?_) fun shown hm => ?_
    · intro effect he callback hs
      cases List.mem_singleton.mp he
      cases hs
      rfl
    · rcases mem_shows_emit.mp hm with ho | ⟨effect, he, hs⟩
      · exact Or.inl ho
      · cases List.mem_singleton.mp he
        cases hs
  | @stored click deployment pre s post hcb hfresh hl =>
    have hmem := mem_of_split hl
    refine h.replace hi hl rfl (store_kin s _) le_rfl
      ((h.origin s hmem).congr (store_kin s _) rfl rfl rfl) (Or.inl rfl)
      (Or.inl rfl) (noPosting_erase _ _) fun shown hm => ?_
    rcases mem_shows_receive.mp hm with rfl | ho
    · exact Or.inr (Or.inl (plain_of_nil rfl))
    · exact Or.inl ho
  | @announced click deployment pre s post embed hcb hl hr =>
    have hmem := mem_of_split hl
    refine h.replace hi hl rfl (setOriginEmbed_kin s _) le_rfl
      ((h.origin s hmem).congr (setOriginEmbed_kin s _) rfl rfl rfl) (Or.inl rfl)
      (Or.inl rfl) (noPosting_emit List.erase_sublist ?_) fun shown hm => ?_
    · intro effect he callback hs
      simp only [List.mem_cons, List.not_mem_nil, or_false] at he
      rcases he with rfl | rfl <;> cases hs <;> rfl
    · rcases mem_shows_emit.mp hm with ho | ⟨effect, he, hs⟩
      · exact Or.inl ho
      · simp only [List.mem_cons, List.not_mem_nil, or_false] at he
        rcases he with rfl | rfl <;> cases hs
        exact Or.inr (Or.inr ⟨rfl, (h.origin s hmem).buttons⟩)
  | @erased deployment pre s post hcb hl =>
    refine h.keep rfl ?_ (noPosting_erase _ _) fun _ hm => Or.inl hm
    intro t ht
    rw [hl]
    exact mem_entry.mpr (Or.inr ht)

/-- Confirm buttons are shown on the challenge message of their session in
every run whose clicks are made on shown buttons. -/
theorem displayed_run {events : List Event}
    (h : Along World.step ClicksShown World.init events) : Displayed (run events) := by
  rw [run_eq_parts]
  exact invariant_along reached_init (along_parts reached_init h) displayed_init
    fun w p hw hc hd => displayed_change hd hw hc (part_change hw.inv p)

end TintempPlusPlus.Display
