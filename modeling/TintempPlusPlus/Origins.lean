import TintempPlusPlus.Identifiers
import TintempPlusPlus.Display

/-!
# Every challenge gets its own message

The message of a challenge is attached to the stored session by its uid in a
callback that may run at any later time. Uids are never shared, a challenge
is posted once, and the callback writes a session once, so the origin of a
session is the message that was posted for it.
-/

namespace TintempPlusPlus.Origins

open Discord UniqueID Ttt Handlers ScanLoop Play HandlerLaws Program OneEntry EventRuns Invariant
  Steps Reachable Views Lives Histories Identifiers Display

/-- The message was posted by the command that created the session. -/
def PostedFor (events : List Event) (s : Session) (posted : Message) : Prop :=
  ∃ before message order behind opponent, events = before ++ .command message order :: behind ∧
    run (before ++ [.command message order]) = (run before).challenge message opponent order ∧
    (run before).nextNode = s.node ∧
    posted = challengeMessage message
      (newSession order message.author opponent (run before).nextID (run before).nextNode).1

/-- The callback of the posted message has run successfully while the session
was in the list. -/
def StoredBy (events : List Event) (s : Session) (posted : Message) (deployment : Deployment) :
    Prop :=
  ∃ before behind,
    events = before ++ .callback (.created s.ttt.uid posted) (.success deployment) :: behind ∧
    (run before).admits (.created s.ttt.uid posted) (.success deployment) = true ∧
    ∃ t ∈ (run before).tttListG, t.node = s.node

/-- No origin is crossed. -/
structure OriginsApart (events : List Event) : Prop where
  /-- The flag tells that the callback of the very challenge has run while
  the session was in the list. -/
  flagged : ∀ s ∈ (run events).tttListG, s.ttt.haveOrigin = true ↔
    ∃ posted deployment, PostedFor events s posted ∧ StoredBy events s posted deployment
  /-- The origin is the message that was posted for that challenge. -/
  origin : ∀ s ∈ (run events).tttListG, s.ttt.haveOrigin = true →
    ∃ posted deployment, PostedFor events s posted ∧ StoredBy events s posted deployment ∧
      s.ttt.origin.id = deployment.id ∧ s.ttt.origin.channelId = deployment.channelId
  /-- The callback of a session that is not listed changes no session. -/
  unlisted : ∀ uid posted response, (∀ s ∈ (run events).tttListG, s.ttt.uid ≠ uid) →
    ((run events).step (.callback (.created uid posted) response)).tttListG =
      (run events).tttListG
  /-- Two callbacks give the same list in either order. -/
  commute : ∀ uid posted response uid' posted' response',
    Callback.created uid posted ≠ .created uid' posted' →
    (∀ d d', response = .success d → response' = .success d' → d.id ≠ d'.id) →
    (((run events).step (.callback (.created uid posted) response)).step
      (.callback (.created uid' posted') response')).tttListG =
    (((run events).step (.callback (.created uid' posted') response')).step
      (.callback (.created uid posted) response)).tttListG

/-- What holds of the challenges that have not been returned. -/
structure Outstanding (w : World) : Prop where
  /-- A challenge is posted once. -/
  single : (postings w.pending).Nodup
  /-- Its uid has been drawn. -/
  drawn : ∀ uid ∈ postings w.pending, uid ≤ w.nextID
  /-- The session has no origin yet. -/
  waited : ∀ uid ∈ postings w.pending, ∀ s ∈ w.tttListG, s.ttt.uid = uid →
    s.ttt.haveOrigin = false

variable {w w' : World} {node : ℕ} {s s' : Session}

/-- Nothing is posted, and no session loses what it waits for. -/
theorem Outstanding.keep (h : Outstanding w) (hid : w.nextID ≤ w'.nextID)
    (hpending : NoPosting w.pending w'.pending)
    (hlist : ∀ s' ∈ w'.tttListG, ∃ s ∈ w.tttListG, s.ttt.uid = s'.ttt.uid ∧
      (s'.ttt.haveOrigin = s.ttt.haveOrigin ∨ s'.ttt.uid ∉ postings w'.pending)) :
    Outstanding w' := by
  refine ⟨hpending.nodup h.single, ?_, ?_⟩
  · exact fun uid hm => (h.drawn uid (hpending.subset hm)).trans hid
  · intro uid hm s' hs' huid
    obtain ⟨s, hs, hsame, hhave | hgone⟩ := hlist s' hs'
    · rw [hhave]
      exact h.waited uid (hpending.subset hm) s hs (hsame.trans huid)
    · exact absurd (huid ▸ hm) hgone

/-- A changed session keeps its uid and its flag. -/
theorem replaced_uid {pre post : List Session} (hl : w.tttListG = pre ++ s :: post)
    (hl' : w'.tttListG = pre ++ s' :: post) (huid : s'.ttt.uid = s.ttt.uid)
    (hhave : s'.ttt.haveOrigin = s.ttt.haveOrigin ∨ s'.ttt.uid ∉ postings w'.pending) :
    ∀ t' ∈ w'.tttListG, ∃ t ∈ w.tttListG, t.ttt.uid = t'.ttt.uid ∧
      (t'.ttt.haveOrigin = t.ttt.haveOrigin ∨ t'.ttt.uid ∉ postings w'.pending) := by
  rw [hl, hl']
  intro t ht
  rcases mem_entry.mp ht with rfl | ht
  · exact ⟨s, List.mem_append_cons_self, huid.symm, hhave⟩
  · exact ⟨t, mem_entry.mpr (Or.inr ht), rfl, Or.inl rfl⟩

/-- A change posts a challenge or posts nothing. -/
theorem change_posting {p : Part} (h : Change w p w') : NoPosting w.pending w'.pending ∨
    ∃ message order opponent, p = .command message order ∧
      w' = w.challenge message opponent order := by
  have hemit : ∀ {effects : List Effect}, (∀ effect ∈ effects, ∀ callback,
      effect.callback? = some callback → posting callback = none) →
      NoPosting w.pending (w.pending ++ effects.filterMap Effect.callback?) :=
    noPosting_emit (List.Sublist.refl _)
  cases h with
  | quiet hwarn => exact Or.inl (hemit fun effect he => warning_posting (hwarn effect he))
  | challenged => exact Or.inr ⟨_, _, _, rfl, rfl⟩
  | accepted hacc =>
    refine Or.inl (hemit (List.forall_mem_append.mpr ⟨accept_posting, ?_⟩))
    exact fun effect he => warning_posting (warning_of_mem_warnings effect he)
  | played hturn hsq hidle =>
    refine Or.inl (hemit (List.forall_mem_cons.mpr ⟨?_, moveEffects_posting⟩))
    exact fun callback hs => by cases hs
  | strayed hturn hsq => exact Or.inl (hemit moveEffects_posting)
  | asked hcb =>
    refine Or.inl (noPosting_emit List.erase_sublist fun effect he callback hs => ?_)
    cases List.mem_singleton.mp he
    cases hs
    rfl
  | announced hcb hl hr =>
    refine Or.inl (noPosting_emit List.erase_sublist fun effect he callback hs => ?_)
    simp only [List.mem_cons, List.not_mem_nil, or_false] at he
    rcases he with rfl | rfl <;> cases hs <;> rfl
  | dropped => exact Or.inl (noPosting_erase _ _)
  | received => exact Or.inl (noPosting_erase _ _)
  | originSet => exact Or.inl (noPosting_erase _ _)
  | stored => exact Or.inl (noPosting_erase _ _)
  | erased => exact Or.inl (noPosting_erase _ _)

/-- A new challenge is posted under a new uid. -/
theorem outstanding_challenge (h : Outstanding w) (hi : Inv w) (message : Incoming)
    (opponent : Snowflake) (order : DrawOrder) :
    Outstanding (w.challenge message opponent order) := by
  obtain ⟨hf, hnext⟩ := newSession_fresh w order message.author opponent
  unfold World.challenge
  generalize newSession order message.author opponent w.nextID w.nextNode = pushed at hf hnext
  obtain ⟨s, nextID⟩ := pushed
  dsimp only at hf hnext ⊢
  subst hnext
  have hnew := hf.new s.ttt.uid (by simp [stamps])
  have hall : postings (w.pending ++ [.created s.ttt.uid (challengeMessage message s)]) =
      postings w.pending ++ [s.ttt.uid] := List.filterMap_append
  refine ⟨?_, ?_, ?_⟩ <;>
    simp only [World.emit, List.filterMap_cons, Effect.callback?, List.filterMap_nil, hall]
  · refine h.single.append (List.nodup_singleton _) (List.disjoint_singleton.mpr fun hm => ?_)
    have hle := h.drawn _ hm
    omega
  · refine List.forall_mem_append.mpr ⟨fun uid hm => ?_, List.forall_mem_singleton.mpr hnew.2⟩
    have hle := h.drawn uid hm
    omega
  · intro uid hm t ht hu
    rcases List.mem_append.mp ht with hold | hlast
    · rcases List.mem_append.mp hm with hm | hm
      · exact h.waited uid hm t hold hu
      · have hle := (hi.sessions t hold).drawn t.ttt.uid (by simp [stamps])
        rw [List.mem_singleton.mp hm] at hu
        omega
    · rw [List.mem_singleton.mp hlast, hf.ttt]

/-- Every change keeps the facts about outstanding challenges. -/
theorem outstanding_change {p : Part} (h : Outstanding w) (hi : Inv w) (hch : Change w p w') :
    Outstanding w' := by
  have hid := change_nextID hch
  have hpost := change_posting hch
  cases hch with
  | challenged => exact outstanding_challenge h hi _ _ _
  | @accepted click player pre s post hacc =>
    have hkeep := hpost.resolve_right (by rintro ⟨_, _, _, he, -⟩; cases he)
    exact h.keep hid hkeep (replaced_uid hacc.list rfl (accept_kin _ _ _ _).uid
      (Or.inl (accept_origin _ _ _ _).2))
  | @played click square pre s post hturn hsq hidle =>
    have hkeep := hpost.resolve_right (by rintro ⟨_, _, _, he, -⟩; cases he)
    exact h.keep hid hkeep (replaced_uid hturn.list rfl (move_kin s square).uid
      (Or.inl (by simp [Game.move, Game.setStatus])))
  | @strayed click pre s post hturn hsq =>
    have hkeep := hpost.resolve_right (by rintro ⟨_, _, _, he, -⟩; cases he)
    exact h.keep hid hkeep (replaced_uid hturn.list rfl (pass_kin s).uid (Or.inl (by simp)))
  | @originSet uid posted deployment pre s post hcb hfresh hl huid hno =>
    refine h.keep hid (noPosting_erase _ _) (replaced_uid hl rfl rfl (Or.inr ?_))
    have hgone : s.ttt.uid ∉ postings (w.pending.erase (.created uid posted)) := by
      rw [← huid]
      exact not_posting_erase hcb h.single
    exact hgone
  | @stored click deployment pre s post hcb hfresh hl =>
    exact h.keep hid (noPosting_erase _ _) (replaced_uid hl rfl rfl (Or.inl rfl))
  | @announced click deployment pre s post embed hcb hl hr =>
    have hkeep := hpost.resolve_right (by rintro ⟨_, _, _, he, -⟩; cases he)
    exact h.keep hid hkeep (replaced_uid hl rfl rfl (Or.inl rfl))
  | @erased deployment pre s post hcb hl =>
    refine h.keep hid (noPosting_erase _ _) fun t ht => ⟨t, ?_, rfl, Or.inl rfl⟩
    rw [hl]
    exact mem_entry.mpr (Or.inr ht)
  | quiet hwarn =>
    exact h.keep hid (noPosting_emit (List.Sublist.refl _) fun effect he =>
      warning_posting (hwarn effect he)) fun t ht => ⟨t, ht, rfl, Or.inl rfl⟩
  | dropped =>
    exact h.keep hid (noPosting_erase _ _) fun t ht => ⟨t, ht, rfl, Or.inl rfl⟩
  | received =>
    exact h.keep hid (noPosting_erase _ _) fun t ht => ⟨t, ht, rfl, Or.inl rfl⟩
  | asked =>
    have hkeep := hpost.resolve_right (by rintro ⟨_, _, _, he, -⟩; cases he)
    exact h.keep hid hkeep fun t ht => ⟨t, ht, rfl, Or.inl rfl⟩

/-- In every reached world the challenges that have not been returned are in
order. -/
theorem outstanding_reached (hw : Reached w) : Outstanding w := by
  refine invariant_reached (I := Outstanding) ?_
    (fun w p hw h => outstanding_change h hw.inv (part_change hw.inv p)) hw
  refine ⟨List.nodup_nil, ?_, ?_⟩ <;> simp [World.init, postings]

/-- What becomes of an origin at a listed session. -/
structure Follows (s t : Session) : Prop where
  /-- The uid stays. -/
  uid : t.ttt.uid = s.ttt.uid
  /-- A stored message stays in its place. -/
  stored : s.ttt.haveOrigin = true → t.ttt.haveOrigin = true ∧
    t.ttt.origin.id = s.ttt.origin.id ∧ t.ttt.origin.channelId = s.ttt.origin.channelId

/-- A session follows itself. -/
theorem Follows.refl (s : Session) : Follows s s := ⟨rfl, fun h => ⟨h, rfl, rfl⟩⟩

/-- What follows a follower follows the first one. -/
theorem Follows.trans {s t u : Session} (h : Follows s t) (h' : Follows t u) : Follows s u := by
  refine ⟨h'.uid.trans h.uid, fun hs => ?_⟩
  obtain ⟨ht, hid, hchannel⟩ := h.stored hs
  obtain ⟨hu, hid', hchannel'⟩ := h'.stored ht
  exact ⟨hu, hid'.trans hid, hchannel'.trans hchannel⟩

/-- What changes neither the uid nor the origin. -/
theorem follows_of_eq {s t : Session} (huid : t.ttt.uid = s.ttt.uid)
    (hhave : t.ttt.haveOrigin = s.ttt.haveOrigin) (hid : t.ttt.origin.id = s.ttt.origin.id)
    (hchannel : t.ttt.origin.channelId = s.ttt.origin.channelId) : Follows s t :=
  ⟨huid, fun hs => ⟨hhave.trans hs, hid, hchannel⟩⟩

/-- The callback of the challenge of a session runs. -/
def Stores (w : World) (p : Part) (s t : Session) : Prop :=
  ∃ posted deployment, p = .callback (.created s.ttt.uid posted) (.success deployment) ∧
    .created s.ttt.uid posted ∈ w.pending ∧ deployment.id ∉ w.issued ∧
    t.ttt.uid = s.ttt.uid ∧ t.ttt.haveOrigin = true ∧ t.ttt.origin.id = deployment.id ∧
    t.ttt.origin.channelId = deployment.channelId

/-- A touch of a listed session leaves its origin, or stores its message. -/
theorem touch_follows {p : Part} {v v' : View} (ht : Touch w node p v v')
    (hs : v.session = some s) (hs' : v'.session = some s') :
    (s'.ttt.haveOrigin = s.ttt.haveOrigin ∧ Follows s s') ∨
      (s.ttt.haveOrigin = false ∧ Stores w p s s') := by
  cases ht with
  | created => cases hs
  | dropped =>
    cases hs.symm.trans hs'
    exact Or.inl ⟨rfl, Follows.refl _⟩
  | asked =>
    cases hs.symm.trans hs'
    exact Or.inl ⟨rfl, Follows.refl _⟩
  | orphaned => cases hs
  | erased => cases hs'
  | played =>
    cases hs
    cases hs'
    refine Or.inl ⟨by simp [Game.move, Game.setStatus], follows_of_eq ?_ ?_ ?_ ?_⟩ <;>
      simp [Game.move, Game.setStatus]
  | strayed =>
    cases hs
    cases hs'
    exact Or.inl ⟨by simp, follows_of_eq (by simp) (by simp) (by simp) (by simp)⟩
  | @originSet uid posted deployment _ pending trace hcb hfresh hinv huid hno =>
    cases hs
    cases hs'
    subst huid
    exact Or.inr ⟨hno, posted, deployment, rfl, hcb, hfresh, rfl, rfl, rfl, rfl⟩
  | _ =>
    cases hs
    cases hs'
    exact Or.inl ⟨rfl, follows_of_eq rfl rfl rfl rfl⟩

/-- An origin is kept between two moments at which its session is listed. -/
theorem follows_between {before middle : List Event} (hs : s ∈ (run before).tttListG)
    (hs' : s' ∈ (run (before ++ middle)).tttListG) (hn : s'.node = s.node) : Follows s s' := by
  refine kept_between Follows.refl (fun _ _ _ => Follows.trans) ?_ hs hs' hn
  intro w node p t u pending trace pending' trace' _ ht
  rcases touch_follows ht rfl rfl with ⟨-, hf⟩ | ⟨hno, posted, deployment, -, -, -, huid, -⟩
  · exact hf
  · exact ⟨huid, fun hhave => by rw [hno] at hhave; cases hhave⟩

/-- A session has no origin when it is created. -/
theorem touch_born {p : Part} {v v' : View} (ht : Touch w node p v v')
    (hs : v.session = none) (hs' : v'.session = some s') : s'.ttt.haveOrigin = false := by
  cases ht with
  | created hf =>
    cases hs'
    rw [hf.ttt]
  | dropped => cases hs.symm.trans hs'
  | asked => cases hs.symm.trans hs'
  | orphaned => cases hs'
  | _ => cases hs

/-- A session with an origin had it before, or its message is stored now. -/
theorem origin_part (hw : Reached w) {p : Part} (hs' : s' ∈ (w.part p).tttListG)
    (hhave : s'.ttt.haveOrigin = true) : ∃ s ∈ w.tttListG, s.node = s'.node ∧
      (s.ttt.haveOrigin = true ∧ Follows s s' ∨ Stores w p s s') := by
  have hfind' := find_of_mem (reached_part hw p).inv hs'
  rcases change_view hw.inv (part_change hw.inv p) s'.node with hsame | htouch
  · have hfind : w.find s'.node = some s' := (congrArg View.session hsame).symm.trans hfind'
    exact ⟨s', (find_mem hfind).1, rfl, Or.inl ⟨hhave, Follows.refl s'⟩⟩
  · cases hfind : w.find s'.node with
    | none =>
      rw [touch_born htouch hfind hfind'] at hhave
      cases hhave
    | some s =>
      obtain ⟨hs, hn⟩ := find_mem hfind
      refine ⟨s, hs, hn, ?_⟩
      rcases touch_follows htouch hfind hfind' with ⟨hsame, hf⟩ | ⟨-, hstores⟩
      · exact Or.inl ⟨hsame.symm.trans hhave, hf⟩
      · exact Or.inr hstores

/-- The same for the events of a run. -/
theorem origin_step (hw : Reached w) {e : Event} (hs' : s' ∈ (w.step e).tttListG)
    (hhave : s'.ttt.haveOrigin = true) : ∃ s ∈ w.tttListG, s.node = s'.node ∧
      (s.ttt.haveOrigin = true ∧ Follows s s' ∨
        ∃ callback response, e = .callback callback response ∧
          Stores w (.callback callback response) s s') := by
  cases e with
  | command message order =>
    obtain ⟨s, hs, hn, hold | ⟨_, _, he, -⟩⟩ := origin_part hw (p := .command message order) hs' hhave
    · exact ⟨s, hs, hn, Or.inl hold⟩
    · cases he
  | callback callback response =>
    obtain ⟨s, hs, hn, hold | hnew⟩ := origin_part hw (p := .callback callback response) hs' hhave
    · exact ⟨s, hs, hn, Or.inl hold⟩
    · exact ⟨s, hs, hn, Or.inr ⟨callback, response, rfl, hnew⟩⟩
  | click click =>
    have hw' : Reached (w.confirmClick click) := reached_part hw (.confirm click)
    obtain ⟨t, ht, hn, ⟨hthave, hf⟩ | ⟨_, _, he, -⟩⟩ :=
      origin_part hw' (p := .board click) hs' hhave
    · obtain ⟨s, hs, hn', ⟨hshave, hf'⟩ | ⟨_, _, he, -⟩⟩ :=
        origin_part hw (p := .confirm click) ht hthave
      · exact ⟨s, hs, hn'.trans hn, Or.inl ⟨hshave, hf'.trans hf⟩⟩
      · cases he
    · cases he

/-- A posted challenge can be returned under a new id while its callback is
pending. -/
theorem admits_created {uid : ℕ} {posted : Message} {deployment : Deployment} :
    w.admits (.created uid posted) (.success deployment) = true ↔
      .created uid posted ∈ w.pending ∧ deployment.id ∉ w.issued := by
  simp [World.admits, Callback.message?]

/-- Whoever has an origin was stored by a callback of its challenge. -/
theorem stored_run (events : List Event) : ∀ s ∈ (run events).tttListG,
    s.ttt.haveOrigin = true → ∃ posted deployment, StoredBy events s posted deployment ∧
      s.ttt.origin.id = deployment.id ∧ s.ttt.origin.channelId = deployment.channelId := by
  induction events using List.reverseRecOn with
  | nil =>
    intro s hs
    cases hs
  | append_singleton events e ih =>
    intro s' hs' hhave
    rw [run_concat] at hs'
    obtain ⟨s, hs, hn, ⟨hshave, hf⟩ | ⟨callback, response, rfl, hstores⟩⟩ :=
      origin_step (reached_run events) hs' hhave
    · obtain ⟨posted, deployment, ⟨before, behind, rfl, hadmits, t, ht, htn⟩, hid, hchannel⟩ :=
        ih s hs hshave
      obtain ⟨-, hid', hchannel'⟩ := hf.stored hshave
      refine ⟨posted, deployment, ⟨before, behind ++ [e], ?_, ?_, t, ht, htn.trans hn⟩,
        hid'.trans hid, hchannel'.trans hchannel⟩
      · rw [hf.uid]
        simp
      · rwa [hf.uid]
    · obtain ⟨posted, deployment, hp, hmem, hfresh, huid, -, hid, hchannel⟩ := hstores
      cases hp
      refine ⟨posted, deployment, ⟨events, [], ?_, ?_, s, hs, hn⟩, hid, hchannel⟩
      · rw [huid]
      · rw [huid]
        exact admits_created.mpr ⟨hmem, hfresh⟩

/-- A pending challenge was pending before, or a command posts it now. -/
theorem posting_step (hw : Reached w) {e : Event} {uid : ℕ} {posted : Message}
    (h : .created uid posted ∈ (w.step e).pending) : .created uid posted ∈ w.pending ∨
      ∃ message order opponent, e = .command message order ∧
        w.step e = w.challenge message opponent order := by
  have hpart : ∀ {w : World}, Reached w → ∀ p, .created uid posted ∈ (w.part p).pending →
      .created uid posted ∈ w.pending ∨ ∃ message order opponent, p = .command message order ∧
        w.part p = w.challenge message opponent order := fun hw p hm =>
    (change_posting (part_change hw.inv p)).imp_left fun hno => hno.mem hm
  cases e with
  | command message order =>
    rcases hpart hw (.command message order) h with hold | ⟨m, o, opponent, he, hsame⟩
    · exact Or.inl hold
    · cases he
      exact Or.inr ⟨_, _, opponent, rfl, hsame⟩
  | callback callback response =>
    rcases hpart hw (.callback callback response) h with hold | ⟨_, _, _, he, -⟩
    · exact Or.inl hold
    · cases he
  | click click =>
    have hw' : Reached (w.confirmClick click) := reached_part hw (.confirm click)
    rcases hpart hw' (.board click) h with hold | ⟨_, _, _, he, -⟩
    · rcases hpart hw (.confirm click) hold with hold | ⟨_, _, _, he, -⟩
      · exact Or.inl hold
      · cases he
    · cases he

/-- A pending challenge was posted by a command, with the uid of the session
that the command added. -/
theorem posted_run (events : List Event) {uid : ℕ} {posted : Message}
    (h : .created uid posted ∈ (run events).pending) :
    ∃ before message order behind opponent, events = before ++ .command message order :: behind ∧
      run (before ++ [.command message order]) = (run before).challenge message opponent order ∧
      uid = (newSession order message.author opponent (run before).nextID
        (run before).nextNode).1.ttt.uid ∧
      posted = challengeMessage message
        (newSession order message.author opponent (run before).nextID (run before).nextNode).1 := by
  induction events using List.reverseRecOn with
  | nil => cases h
  | append_singleton events e ih =>
    rw [run_concat] at h
    by_cases hold : .created uid posted ∈ (run events).pending
    · obtain ⟨before, message, order, behind, opponent, rfl, hrun, huid, hposted⟩ := ih hold
      exact ⟨before, message, order, behind ++ [e], opponent, by simp, hrun, huid, hposted⟩
    · obtain ⟨message, order, opponent, rfl, hsame⟩ :=
        (posting_step (reached_run events) h).resolve_left hold
      have hlast : .created uid posted ∈ [Callback.created
          (newSession order message.author opponent (run events).nextID
            (run events).nextNode).1.ttt.uid
          (challengeMessage message (newSession order message.author opponent
            (run events).nextID (run events).nextNode).1)] := by
        rw [hsame] at h
        exact (List.mem_append.mp h).resolve_left hold
      simp only [List.mem_singleton, Callback.created.injEq] at hlast
      exact ⟨events, message, order, [], opponent, rfl, (run_concat _ _).trans hsame, hlast.1,
        hlast.2⟩

/-- A stored message was posted for the session that stores it. -/
theorem postedFor_of_stored {events : List Event} (hs : s ∈ (run events).tttListG)
    {posted : Message} {deployment : Deployment} (h : StoredBy events s posted deployment) :
    PostedFor events s posted := by
  obtain ⟨before, behind, rfl, hadmits, -⟩ := h
  obtain ⟨front, message, order, back, opponent, rfl, hrun, huid, hposted⟩ :=
    posted_run before (admits_created.mp hadmits).1
  have hsplit : ∀ rest, front ++ .command message order :: back ++ rest =
      front ++ .command message order :: (back ++ rest) := fun rest => by simp
  refine ⟨front, message, order, _, opponent, hsplit _, hrun, ?_, hposted⟩
  obtain ⟨hf, -⟩ := newSession_fresh (run front) order message.author opponent
  generalize hpushed : (newSession order message.author opponent (run front).nextID
    (run front).nextNode).1 = pushed at hf huid
  have hmem : pushed ∈ (run (front ++ [.command message order])).tttListG := by
    rw [hrun, ← hpushed]
    exact List.mem_append_right _ (List.mem_singleton_self _)
  rw [← hf.node]
  have hfirst : Appears (front ++ .command message order :: back ++
      .callback (.created s.ttt.uid posted) (.success deployment) :: behind) pushed :=
    ⟨_, back ++ .callback (.created s.ttt.uid posted) (.success deployment) :: behind, by simp,
      hmem⟩
  have hpushedUid : Carries pushed s.ttt.uid := Or.inl (by simp [stamps, huid])
  have huid' : Carries s s.ttt.uid := Or.inl (by simp [stamps])
  exact carried_once hfirst ⟨_, [], (List.append_nil _).symm, hs⟩ hpushedUid huid'

/-- What the callback of a challenge makes of the list. -/
theorem step_created (uid : ℕ) (posted : Message) (response : Response) :
    (w.step (.callback (.created uid posted) response)).tttListG =
      match response with
      | .error => w.tttListG
      | .success deployment =>
        if w.admits (.created uid posted) (.success deployment) then
          setOrigin (posted.deployed deployment) uid w.tttListG
        else w.tttListG := by
  cases response with
  | error =>
    simp only [World.step]
    split_ifs <;> rfl
  | success deployment =>
    simp only [World.step]
    split_ifs <;> rfl

/-- The callback of a session that is not listed changes nothing. -/
theorem step_unlisted {uid : ℕ} {posted : Message} {response : Response}
    (h : ∀ s ∈ w.tttListG, s.ttt.uid ≠ uid) :
    (w.step (.callback (.created uid posted) response)).tttListG = w.tttListG := by
  rw [step_created]
  cases response with
  | error => rfl
  | success deployment =>
    dsimp only
    split_ifs
    · rw [setOrigin_eq_map, map_elsewhere h]
    · rfl

/-- Whoever was stored while listed has an origin. -/
theorem haveOrigin_of_stored {events : List Event} (hs : s ∈ (run events).tttListG)
    {posted : Message} {deployment : Deployment} (h : StoredBy events s posted deployment) :
    s.ttt.haveOrigin = true := by
  obtain ⟨before, behind, rfl, hadmits, t, ht, hn⟩ := h
  have hf := follows_between ht hs hn.symm
  have hmem := (admits_created.mp hadmits).1
  have hno := (outstanding_reached (reached_run before)).waited s.ttt.uid
    (mem_postings.mpr ⟨posted, hmem⟩) t ht hf.uid.symm
  have hafter : { t with ttt := t.ttt.setOrigin (posted.deployed deployment) } ∈
      (run (before ++ [.callback (.created s.ttt.uid posted)
        (.success deployment)])).tttListG := by
    rw [run_concat, step_created]
    dsimp only
    rw [if_pos hadmits]
    exact List.mem_map.mpr ⟨t, ht, by simp [hf.uid, hno]⟩
  have hlater : s ∈ (run (before ++ [.callback (.created s.ttt.uid posted)
      (.success deployment)] ++ behind)).tttListG := by simpa using hs
  exact ((follows_between hafter hlater hn.symm).stored rfl).1

/-- The callback of one challenge leaves what can be done about another. -/
theorem admits_after {uid uid' : ℕ} {posted posted' : Message} {response : Response}
    {deployment : Deployment} (hne : Callback.created uid posted ≠ .created uid' posted')
    (hid : ∀ d, response = .success d → d.id ≠ deployment.id) :
    (w.step (.callback (.created uid posted) response)).admits (.created uid' posted')
        (.success deployment) = w.admits (.created uid' posted') (.success deployment) := by
  have herase : .created uid' posted' ∈ w.pending.erase (.created uid posted) ↔
      .created uid' posted' ∈ w.pending := List.mem_erase_of_ne hne.symm
  rw [Bool.eq_iff_iff, admits_created, admits_created]
  simp only [World.step]
  split_ifs
  · cases response with
    | error => simp [World.runCallback, World.issued, herase]
    | success d =>
      have hd := hid d rfl
      simp [World.runCallback, World.receive, World.issued, herase, Message.deployed, hd.symm]
  · exact Iff.rfl

/-- Two callbacks give the same list in either order. -/
theorem created_commute (hw : Reached w) {uid uid' : ℕ} {posted posted' : Message}
    {response response' : Response}
    (hne : Callback.created uid posted ≠ .created uid' posted')
    (hid : ∀ d d', response = .success d → response' = .success d' → d.id ≠ d'.id) :
    ((w.step (.callback (.created uid posted) response)).step
      (.callback (.created uid' posted') response')).tttListG =
    ((w.step (.callback (.created uid' posted') response')).step
      (.callback (.created uid posted) response)).tttListG := by
  cases response with
  | error => cases response' <;> simp [step_created, admits_after hne]
  | success d =>
    cases response' with
    | error => simp [step_created, admits_after hne.symm]
    | success d' =>
      have hdd := hid d d' rfl rfl
      have hsame : (w.step (.callback (.created uid posted) (.success d))).admits
          (.created uid' posted') (.success d') = _ :=
        admits_after hne (by rintro _ ⟨⟩; exact hdd)
      have hsame' : (w.step (.callback (.created uid' posted') (.success d'))).admits
          (.created uid posted) (.success d) = _ :=
        admits_after hne.symm (by rintro _ ⟨⟩; exact hdd.symm)
      simp only [step_created, hsame, hsame']
      split_ifs with hadmits' hadmits
      · -- both are pending, so they are of different sessions
        have huid : uid ≠ uid' := by
          rintro rfl
          have hmem := (admits_created.mp hadmits).1
          refine not_posting_erase hmem (outstanding_reached hw).single
            (mem_postings.mpr ⟨posted', ?_⟩)
          exact (List.mem_erase_of_ne hne.symm).mpr (admits_created.mp hadmits').1
        simp only [setOrigin_eq_map]
        refine map_map_other (fun s : Session => s.ttt.uid) huid ?_ ?_ <;>
          · intro s
            split_ifs <;> rfl
      · rfl
      · rfl
      · rfl

/-- In every run the origins of all sessions are kept apart. -/
theorem originsApart_run (events : List Event) : OriginsApart events := by
  refine ⟨fun s hs => ⟨fun hhave => ?_, ?_⟩, fun s hs hhave => ?_, ?_, ?_⟩
  · obtain ⟨posted, deployment, hstored, -⟩ := stored_run events s hs hhave
    exact ⟨posted, deployment, postedFor_of_stored hs hstored, hstored⟩
  · rintro ⟨posted, deployment, -, hstored⟩
    exact haveOrigin_of_stored hs hstored
  · obtain ⟨posted, deployment, hstored, hid, hchannel⟩ := stored_run events s hs hhave
    exact ⟨posted, deployment, postedFor_of_stored hs hstored, hstored, hid, hchannel⟩
  · exact fun uid posted response h => step_unlisted h
  · exact fun uid posted response uid' posted' response' hne hid =>
      created_commute (reached_run events) hne hid

end TintempPlusPlus.Origins
