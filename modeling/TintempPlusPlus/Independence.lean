import TintempPlusPlus.Reachable

/-!
# The handshake and the other sessions

A click on a confirm button should be handled as if its session were the
only one, and every click should be answered once. The loop of the confirm
handler returns at the first session that the user does not play in, and it
warns the user there, also when the click was meant for another session.
-/

namespace TintempPlusPlus.Independence

open Discord UniqueID Ttt Handlers ScanLoop Play HandlerLaws Program OneEntry EventRuns Invariant
  Steps Reachable

variable {w : World} {click : Click} {player : Player} {pre post : List Session} {k : Session}

/-- The confirm handler treats a session in the list as it treats it alone:
the session becomes the same, the others stay, and it issues the same
requests, apart from warnings about other sessions. -/
def SameAsAlone (click : Click) (nextID : ℕ) (pre : List Session) (k : Session)
    (post : List Session) : Prop :=
  ∃ k' warned, (onConfirmClick click nextID [k]).items = [k'] ∧
    (onConfirmClick click nextID (pre ++ k :: post)).items = pre ++ k' :: post ∧
    (onConfirmClick click nextID (pre ++ k :: post)).emitted =
      (onConfirmClick click nextID [k]).emitted ++ warned ∧
    ∀ effect ∈ warned, effect = notYourButton click

/-- No other listed session is addressed. -/
theorem others_unaddressed (hi : Inv w) (hl : w.tttListG = pre ++ k :: post)
    (ha : Addressed click k) : ∀ t ∈ pre ++ post, ¬ Addressed click t := by
  obtain ⟨hk, hrest⟩ := hi.focus hl
  exact fun t ht => not_addressed hk (hrest t ht).1 (hrest t ht).2 ha

/-- An accepted answer is flagged. -/
theorem accept_flag (click : Click) (player : Player) (nextID : ℕ) (k : Session) :
    (accept click player nextID k).1.confirm.st.confm player = true := by
  unfold accept
  split_ifs <;> simp [Session.flag, Session.start]

/-- For every reachable list and every click of a player on a button of a
session, the session is treated as if it were alone if and only if the user
plays in all sessions before it or has answered already. -/
theorem sameAsAlone_iff (events : List Event) (hl : (run events).tttListG = pre ++ k :: post)
    (hp : k.playerOf click.user = some player) (ha : Addressed click k) :
    SameAsAlone click (run events).nextID pre k post ↔
      (∀ t ∈ pre, IsPlayer click.user t) ∨ k.confirm.st.confm player = true := by
  have hi := inv_run events
  obtain ⟨hk, -⟩ := hi.focus hl
  obtain ⟨hpre, hpost⟩ := List.forall_mem_append.mp (others_unaddressed hi hl ha)
  have hnil : ∀ t ∈ ([] : List Session), ¬ Addressed click t := by simp
  have hreachnil : ∀ t ∈ ([] : List Session), IsPlayer click.user t := by simp
  cases hf : k.confirm.st.confm player with
  | true =>
    have halone : onConfirmClick click (run events).nextID [k] = ⟨[k], (run events).nextID, []⟩ :=
      onConfirmClick_answered hnil hreachnil hp ha hf
    simp only [or_true, iff_true]
    by_cases hreach : ∀ t ∈ pre, IsPlayer click.user t
    · refine ⟨k, [], by rw [halone], ?_, ?_, by simp⟩ <;>
        rw [onConfirmClick_answered hpre hreach hp ha hf]
      rw [halone, List.append_nil]
    · refine ⟨k, [notYourButton click], by rw [halone], ?_, ?_, by simp⟩ <;>
        rw [onConfirmClick_blocked hpre hreach]
      rw [halone, List.nil_append]
  | false =>
    have halone : onConfirmClick click (run events).nextID [k] =
        ⟨[(accept click player (run events).nextID k).1],
          (accept click player (run events).nextID k).2.1,
          (accept click player (run events).nextID k).2.2 ++ warnings click []⟩ :=
      onConfirmClick_accept hnil hreachnil hk.buttons hp ha hf hnil
    simp only [Bool.false_eq_true, or_false]
    constructor
    · rintro ⟨k', warned, hk', hitems, -, -⟩
      by_contra hreach
      rw [onConfirmClick_blocked hpre hreach] at hitems
      have hkk := List.append_cancel_left hitems
      rw [halone] at hk'
      have hself : (accept click player (run events).nextID k).1 = k :=
        (List.cons.inj hk').1.trans (List.cons.inj hkk).1.symm
      have hflag := accept_flag click player (run events).nextID k
      rw [hself, hf] at hflag
      cases hflag
    · intro hreach
      refine ⟨(accept click player (run events).nextID k).1, warnings click post, by rw [halone],
        ?_, ?_, fun effect he => mem_warnings he⟩ <;>
        rw [onConfirmClick_accept hpre hreach hk.buttons hp ha hf hpost]
      rw [halone]
      simp [warnings]

/-- User 33 challenges user 44 in the same channel. -/
def otherIncoming : Incoming where
  id := 91
  channelId := 5
  guildId := 6
  author := 33
  authorName := "other"
  authorAvatar := ""
  mentions := [⟨44, false, by decide⟩]
  authorIssued := by decide

/-- User 33 challenges user 22. -/
def sharedIncoming : Incoming := { otherIncoming with mentions := firstIncoming.mentions }

/-- User 22 is challenged by user 33, by user 11 and by user 33 again, and
last stands a challenge of strangers. -/
def crowd : List Event :=
  [.command sharedIncoming ⟨true, true⟩, .command firstIncoming ⟨true, true⟩,
    .command sharedIncoming ⟨true, true⟩, .command otherIncoming ⟨true, true⟩]

/-- User 22 accepts the challenge of user 11 between the other ones: it is
handled as if alone, apart from the warning about the strangers. -/
theorem sameAsAlone_crowd :
    ∃ pre k post, (run crowd).tttListG = pre ++ k :: post ∧ pre.length = 1 ∧ post.length = 2 ∧
      SameAsAlone (clickBy 22 100 "confm_5_y") (run crowd).nextID pre k post := by
  have hl : (run crowd).tttListG = [(newSession ⟨true, true⟩ 33 22 0 0).1] ++
      (newSession ⟨true, true⟩ 11 22 3 1).1 :: [(newSession ⟨true, true⟩ 33 22 6 2).1,
        (newSession ⟨true, true⟩ 33 44 9 3).1] := rfl
  have hplayer : (newSession ⟨true, true⟩ 11 22 3 1).1.playerOf 22 = some .two := by decide
  have hfront : ∀ t ∈ [(newSession ⟨true, true⟩ 33 22 0 0).1], IsPlayer 22 t :=
    List.forall_mem_singleton.mpr (by decide)
  exact ⟨_, _, _, hl, rfl, rfl, (sameAsAlone_iff crowd hl hplayer (by decide)).mpr (Or.inl hfront)⟩

/-- The challenge of two strangers stands in front of the first challenge. -/
def behindStrangers : List Event :=
  [.command otherIncoming ⟨true, true⟩, .command firstIncoming ⟨true, true⟩]

/-- The YES of a player behind the strangers. -/
def blockedYes : Click := clickBy 22 100 "confm_5_y"

/-- The YES behind the strangers is lost, while alone it would be accepted. -/
theorem blockedYes_not_sameAsAlone :
    ∃ pre k post, (run behindStrangers).tttListG = pre ++ k :: post ∧
      k.playerOf blockedYes.user = some .two ∧ Addressed blockedYes k ∧
      ¬ SameAsAlone blockedYes (run behindStrangers).nextID pre k post := by
  refine ⟨[(newSession ⟨true, true⟩ 33 44 0 0).1], (newSession ⟨true, true⟩ 11 22 3 1).1, [], rfl,
    by decide, by decide, ?_⟩
  rintro ⟨k', warned, hk', hitems, -, -⟩
  have hwhole := congrArg (List.map fun s => s.confirm.st.isPlayer2Confm) hitems
  have halone := congrArg (List.map fun s => s.confirm.st.isPlayer2Confm) hk'
  have hset : k'.confirm.st.isPlayer2Confm = true := (List.cons.inj halone).1.symm
  have hunset : [false, false] = [false, k'.confirm.st.isPlayer2Confm] := hwhole
  rw [hset] at hunset
  exact absurd hunset (by decide)

/-! ## Replies to one click -/

/-- The requests `event.reply` among some effects. -/
def replies (effects : List Effect) : ℕ := effects.countP Effect.isReply

/-- The replies of two parts add up. -/
theorem replies_append (a b : List Effect) : replies (a ++ b) = replies a + replies b :=
  List.countP_append

/-- The replies that one run of both handlers issues for a click. -/
def repliesTo (w : World) (click : Click) : ℕ :=
  replies (onConfirmClick click w.nextID w.tttListG).emitted +
    replies (onTttInteraction click (w.confirmClick click).tttListG).emitted

/-- The click is the first answer of a player of the session and a YES. -/
def FirstYes (click : Click) (s : Session) : Prop :=
  click.customId = s.confirm.btnId.1 ∧
    ∃ player, s.playerOf click.user = some player ∧ s.confirm.st.confm player = false

/-- The button belongs to the session, and its player has answered before. -/
def Returns (click : Click) (s : Session) : Prop :=
  Addressed click s ∧
    ∃ player, s.playerOf click.user = some player ∧ s.confirm.st.confm player = true

/-- The loop gets to a session whose YES was clicked as a first answer. -/
def AnswersYes (click : Click) : List Session → Prop
  | [] => False
  | s :: rest => IsPlayer click.user s ∧ (FirstYes click s ∨ AnswersYes click rest)

/-- The loop gets to a session that the user does not play in. -/
def MeetsStrangers (click : Click) : List Session → Prop
  | [] => False
  | s :: rest => ¬ IsPlayer click.user s ∨ ¬ Returns click s ∧ MeetsStrangers click rest

/-- The click is made by a player on the game message of a session. -/
def OnOwnGame (click : Click) (list : List Session) : Prop :=
  ∃ s ∈ list, click.messageId = s.ttt.game.id ∧ IsPlayer click.user s

/-- A click that addresses no session answers none. -/
theorem answersYes_addressed {list : List Session} (h : ∀ s ∈ list, ¬ Addressed click s) :
    ¬ AnswersYes click list := by
  induction list with
  | nil => exact id
  | cons s rest ih =>
    obtain ⟨hs, hrest⟩ := List.forall_mem_cons.mp h
    rintro ⟨-, hyes | hyes⟩
    · exact hs (Or.inl hyes.1)
    · exact ih hrest hyes

/-- An accepted YES is answered with one reply and a Nah with none. -/
theorem replies_accept (nextID : ℕ) (s : Session) :
    replies (accept click player nextID s).2.2 =
      if click.customId = s.confirm.btnId.1 then 1 else 0 := by
  unfold accept
  split_ifs <;> simp [replies, Effect.isReply, List.countP_cons]

/-- The confirm handler replies to a first YES and to a meeting with
strangers. -/
theorem replies_confirm (nextID : ℕ) {list : List Session}
    (hk : ∀ s ∈ list, s.confirm.btnId.1 ≠ s.confirm.btnId.2)
    (hone : list.Pairwise fun s t => Addressed click s → ¬ Addressed click t) :
    ∃ yes met, replies (onConfirmClick click nextID list).emitted = yes + met ∧
      (yes = 0 ∧ ¬ AnswersYes click list ∨ yes = 1 ∧ AnswersYes click list) ∧
      (met = 0 ∧ ¬ MeetsStrangers click list ∨ met = 1 ∧ MeetsStrangers click list) := by
  unfold onConfirmClick
  induction list generalizing nextID with
  | nil => exact ⟨0, 0, rfl, Or.inl ⟨rfl, id⟩, Or.inl ⟨rfl, id⟩⟩
  | cons s rest ih =>
    obtain ⟨hks, hkrest⟩ := List.forall_mem_cons.mp hk
    obtain ⟨hones, honerest⟩ := List.pairwise_cons.mp hone
    by_cases hp : IsPlayer click.user s
    · obtain ⟨player, hplayer⟩ := Option.isSome_iff_exists.mp hp
      have honly : ∀ q, s.playerOf click.user = some q → q = player :=
        fun q hq => Option.some.inj (hq.symm.trans hplayer)
      by_cases ha : Addressed click s
      · have hnone := answersYes_addressed fun t ht => hones t ht ha
        cases hf : s.confirm.st.confm player with
        | true =>
          have hb := confirmBody_answered nextID hplayer ha hf
          rw [sweep_leave (by rw [hb]), hb]
          refine ⟨0, 0, rfl, Or.inl ⟨rfl, ?_⟩, Or.inl ⟨rfl, ?_⟩⟩
          · rintro ⟨-, ⟨-, q, hq, hqf⟩ | hyes⟩
            · rw [honly q hq, hf] at hqf
              cases hqf
            · exact hnone hyes
          · rintro (hn | ⟨hn, -⟩)
            · exact hn hp
            · exact hn ⟨ha, player, hplayer, hf⟩
        | false =>
          have hb := confirmBody_accept nextID hks hplayer ha hf
          obtain ⟨yes, met, hc, hyes, hmet⟩ :=
            ih (accept click player nextID s).2.1 hkrest honerest
          have hzero : yes = 0 := by
            rcases hyes with ⟨hz, -⟩ | ⟨-, hy⟩
            · exact hz
            · exact absurd hy hnone
          rw [sweep_continue (by rw [hb]), hb]
          dsimp only
          rw [replies_append, replies_accept, hc, hzero, Nat.zero_add]
          have hnot : ¬ Returns click s := by
            rintro ⟨-, q, hq, hqf⟩
            rw [honly q hq, hf] at hqf
            cases hqf
          refine ⟨_, met, rfl, ?_, ?_⟩
          · split_ifs with hy
            · exact Or.inr ⟨rfl, hp, Or.inl ⟨hy, player, hplayer, hf⟩⟩
            · refine Or.inl ⟨rfl, ?_⟩
              rintro ⟨-, hfirst | hlater⟩
              · exact hy hfirst.1
              · exact hnone hlater
          · simpa [MeetsStrangers, hp, hnot] using hmet
      · have hyes : ¬ FirstYes click s := fun h => ha (Or.inl h.1)
        have hnot : ¬ Returns click s := fun h => ha h.1
        obtain ⟨yes, met, hc, hy, hm⟩ := ih nextID hkrest honerest
        rw [sweep_pass (confirmBody_passes hp ha)]
        refine ⟨yes, met, hc, ?_, ?_⟩
        · simpa [AnswersYes, hp, hyes] using hy
        · simpa [MeetsStrangers, hp, hnot] using hm
    · have hb := confirmBody_stranger nextID (not_isPlayer_iff.mp hp)
      rw [sweep_leave (by rw [hb]), hb]
      refine ⟨0, 1, rfl, Or.inl ⟨rfl, fun h => hp h.1⟩, Or.inr ⟨rfl, Or.inl hp⟩⟩

/-- The board handler replies to the players of the clicked game. -/
theorem replies_board (hi : Inv w) (click : Click) :
    replies (onTttInteraction click w.tttListG).emitted = 0 ∧ ¬ OnOwnGame click w.tttListG ∨
      replies (onTttInteraction click w.tttListG).emitted = 1 ∧
        OnOwnGame click w.tttListG := by
  rcases split_first (fun s : Session => click.messageId = s.ttt.game.id) w.tttListG with
    hnone | ⟨pre, s, post, hl, hm, hpre⟩
  · rw [onTttInteraction_elsewhere hnone]
    refine Or.inl ⟨rfl, ?_⟩
    rintro ⟨s, hs, hm, -⟩
    exact hnone s hs hm
  · obtain ⟨hs, hrest⟩ := hi.focus hl
    have hothers : ∀ t ∈ pre ++ post, click.messageId ≠ t.ttt.game.id :=
      fun t ht => game_ne (hrest t ht).2 hm
    obtain ⟨-, hpost⟩ := List.forall_mem_append.mp hothers
    have hown : OnOwnGame click w.tttListG ↔ IsPlayer click.user s := by
      constructor
      · rintro ⟨t, ht, htm, htp⟩
        rw [hl] at ht
        rcases mem_entry.mp ht with rfl | ht
        · exact htp
        · exact absurd htm (hothers t ht)
      · intro hp
        exact ⟨s, by rw [hl]; simp, hm, hp⟩
    rw [hown, hl, onTttInteraction_at hpre hpost]
    by_cases ht : click.user = s.ttt.turn.1
    · have hstarted := hs.started ht
      have hd := hstarted.ids.distinctIds
      refine Or.inr ⟨?_, hs.turn ht⟩
      by_cases hsq : ∃ square, click.customId = (s.ttt.board square).id
      · obtain ⟨square, hsq⟩ := hsq
        by_cases hidle : (s.ttt.board square).status = .idle
        · rw [boardBody_move hd hm ht hsq hidle]
          rfl
        · rw [boardBody_taken hd hm ht hsq hidle]
          rfl
      · rw [boardBody_stray hm ht (not_exists.mp hsq)]
        rfl
    · rw [boardBody_waiting hm ht, hs.isPlayer]
      dsimp only
      split_ifs with hp
      · exact Or.inr ⟨rfl, hp⟩
      · exact Or.inl ⟨rfl, hp⟩

/-- Neither the players nor the message of a game are changed by the confirm
handler. -/
theorem onOwnGame_confirm (hi : Inv w) (click : Click) :
    OnOwnGame click (w.confirmClick click).tttListG ↔ OnOwnGame click w.tttListG := by
  have h := confirm_change hi click
  generalize w.confirmClick click = w' at h
  cases h with
  | quiet h => exact Iff.rfl
  | @accepted click player pre s post h =>
    have hk := accept_kin click player w.nextID s
    have hid := (accept_ids click player w.nextID s).1
    have hplayer : IsPlayer click.user (accept click player w.nextID s).1 ↔
        IsPlayer click.user s := by
      rw [isPlayer_iff, isPlayer_iff, hk.players.2.2.1, hk.players.2.2.2]
    unfold OnOwnGame
    simp only [World.emit, h.list, mem_entry, exists_eq_or_imp, hid, hplayer]

/-- For every reachable list and every click, one run of the two handlers
replies at most once if and only if at most one of three things happens: a
first YES is answered, the loop meets strangers, the click is on the user's
own game. -/
theorem repliesTo_le_one_iff (events : List Event) (click : Click) :
    repliesTo (run events) click ≤ 1 ↔
      ¬ (AnswersYes click (run events).tttListG ∧ MeetsStrangers click (run events).tttListG) ∧
        ¬ (AnswersYes click (run events).tttListG ∧ OnOwnGame click (run events).tttListG) ∧
        ¬ (MeetsStrangers click (run events).tttListG ∧
          OnOwnGame click (run events).tttListG) := by
  have hi := inv_run events
  have hone : (run events).tttListG.Pairwise
      fun s t => Addressed click s → ¬ Addressed click t := by
    refine hi.apart.imp_of_mem fun hs ht hapart ha => ?_
    exact not_addressed (hi.sessions _ hs) (hi.sessions _ ht) hapart ha
  obtain ⟨yes, met, hc, hyes, hmet⟩ := replies_confirm (run events).nextID
    (fun s hs => (hi.sessions s hs).buttons) hone
  have hboard := replies_board (change_inv hi (confirm_change hi click)) click
  rw [onOwnGame_confirm hi] at hboard
  rw [repliesTo, hc]
  rcases hyes with ⟨rfl, hy⟩ | ⟨rfl, hy⟩ <;> rcases hmet with ⟨rfl, hm⟩ | ⟨rfl, hm⟩ <;>
    rcases hboard with ⟨hb, ho⟩ | ⟨hb, ho⟩ <;> simp [hy, hm, ho, hb]

/-- A move in a running game while strangers are also in the list. -/
def besideStrangers : List Event := handshake ++ [.command otherIncoming ⟨true, true⟩]

/-- The move is answered more than once. -/
theorem repliesTo_besideStrangers :
    ¬ repliesTo (run besideStrangers) (clickBy 11 101 "p_000_4") ≤ 1 := by
  decide

end TintempPlusPlus.Independence
