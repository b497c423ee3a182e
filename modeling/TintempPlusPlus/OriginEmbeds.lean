import TintempPlusPlus.Origins
import TintempPlusPlus.Frozen
import TintempPlusPlus.Handles

/-!
# The embed that is replaced

The first embed of the stored challenge message is replaced when a challenge
is declined, when a game starts and when a result is announced. None of the
three looks at whether the message has been stored. A Nah or a second YES
that overtakes the callback of the challenge replaces an embed that does not
exist, and the callback of a board reply reaches for the embed of its session
also when the session was erased. Without either, every replaced embed exists.
-/

namespace TintempPlusPlus.OriginEmbeds

open Discord UniqueID Ttt Handlers ScanLoop Play HandlerLaws Program OneEntry EventRuns Invariant
  Steps Reachable Views Lives Handles Frozen Histories Identifiers Display Origins

/-- The list element on whose session `ttt::set_origin_embed` is called. Each
of the three calls stands next to one recorded effect. -/
def replaces? : Effect → Option ℕ
  | .answered node _ .nah => some node
  | .initGame node => some node
  | .messageCreate _ (.resultMessage node) => some node
  | _ => none

/-- An event of the run replaces the embed of a listed session. -/
def ReplacesAt (before : List Event) (e : Event) (node : ℕ) : Prop :=
  ∃ more, (run (before ++ [e])).trace = (run before).trace ++ more ∧
    ∃ effect ∈ more, replaces? effect = some node

/-- A callback that runs reaches for a session that is not listed any more. -/
def Dangles (w : World) (node : ℕ) : Event → Prop
  | .callback callback response => w.admits callback response = true ∧
    accessed callback response = some node ∧ ∀ s ∈ w.tttListG, s.node ≠ node
  | _ => False

/-- An event of the run calls `ttt::set_origin_embed` on a list element, or it
may do so: a board reply that ends well reads the result of a session that was
erased and then replaces the embed, and after a stale write or a second erase
nothing is defined. -/
def MayReplace (before : List Event) (e : Event) (node : ℕ) : Prop :=
  ReplacesAt before e node ∨ Dangles (run before) node e

/-- Every embed that is replaced, or may be, is one of a listed session and
exists. -/
def EmbedsDefined (events : List Event) : Prop :=
  ∀ before e behind, events = before ++ e :: behind → ∀ node, MayReplace before e node →
    ∃ s ∈ (run before).tttListG, s.node = node ∧ s.ttt.origin.embeds ≠ []

/-- A Nah, or a YES after the other player's answer, is accepted only once
the challenge message has been stored. -/
def AnswersAfterOrigin (w : World) : Event → Prop
  | .click click => ∀ player pre s post, Accepts w click player pre s post →
    click.customId = s.confirm.btnId.2 ∨ s.confirm.st.confm player.other = true →
    s.ttt.haveOrigin = true
  | _ => True

/-- Such answers come after the challenge message was stored, and no callback
reaches for an erased session. -/
structure AnswersInTime (w : World) (e : Event) : Prop where
  /-- The answer finds the stored challenge message. -/
  answers : AnswersAfterOrigin w e
  /-- The callback finds the session that it reaches for. -/
  reaches : ReachesListed w e

variable {w : World} {node : ℕ} {s : Session} {click : Click} {player : Player}
  {pre post : List Session}

/-- Replacing the first embed neither adds nor removes one. -/
theorem setOriginEmbed_embeds (t : Game) (embed : Embed) :
    (t.setOriginEmbed embed).origin.embeds = [] ↔ t.origin.embeds = [] := by
  unfold Game.setOriginEmbed
  cases h : t.origin.embeds <;> simp

/-- A posted challenge has its embed. -/
theorem pending_embeds (hw : Reached w) :
    ∀ uid posted, .created uid posted ∈ w.pending → posted.embeds ≠ [] := by
  refine invariant_reached (I := fun w => ∀ uid posted, .created uid posted ∈ w.pending →
    posted.embeds ≠ []) ?_ ?_ hw
  · intro uid posted hm
    cases hm
  · intro w p hw h uid posted hm
    rcases change_posting (part_change hw.inv p) with hno | ⟨message, order, opponent, -, he⟩
    · exact h uid posted (hno.mem hm)
    · rw [he] at hm
      rcases List.mem_append.mp hm with hold | hnew
      · exact h uid posted hold
      · cases List.mem_singleton.mp hnew
        exact List.cons_ne_nil _ _

/-- A session has embeds once its challenge message was stored. -/
def ViewEmbeds (v : View) : Prop :=
  ∀ s, v.session = some s → (s.ttt.haveOrigin = true ↔ s.ttt.origin.embeds ≠ [])

/-- Every touch keeps what is known about the embed. -/
theorem viewEmbeds_touch (hw : Reached w) {p : Part} {v v' : View} (h : ViewEmbeds v)
    (ht : Touch w node p v v') : ViewEmbeds v' := by
  cases ht with
  | created hf =>
    rintro t ⟨⟩
    rw [hf.ttt]
    simp
  | @originSet uid posted deployment s pending trace hcb hfresh hs huid hno =>
    rintro t ⟨⟩
    have hposted : posted.embeds ≠ [] := pending_embeds hw _ _ hcb
    exact iff_of_true rfl hposted
  | @started click player pre s post pending trace hacc hs hy ho =>
    rintro t ⟨⟩
    have hsame := setOriginEmbed_embeds s.ttt (startEmbed (s.flag player).confirm)
    exact (h s rfl).trans (not_congr hsame.symm)
  | @declined click player pre s post pending trace hacc hs hn =>
    rintro t ⟨⟩
    have hsame := setOriginEmbed_embeds s.ttt (cancelledEmbed click)
    exact (h s rfl).trans (not_congr hsame.symm)
  | @announced click deployment s embed pending trace hcb hs hr =>
    rintro t ⟨⟩
    have hsame := setOriginEmbed_embeds s.ttt (endedEmbed s.ttt)
    exact (h s rfl).trans (not_congr hsame.symm)
  | @played click square pre s post pending trace hturn hs hsq hidle =>
    rintro t ⟨⟩
    simpa [Game.move, Game.setStatus] using h s rfl
  | @strayed click pre s post pending trace hturn hs hsq =>
    rintro t ⟨⟩
    simpa using h s rfl
  | dropped => exact h
  | asked => exact h
  | orphaned => exact h
  | erased => exact fun s hs => by cases hs
  | @confirmed click player pre s post pending trace hacc hs hy ho =>
    rintro t ⟨⟩
    exact h s rfl
  | @stored click deployment s pending trace hcb hfresh hs =>
    rintro t ⟨⟩
    exact h s rfl

/-- In every reached world a listed session has its embed exactly when its
challenge message was stored. -/
theorem embeds_reached (hw : Reached w) (hs : s ∈ w.tttListG) :
    s.ttt.haveOrigin = true ↔ s.ttt.origin.embeds ≠ [] := by
  have hview := view_reached (I := fun _ => ViewEmbeds) (fun _ s hs => by cases hs)
    (fun w n p v hw hv ht => viewEmbeds_touch hw hv ht) hw s.node
  rw [view_of_mem hw.inv hs] at hview
  exact hview s rfl

/-- A started game has a stored challenge message when the answers came after
it. -/
theorem started_origin {events : List Event}
    (h : Along World.step AnswersAfterOrigin World.init events) (hs : s ∈ (run events).tttListG)
    (hi : .initGame s.node ∈ (run events).trace) : s.ttt.haveOrigin = true := by
  have hview := view_run (I := fun n v => ∀ s, v.session = some s → .initGame n ∈ v.trace →
    s.ttt.haveOrigin = true) h (fun _ s hs => by cases hs) ?_ s.node
  · rw [view_of_mem (inv_run events) hs] at hview
    exact hview s rfl (mem_effectsOf.mpr ⟨hi, rfl⟩)
  · intro w n p v hw hc hv ht s' hs' hi'
    generalize view w n = u at hv ht
    cases hu : u.session with
    | none =>
      cases ht with
      | created => cases hi'
      | dropped => cases hu.symm.trans hs'
      | asked => cases hu.symm.trans hs'
      | orphaned => cases hs'
      | _ => cases hu
    | some s =>
      rcases touch_follows ht hu hs' with ⟨hsame, -⟩ | ⟨-, _, _, -, -, -, -, hhave, -⟩
      · rw [hsame]
        by_cases hold : .initGame n ∈ u.trace
        · exact hv s hu hold
        · cases ht with
          | @started click player pre t post pending trace hacc hs hy ho =>
            cases hu
            exact hc player pre s post hacc (Or.inr ho)
          | _ => simp_all [moveEffects]
      · exact hhave

/-- What has replaced the embed of a list element: an accepted answer, or the
announcement of the result. -/
inductive Replacing (w : World) (node : ℕ) : Part → Prop
  | answer {click : Click} {player : Player} {pre : List Session} {s : Session}
    {post : List Session} (hn : s.node = node) (h : Accepts w click player pre s post)
    (ha : click.customId = s.confirm.btnId.2 ∨ s.confirm.st.confm player.other = true) :
    Replacing w node (.confirm click)
  | announcement {callback : Callback} {response : Response} {s : Session} (hn : s.node = node)
    (hs : s ∈ w.tttListG) (he : Ended s.ttt) : Replacing w node (.callback callback response)

/-- The effects of an accepted answer tell what was answered. -/
theorem accept_replacing (h : Accepts w click player pre s post) {effect : Effect}
    (hm : effect ∈ (accept click player w.nextID s).2.2) (hr : replaces? effect = some node) :
    Replacing w node (.confirm click) := by
  unfold accept at hm
  split_ifs at hm with hy ho
  · simp only [List.mem_cons, List.not_mem_nil, or_false] at hm
    rcases hm with rfl | rfl <;> cases hr
  · have ho' := Bool.eq_true_of_not_eq_false ho
    simp only [List.mem_cons, List.not_mem_nil, or_false] at hm
    rcases hm with rfl | rfl | rfl | rfl <;> cases hr
    exact .answer rfl h (Or.inr ho')
  · have hn := h.addressed.resolve_left hy
    rcases List.mem_append.mp hm with hm | hm
    · simp only [List.mem_cons, List.not_mem_nil, or_false] at hm
      rcases hm with rfl | rfl <;> cases hr
      exact .answer rfl h (Or.inl hn)
    · split_ifs at hm
      · cases List.mem_singleton.mp hm
        cases hr
      · cases hm

/-- A change that records a replaced embed has replaced it. -/
theorem change_replacing {p : Part} {w' : World} {more : List Effect} (h : Change w p w')
    (htrace : w'.trace = w.trace ++ more) {effect : Effect} (hm : effect ∈ more)
    (hr : replaces? effect = some node) : Replacing w node p := by
  have hsame : ∀ effects, w'.trace = w.trace ++ effects → effect ∈ effects := by
    intro effects he
    rwa [← List.append_cancel_left (htrace.symm.trans he)]
  have hnone : w'.trace ≠ w.trace := by
    intro he
    exact absurd (hsame [] (by simpa using he)) List.not_mem_nil
  cases h with
  | quiet hwarn => cases hwarn effect (hsame _ rfl) <;> cases hr
  | challenged =>
    rw [List.mem_singleton.mp (hsame _ rfl)] at hr
    cases hr
  | accepted hacc =>
    rcases List.mem_append.mp (hsame _ rfl) with hin | hin
    · exact accept_replacing hacc hin hr
    · cases warning_of_mem_warnings effect hin <;> cases hr
  | played hturn hsq hidle =>
    have hin := hsame _ rfl
    simp only [moveEffects, List.mem_cons, List.not_mem_nil, or_false] at hin
    rcases hin with rfl | rfl | rfl <;> cases hr
  | strayed hturn hsq =>
    have hin := hsame _ rfl
    simp only [moveEffects, List.mem_cons, List.not_mem_nil, or_false] at hin
    rcases hin with rfl | rfl <;> cases hr
  | asked hcb =>
    rw [List.mem_singleton.mp (hsame _ rfl)] at hr
    cases hr
  | announced hcb hl hresult =>
    have hin := hsame _ rfl
    simp only [List.mem_cons, List.not_mem_nil, or_false] at hin
    rcases hin with rfl | rfl <;> cases hr
    exact .announcement rfl (mem_of_split hl) (ended_of_resultEmbed hresult)
  | dropped => exact absurd rfl hnone
  | received => exact absurd rfl hnone
  | originSet => exact absurd rfl hnone
  | stored => exact absurd rfl hnone
  | erased => exact absurd rfl hnone

/-- An accepted Nah or second YES replaces the embed. -/
theorem accepted_replaces {before : List Event}
    (hacc : Accepts (run before) click player pre s post)
    (h : click.customId = s.confirm.btnId.2 ∨ s.confirm.st.confm player.other = true) :
    ReplacesAt before (.click click) s.node := by
  have hi := inv_run before
  have hi' : Inv ((run before).confirmClick click) := change_inv hi (confirm_change hi click)
  obtain ⟨more, hmore⟩ := change_trace (board_change hi' click)
  have hconfirm := congrArg World.trace (confirmClick_accepts hi hacc)
  refine ⟨(accept click player (run before).nextID s).2.2 ++ warnings click post ++ more, ?_, ?_⟩
  · rw [run_click, hmore, hconfirm]
    simp [World.emit]
  · have hbuttons := (hi.sessions s hacc.mem).buttons
    by_cases hy : click.customId = s.confirm.btnId.1
    · have ho : s.confirm.st.confm player.other = true := by
        refine h.resolve_left fun hn => hbuttons (hy.symm.trans hn)
      refine ⟨.initGame s.node, ?_, rfl⟩
      simp [accept, hy, ho]
    · refine ⟨.answered s.node player .nah, ?_, rfl⟩
      simp [accept, hy]

/-- An event that replaces the embed of a list element is an answer to its
session or announces its result. -/
theorem replaced_by {before : List Event} {e : Event} (h : ReplacesAt before e node) :
    ∃ s ∈ (run before).tttListG, s.node = node ∧
      (Ended s.ttt ∨ ∃ click player pre post, e = .click click ∧
        Accepts (run before) click player pre s post ∧
        (click.customId = s.confirm.btnId.2 ∨ s.confirm.st.confm player.other = true)) := by
  obtain ⟨more, htrace, effect, hm, hr⟩ := h
  have hw := reached_run before
  have hreplacing : ∀ {w p} {fresh : List Effect}, Change w p (w.part p) →
      (w.part p).trace = w.trace ++ fresh → effect ∈ fresh → Replacing w node p :=
    fun hch ht hin => change_replacing hch ht hin hr
  rw [run_concat] at htrace
  cases e with
  | command message order =>
    cases hreplacing (part_change hw.inv (.command message order)) htrace hm
  | callback callback response =>
    cases hreplacing (part_change hw.inv (.callback callback response)) htrace hm with
    | announcement hn hs he => exact ⟨_, hs, hn, Or.inl he⟩
  | click click =>
    have hw' : Reached ((run before).confirmClick click) := reached_part hw (.confirm click)
    obtain ⟨first, hfirst⟩ := change_trace (confirm_change hw.inv click)
    obtain ⟨second, hsecond⟩ := change_trace (board_change hw'.inv click)
    have hsplit : more = first ++ second := by
      have happend : (run before).trace ++ more = (run before).trace ++ (first ++ second) := by
        rw [← htrace, ← List.append_assoc, ← hfirst, ← hsecond]
        rfl
      exact List.append_cancel_left happend
    rw [hsplit] at hm
    rcases List.mem_append.mp hm with hin | hin
    · cases hreplacing (part_change hw.inv (.confirm click)) hfirst hin with
      | answer hn hacc ha =>
        exact ⟨_, hacc.mem, hn, Or.inr ⟨click, _, _, _, rfl, hacc, ha⟩⟩
    · cases hreplacing (part_change hw'.inv (.board click)) hsecond hin

/-- In a run every embed that is or may be replaced exists if and only if
every accepted Nah and every accepted second YES comes after the challenge
message was stored and no callback reaches for an erased session. -/
theorem embedsDefined_iff (events : List Event) :
    EmbedsDefined events ↔ Along World.step AnswersInTime World.init events := by
  constructor
  · rintro h before e behind rfl
    have hi := inv_run before
    refine ⟨?_, ?_⟩
    · cases e with
      | command => trivial
      | callback => trivial
      | click click =>
        intro player pre s post hacc hanswer
        obtain ⟨t, ht, hn, hne⟩ :=
          h before _ behind rfl s.node (Or.inl (accepted_replaces hacc hanswer))
        rw [node_inj hi ht hacc.mem hn] at hne
        exact (embeds_reached (reached_run before) hacc.mem).mpr hne
    · cases e with
      | command => trivial
      | click => trivial
      | callback callback response =>
        intro hadmits node haccess
        by_contra hnone
        have hgone : ∀ s ∈ (run before).tttListG, s.node ≠ node := fun s hs hn => hnone ⟨s, hs, hn⟩
        obtain ⟨s, hs, hn, -⟩ :=
          h before _ behind rfl node (Or.inr ⟨hadmits, haccess, hgone⟩)
        exact hnone ⟨s, hs, hn⟩
  · rintro h before e behind rfl node (hreplaced | hdangles)
    · have hw := reached_run before
      obtain ⟨s, hs, hn, hcause⟩ := replaced_by hreplaced
      refine ⟨s, hs, hn, (embeds_reached hw hs).mp ?_⟩
      rcases hcause with hended | ⟨click, player, pre, post, rfl, hacc, hanswer⟩
      · refine started_origin (h.front.mono fun _ _ ht => ht.answers) hs ?_
        by_contra hno
        exact not_ended ((listed_reached hw hs).untouched fun hi =>
          hno (mem_effectsOf.mp hi).1).result hended
      · exact (h before (.click click) behind rfl).answers _ _ _ _ hacc hanswer
    · have hreaches := (h before e behind rfl).reaches
      cases e with
      | command => exact hdangles.elim
      | click => exact hdangles.elim
      | callback callback response =>
        obtain ⟨hadmits, haccess, hgone⟩ := hdangles
        obtain ⟨s, hs, hn⟩ := hreaches hadmits node haccess
        exact absurd hn (hgone s hs)

/-- The challenged player declines before the posted challenge was returned. -/
def earlyNah : List Event :=
  [.command firstIncoming ⟨true, true⟩, .click (clickBy 22 100 "confm_3_n")]

/-- The embed that the Nah replaces does not exist. -/
theorem earlyNah_not_defined : ¬ EmbedsDefined earlyNah := by
  intro h
  have hbefore : (0, true) ∈ (run [.command firstIncoming ⟨true, true⟩]).tttListG.map
      fun s => (s.node, s.ttt.origin.embeds.isEmpty) := by decide
  obtain ⟨s, hs, hstate⟩ := List.mem_map.mp hbefore
  obtain ⟨hnode, hempty⟩ := Prod.mk.inj hstate
  obtain ⟨more, hmore⟩ := trace_run [.command firstIncoming ⟨true, true⟩]
    [.click (clickBy 22 100 "confm_3_n")]
  have hreplaces : ReplacesAt [.command firstIncoming ⟨true, true⟩]
      (.click (clickBy 22 100 "confm_3_n")) 0 := by
    refine ⟨more, hmore, .answered 0 .two .nah, ?_, rfl⟩
    have hin : .answered 0 .two .nah ∈ (run earlyNah).trace := by decide
    have hout : .answered 0 .two .nah ∉
        (run [.command firstIncoming ⟨true, true⟩]).trace := by decide
    have hall : (run earlyNah).trace =
        (run [.command firstIncoming ⟨true, true⟩]).trace ++ more := hmore
    rw [hall] at hin
    exact (List.mem_append.mp hin).resolve_left hout
  obtain ⟨t, ht, hn, hne⟩ := h _ _ [] rfl 0 (Or.inl hreplaces)
  rw [node_inj (inv_run _) ht hs (hn.trans hnode.symm)] at hne
  exact hne (List.isEmpty_iff.mp hempty)

end TintempPlusPlus.OriginEmbeds
