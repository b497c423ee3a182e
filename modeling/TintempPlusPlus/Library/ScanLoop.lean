import Mathlib.Data.List.Basic

/-!
# Loops over a list that the body can leave

A loop visits the items of a list from front to back, replaces each item it
visits, threads a shared value and emits outputs. The body can leave the
enclosing function, and then the items behind it are never visited. The
lemmas say when a visited item goes by unnoticed and what one remarkable
item does to the whole list.
-/

namespace TintempPlusPlus.ScanLoop

variable {α τ ω : Type*}

/-- What one visit of the loop body leaves behind. -/
structure Visit (α τ ω : Type*) where
  /-- The visited item after the body. -/
  item : α
  /-- The value shared by all visits. -/
  shared : τ
  /-- Outputs of this visit, oldest first. -/
  emitted : List ω
  /-- The body returned from the enclosing function. -/
  leaves : Bool

/-- What a whole loop leaves behind. -/
@[ext] structure Sweep (α τ ω : Type*) where
  /-- All items, visited or not, in their places. -/
  items : List α
  /-- The shared value after the last visit. -/
  shared : τ
  /-- Outputs of all visits, oldest first. -/
  emitted : List ω

/-- Run the loop from the front of the list. -/
def sweep (body : τ → α → Visit α τ ω) : τ → List α → Sweep α τ ω
  | t, [] => ⟨[], t, []⟩
  | t, a :: as =>
    let visit := body t a
    if visit.leaves then ⟨visit.item :: as, visit.shared, visit.emitted⟩
    else
      let rest := sweep body visit.shared as
      ⟨visit.item :: rest.items, rest.shared, visit.emitted ++ rest.emitted⟩

/-- The body goes past the item without a change, an output or a return. -/
def Passes (body : τ → α → Visit α τ ω) (t : τ) (a : α) : Prop :=
  body t a = ⟨a, t, [], false⟩

variable {body : τ → α → Visit α τ ω} {t : τ}

/-- An element that passes stays as it is. -/
theorem sweep_pass {a : α} {as : List α} (h : Passes body t a) :
    sweep body t (a :: as) = { sweep body t as with items := a :: (sweep body t as).items } := by
  simp only [Passes] at h
  simp only [sweep, h, Bool.false_eq_true, if_false, List.nil_append]

/-- Items that go by in front of the rest stay where they are. -/
theorem sweep_pass_append {pre post : List α} (h : ∀ a ∈ pre, Passes body t a) :
    sweep body t (pre ++ post) =
      { sweep body t post with items := pre ++ (sweep body t post).items } := by
  induction pre with
  | nil => rfl
  | cons a pre ih =>
    have ha := h a List.mem_cons_self
    have hpre := ih (fun b hb => h b (List.mem_cons_of_mem a hb))
    rw [List.cons_append, sweep_pass ha, hpre]
    rfl

/-- A loop in which every item goes by changes and emits nothing. -/
theorem sweep_all_pass {as : List α} (h : ∀ a ∈ as, Passes body t a) :
    sweep body t as = ⟨as, t, []⟩ := by
  have hs : sweep body t (as ++ []) = _ := sweep_pass_append h
  simpa only [List.append_nil, sweep] using hs

/-- An item at which the body returns is the last one visited. -/
theorem sweep_leave {a : α} {as : List α} (h : (body t a).leaves = true) :
    sweep body t (a :: as) = ⟨(body t a).item :: as, (body t a).shared, (body t a).emitted⟩ := by
  simp only [sweep, h, if_true]

/-- An item at which the body carries on leaves the rest to the loop. -/
theorem sweep_continue {a : α} {as : List α} (h : (body t a).leaves = false) :
    sweep body t (a :: as) =
      ⟨(body t a).item :: (sweep body (body t a).shared as).items,
        (sweep body (body t a).shared as).shared,
        (body t a).emitted ++ (sweep body (body t a).shared as).emitted⟩ := by
  simp only [sweep, h, Bool.false_eq_true, if_false]

/-- What every visit makes of its item and ensures of its outputs, the loop
makes of all items and ensures of all outputs, if items that are not visited
have it anyway. -/
theorem sweep_forall_of {P P' : α → Prop} {Q : ω → Prop} (hkeep : ∀ a, P a → P' a)
    (h : ∀ t a, P a → P' (body t a).item ∧ ∀ o ∈ (body t a).emitted, Q o) {as : List α}
    (ha : ∀ a ∈ as, P a) :
    (∀ a ∈ (sweep body t as).items, P' a) ∧ ∀ o ∈ (sweep body t as).emitted, Q o := by
  induction as generalizing t with
  | nil => exact ⟨List.forall_mem_nil _, List.forall_mem_nil _⟩
  | cons a as ih =>
    obtain ⟨hhead, htail⟩ := List.forall_mem_cons.mp ha
    obtain ⟨hitem, hemitted⟩ := h t a hhead
    cases hl : (body t a).leaves with
    | true =>
      rw [sweep_leave hl]
      exact ⟨List.forall_mem_cons.mpr ⟨hitem, fun b hb => hkeep b (htail b hb)⟩, hemitted⟩
    | false =>
      obtain ⟨hitems, hrest⟩ := ih (t := (body t a).shared) htail
      rw [sweep_continue hl]
      exact ⟨List.forall_mem_cons.mpr ⟨hitem, hitems⟩, List.forall_mem_append.mpr ⟨hemitted, hrest⟩⟩

/-- What every visit keeps of its item and ensures of its outputs, the loop
keeps of all items and ensures of all outputs. -/
theorem sweep_forall {P : α → Prop} {Q : ω → Prop}
    (h : ∀ t a, P a → P (body t a).item ∧ ∀ o ∈ (body t a).emitted, Q o) {as : List α}
    (ha : ∀ a ∈ as, P a) :
    (∀ a ∈ (sweep body t as).items, P a) ∧ ∀ o ∈ (sweep body t as).emitted, Q o :=
  sweep_forall_of (fun _ hp => hp) h ha

/-- A loop neither empties nor fills a list. -/
theorem sweep_isEmpty (t : τ) (as : List α) : (sweep body t as).items.isEmpty = as.isEmpty := by
  cases as with
  | nil => rfl
  | cons a as =>
    simp only [sweep]
    split_ifs <;> rfl

/-- A loop whose body never returns is a map. -/
theorem sweep_map {f : α → α} {emit : α → List ω} {as : List α}
    (h : ∀ a ∈ as, body t a = ⟨f a, t, emit a, false⟩) :
    sweep body t as = ⟨as.map f, t, as.flatMap emit⟩ := by
  induction as with
  | nil => rfl
  | cons a as ih =>
    obtain ⟨ha, has⟩ := List.forall_mem_cons.mp h
    rw [sweep_continue (congrArg Visit.leaves ha), ha, ih has]
    rfl

/-- A loop that also keeps an account of its outputs is the loop without the
account. -/
theorem sweep_told {τ' κ : Type*} {tell : ω → Option κ} {telling : τ' → α → Visit α τ' ω}
    (into : τ → List κ → τ') (h : ∀ t told a, telling (into t told) a = ⟨(body t a).item,
      into (body t a).shared (told ++ (body t a).emitted.filterMap tell), (body t a).emitted,
      (body t a).leaves⟩) (told : List κ) (as : List α) :
    sweep telling (into t told) as = ⟨(sweep body t as).items,
      into (sweep body t as).shared (told ++ (sweep body t as).emitted.filterMap tell),
      (sweep body t as).emitted⟩ := by
  induction as generalizing t told with
  | nil => simp only [sweep, List.filterMap_nil, List.append_nil]
  | cons a as ih =>
    have ha := h t told a
    cases hl : (body t a).leaves with
    | true =>
      rw [sweep_leave hl, sweep_leave ((congrArg Visit.leaves ha).trans hl), ha]
    | false =>
      rw [sweep_continue hl, sweep_continue ((congrArg Visit.leaves ha).trans hl), ha]
      dsimp only
      rw [ih, List.filterMap_append, List.append_assoc]

/-- The first item with a property splits a list. -/
theorem split_first (p : α → Prop) [DecidablePred p] (as : List α) :
    (∀ a ∈ as, ¬ p a) ∨ ∃ pre a post, as = pre ++ a :: post ∧ p a ∧ ∀ b ∈ pre, ¬ p b := by
  induction as with
  | nil => exact Or.inl (by simp)
  | cons a as ih =>
    by_cases ha : p a
    · exact Or.inr ⟨[], a, as, rfl, ha, by simp⟩
    · rcases ih with hnone | ⟨pre, b, post, rfl, hb, hpre⟩
      · exact Or.inl (List.forall_mem_cons.mpr ⟨ha, hnone⟩)
      · exact Or.inr ⟨a :: pre, b, post, rfl, hb, List.forall_mem_cons.mpr ⟨ha, hpre⟩⟩

end TintempPlusPlus.ScanLoop
