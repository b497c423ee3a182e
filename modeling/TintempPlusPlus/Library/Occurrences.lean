import Mathlib.Data.List.Basic

/-!
# What stands before each occurrence

Statements about the order of events in a history say that at every
occurrence of one entry the entries before it meet a condition. The lemmas
carry such statements along when the history grows or is filtered.
-/

namespace TintempPlusPlus.Occurrences

variable {α : Type*} {P Q : List α → Prop} {x : α} {as bs : List α}

/-- At every occurrence of `x` the entries before it meet `P`. -/
def BeforeEach (P : List α → Prop) (x : α) (as : List α) : Prop :=
  ∀ before behind, as = before ++ x :: behind → P before

/-- An occurrence in a joined list lies in one of its halves. -/
theorem split_append {before behind : List α} (h : as ++ bs = before ++ x :: behind) :
    (∃ rest, as = before ++ x :: rest ∧ behind = rest ++ bs) ∨
      ∃ start, bs = start ++ x :: behind ∧ before = as ++ start := by
  rcases List.append_eq_append_iff.mp h with ⟨start, hb, hx⟩ | ⟨rest, ha, hx⟩
  · exact Or.inr ⟨start, hx, hb⟩
  · cases rest with
    | nil =>
      rw [List.append_nil] at ha
      rw [List.nil_append] at hx
      exact Or.inr ⟨[], hx.symm, by rw [ha, List.append_nil]⟩
    | cons y rest =>
      rw [List.cons_append, List.cons.injEq] at hx
      obtain ⟨rfl, hrest⟩ := hx
      exact Or.inl ⟨rest, ha, hrest⟩

/-- What holds before each occurrence holds so in both parts. -/
theorem beforeEach_append :
    BeforeEach P x (as ++ bs) ↔
      BeforeEach P x as ∧ BeforeEach (fun start => P (as ++ start)) x bs := by
  constructor
  · intro h
    refine ⟨fun before behind hs => h before (behind ++ bs) ?_,
      fun before behind hs => h (as ++ before) behind ?_⟩
    · rw [hs, List.append_assoc]
      rfl
    · rw [hs, List.append_assoc]
  · rintro ⟨ha, hb⟩ before behind hs
    rcases split_append hs with ⟨rest, hl, -⟩ | ⟨start, hr, rfl⟩
    · exact ha before rest hl
    · exact hb start behind hr

/-- Nothing is claimed where the entry does not occur. -/
theorem beforeEach_of_notMem (h : x ∉ as) : BeforeEach P x as := by
  rintro before behind rfl
  simp at h

/-- Growing the history by other entries keeps the statement. -/
theorem BeforeEach.extend (h : BeforeEach P x as) (hb : x ∉ bs) : BeforeEach P x (as ++ bs) :=
  beforeEach_append.mpr ⟨h, beforeEach_of_notMem hb⟩

/-- Growing the history by the entry itself asks for the condition once. -/
theorem BeforeEach.concat (h : BeforeEach P x as) (hP : P as) : BeforeEach P x (as ++ [x]) := by
  refine beforeEach_append.mpr ⟨h, ?_⟩
  intro before behind hs
  cases before with
  | nil => simpa using hP
  | cons y before => simp at hs

/-- A statement about the filtered history is one about the history. -/
theorem BeforeEach.of_filter {p : α → Bool} (hx : p x = true)
    (h : BeforeEach P x (as.filter p)) : BeforeEach (fun before => P (before.filter p)) x as := by
  rintro before behind rfl
  refine h _ (behind.filter p) ?_
  rw [List.filter_append, List.filter_cons_of_pos hx]

end TintempPlusPlus.Occurrences
