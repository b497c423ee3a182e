import Mathlib.Data.List.Perm.Basic
import Mathlib.Data.List.Pairwise

/-!
# One entry of a keyed list

A list whose entries carry distinct keys is searched, updated and shortened
by key. Split around one of its entries, each of these operations acts on
that entry and leaves the two sides alone.
-/

namespace TintempPlusPlus.OneEntry

variable {α κ : Type*} {R : α → α → Prop} {pre post : List α} {a b : α}

/-- A symmetric relation among all entries, read off at one of them. -/
theorem pairwise_split (hs : ∀ a b, R a b → R b a) :
    (pre ++ a :: post).Pairwise R ↔
      (∀ b ∈ pre ++ post, R a b) ∧ (pre ++ post).Pairwise R := by
  rw [List.pairwise_middle (fun {a b} => hs a b), List.pairwise_cons]

/-- An entry may be replaced by one that is related to all the others. -/
theorem pairwise_replace (hs : ∀ a b, R a b → R b a) (h : (pre ++ a :: post).Pairwise R)
    (hb : ∀ c ∈ pre ++ post, R a c → R b c) : (pre ++ b :: post).Pairwise R := by
  rw [pairwise_split hs] at h ⊢
  exact ⟨fun c hc => hb c hc (h.1 c hc), h.2⟩

/-- The entry of a split is in the list. -/
theorem mem_of_split {as : List α} (h : as = pre ++ a :: post) : a ∈ as := by
  rw [h]
  exact List.mem_append_cons_self

/-- An element is the entry or one of the others. -/
theorem mem_entry {c : α} : c ∈ pre ++ a :: post ↔ c = a ∨ c ∈ pre ++ post := by
  simp only [List.mem_append, List.mem_cons]
  tauto

/-- A fact about all entries, read off at one of them. -/
theorem forall_entry {p : α → Prop} :
    (∀ c ∈ pre ++ a :: post, p c) ↔ p a ∧ ∀ c ∈ pre ++ post, p c := by
  simp only [mem_entry, forall_eq_or_imp]

/-- A search finds what it would have found before other entries were edited. -/
theorem find_edited {as : List α} {f : α → Option α} {p : α → Bool}
    (hp : ∀ c ∈ as, p c = true → f c = some c)
    (hn : ∀ c ∈ as, p c = false → ∀ d, f c = some d → p d = false) :
    (as.filterMap f).find? p = as.find? p := by
  induction as with
  | nil => rfl
  | cons c as ih =>
    obtain ⟨hpc, hpas⟩ := List.forall_mem_cons.mp hp
    obtain ⟨hnc, hnas⟩ := List.forall_mem_cons.mp hn
    cases hc : p c with
    | true =>
      rw [List.filterMap_cons_some (hpc hc), List.find?_cons_of_pos hc, List.find?_cons_of_pos hc]
    | false =>
      have hneg : ¬ p c = true := by simp [hc]
      rw [List.find?_cons_of_neg hneg, ← ih hpas hnas]
      cases hf : f c with
      | none => rw [List.filterMap_cons_none hf]
      | some d =>
        rw [List.filterMap_cons_some hf, List.find?_cons_of_neg]
        simp [hnc hc d hf]

section Keys

variable [DecidableEq κ] {key : α → κ} {k : κ}

/-- An update by key leaves the other entries alone. -/
theorem map_elsewhere {as : List α} (h : ∀ c ∈ as, key c ≠ k) (f : α → α) :
    as.map (fun c => if key c = k then f c else c) = as := by
  have hid : as.map (fun c => if key c = k then f c else c) = as.map id :=
    List.map_congr_left fun c hc => if_neg (h c hc)
  rw [hid, List.map_id]

/-- Updates by different keys can be made in either order. -/
theorem map_map_other (key : α → κ) {as : List α} {l : κ} {f g : α → α} (hkl : k ≠ l)
    (hf : ∀ c, key (f c) = key c) (hg : ∀ c, key (g c) = key c) :
    (as.map fun c => if key c = k then f c else c).map (fun c => if key c = l then g c else c) =
      (as.map fun c => if key c = l then g c else c).map
        fun c => if key c = k then f c else c := by
  rw [List.map_map, List.map_map]
  refine List.map_congr_left fun c _ => ?_
  by_cases hk : key c = k
  · have hl : key c ≠ l := hk ▸ hkl
    simp [hk, hkl, hf]
  · by_cases hl : key c = l
    · simp [hl, hkl.symm, hg]
    · simp [hk, hl]

/-- A search for a key that no entry has finds nothing. -/
theorem find_elsewhere {as : List α} (h : ∀ c ∈ as, key c ≠ k) :
    as.find? (fun c => decide (key c = k)) = none := by
  rw [List.find?_eq_none]
  intro c hc
  simpa using h c hc

/-- Erasing a key that no entry has changes nothing. -/
theorem filter_elsewhere {as : List α} (h : ∀ c ∈ as, key c ≠ k) :
    as.filter (fun c => decide (key c ≠ k)) = as := by
  rw [List.filter_eq_self]
  intro c hc
  simpa using h c hc

/-- A search by another key does not see the entry. -/
theorem find_other (h : key a ≠ k) :
    (pre ++ a :: post).find? (fun c => decide (key c = k)) =
      (pre ++ post).find? (fun c => decide (key c = k)) := by
  simp [List.find?_append, h]

variable (hkey : ∀ c ∈ pre ++ post, key c ≠ key a)

include hkey

/-- An update by key reaches one entry. -/
theorem map_entry (f : α → α) :
    (pre ++ a :: post).map (fun c => if key c = key a then f c else c) = pre ++ f a :: post := by
  obtain ⟨hpre, hpost⟩ := List.forall_mem_append.mp hkey
  rw [List.map_append, List.map_cons, if_pos rfl, map_elsewhere hpre, map_elsewhere hpost]

/-- A search by key finds one entry. -/
theorem find_entry :
    (pre ++ a :: post).find? (fun c => decide (key c = key a)) = some a := by
  obtain ⟨hpre, -⟩ := List.forall_mem_append.mp hkey
  rw [List.find?_append, find_elsewhere hpre, Option.none_or, List.find?_cons_of_pos (by simp)]

/-- A removal by key removes one entry. -/
theorem filter_entry :
    (pre ++ a :: post).filter (fun c => decide (key c ≠ key a)) = pre ++ post := by
  obtain ⟨hpre, hpost⟩ := List.forall_mem_append.mp hkey
  rw [List.filter_append, List.filter_cons_of_neg (by simp), filter_elsewhere hpre,
    filter_elsewhere hpost]

end Keys

end TintempPlusPlus.OneEntry
