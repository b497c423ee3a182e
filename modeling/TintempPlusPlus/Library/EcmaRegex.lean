import Mathlib.Data.List.Basic
import Mathlib.Data.List.Infix

/-!
# Regular expressions of the ECMAScript grammar

A regular expression is matched by backtracking: from a position in the
subject it leads to the positions after its matches, in the order in which
the matcher tries them. A search succeeds if some position of the subject
leads to at least one.
-/

namespace TintempPlusPlus.EcmaRegex

/-- Named kinds of characters: those of the escapes, and those of bracket
expressions. -/
inductive Kind where
  | digit | space | word | alnum | alpha | blank | cntrl | graph | lower | print | punct | upper
  | xdigit

/-- A character that can stand in a word. -/
def isWord (c : Char) : Bool := c.isAlphanum || c == '_'

/-- A character between the blank and the end of ASCII. -/
def isGraph (c : Char) : Bool := decide (32 < c.toNat ∧ c.toNat < 127)

/-- Value of a hexadecimal digit. -/
def hexValue (c : Char) : Option ℕ :=
  if c.isDigit then some (c.toNat - 48)
  else if 'a' ≤ c ∧ c ≤ 'f' then some (c.toNat - 87)
  else if 'A' ≤ c ∧ c ≤ 'F' then some (c.toNat - 55)
  else none

/-- The characters of a kind. -/
def Kind.contains (c : Char) : Kind → Bool
  | digit => c.isDigit
  | space => c == ' ' || decide (9 ≤ c.toNat ∧ c.toNat ≤ 13)
  | word => isWord c
  | alnum => c.isAlphanum
  | alpha => c.isAlpha
  | blank => c == ' ' || c == '\t'
  | cntrl => decide (c.toNat < 32 ∨ c.toNat = 127)
  | graph => isGraph c
  | lower => c.isLower
  | print => c == ' ' || isGraph c
  | punct => isGraph c && !c.isAlphanum
  | upper => c.isUpper
  | xdigit => (hexValue c).isSome

/-- One item of a character class. -/
inductive Item where
  /-- The characters of a range. -/
  | range (first last : Char)
  /-- The characters of a kind, or all the others. -/
  | kind (negated : Bool) (k : Kind)

/-- The characters of an item. -/
def Item.contains (c : Char) : Item → Bool
  | range first last => decide (first ≤ c ∧ c ≤ last)
  | kind negated k => k.contains c != negated

/-- A regular expression. -/
inductive Regex where
  /-- The empty match. -/
  | empty
  /-- This character. -/
  | char (c : Char)
  /-- Every character but the ends of lines. -/
  | any
  /-- A character class. -/
  | chars (negated : Bool) (items : List Item)
  /-- The start of the subject. -/
  | start
  /-- The end of the subject. -/
  | finish
  /-- An edge of a word, or no such edge. -/
  | boundary (negated : Bool)
  /-- What a capture group has matched. -/
  | backref (group : ℕ)
  /-- A capture group. -/
  | group (index : ℕ) (r : Regex)
  /-- What follows matches, or does not. -/
  | look (negated : Bool) (r : Regex)
  /-- One after the other. -/
  | concat (r s : Regex)
  /-- One or the other. -/
  | alt (r s : Regex)
  /-- Several times in a row. -/
  | repeated (r : Regex) (min : ℕ) (max : Option ℕ) (greedy : Bool)

/-- A position in the subject and what the groups have captured. -/
structure State where
  /-- The characters before the position, the nearest one first. -/
  before : List Char
  /-- The characters after the position. -/
  after : List Char
  /-- What the groups have captured. -/
  captures : ℕ → Option (List Char) := fun _ => none

/-- Go over the next character. -/
def State.over (x : State) (c : Char) (rest : List Char) : State :=
  { x with before := c :: x.before, after := rest }

/-- Go over a text that stands at the position. -/
def State.overText (x : State) (text : List Char) : State :=
  { x with before := text.reverse ++ x.before, after := x.after.drop text.length }

/-- Match one character. -/
def State.one (x : State) (p : Char → Bool) : List State :=
  match x.after with
  | [] => []
  | c :: rest => if p c then [x.over c rest] else []

/-- An end of a line. -/
def isLineEnd (c : Char) : Bool :=
  c == '\n' || c == '\r' || c == '\u2028' || c == '\u2029'

/-- The position is at an edge of a word. -/
def State.atBoundary (x : State) : Bool :=
  x.before.head?.any isWord != x.after.head?.any isWord

/-- The groups of a regular expression. -/
def Regex.groups : Regex → List ℕ
  | group index r => index :: r.groups
  | look _ r => r.groups
  | concat r s => r.groups ++ s.groups
  | alt r s => r.groups ++ s.groups
  | repeated r _ _ _ => r.groups
  | _ => []

/-- Forget what some groups have captured. -/
def State.forget (x : State) (groups : List ℕ) : State :=
  { x with captures := fun n => if n ∈ groups then none else x.captures n }

/-- Remember what a group has captured between two positions. -/
def State.capture (x y : State) (index : ℕ) : State :=
  let text := (y.before.take (y.before.length - x.before.length)).reverse
  { y with captures := fun n => if n = index then some text else y.captures n }

/-- Match several times in a row. Past the required number of times an
empty match is refused, so `min` and the length of the rest bound the number
of rounds, which is the first argument. -/
def rounds (body : State → List State) (greedy : Bool) :
    ℕ → ℕ → Option ℕ → State → List State
  | 0, _, _, _ => []
  | fuel + 1, min, max, x =>
    if max = some 0 then [x]
    else
      let again := (body x).flatMap fun y =>
        if min = 0 ∧ y.after.length = x.after.length then []
        else rounds body greedy fuel (min - 1) (max.map (· - 1)) y
      if min ≠ 0 then again else if greedy then again ++ [x] else x :: again

/-- The positions after the matches, in the order of the attempts. -/
def Regex.run : Regex → State → List State
  | empty, x => [x]
  | char c, x => x.one fun d => d == c
  | any, x => x.one fun d => !isLineEnd d
  | chars negated items, x => x.one fun d => items.any (Item.contains d) != negated
  | start, x => if x.before = [] then [x] else []
  | finish, x => if x.after = [] then [x] else []
  | boundary negated, x => if x.atBoundary != negated then [x] else []
  | backref n, x =>
    match x.captures n with
    | none => [x]
    | some text => if text <+: x.after then [x.overText text] else []
  | group index r, x => (r.run x).map fun y => x.capture y index
  | look false r, x =>
    -- an assertion keeps the captures of its first match only
    match r.run x with
    | [] => []
    | y :: _ => [{ x with captures := y.captures }]
  | look true r, x => if (r.run x).isEmpty then [x] else []
  | concat r s, x => (r.run x).flatMap s.run
  | alt r s, x => r.run x ++ s.run x
  | repeated r min max greedy, x =>
    rounds (fun y => r.run (y.forget r.groups)) greedy (min + x.after.length + 1) min max x

/-- A position of the subject. -/
def position (subject : List Char) (i : ℕ) : State :=
  { before := (subject.take i).reverse, after := subject.drop i }

/-- `regex_search` -/
def Regex.search (r : Regex) (subject : List Char) : Bool :=
  (List.range (subject.length + 1)).any fun i => !(r.run (position subject i)).isEmpty

variable {r s : Regex} {x y : State} {subject text : List Char} {c : Char}

/-- A row matches one part after the other. -/
theorem run_concat (r s : Regex) (x : State) :
    (Regex.concat r s).run x = (r.run x).flatMap s.run := rfl

/-- An alternative matches in one of two ways, the first one first. -/
theorem run_alt (r s : Regex) (x : State) : (Regex.alt r s).run x = r.run x ++ s.run x := rfl

/-- One character is matched when it is the next one. -/
theorem mem_one {p : Char → Bool} : y ∈ x.one p ↔
    ∃ c rest, x.after = c :: rest ∧ p c = true ∧ y = x.over c rest := by
  unfold State.one
  cases h : x.after with
  | nil => simp
  | cons c rest =>
    by_cases hc : p c = true
    · simp [hc]
    · simp [hc]

/-- A search succeeds where some position has a match. -/
theorem search_iff : r.search subject = true ↔
    ∃ i ≤ subject.length, r.run (position subject i) ≠ [] := by
  simp only [Regex.search, List.any_eq_true, List.mem_range, Nat.lt_succ_iff, Bool.not_eq_true',
    List.isEmpty_eq_false_iff]

/-- One term after the other, in a row. -/
def Regex.row (r : Regex) (rs : List Regex) : Regex := rs.foldl .concat r

/-- A row begins with its first term. -/
theorem row_cons (r s : Regex) (rs : List Regex) : r.row (s :: rs) = (Regex.concat r s).row rs :=
  rfl

/-- A text in a row matches where it stands. -/
theorem run_literal (r : Regex) (text : List Char) (x : State) :
    (r.row (text.map .char)).run x ≠ [] ↔ ∃ y ∈ r.run x, text <+: y.after := by
  induction text generalizing r with
  | nil => simp [Regex.row, List.eq_nil_iff_forall_not_mem]
  | cons c text ih =>
    rw [List.map_cons, row_cons, ih, run_concat]
    constructor
    · rintro ⟨z, hz, htext⟩
      obtain ⟨y, hy, hone⟩ := List.mem_flatMap.mp hz
      obtain ⟨d, rest, hafter, hd, rfl⟩ := mem_one.mp hone
      refine ⟨y, hy, ?_⟩
      rw [hafter, eq_of_beq hd]
      exact List.cons_prefix_cons.mpr ⟨rfl, htext⟩
    · rintro ⟨y, hy, rest, hafter⟩
      refine ⟨y.over c (text ++ rest), List.mem_flatMap.mpr ⟨y, hy, ?_⟩, rest, rfl⟩
      exact mem_one.mpr ⟨c, text ++ rest, hafter.symm, beq_self_eq_true c, rfl⟩

/-- What begins at the start of the subject is searched there only. -/
theorem search_anchored (r : Regex) (text : List Char) (subject : List Char) :
    ((Regex.concat (.concat .empty .start) r).row (text.map .char)).search subject = true ↔
      ∃ y ∈ r.run (position subject 0), text <+: y.after := by
  rw [search_iff]
  constructor
  · rintro ⟨i, hi, hrun⟩
    obtain ⟨y, hy, htext⟩ := (run_literal _ _ _).mp hrun
    simp only [Regex.run, List.flatMap_cons, List.flatMap_nil, List.append_nil] at hy
    split at hy
    · rename_i hbefore
      have hzero : position subject i = position subject 0 := by
        have htake : subject.take i = [] := by simpa [position] using hbefore
        rcases List.take_eq_nil_iff.mp htake with rfl | rfl
        · rfl
        · simp [position]
      rw [hzero] at hy
      exact ⟨y, by simpa using hy, htext⟩
    · cases hy
  · rintro ⟨y, hy, htext⟩
    refine ⟨0, Nat.zero_le _, (run_literal _ _ _).mpr ⟨y, ?_, htext⟩⟩
    simpa [run_concat, Regex.run, position] using hy

section Renaming

variable (f : Char → Char)

/-- Rename the characters of the subject. -/
def State.rename (x : State) : State where
  before := x.before.map f
  after := x.after.map f
  captures := fun n => (x.captures n).map (List.map f)

/-- Nothing in the regular expression tells a character from its new
name. -/
def Regex.Blind : Regex → Prop
  | char c => ∀ d, f d = c ↔ d = c
  | any => ∀ d, isLineEnd (f d) = isLineEnd d
  | chars _ items => ∀ d, items.any (Item.contains (f d)) = items.any (Item.contains d)
  | boundary _ => ∀ d, isWord (f d) = isWord d
  | backref _ => Function.Injective f
  | group _ r => r.Blind
  | look _ r => r.Blind
  | concat r s => r.Blind ∧ s.Blind
  | alt r s => r.Blind ∧ s.Blind
  | repeated r _ _ _ => r.Blind
  | _ => True

variable {f}

/-- Matching one character does not see a renaming that its test does not see.
-/
theorem one_rename {p : Char → Bool} (hp : ∀ d, p (f d) = p d) (x : State) :
    (x.rename f).one p = (x.one p).map (State.rename f) := by
  unfold State.one State.rename
  cases x.after with
  | nil => rfl
  | cons c rest =>
    simp only [List.map_cons, hp]
    split <;> rfl

/-- Renaming keeps the length of what is left. -/
theorem length_rename (x : State) : (x.rename f).after.length = x.after.length :=
  List.length_map _

/-- The rounds of a loop do not see a renaming that its body does not see. -/
theorem rounds_rename {body : State → List State} {greedy : Bool}
    (hbody : ∀ x, body (x.rename f) = (body x).map (State.rename f)) (fuel min : ℕ)
    (max : Option ℕ) (x : State) : rounds body greedy fuel min max (x.rename f) =
      (rounds body greedy fuel min max x).map (State.rename f) := by
  induction fuel generalizing min max x with
  | zero => rfl
  | succ fuel ih =>
    have hagain : ∀ y, (if min = 0 ∧ (y.rename f).after.length = (x.rename f).after.length then []
        else rounds body greedy fuel (min - 1) (max.map (· - 1)) (y.rename f)) =
        (if min = 0 ∧ y.after.length = x.after.length then []
          else rounds body greedy fuel (min - 1) (max.map (· - 1)) y).map (State.rename f) := by
      intro y
      rw [length_rename, length_rename, ih]
      split <;> rfl
    simp only [rounds, hbody, List.flatMap_map, hagain]
    split_ifs <;> simp [List.map_flatMap]

/-- Forgetting groups and renaming change places. -/
theorem forget_rename (groups : List ℕ) (x : State) :
    (x.rename f).forget groups = (x.forget groups).rename f := by
  simp only [State.forget, State.rename, State.mk.injEq, true_and]
  funext n
  split <;> rfl

/-- Capturing a group and renaming change places. -/
theorem capture_rename (index : ℕ) (x y : State) :
    (x.rename f).capture (y.rename f) index = (x.capture y index).rename f := by
  simp only [State.capture, State.rename, State.mk.injEq, true_and]
  funext n
  split
  · simp [List.map_reverse, List.map_take]
  · rfl

/-- The edges of words stay when words do. -/
theorem atBoundary_rename (hf : ∀ d, isWord (f d) = isWord d) (x : State) :
    (x.rename f).atBoundary = x.atBoundary := by
  have hany : ∀ list : List Char, (list.map f).head?.any isWord = list.head?.any isWord := by
    intro list
    cases list with
    | nil => rfl
    | cons c rest => exact hf c
  simp only [State.atBoundary, State.rename, hany]

/-- An injective renaming keeps prefixes. -/
theorem prefix_rename (hf : Function.Injective f) {text rest : List Char} :
    text.map f <+: rest.map f ↔ text <+: rest := by
  refine ⟨fun h => ?_, fun h => h.map f⟩
  obtain ⟨text', hprefix, hmap⟩ := List.prefix_map_iff.mp h
  rw [List.map_injective_iff.mpr hf hmap]
  exact hprefix

/-- Renaming what a regular expression cannot tell apart renames its
matches. -/
theorem run_rename (h : r.Blind f) (x : State) :
    r.run (x.rename f) = (r.run x).map (State.rename f) := by
  induction r generalizing x with
  | empty => rfl
  | char c => exact one_rename (fun d => by simpa using h d) x
  | any => exact one_rename (fun d => by rw [h d]) x
  | chars negated items => exact one_rename (fun d => by rw [h d]) x
  | start =>
    simp only [Regex.run, State.rename, List.map_eq_nil_iff]
    split <;> rfl
  | finish =>
    simp only [Regex.run, State.rename, List.map_eq_nil_iff]
    split <;> rfl
  | boundary negated =>
    simp only [Regex.run, atBoundary_rename h]
    split <;> rfl
  | backref n =>
    simp only [Regex.run]
    cases hn : x.captures n with
    | none => simp [State.rename, hn]
    | some text =>
      have hcapture : (x.rename f).captures n = some (text.map f) := by simp [State.rename, hn]
      have hafter : (x.rename f).after = x.after.map f := rfl
      simp only [hcapture, hafter, prefix_rename h]
      split
      · simp [State.overText, State.rename, List.map_drop]
      · rfl
  | group index r ih =>
    simp only [Regex.run, ih h, List.map_map, Function.comp_def, capture_rename]
  | look negated r ih =>
    cases negated with
    | false =>
      simp only [Regex.run, ih h]
      cases r.run x <;> rfl
    | true =>
      simp only [Regex.run, ih h, List.isEmpty_map]
      split <;> rfl
  | concat r s ihr ihs =>
    simp only [run_concat, ihr h.1, List.flatMap_map, List.map_flatMap, ihs h.2]
  | alt r s ihr ihs =>
    rw [run_alt, run_alt, ihr h.1, ihs h.2, List.map_append]
  | repeated r min max greedy ih =>
    simp only [Regex.run, length_rename]
    refine rounds_rename (fun y => ?_) _ _ _ _
    rw [forget_rename, ih h]

/-- A position in a renamed subject is a renamed position. -/
theorem position_rename (subject : List Char) (i : ℕ) :
    position (subject.map f) i = (position subject i).rename f := by
  simp [position, State.rename, List.map_take, List.map_drop]

/-- A search finds the renamed subject as it finds the subject. -/
theorem search_rename (h : r.Blind f) (subject : List Char) :
    r.search (subject.map f) = r.search subject := by
  rw [Bool.eq_iff_iff, search_iff, search_iff, List.length_map]
  simp only [position_rename, run_rename h, ne_eq, List.map_eq_nil_iff]

end Renaming

end TintempPlusPlus.EcmaRegex
