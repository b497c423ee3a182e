import TintempPlusPlus.Library.EventRuns
import Mathlib.Data.Option.Basic

/-!
# A terminal that understands renditions

The terminal reads characters one by one. An escape character and a bracket
begin a control sequence of numbers, and the sequence that ends with an `m`
selects how later characters look. Everything else is shown. A sequence is
read back from its numerals, and a text without escape characters is shown
as it is.
-/

namespace TintempPlusPlus.Terminal

open EventRuns

/-- Red, green and blue. -/
abbrev Rgb := ℕ × ℕ × ℕ

/-- How a character looks. -/
@[ext] structure Rendition where
  /-- Bold. -/
  bold : Bool := false
  /-- Italicized. -/
  italic : Bool := false
  /-- Underlined. -/
  underlined : Bool := false
  /-- Crossed out. -/
  crossedOut : Bool := false
  /-- Colour of the character, unless it is the default. -/
  foreground : Option Rgb := none
  /-- Colour behind the character, unless it is the default. -/
  background : Option Rgb := none
  deriving DecidableEq, Repr

/-- Select graphic rendition: read the numbers from left to right. Unknown
numbers do nothing. -/
def Rendition.select : Rendition → List ℕ → Rendition
  | r, [] => r
  | r, 38 :: 2 :: red :: green :: blue :: rest =>
    Rendition.select { r with foreground := some (red, green, blue) } rest
  | r, 48 :: 2 :: red :: green :: blue :: rest =>
    Rendition.select { r with background := some (red, green, blue) } rest
  | _, 0 :: rest => Rendition.select {} rest
  | r, 1 :: rest => Rendition.select { r with bold := true } rest
  | r, 3 :: rest => Rendition.select { r with italic := true } rest
  | r, 4 :: rest => Rendition.select { r with underlined := true } rest
  | r, 9 :: rest => Rendition.select { r with crossedOut := true } rest
  | r, _ :: rest => Rendition.select r rest

/-- What the next character means. -/
inductive Mode where
  /-- It is shown. -/
  | ground
  /-- It follows an escape character. -/
  | escape
  /-- It belongs to a control sequence: the numbers so far and the digits of
  the last one. -/
  | control (numbers : List ℕ) (last : ℕ)
  deriving DecidableEq, Repr

/-- A terminal and what it has shown. -/
structure Tty where
  /-- Meaning of the next character. -/
  mode : Mode := .ground
  /-- Look of the next character. -/
  rendition : Rendition := {}
  /-- Everything shown so far, with its look. -/
  cells : List (Char × Rendition) := []
  deriving DecidableEq, Repr

/-- The escape character. -/
def escape : Char := '\x1b'

/-- Value of a digit. -/
def digitValue (c : Char) : ℕ := c.toNat - '0'.toNat

/-- One character. A control sequence that does not select a rendition is
skipped. -/
def Tty.put (t : Tty) (c : Char) : Tty :=
  match t.mode with
  | .ground =>
    if c = escape then { t with mode := .escape }
    else { t with cells := t.cells ++ [(c, t.rendition)] }
  | .escape => { t with mode := if c = '[' then .control [] 0 else .ground }
  | .control numbers last =>
    if c.isDigit then { t with mode := .control numbers (10 * last + digitValue c) }
    else if c = ';' then { t with mode := .control (numbers ++ [last]) 0 }
    else if c = 'm' then
      { t with mode := .ground, rendition := t.rendition.select (numbers ++ [last]) }
    else { t with mode := .ground }

/-- A text with one look. -/
def painted (r : Rendition) (text : List Char) : List (Char × Rendition) :=
  text.map fun c => (c, r)

/-- The value of a row of digits. -/
def numeral (digits : List Char) : ℕ := digits.foldl (fun n c => 10 * n + digitValue c) 0

/-- The control sequence that selects a rendition by rows of digits. -/
def controlSequence : List (List Char) → List Char
  | [] => ['m']
  | [digits] => digits ++ ['m']
  | digits :: rest => digits ++ ';' :: controlSequence rest

variable {t : Tty} {text digits : List Char} {r : Rendition} {numbers : List ℕ} {last : ℕ}

/-- A text without escape characters is shown. -/
theorem put_text (hm : t.mode = .ground) (h : escape ∉ text) :
    after Tty.put t text = { t with cells := t.cells ++ painted t.rendition text } := by
  induction text generalizing t with
  | nil => simp [painted]
  | cons c text ih =>
    obtain ⟨hc, htext⟩ := not_or.mp fun hin => h (List.mem_cons.mpr hin)
    have hput : t.put c = { t with cells := t.cells ++ [(c, t.rendition)] } := by
      unfold Tty.put
      rw [hm]
      exact if_neg (Ne.symm hc)
    rw [after_cons, hput, ih ?_ htext]
    · simp [painted]
    · exact hm

/-- Digits extend the last number. -/
theorem put_digits (hm : t.mode = .control numbers last) (h : ∀ c ∈ digits, c.isDigit = true) :
    after Tty.put t digits =
      { t with mode := .control numbers (digits.foldl (fun n c => 10 * n + digitValue c) last) } := by
  induction digits generalizing t last with
  | nil =>
    rw [after_nil, List.foldl_nil, ← hm]
  | cons c digits ih =>
    obtain ⟨hc, hdigits⟩ := List.forall_mem_cons.mp h
    have hput : t.put c = { t with mode := .control numbers (10 * last + digitValue c) } := by
      unfold Tty.put
      rw [hm]
      exact if_pos hc
    rw [after_cons, hput, ih rfl hdigits, List.foldl_cons]

/-- The rest of a sequence selects its numbers after those read before. -/
theorem put_controlSequence {rows : List (List Char)} (hrows : rows ≠ [])
    (hm : t.mode = .control numbers 0) (h : ∀ digits ∈ rows, ∀ c ∈ digits, c.isDigit = true) :
    after Tty.put t (controlSequence rows) =
      { t with
        mode := .ground
        rendition := t.rendition.select (numbers ++ rows.map numeral) } := by
  induction rows generalizing t numbers with
  | nil => exact absurd rfl hrows
  | cons digits rows ih =>
    obtain ⟨hdigits, hrest⟩ := List.forall_mem_cons.mp h
    cases rows with
    | nil =>
      rw [controlSequence, after_concat, put_digits hm hdigits]
      rfl
    | cons next rows =>
      have hread : after Tty.put t (digits ++ [';']) =
          { t with mode := .control (numbers ++ [numeral digits]) 0 } := by
        rw [after_concat, put_digits hm hdigits]
        rfl
      rw [controlSequence, List.append_cons, after_append, hread,
        ih (List.cons_ne_nil _ _) rfl hrest]
      simp
      exact fun he => by cases he

/-- A control sequence read from its beginning. -/
theorem put_control {rows : List (List Char)} (hrows : rows ≠ []) (hm : t.mode = .ground)
    (h : ∀ digits ∈ rows, ∀ c ∈ digits, c.isDigit = true) :
    after Tty.put t (escape :: '[' :: controlSequence rows) =
      { t with rendition := t.rendition.select (rows.map numeral) } := by
  have hopen : after Tty.put t [escape, '['] = { t with mode := .control [] 0 } := by
    simp [after, Tty.put, hm]
  rw [show escape :: '[' :: controlSequence rows = [escape, '['] ++ controlSequence rows from rfl,
    after_append, hopen, put_controlSequence hrows rfl h]
  simp only [List.nil_append, ← hm]

end TintempPlusPlus.Terminal
