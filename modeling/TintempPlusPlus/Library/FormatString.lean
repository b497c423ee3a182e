import Mathlib.Data.List.Basic
import Mathlib.Data.List.Infix

/-!
# Format strings

An opening and a closing brace are a field and stand for the next argument;
a doubled brace stands for one brace. Any other brace is an error: a field
that names its argument or its width is not an automatic one, and without
arguments it fails like every other field.
-/

namespace TintempPlusPlus.FormatString

/-- The characters of a string. -/
abbrev Text := List Char

/-- Put the arguments into the fields of a format string, in their order.
Surplus arguments are ignored, and `none` is a format error. -/
def format : List Text → Text → Option Text
  | _, [] => some []
  | args, '{' :: '{' :: rest => (format args rest).map fun text => '{' :: text
  | arg :: args, '{' :: '}' :: rest => (format args rest).map fun text => arg ++ text
  | args, '}' :: '}' :: rest => (format args rest).map fun text => '}' :: text
  | args, c :: rest =>
    if c = '{' ∨ c = '}' then none else (format args rest).map fun text => c :: text

/-- No character of the text is a brace. -/
def Plain (text : Text) : Prop := ∀ c ∈ text, c ≠ '{' ∧ c ≠ '}'

instance decidablePlain (text : Text) : Decidable (Plain text) :=
  List.decidableBAll (fun c => c ≠ '{' ∧ c ≠ '}') text

/-- Number of braces of a text. -/
def braces (text : Text) : ℕ := text.countP fun c => decide (c = '{' ∨ c = '}')

variable {args : List Text} {arg text rest pre post t u : Text} {c : Char}

/-- A text is plain when both of its parts are. -/
theorem plain_append : Plain (t ++ u) ↔ Plain t ∧ Plain u :=
  List.forall_mem_append

/-- The braces of two parts add up. -/
theorem braces_append (t u : Text) : braces (t ++ u) = braces t + braces u :=
  List.countP_append

/-- The first character counts if it is a brace. -/
theorem braces_cons (c : Char) (text : Text) :
    braces (c :: text) = braces text + if c = '{' ∨ c = '}' then 1 else 0 := by
  simp [braces, List.countP_cons]

/-- A plain text has no brace. -/
theorem plain_iff : Plain text ↔ braces text = 0 := by
  simp [Plain, braces, List.countP_eq_zero]

/-- The empty format prints nothing. -/
@[simp] theorem format_nil (args : List Text) : format args [] = some [] := by
  cases args <;> rfl

/-- A field prints the next argument. -/
@[simp] theorem format_field (arg : Text) (args : List Text) (rest : Text) :
    format (arg :: args) ('{' :: '}' :: rest) = (format args rest).map fun text => arg ++ text := by
  rw [format]

/-- A character that is no brace stands for itself. -/
theorem format_cons (ho : c ≠ '{') (hc : c ≠ '}') :
    format args (c :: rest) = (format args rest).map fun text => c :: text := by
  rw [format]
  · simp [ho, hc]
  · exact fun _ he => absurd he ho
  · exact fun _ he => absurd he hc
  · exact fun _ _ _ _ he => absurd he ho

/-- A text without braces stands for itself. -/
theorem format_plain (h : Plain text) : format args text = some text := by
  induction text with
  | nil => exact format_nil args
  | cons c text ih =>
    obtain ⟨⟨ho, hc⟩, htext⟩ := List.forall_mem_cons.mp h
    rw [format_cons ho hc, ih htext]
    rfl

/-- Without arguments each two braces of the format string make one. -/
theorem braces_format (h : format [] t = some u) : braces t = 2 * braces u := by
  generalize hargs : ([] : List Text) = args at h
  induction args, t using format.induct generalizing u with
  | case1 args =>
    cases (format_nil args).symm.trans h
    rfl
  | case2 args rest ih =>
    rw [format] at h
    obtain ⟨v, hv, rfl⟩ := Option.map_eq_some_iff.mp h
    have hrest := ih hargs hv
    simp only [braces_cons, true_or, if_true, hrest]
    omega
  | case3 => cases hargs
  | case4 args rest ih =>
    rw [format] at h
    obtain ⟨v, hv, rfl⟩ := Option.map_eq_some_iff.mp h
    have hrest := ih hargs hv
    simp only [braces_cons, or_true, if_true, hrest]
    omega
  | case5 args c rest hopen hfield hclose hbrace =>
    rw [format, if_pos hbrace] at h
    · cases h
    · exact hopen
    · exact hclose
    · exact hfield
  | case6 args c rest _ _ _ hbrace ih =>
    obtain ⟨ho, hc⟩ := not_or.mp hbrace
    rw [format_cons ho hc] at h
    obtain ⟨v, hv, rfl⟩ := Option.map_eq_some_iff.mp h
    simp only [braces_cons, if_neg hbrace, ih hargs hv, Nat.add_zero]

/-- Without arguments no new character appears. -/
theorem mem_of_format (h : format [] t = some u) (hc : c ∈ u) : c ∈ t := by
  generalize hargs : ([] : List Text) = args at h
  induction args, t using format.induct generalizing u with
  | case1 args =>
    cases (format_nil args).symm.trans h
    exact hc
  | case2 args rest ih =>
    rw [format] at h
    obtain ⟨v, hv, rfl⟩ := Option.map_eq_some_iff.mp h
    rcases List.mem_cons.mp hc with rfl | hc
    · exact List.mem_cons_self
    · exact List.mem_cons_of_mem _ (List.mem_cons_of_mem _ (ih hc hargs hv))
  | case3 => cases hargs
  | case4 args rest ih =>
    rw [format] at h
    obtain ⟨v, hv, rfl⟩ := Option.map_eq_some_iff.mp h
    rcases List.mem_cons.mp hc with rfl | hc
    · exact List.mem_cons_self
    · exact List.mem_cons_of_mem _ (List.mem_cons_of_mem _ (ih hc hargs hv))
  | case5 args c rest hopen hfield hclose hbrace =>
    rw [format, if_pos hbrace] at h
    · cases h
    · exact hopen
    · exact hclose
    · exact hfield
  | case6 args c rest _ _ _ hbrace ih =>
    obtain ⟨ho, hclose⟩ := not_or.mp hbrace
    rw [format_cons ho hclose] at h
    obtain ⟨v, hv, rfl⟩ := Option.map_eq_some_iff.mp h
    rcases List.mem_cons.mp hc with rfl | hc
    · exact List.mem_cons_self
    · exact List.mem_cons_of_mem _ (ih hc hargs hv)

/-- What is formatted without arguments occurs in its own output only if it
has no braces. -/
theorem plain_of_infix (h : format [] t = some u) (hpre : Plain pre) (hpost : Plain post)
    (hin : t <:+: pre ++ u ++ post) : Plain t := by
  have hle : braces t ≤ braces (pre ++ u ++ post) := hin.sublist.countP_le
  rw [braces_append, braces_append, plain_iff.mp hpre, plain_iff.mp hpost] at hle
  have hdouble := braces_format h
  rw [plain_iff]
  omega

end TintempPlusPlus.FormatString
