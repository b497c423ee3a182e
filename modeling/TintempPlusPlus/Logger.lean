import TintempPlusPlus.Library.FormatString

/-!
# The console logger

Each case of the two loggers prints one line: the date, the level in
brackets and the message. Every piece goes through the styled formatter,
which reads it as a format string. So does the message.
-/

namespace TintempPlusPlus.Logger

open FormatString

/-- Colours of `fmt::color`. -/
inductive Color where
  | aquamarine | cornflowerBlue | crimson | darkGray | darkRed | deepPink | dimGray | fireBrick
  | ghostWhite | gold | honeyDew | hotPink | lightGoldenRodYellow | lightPink | orange | red
  | salmon

/-- The value of a colour. -/
def Color.hex : Color → UInt32
  | aquamarine => 0x7FFFD4
  | cornflowerBlue => 0x6495ED
  | crimson => 0xDC143C
  | darkGray => 0xA9A9A9
  | darkRed => 0x8B0000
  | deepPink => 0xFF1493
  | dimGray => 0x696969
  | fireBrick => 0xB22222
  | ghostWhite => 0xF8F8FF
  | gold => 0xFFD700
  | honeyDew => 0xF0FFF0
  | hotPink => 0xFF69B4
  | lightGoldenRodYellow => 0xFAFAD2
  | lightPink => 0xFFB6C1
  | orange => 0xFFA500
  | red => 0xFF0000
  | salmon => 0xFA8072

/-- `fmt::text_style` -/
structure TextStyle where
  /-- The foreground colour, when it is set. -/
  foregroundColor : Option UInt32 := none
  /-- The background colour, when it is set. -/
  backgroundColor : Option UInt32 := none
  /-- The bits of the emphasis. -/
  ems : UInt8 := 0

/-- Combine two colours. -/
def orColor : Option UInt32 → Option UInt32 → Option UInt32
  | none, color => color
  | color, none => color
  | some a, some b => some (a ||| b)

instance orTextStyle : OrOp TextStyle where
  or lhs rhs :=
    { foregroundColor := orColor lhs.foregroundColor rhs.foregroundColor
      backgroundColor := orColor lhs.backgroundColor rhs.backgroundColor
      ems := lhs.ems ||| rhs.ems }

/-- `fg` -/
def fg (color : Color) : TextStyle := { foregroundColor := some color.hex }

/-- `bg` -/
def bg (color : Color) : TextStyle := { backgroundColor := some color.hex }

/-- `emphasis::bold` -/
def bold : TextStyle := { ems := 1 }

/-- `emphasis::italic` -/
def italic : TextStyle := { ems := 2 }

/-- `emphasis::strikethrough` -/
def strikethrough : TextStyle := { ems := 8 }

/-- A decimal digit. -/
def digit (d : ℕ) : Char := Char.ofNat (48 + d)

/-- `to_esc` -/
def toEsc (c : UInt8) (delimiter : Char) : Text :=
  [digit (c.toNat / 100), digit (c.toNat / 10 % 10), digit (c.toNat % 10), delimiter]

/-- The escape sequence of a colour. -/
def colorEscape (esc : Text) (color : UInt32) : Text :=
  esc ++ toEsc (color >>> 16).toUInt8 ';' ++ toEsc (color >>> 8).toUInt8 ';' ++
    toEsc color.toUInt8 'm'

/-- The escape sequence of one emphasis. -/
def emphasisEscape (ems bit : UInt8) (code : ℕ) : Text :=
  if ems &&& bit ≠ 0 then ['\x1b', '[', digit code, 'm'] else []

/-- What is written before a styled text. -/
def TextStyle.opening (ts : TextStyle) : Text :=
  emphasisEscape ts.ems 1 1 ++ emphasisEscape ts.ems 2 3 ++ emphasisEscape ts.ems 4 4 ++
    emphasisEscape ts.ems 8 9 ++
    (ts.foregroundColor.map (colorEscape "\x1b[38;2;".toList)).getD [] ++
    (ts.backgroundColor.map (colorEscape "\x1b[48;2;".toList)).getD []

/-- What is written after a styled text. -/
def TextStyle.reset (ts : TextStyle) : Text :=
  if ts.ems ≠ 0 ∨ ts.foregroundColor.isSome ∨ ts.backgroundColor.isSome then "\x1b[0m".toList
  else []

/-- A text between the escape sequences of a style. -/
def TextStyle.wrap (ts : TextStyle) (text : Text) : Text := ts.opening ++ text ++ ts.reset

/-- `fmt::format` with a style and no arguments. -/
def TextStyle.format (ts : TextStyle) (formatStr : Text) : Option Text :=
  (FormatString.format [] formatStr).map ts.wrap

/-- `logger::level` -/
inductive Level where
  | comment | trace | info | debug | error | warning | critical
  deriving DecidableEq

/-- `dpp::loglevel` -/
inductive DppLevel where
  | trace | debug | info | warning | error | critical
  deriving DecidableEq

/-- What the logger reads. -/
structure Console where
  /-- `dpp::utility::current_date_time` -/
  currentDateTime : Text
  /-- `dpp::utility::loglevel` -/
  loglevel : DppLevel → Text
  /-- `logger::config.show_date` -/
  showDate : Bool := true

/-- What one case of the loggers passes to `fmt::print`. -/
structure Layout where
  /-- The format string. -/
  formatStr : Text := "{}{}{}{} {}\n".toList
  /-- Style of the brackets. -/
  bracket : TextStyle
  /-- Style of the level. -/
  name : TextStyle
  /-- The level whose name is shown. -/
  label : DppLevel
  /-- The closing bracket. -/
  closing : Text
  /-- Style of the message. -/
  message : TextStyle

/-- The cases of `log_by_level(logger::level)`. -/
def layout : Level → Layout
  | .comment =>
    { bracket := fg .dimGray ||| italic
      name := fg .dimGray ||| italic
      label := .info
      closing := "] :".toList
      message := fg .dimGray ||| italic }
  | .info =>
    { bracket := fg .orange ||| bold
      name := fg .gold ||| bold
      label := .info
      closing := "] :".toList
      message := fg .honeyDew }
  | .trace =>
    { bracket := fg .darkGray ||| italic
      name := fg .darkGray ||| italic
      label := .trace
      closing := "]:".toList
      message := fg .darkGray ||| italic }
  | .debug =>
    { bracket := fg .cornflowerBlue ||| bold
      name := fg .aquamarine ||| bold
      label := .debug
      closing := "]:".toList
      message := fg .lightPink }
  | .error =>
    { bracket := fg .fireBrick ||| bold
      name := fg .crimson ||| bold
      label := .error
      closing := "]:".toList
      message := fg .red ||| italic }
  | .warning =>
    { bracket := fg .deepPink ||| bold
      name := fg .hotPink ||| bold
      label := .warning
      closing := "] :".toList
      message := fg .salmon ||| italic }
  | .critical =>
    { formatStr := "{}{}{}{}{}\n".toList
      bracket := fg .ghostWhite ||| strikethrough ||| bg .darkRed
      name := fg .ghostWhite ||| strikethrough ||| bg .darkRed
      label := .critical
      closing := "] :".toList
      message := fg .lightGoldenRodYellow ||| strikethrough ||| bg .crimson }

/-- The cases of `log_by_level(dpp::loglevel)`. -/
def dppLayout : DppLevel → Layout
  | .info =>
    { bracket := fg .orange ||| bold
      name := fg .gold ||| bold
      label := .info
      closing := "] :".toList
      message := fg .honeyDew }
  | .trace =>
    { bracket := fg .darkGray ||| italic
      name := fg .darkGray ||| italic
      label := .trace
      closing := "]:".toList
      message := fg .darkGray ||| italic }
  | .debug =>
    { bracket := fg .cornflowerBlue ||| bold
      name := fg .aquamarine ||| bold
      label := .debug
      closing := "]:".toList
      message := fg .lightPink }
  -- the format string has one field less than there are arguments
  | .error =>
    { formatStr := "{}{}{} {}\n".toList
      bracket := fg .fireBrick ||| bold
      name := fg .crimson ||| bold
      label := .error
      closing := "]:".toList
      message := fg .red ||| italic }
  | .warning =>
    { bracket := fg .deepPink ||| bold
      name := fg .hotPink ||| bold
      label := .warning
      closing := "] :".toList
      message := fg .salmon ||| italic }
  | .critical =>
    { formatStr := "{}{}{}{}{}\n".toList
      bracket := fg .ghostWhite ||| strikethrough ||| bg .darkRed
      name := fg .ghostWhite ||| strikethrough ||| bg .darkRed
      label := .critical
      closing := "] :".toList
      message := fg .lightGoldenRodYellow ||| strikethrough ||| bg .crimson }

/-- The date without its line feed. -/
def Console.date (console : Console) : Text :=
  console.currentDateTime.filter fun c => decide (c ≠ '\n')

/-- The first argument of every print. -/
def Console.dateText (console : Console) : Option Text :=
  if console.showDate then
    (FormatString.format [console.date] "[{}]".toList).bind (fg .dimGray ||| bold).format
  else some []

/-- The text that one case prints. -/
def Console.line (console : Console) (lay : Layout) (message : Text) : Option Text := do
  let date ← console.dateText
  let opening ← lay.bracket.format "[".toList
  let name ← lay.name.format (console.loglevel lay.label)
  let closing ← lay.bracket.format lay.closing
  let text ← lay.message.format message
  FormatString.format [date, opening, name, closing, text] lay.formatStr

/-- `logger::log` for both enumerations: the printed texts, or `none` when a
format error leaves it. -/
def Console.log (console : Console) (level : Level ⊕ DppLevel) (message : Text) :
    Option (List Text) :=
  (console.line (level.elim layout dppLayout) message).map fun text => [text]

/-- The texts that D++ supplies have no braces. -/
structure Console.Unbraced (console : Console) : Prop where
  /-- The date. -/
  date : Plain console.currentDateTime
  /-- The names of the levels. -/
  names : ∀ level, Plain (console.loglevel level)

/-- A call prints once, and the printed text contains the message. -/
def PrintsOnce (printed : Option (List Text)) (message : Text) : Prop :=
  ∃ text, printed = some [text] ∧ message <:+: text

/-- The level of the logger's own enumeration with the same name. -/
def DppLevel.shared : DppLevel → Level
  | trace => .trace
  | debug => .debug
  | info => .info
  | warning => .warning
  | error => .error
  | critical => .critical

/-- A call prints its message once, and what the other enumeration prints at
the same level is the same. -/
def Console.Faithful (console : Console) (level : Level ⊕ DppLevel) (message : Text) : Prop :=
  PrintsOnce (console.log level message) message ∧
    ∀ both : DppLevel, level = .inl both.shared ∨ level = .inr both →
      console.log (.inl both.shared) message = console.log (.inr both) message

variable {console : Console} {ts : TextStyle} {lay : Layout} {message text : Text}

/-- Digits are no braces. -/
theorem digit_plain : ∀ d < 10, digit d ≠ '{' ∧ digit d ≠ '}' := by decide

/-- The escape of a number has no braces. -/
theorem plain_toEsc (c : UInt8) {delimiter : Char} (h : delimiter ≠ '{' ∧ delimiter ≠ '}') :
    Plain (toEsc c delimiter) := by
  have hc := c.toNat_lt
  intro d hd
  simp only [toEsc, List.mem_cons, List.not_mem_nil, or_false] at hd
  rcases hd with rfl | rfl | rfl | rfl
  · exact digit_plain _ (by omega)
  · exact digit_plain _ (by omega)
  · exact digit_plain _ (by omega)
  · exact h

/-- The escape of a color has no braces. -/
theorem plain_colorEscape {esc : Text} (h : Plain esc) (color : UInt32) :
    Plain (colorEscape esc color) := by
  simp only [colorEscape, plain_append]
  exact ⟨⟨⟨h, plain_toEsc _ (by decide)⟩, plain_toEsc _ (by decide)⟩, plain_toEsc _ (by decide)⟩

/-- The escape of an emphasis has no braces. -/
theorem plain_emphasisEscape (ems bit : UInt8) {code : ℕ} (h : code < 10) :
    Plain (emphasisEscape ems bit code) := by
  unfold emphasisEscape
  split
  · intro c hc
    simp only [List.mem_cons, List.not_mem_nil, or_false] at hc
    rcases hc with rfl | rfl | rfl | rfl
    · decide
    · decide
    · exact digit_plain _ h
    · decide
  · exact fun c hc => by cases hc

/-- Escape sequences have no braces. -/
theorem plain_opening (ts : TextStyle) : Plain ts.opening := by
  have hcolor : ∀ (esc : Text) (color : Option UInt32), Plain esc →
      Plain ((color.map (colorEscape esc)).getD []) := by
    intro esc color hesc
    cases color with
    | none => exact fun c hc => by cases hc
    | some color => exact plain_colorEscape hesc color
  simp only [TextStyle.opening, plain_append]
  exact ⟨⟨⟨⟨⟨plain_emphasisEscape _ _ (by decide), plain_emphasisEscape _ _ (by decide)⟩,
    plain_emphasisEscape _ _ (by decide)⟩, plain_emphasisEscape _ _ (by decide)⟩,
    hcolor _ _ (by decide)⟩, hcolor _ _ (by decide)⟩

/-- The reset has no braces. -/
theorem plain_reset (ts : TextStyle) : Plain ts.reset := by
  unfold TextStyle.reset
  split <;> decide

/-- Styling adds no braces. -/
theorem plain_wrap : Plain (ts.wrap text) ↔ Plain text := by
  simp [TextStyle.wrap, plain_append, plain_opening, plain_reset]

/-- A plain text is wrapped as it is. -/
theorem format_wrap (h : Plain text) : ts.format text = some (ts.wrap text) := by
  rw [TextStyle.format, format_plain h]
  rfl

/-- The format string and the closing bracket of a case. -/
theorem closing_plain (level : Level ⊕ DppLevel) :
    Plain (level.elim layout dppLayout).closing := by
  rcases level with level | level <;> cases level <;> decide

/-- All levels but one have a format with five fields. -/
theorem formatStr_cases {level : Level ⊕ DppLevel} (h : level ≠ .inr .error) :
    (level.elim layout dppLayout).formatStr = "{}{}{}{} {}\n".toList ∨
      (level.elim layout dppLayout).formatStr = "{}{}{}{}{}\n".toList := by
  rcases level with level | level
  · cases level <;> first | exact Or.inl rfl | exact Or.inr rfl
  · cases level <;> first | exact Or.inl rfl | exact Or.inr rfl | exact absurd rfl h

/-- The date is printed and has no braces. -/
theorem dateText_plain (h : console.Unbraced) :
    ∃ date, console.dateText = some date ∧ Plain date := by
  unfold Console.dateText
  split
  · have hdate : Plain ('[' :: (console.date ++ [']'])) := by
      refine plain_append (t := ['[']).mpr ⟨by decide, plain_append.mpr ⟨?_, by decide⟩⟩
      exact fun c hc => h.date c (List.mem_of_mem_filter hc)
    refine ⟨(fg .dimGray ||| bold).wrap ('[' :: (console.date ++ [']'])), ?_, plain_wrap.mpr hdate⟩
    rw [← format_wrap hdate]
    simp [format_cons]
  · exact ⟨[], rfl, fun c hc => by cases hc⟩

/-- Only the message can make a print fail. -/
theorem line_eq (h : console.Unbraced) (hclosing : Plain lay.closing) {date : Text}
    (hdate : console.dateText = some date) (message : Text) :
    console.line lay message = (lay.message.format message).bind fun text =>
      format [date, lay.bracket.wrap "[".toList, lay.name.wrap (console.loglevel lay.label),
        lay.bracket.wrap lay.closing, text] lay.formatStr := by
  simp only [Console.line, hdate, format_wrap (h.names lay.label), format_wrap hclosing,
    format_wrap (show Plain "[".toList by decide), Option.bind_eq_bind, Option.bind_some]

/-- Five fields, with a blank before the message. -/
theorem format_five (a b c d e : Text) : format [a, b, c, d, e] "{}{}{}{} {}\n".toList =
    some (a ++ (b ++ (c ++ (d ++ (' ' :: (e ++ ['\n'])))))) := rfl

/-- Five fields, with no blank before the message. -/
theorem format_tight (a b c d e : Text) : format [a, b, c, d, e] "{}{}{}{}{}\n".toList =
    some (a ++ (b ++ (c ++ (d ++ (e ++ ['\n']))))) := rfl

/-- Four fields lose the last argument. -/
theorem format_four (a b c d e : Text) : format [a, b, c, d, e] "{}{}{} {}\n".toList =
    some (a ++ (b ++ (c ++ (' ' :: (d ++ ['\n']))))) := rfl

/-- Every case but one prints the message between plain texts. -/
theorem line_split (h : console.Unbraced) {level : Level ⊕ DppLevel} (hne : level ≠ .inr .error) :
    ∃ pre post, Plain pre ∧ Plain post ∧ ∀ message,
      console.line (level.elim layout dppLayout) message =
        (format [] message).map fun text => pre ++ text ++ post := by
  obtain ⟨date, hdate, hplain⟩ := dateText_plain h
  have hclosing := closing_plain level
  have hformat := formatStr_cases hne
  generalize level.elim layout dppLayout = lay at hclosing hformat ⊢
  have hfront : Plain (date ++ lay.bracket.wrap "[".toList ++
      lay.name.wrap (console.loglevel lay.label) ++ lay.bracket.wrap lay.closing) := by
    simp only [plain_append, plain_wrap]
    exact ⟨⟨⟨hplain, by decide⟩, h.names _⟩, hclosing⟩
  have hback : Plain (lay.message.reset ++ ['\n']) :=
    plain_append.mpr ⟨plain_reset _, by decide⟩
  rcases hformat with hformat | hformat
  · refine ⟨_, _, plain_append.mpr ⟨hfront, plain_append.mpr ⟨(by decide : Plain [' ']),
      plain_opening lay.message⟩⟩, hback, fun message => ?_⟩
    rw [line_eq h hclosing hdate, hformat, TextStyle.format]
    cases format [] message with
    | none => rfl
    | some text =>
      simp only [Option.map_some, Option.bind_some, format_five, TextStyle.wrap,
        List.append_assoc, List.cons_append, List.nil_append]
  · refine ⟨_, _, plain_append.mpr ⟨hfront, plain_opening lay.message⟩, hback, fun message => ?_⟩
    rw [line_eq h hclosing hdate, hformat, TextStyle.format]
    cases format [] message with
    | none => rfl
    | some text =>
      simp only [Option.map_some, Option.bind_some, format_tight, TextStyle.wrap,
        List.append_assoc]

/-- Every case but one prints exactly the messages without braces. -/
theorem printsOnce_iff (h : console.Unbraced) {level : Level ⊕ DppLevel}
    (hne : level ≠ .inr .error) :
    PrintsOnce (console.log level message) message ↔ Plain message := by
  obtain ⟨pre, post, hpre, hpost, hline⟩ := line_split h hne
  rw [Console.log, hline]
  constructor
  · rintro ⟨text, hlog, hin⟩
    obtain ⟨u, hu, rfl⟩ : ∃ u, format [] message = some u ∧ pre ++ u ++ post = text := by
      simpa using hlog
    exact plain_of_infix hu hpre hpost hin
  · intro hplain
    rw [format_plain hplain]
    exact ⟨pre ++ message ++ post, rfl, pre, post, rfl⟩

/-- What is printed was formatted. -/
theorem formatted (h : console.Unbraced) {level : Level ⊕ DppLevel}
    (hprints : PrintsOnce (console.log level message) message) :
    ∃ text, format [] message = some text := by
  obtain ⟨date, hdate, -⟩ := dateText_plain h
  obtain ⟨printed, hlog, -⟩ := hprints
  rw [Console.log, line_eq h (closing_plain level) hdate, TextStyle.format] at hlog
  cases hm : format [] message with
  | none =>
    rw [hm] at hlog
    cases hlog
  | some text => exact ⟨text, rfl⟩

/-- The two enumerations share the cases of every level but the error
level. -/
theorem layout_shared {both : DppLevel} (h : both ≠ .error) :
    layout both.shared = dppLayout both := by
  cases both <;> first | rfl | exact absurd rfl h

/-- With the fourth field left out the message is not printed, and a blank
stands before the closing bracket. -/
theorem line_ne (h : console.Unbraced) (hclosing : Plain lay.closing)
    (hfull : lay.formatStr = "{}{}{}{} {}\n".toList) {rest : Text}
    (hesc : lay.bracket.opening = '\x1b' :: rest) (hm : format [] message = some text) :
    console.line lay message ≠
      console.line { lay with formatStr := "{}{}{} {}\n".toList } message := by
  obtain ⟨date, hdate, -⟩ := dateText_plain h
  have hmessage : lay.message.format message = some (lay.message.wrap text) := by
    rw [TextStyle.format, hm]
    rfl
  have hclosing' : Plain ({ lay with formatStr := "{}{}{} {}\n".toList } : Layout).closing :=
    hclosing
  have hshort := line_eq h hclosing' hdate message
  intro heq
  rw [hshort, line_eq h hclosing hdate, hmessage, hfull, Option.bind_some, Option.bind_some,
    format_five, format_four] at heq
  simp [TextStyle.wrap, hesc] at heq

/-- The two error levels do not print the same. -/
theorem log_error_ne (h : console.Unbraced) (hm : format [] message = some text) :
    console.log (.inl .error) message ≠ console.log (.inr .error) message := by
  obtain ⟨rest, hesc⟩ : ∃ rest, (layout .error).bracket.opening = '\x1b' :: rest := ⟨_, rfl⟩
  have hne := line_ne h (closing_plain (.inl .error)) rfl hesc hm
  intro heq
  have hinj : Function.Injective (Option.map fun text : Text => [text]) :=
    Option.map_injective List.singleton_injective
  exact hne (hinj heq)

/-- Exactly the messages without braces are logged faithfully, and at no
error level. -/
theorem faithful_iff (console : Console) (h : console.Unbraced) (level : Level ⊕ DppLevel)
    (message : Text) :
    console.Faithful level message ↔
      Plain message ∧ level ≠ .inl .error ∧ level ≠ .inr .error := by
  constructor
  · rintro ⟨hprints, hsame⟩
    obtain ⟨text, htext⟩ := formatted h hprints
    have hinl : level ≠ .inl .error := fun hl => log_error_ne h htext (hsame .error (Or.inl hl))
    have hinr : level ≠ .inr .error := fun hl => log_error_ne h htext (hsame .error (Or.inr hl))
    exact ⟨(printsOnce_iff h hinr).mp hprints, hinl, hinr⟩
  · rintro ⟨hplain, hinl, hinr⟩
    refine ⟨(printsOnce_iff h hinr).mpr hplain, fun both hboth => ?_⟩
    have hne : both ≠ .error := by
      rintro rfl
      exact hboth.elim hinl hinr
    simp only [Console.log, Sum.elim_inl, Sum.elim_inr, layout_shared hne]

/-- The names of the levels and a date, as D++ writes them. -/
def firstConsole : Console where
  currentDateTime := "Sat Jan  1 12:00:00 2022\n".toList
  loglevel
    | .trace => "TRACE".toList
    | .debug => "DEBUG".toList
    | .info => "INFO".toList
    | .warning => "WARNING".toList
    | .error => "ERROR".toList
    | .critical => "CRITICAL".toList

/-- The first console has no braces of its own. -/
theorem firstConsole_unbraced : firstConsole.Unbraced :=
  ⟨by decide, fun level => by cases level <;> decide⟩

/-- The first console prints a message faithfully. -/
theorem firstConsole_ready : firstConsole.Faithful (.inl .info) "ready".toList :=
  (faithful_iff firstConsole firstConsole_unbraced _ _).mpr ⟨by decide, by decide, by decide⟩

/-- A brace in the message is a format error, and the error level of D++
leaves the message out. -/
theorem firstConsole_not_faithful :
    firstConsole.log (.inl .info) "\x7b".toList = none ∧
      ¬ PrintsOnce (firstConsole.log (.inr .error) "lost".toList) "lost".toList := by
  refine ⟨by decide, ?_⟩
  have hlost : (firstConsole.log (.inr .error) "lost".toList).map
      (List.map fun text => decide ("lost".toList <:+: text)) = some [false] := by
    decide +kernel
  rintro ⟨text, hlog, hin⟩
  rw [hlog] at hlost
  simp only [Option.map_some, List.map_cons, List.map_nil, Option.some.injEq, List.cons.injEq,
    and_true, decide_eq_false_iff_not] at hlost
  exact hlost hin

end TintempPlusPlus.Logger
