import TintempPlusPlus.Library.Terminal
import TintempPlusPlus.Logger

/-!
# What the console shows

The handler of `on_log` passes every event of D++ to the logger and falls
back on the standard output when the logger fails. The lines of the logger
carry escape sequences; a terminal that reads them shows each piece of a line
in the style of its case, and is left as it was found, so that any number of
events are shown one after another.
-/

namespace TintempPlusPlus.Reporting

open FormatString Logger Terminal EventRuns

/-- The number behind a level of D++. -/
def severityOf : DppLevel → ℕ
  | .trace => 0
  | .debug => 1
  | .info => 2
  | .warning => 3
  | .error => 4
  | .critical => 5

/-- What the handler of `on_log` reads besides the event. -/
structure Host where
  /-- What the logger reads. -/
  console : Console
  /-- `logger::config.log_level` -/
  logLevel : ℕ := 0
  /-- The text of the exception that a message makes the logger throw. -/
  what : Text → Text

/-- A line of the fallback. -/
def Host.fallbackLine (host : Host) (severity : DppLevel) (text : Text) : Text :=
  host.console.currentDateTime ++ " [".toList ++ host.console.loglevel severity ++ "]: ".toList ++
    text ++ ['\n']

/-- The two lines of the fallback. -/
def Host.fallback (host : Host) (severity : DppLevel) (message : Text) : List Text :=
  [host.fallbackLine severity message,
    host.fallbackLine .error ("failed to use logger::log, ".toList ++ host.what message)]

/-- The handler of `on_log`: what is printed for one event. -/
def Host.onLog (host : Host) (severity : DppLevel) (message : Text) : List Text :=
  if host.logLevel ≤ severityOf severity then
    (host.console.log (.inr severity) message).getD (host.fallback severity message)
  else []

/-- The three bytes of a colour. -/
def bytes (color : UInt32) : Rgb :=
  ((color >>> 16).toUInt8.toNat, (color >>> 8).toUInt8.toNat, color.toUInt8.toNat)

/-- How a text in a style looks. -/
def renditionOf (ts : TextStyle) : Rendition where
  bold := decide (ts.ems &&& 1 ≠ 0)
  italic := decide (ts.ems &&& 2 ≠ 0)
  underlined := decide (ts.ems &&& 4 ≠ 0)
  crossedOut := decide (ts.ems &&& 8 ≠ 0)
  foreground := ts.foregroundColor.map bytes
  background := ts.backgroundColor.map bytes

/-- No style. -/
def unstyled : TextStyle := {}

/-- How pieces of text in several styles look one after another. -/
def paint (pieces : List (TextStyle × Text)) : List (Char × Rendition) :=
  pieces.flatMap fun piece => painted (renditionOf piece.1) piece.2

/-- The pieces of a line that shows a text at some level. The error level of
D++ leaves the text out and has the blank before the closing bracket. -/
def pieces (console : Console) (level : Level ⊕ DppLevel) (text : Text) :
    List (TextStyle × Text) :=
  let lay := level.elim layout dppLayout
  (if console.showDate then [(fg .dimGray ||| bold, '[' :: (console.date ++ [']']))] else []) ++
    [(lay.bracket, ['[']), (lay.name, console.loglevel lay.label)] ++
    (if level = .inr .error then [(unstyled, [' ']), (lay.bracket, lay.closing)]
    else if level = .inl .critical ∨ level = .inr .critical then
      [(lay.bracket, lay.closing), (lay.message, text)]
    else [(lay.bracket, lay.closing), (unstyled, [' ']), (lay.message, text)]) ++
    [(unstyled, ['\n'])]

variable {console : Console} {ts : TextStyle} {text message : Text} {d : ℕ} {r : Rendition}
  {cells : List (Char × Rendition)} {level : Level ⊕ DppLevel}

/-! ## Styles -/

/-- The character of a digit is a digit. -/
theorem digit_isDigit : ∀ d < 10, (digit d).isDigit = true := by decide

/-- A digit has its value. -/
theorem digitValue_digit : ∀ d < 10, digitValue (digit d) = d := by decide

/-- The three digits of a byte. -/
def byteDigits (c : UInt8) : Text :=
  [digit (c.toNat / 100), digit (c.toNat / 10 % 10), digit (c.toNat % 10)]

/-- A byte is written in digits. -/
theorem byteDigits_isDigit (c : UInt8) : ∀ d ∈ byteDigits c, d.isDigit = true := by
  have hc := c.toNat_lt
  intro d hd
  simp only [byteDigits, List.mem_cons, List.not_mem_nil, or_false] at hd
  rcases hd with rfl | rfl | rfl
  · exact digit_isDigit _ (by omega)
  · exact digit_isDigit _ (by omega)
  · exact digit_isDigit _ (by omega)

/-- The digits of a byte are read as the byte. -/
theorem numeral_byteDigits (c : UInt8) : numeral (byteDigits c) = c.toNat := by
  have hc := c.toNat_lt
  have h1 := digitValue_digit (c.toNat / 100) (by omega)
  have h2 := digitValue_digit (c.toNat / 10 % 10) (by omega)
  have h3 := digitValue_digit (c.toNat % 10) (by omega)
  simp only [numeral, byteDigits, List.foldl_cons, List.foldl_nil, h1, h2, h3]
  omega

/-- A row of digits before the bytes of a colour. -/
theorem put_color {esc digits : Text} (hesc : esc = escape :: '[' :: digits ++ ";2;".toList)
    (hdigits : ∀ d ∈ digits, d.isDigit = true) (color : UInt32) :
    after Tty.put ⟨.ground, r, cells⟩ (colorEscape esc color) =
      ⟨.ground, r.select [numeral digits, 2, (bytes color).1, (bytes color).2.1,
        (bytes color).2.2], cells⟩ := by
  have hsplit : colorEscape esc color = escape :: '[' :: controlSequence [digits, ['2'],
      byteDigits (color >>> 16).toUInt8, byteDigits (color >>> 8).toUInt8,
      byteDigits color.toUInt8] := by
    simp [hesc, colorEscape, toEsc, controlSequence, byteDigits]
  rw [hsplit, put_control (List.cons_ne_nil _ _) rfl]
  · simp only [List.map_cons, List.map_nil, numeral_byteDigits, bytes]
    rfl
  · simp only [List.forall_mem_cons]
    exact ⟨hdigits, ⟨rfl, List.forall_mem_nil _⟩, byteDigits_isDigit _, byteDigits_isDigit _,
      byteDigits_isDigit _, List.forall_mem_nil _⟩

/-- The terminal takes the emphasis of an escape. -/
theorem put_emphasis (ems bit : UInt8) (hd : d < 10) :
    after Tty.put ⟨.ground, r, cells⟩ (emphasisEscape ems bit d) =
      ⟨.ground, if ems &&& bit ≠ 0 then r.select [d] else r, cells⟩ := by
  unfold emphasisEscape
  split_ifs with h
  · have hdigits : ∀ digits ∈ [[digit d]], ∀ c ∈ digits, c.isDigit = true := by
      simpa using digit_isDigit d hd
    have hcontrol := put_control (List.cons_ne_nil _ _) (t := ⟨.ground, r, cells⟩) rfl hdigits
    have hvalue : numeral [digit d] = d := by
      simp [numeral, digitValue_digit d hd]
    rw [List.map_cons, List.map_nil, hvalue] at hcontrol
    exact hcontrol
  · rfl

/-- The terminal takes the foreground of an escape. -/
theorem put_foreground (color : Option UInt32) :
    after Tty.put ⟨.ground, r, cells⟩ ((color.map (colorEscape "\x1b[38;2;".toList)).getD []) =
      ⟨.ground, { r with foreground := (color.map bytes).or r.foreground }, cells⟩ := by
  cases color with
  | none => rfl
  | some color =>
    exact put_color (show _ = escape :: '[' :: "38".toList ++ ";2;".toList from rfl)
      (List.all_eq_true.mp rfl) color

/-- The terminal takes the background of an escape. -/
theorem put_background (color : Option UInt32) :
    after Tty.put ⟨.ground, r, cells⟩ ((color.map (colorEscape "\x1b[48;2;".toList)).getD []) =
      ⟨.ground, { r with background := (color.map bytes).or r.background }, cells⟩ := by
  cases color with
  | none => rfl
  | some color =>
    exact put_color (show _ = escape :: '[' :: "48".toList ++ ";2;".toList from rfl)
      (List.all_eq_true.mp rfl) color

/-- The escape sequences before a styled text select its look. -/
theorem put_opening (ts : TextStyle) (cells : List (Char × Rendition)) :
    after Tty.put ⟨.ground, {}, cells⟩ ts.opening = ⟨.ground, renditionOf ts, cells⟩ := by
  rw [TextStyle.opening, after_append, after_append, after_append, after_append, after_append,
    put_emphasis _ _ (by decide), put_emphasis _ _ (by decide), put_emphasis _ _ (by decide),
    put_emphasis _ _ (by decide), put_foreground, put_background]
  simp only [renditionOf]
  split_ifs <;> simp_all [Rendition.select]

/-- The end of a styled text ends its look. -/
theorem put_reset (ts : TextStyle) (cells : List (Char × Rendition)) :
    after Tty.put ⟨.ground, renditionOf ts, cells⟩ ts.reset = ⟨.ground, {}, cells⟩ := by
  unfold TextStyle.reset
  split_ifs with h
  · rfl
  · obtain ⟨hems, hcolors⟩ := not_or.mp h
    obtain ⟨hfore, hback⟩ := not_or.mp hcolors
    have hplain : renditionOf ts = {} := by
      simp_all [renditionOf]
    rw [hplain]
    rfl

/-- A styled text is shown in its style. -/
theorem put_wrap (ts : TextStyle) (h : escape ∉ text) :
    after Tty.put ⟨.ground, {}, cells⟩ (ts.wrap text) =
      ⟨.ground, {}, cells ++ painted (renditionOf ts) text⟩ := by
  rw [TextStyle.wrap, after_append, after_append, put_opening, put_text rfl h, put_reset]

/-- Pieces are shown one after another. -/
theorem put_pieces {list : List (TextStyle × Text)} (h : ∀ piece ∈ list, escape ∉ piece.2) :
    after Tty.put ⟨.ground, {}, cells⟩ (list.flatMap fun piece => piece.1.wrap piece.2) =
      ⟨.ground, {}, cells ++ paint list⟩ := by
  induction list generalizing cells with
  | nil => simp [paint]
  | cons piece list ih =>
    obtain ⟨hpiece, hlist⟩ := List.forall_mem_cons.mp h
    rw [List.flatMap_cons, after_append, put_wrap _ hpiece, ih hlist, List.append_assoc]
    rfl

/-! ## Lines -/

/-- A text without style is printed as it stands. -/
@[simp] theorem unstyled_wrap (text : Text) : unstyled.wrap text = text := by
  simp [TextStyle.wrap, TextStyle.opening, TextStyle.reset, unstyled, emphasisEscape]

/-- What each case prints around its five arguments. -/
theorem format_layout (level : Level ⊕ DppLevel) (a b c d e : Text) :
    format [a, b, c, d, e] (level.elim layout dppLayout).formatStr =
      some (a ++ (b ++ (c ++ ((if level = .inr .error then ' ' :: d
        else if level = .inl .critical ∨ level = .inr .critical then d ++ e
        else d ++ ' ' :: e) ++ ['\n'])))) := by
  rcases level with level | level
  · cases level <;> first
      | exact (format_five a b c d e).trans (by simp)
      | exact (format_tight a b c d e).trans (by simp)
  · cases level <;> first
      | exact (format_five a b c d e).trans (by simp)
      | exact (format_tight a b c d e).trans (by simp)
      | exact (format_four a b c d e).trans (by simp)

/-- The date is one piece, when it is shown. -/
theorem dateText_pieces (h : console.Unbraced) : console.dateText =
    some ((if console.showDate then
        [(fg .dimGray ||| bold, '[' :: (console.date ++ [']']))] else []).flatMap
      fun piece => piece.1.wrap piece.2) := by
  unfold Console.dateText
  split_ifs
  · have hdate : Plain ('[' :: (console.date ++ [']'])) := by
      refine plain_append (t := ['[']).mpr ⟨by decide, plain_append.mpr ⟨?_, by decide⟩⟩
      exact fun c hc => h.date c (List.mem_of_mem_filter hc)
    rw [List.flatMap_singleton, ← format_wrap hdate]
    simp [format_cons]
  · rfl

/-- A line is its pieces, each between the escape sequences of its style. -/
theorem line_pieces (h : console.Unbraced) (level : Level ⊕ DppLevel) (message : Text) :
    console.line (level.elim layout dppLayout) message = (format [] message).map fun text =>
      (pieces console level text).flatMap fun piece => piece.1.wrap piece.2 := by
  rw [line_eq h (closing_plain level) (dateText_pieces h), TextStyle.format]
  cases format [] message with
  | none => rfl
  | some text =>
    simp only [Option.map_some, Option.bind_some, format_layout, pieces]
    split_ifs <;> simp

/-- No piece of a line has an escape character. -/
theorem pieces_clean (hdate : escape ∉ console.currentDateTime)
    (hnames : ∀ level, escape ∉ console.loglevel level) (ht : escape ∉ text)
    (level : Level ⊕ DppLevel) : ∀ piece ∈ pieces console level text, escape ∉ piece.2 := by
  have hclosing : escape ∉ (level.elim layout dppLayout).closing := by
    rcases level with level | level <;> cases level <;> decide
  have hbracket : escape ∉ '[' :: (console.date ++ [']']) := by
    simp only [List.mem_cons, List.mem_append, List.not_mem_nil, or_false, not_or]
    exact ⟨by decide, fun hin => hdate (List.mem_of_mem_filter hin), by decide⟩
  simp only [pieces, List.forall_mem_append, List.forall_mem_cons]
  refine ⟨⟨⟨?_, by decide, hnames _, List.forall_mem_nil _⟩, ?_⟩, by decide, List.forall_mem_nil _⟩
  · split_ifs
    · exact List.forall_mem_singleton.mpr hbracket
    · exact List.forall_mem_nil _
  · split_ifs
    · exact List.forall_mem_cons.mpr ⟨by decide, List.forall_mem_singleton.mpr hclosing⟩
    · exact List.forall_mem_cons.mpr ⟨hclosing, List.forall_mem_singleton.mpr ht⟩
    · exact List.forall_mem_cons.mpr ⟨hclosing, List.forall_mem_cons.mpr
        ⟨by decide, List.forall_mem_singleton.mpr ht⟩⟩

/-! ## Events -/

/-- What D++ and the formatter supply has neither braces nor escape
characters where the console reads it. -/
structure Host.Clean (host : Host) : Prop where
  /-- There are no braces. -/
  unbraced : host.console.Unbraced
  /-- The date has no escape character. -/
  date : escape ∉ host.console.currentDateTime
  /-- Nor have the names of the levels. -/
  names : ∀ level, escape ∉ host.console.loglevel level
  /-- Nor have the texts of exceptions. -/
  what : ∀ message, escape ∉ host.what message

/-- What a terminal shows for one event: the pieces of the logger's line, or
the two plain lines of the fallback. -/
def Host.picture (host : Host) (severity : DppLevel) (message : Text) :
    List (Char × Rendition) :=
  if host.logLevel ≤ severityOf severity then
    match format [] message with
    | some text => paint (pieces host.console (.inr severity) text)
    | none => painted {} (host.fallback severity message).flatten
  else []

variable {host : Host} {severity : DppLevel}

/-- The logger prints one line, or it fails before it prints. -/
theorem onLog_eq (h : host.console.Unbraced) (hl : host.logLevel ≤ severityOf severity)
    (message : Text) : host.onLog severity message =
      match format [] message with
      | some text => [(pieces host.console (.inr severity) text).flatMap
          fun piece => piece.1.wrap piece.2]
      | none => host.fallback severity message := by
  rw [Host.onLog, if_pos hl, Console.log, line_pieces h]
  cases format [] message <;> rfl

/-- The fallback lines have no escape character. -/
theorem fallback_clean (h : host.Clean) (hm : escape ∉ message) :
    escape ∉ (host.fallback severity message).flatten := by
  have hline : ∀ level text, escape ∉ text → escape ∉ host.fallbackLine level text := by
    intro level text ht
    simp only [Host.fallbackLine, List.mem_append, not_or]
    exact ⟨⟨⟨⟨⟨h.date, by decide⟩, h.names _⟩, by decide⟩, ht⟩, by decide⟩
  have hwhat : escape ∉ "failed to use logger::log, ".toList ++ host.what message := by
    simp only [List.mem_append, not_or]
    exact ⟨by decide, h.what message⟩
  simp only [Host.fallback, List.flatten_cons, List.flatten_nil, List.append_nil, List.mem_append,
    not_or]
  exact ⟨hline _ _ hm, hline _ _ hwhat⟩

/-- One event is shown and leaves the terminal at rest. -/
theorem put_onLog (h : host.Clean) (hm : escape ∉ message) (severity : DppLevel) :
    after Tty.put ⟨.ground, {}, cells⟩ (host.onLog severity message).flatten =
      ⟨.ground, {}, cells ++ host.picture severity message⟩ := by
  by_cases hl : host.logLevel ≤ severityOf severity
  · rw [onLog_eq h.unbraced hl, Host.picture, if_pos hl]
    cases hf : format [] message with
    | none => exact put_text rfl (fallback_clean h hm)
    | some text =>
      have ht : escape ∉ text := fun hin => hm (mem_of_format hf hin)
      simp only [List.flatten_cons, List.flatten_nil, List.append_nil]
      exact put_pieces (pieces_clean h.date h.names ht _)
  · rw [Host.onLog, if_neg hl, Host.picture, if_neg hl, List.append_nil]
    rfl

/-- What of a printed message is to be seen. -/
structure Pictured (host : Host) (severity : DppLevel) (message : Text) : Prop where
  /-- Below and above the error level a message without braces is seen in the
  style of its level. -/
  styled : severity ≠ .error → Plain message →
    painted (renditionOf (dppLayout severity).message) message <:+: host.picture severity message
  /-- At the error level all messages that the logger accepts look the same. -/
  lost : severity = .error → (format [] message).isSome = true →
    ∀ other, (format [] other).isSome = true →
      host.picture severity message = host.picture severity other
  /-- A message that the logger fails at is seen in no style. -/
  rescued : format [] message = none → painted {} message <:+: host.picture severity message

/-- A part of a text is shown as a part of it. -/
theorem painted_infix (r : Rendition) {text front : Text} (h : text <:+: front) :
    painted r text <:+: painted r front := by
  obtain ⟨pre, post, rfl⟩ := h
  exact ⟨painted r pre, painted r post, by simp [painted]⟩

/-- A piece is to be seen among the pieces of its line. -/
theorem paint_infix {list : List (TextStyle × Text)} {piece : TextStyle × Text}
    (h : piece ∈ list) : painted (renditionOf piece.1) piece.2 <:+: paint list := by
  obtain ⟨pre, post, rfl⟩ := List.mem_iff_append.mp h
  exact ⟨paint pre, paint post, by simp [paint]⟩

/-- The message is one of the pieces, except at the error level of D++. -/
theorem message_mem_pieces (hne : severity ≠ .error) (text : Text) :
    ((dppLayout severity).message, text) ∈ pieces console (.inr severity) text := by
  simp only [pieces, Sum.elim_inr, Sum.inr.injEq, hne, if_false, List.mem_append]
  refine Or.inl (Or.inr ?_)
  split_ifs <;> simp

/-- What the screen shows of one printed event. -/
theorem pictured (hl : host.logLevel ≤ severityOf severity) (message : Text) :
    Pictured host severity message := by
  refine ⟨fun hne hplain => ?_, ?_, fun hf => ?_⟩
  · rw [Host.picture, if_pos hl, format_plain hplain]
    exact paint_infix (message_mem_pieces hne message)
  · rintro rfl hsome other hother
    obtain ⟨shown, hf⟩ := Option.isSome_iff_exists.mp hsome
    obtain ⟨shown', hf'⟩ := Option.isSome_iff_exists.mp hother
    rw [Host.picture, Host.picture, if_pos hl, if_pos hl, hf, hf']
    rfl
  · rw [Host.picture, if_pos hl, hf]
    refine painted_infix _ ?_
    exact ⟨host.console.currentDateTime ++ " [".toList ++ host.console.loglevel severity ++
      "]: ".toList, '\n' :: host.fallbackLine .error
        ("failed to use logger::log, ".toList ++ host.what message),
      by simp [Host.fallback, Host.fallbackLine]⟩

/-- Any number of events with messages without escape characters are shown in
their order, each in the styles of its level and none in those of another. The
message itself is seen unless it has braces that the logger accepts, or it is
an error that the logger accepts. -/
theorem shown_run (h : host.Clean) (events : List (DppLevel × Text))
    (hm : ∀ event ∈ events, escape ∉ event.2) (cells : List (Char × Rendition)) :
    after Tty.put ⟨.ground, {}, cells⟩
        (events.flatMap fun event => (host.onLog event.1 event.2).flatten) =
      ⟨.ground, {}, cells ++ events.flatMap fun event => host.picture event.1 event.2⟩ ∧
      ∀ event ∈ events, host.logLevel ≤ severityOf event.1 → Pictured host event.1 event.2 := by
  refine ⟨?_, fun event _ hl => pictured hl event.2⟩
  induction events generalizing cells with
  | nil => simp
  | cons event events ih =>
    obtain ⟨hevent, hevents⟩ := List.forall_mem_cons.mp hm
    rw [List.flatMap_cons, after_append, put_onLog h hevent, ih hevents, List.append_assoc,
      List.flatMap_cons]

/-- Which messages of `on_log` can be read in what is printed. -/
structure Reported (host : Host) (severity : DppLevel) (message : Text) : Prop where
  /-- Below and above the error level these are the messages without braces
  and those that the logger fails at. -/
  read : severity ≠ .error → ((∃ text ∈ host.onLog severity message, message <:+: text) ↔
    Plain message ∨ format [] message = none)
  /-- At the error level every message that the logger accepts prints the
  same. -/
  lost : severity = .error → (format [] message).isSome = true →
    ∀ other, (format [] other).isSome = true →
      host.onLog severity message = host.onLog severity other
  /-- A message that the logger fails at is printed by the fallback. -/
  rescued : format [] message = none → ∃ text ∈ host.onLog severity message, message <:+: text

/-- A fallback line contains the message. -/
theorem fallback_reads (host : Host) (severity : DppLevel) (message : Text) :
    ∃ text ∈ host.fallback severity message, message <:+: text :=
  ⟨_, List.mem_cons_self, _, ['\n'], rfl⟩

/-- A message gets through `on_log` unless it has braces that the logger
accepts, or it is an error that the logger accepts. -/
theorem reported (h : host.console.Unbraced) (severity : DppLevel)
    (hl : host.logLevel ≤ severityOf severity) (message : Text) :
    Reported host severity message := by
  have hrescued : format [] message = none →
      ∃ text ∈ host.onLog severity message, message <:+: text := by
    intro hf
    rw [onLog_eq h hl, hf]
    exact fallback_reads host severity message
  have hiff : severity ≠ .error →
      (PrintsOnce (host.console.log (.inr severity) message) message ↔ Plain message) :=
    fun hne => printsOnce_iff h (by simpa using hne)
  refine ⟨fun hne => ⟨?_, ?_⟩, ?_, hrescued⟩
  · rintro ⟨text, htext, hin⟩
    cases hf : format [] message with
    | none => exact Or.inr rfl
    | some shown =>
      refine Or.inl ((hiff hne).mp ⟨text, ?_, hin⟩)
      rw [onLog_eq h hl, hf] at htext
      rw [Console.log, line_pieces h, hf, List.mem_singleton.mp htext]
      rfl
  · rintro (hplain | hnone)
    · obtain ⟨text, hlog, hin⟩ := (hiff hne).mpr hplain
      refine ⟨text, ?_, hin⟩
      rw [Host.onLog, if_pos hl, hlog]
      exact List.mem_singleton_self _
    · exact hrescued hnone
  · rintro rfl hsome other hother
    obtain ⟨shown, hf⟩ := Option.isSome_iff_exists.mp hsome
    obtain ⟨shown', hf'⟩ := Option.isSome_iff_exists.mp hother
    rw [onLog_eq h hl, onLog_eq h hl, hf, hf']
    rfl

/-- A host whose exceptions say what the formatter says. -/
def firstHost : Host where
  console := firstConsole
  what _ := "argument not found".toList

/-- The first host has no escape characters of its own. -/
theorem firstHost_clean : firstHost.Clean := by
  have hwhat : escape ∉ "argument not found".toList := by decide
  refine ⟨firstConsole_unbraced, by decide, fun level => ?_, fun _ => hwhat⟩
  cases level <;> decide

/-- A warning that is shown, an error whose message is left out, and a message
that the logger fails at. -/
def firstEvents : List (DppLevel × Text) :=
  [(.warning, "ready".toList), (.error, "lost".toList), (.info, "\x7b\x7d".toList)]

/-- The three events are shown in their order, and the warning is to be seen
in the style of its level. -/
theorem firstHost_shown :
    after Tty.put {} (firstEvents.flatMap fun event => (firstHost.onLog event.1 event.2).flatten) =
        { cells := firstEvents.flatMap fun event => firstHost.picture event.1 event.2 } ∧
      painted (renditionOf (fg .salmon ||| italic)) "ready".toList <:+:
        firstHost.picture .warning "ready".toList := by
  have hclean : ∀ event ∈ firstEvents, escape ∉ event.2 := by decide
  obtain ⟨hrun, hpictured⟩ := shown_run firstHost_clean firstEvents hclean []
  have hwarning := hpictured (.warning, "ready".toList) List.mem_cons_self (Nat.zero_le _)
  exact ⟨hrun, hwarning.styled (by decide) (by decide)⟩

/-- A warning without braces can be read. -/
theorem firstHost_reported : Reported firstHost .warning "ready".toList :=
  reported firstConsole_unbraced .warning (Nat.zero_le _) _

end TintempPlusPlus.Reporting
