import TintempPlusPlus.Library.EcmaPattern
import Mathlib.Logic.Equiv.Basic

/-!
# Recognising commands

A command is recognised by a search for a pattern that is put together from
the configured prefix and the name of the command. One backslash stands
before the prefix, so its first character is escaped and the others are not.
-/

namespace TintempPlusPlus.Commands

open EcmaRegex

/-- The commands that `initCommands` registers. -/
inductive Command where
  | ping | ttt
  deriving DecidableEq

/-- The name under which a command is registered. -/
def Command.name : Command → List Char
  | ping => "ping".toList
  | ttt => "ttt".toList

/-- The regex string of `newCommand`. -/
def regexString (start name : List Char) : List Char := '^' :: '\\' :: (start ++ name)

/-- `newCommand` runs the handler or does not; `none` is the error of a regex
string without meaning. The first argument is the characters without meaning
that the regex string leaves as they are. -/
def newCommand (lenient : Char → Bool) (start name content : List Char) : Option Bool :=
  (compile lenient (regexString start name)).map fun regexp => regexp.search content

/-- The handlers that run for a message, up to the first error. -/
def handlers (lenient : Char → Bool) (start content : List Char) : List Command → List Command
  | [] => []
  | command :: commands =>
    match newCommand lenient start command.name content with
    | none => []
    | some true => command :: handlers lenient start content commands
    | some false => handlers lenient start content commands

/-- `initCommands`, for one message. -/
def initCommands (lenient : Char → Bool) (start content : List Char) : List Command :=
  handlers lenient start content [.ping, .ttt]

/-- Commands are recognised exactly. -/
structure Recognised (lenient : Char → Bool) (start : List Char) : Prop where
  /-- A handler runs for the messages that begin with the prefix and the
  name. -/
  exact : ∀ (command : Command) (content : List Char),
    newCommand lenient start command.name content = some true ↔
      start ++ command.name <+: content
  /-- No message runs both handlers. -/
  apart : ∀ content, ¬ (.ping ∈ initCommands lenient start content ∧
    .ttt ∈ initCommands lenient start content)

/-- A backslash before the character stands for the character. -/
def StandsForItself (lenient : Char → Bool) (a : Char) : Prop :=
  a.isAlphanum = false ∨
    a.isDigit = false ∧ a ∉ "bBcdDfnrsStuvwWx".toList ∧ lenient a = true

variable {lenient : Char → Bool} {a d : Char} {start name content rest text cs : List Char}
  {t : Token} {r : Regex} {command : Command}

/-- The names of the commands have no syntax. -/
theorem name_literal (command : Command) : ∀ c ∈ command.name, isSyntax lenient c = false := by
  have hall : command.name.all (fun c => !isSyntax (fun _ => false) c) = true := by
    cases command <;> decide
  intro c hc
  have hstrict := List.all_eq_true.mp hall c hc
  exact isSyntax_of_strict (by simpa using hstrict)

/-- A text that begins with its own part after some characters repeats
these. -/
theorem mem_of_prefix_append {l z : List Char} (hl : l ≠ []) (h : z <+: l ++ z) :
    ∀ c ∈ z, c ∈ l := by
  induction hlength : z.length using Nat.strong_induction_on generalizing z with
  | _ n ih =>
    rcases Nat.le_total z.length l.length with hle | hle
    · exact (List.prefix_of_prefix_length_le h (List.prefix_append l z) hle).subset
    · obtain ⟨z', rfl⟩ := List.prefix_of_prefix_length_le (List.prefix_append l z) h hle
      have hshort : z'.length < n := by
        have hpos := List.length_pos_iff.mpr hl
        rw [List.length_append] at hlength
        omega
      have hz := ih z'.length hshort ((List.prefix_append_right_inj l).mp h) rfl
      exact fun c hc => (List.mem_append.mp hc).elim id (hz c)

/-- The handler runs where the escape and then the text match. -/
theorem newCommand_escaped (h : escape lenient (a :: cs) = some (t, rest))
    (ht : t = .atom r ∨ t = .assertion r) (hcs : start ++ name = a :: cs)
    (hrest : ∀ c ∈ rest, isSyntax lenient c = false) (hlength : rest.length ≤ cs.length) :
    newCommand lenient start name content = some true ↔
      r.references = 0 ∧ ∃ y ∈ r.run (position content 0), rest <+: y.after := by
  rw [newCommand, regexString, hcs, compile_escaped h ht hrest hlength]
  split
  · rename_i hr
    simp only [hr, true_and, Option.map_some, Option.some.injEq, search_anchored]
  · rename_i hr
    simp [hr]

/-- An escape without meaning makes the whole pattern an error. -/
theorem newCommand_unescaped (h : escape lenient (a :: cs) = none) (hcs : start ++ name = a :: cs) :
    newCommand lenient start name content = none := by
  rw [newCommand, regexString, hcs, compile_unescaped h]
  rfl

/-- An escaped character that stands for one character. -/
theorem char_matches : (∃ y ∈ (Regex.char d).run (position content 0), text <+: y.after) ↔
    d :: text <+: content := by
  constructor
  · rintro ⟨y, hy, htext⟩
    obtain ⟨c, tail, hafter, hc, rfl⟩ := mem_one.mp hy
    have hcontent : content = c :: tail := hafter
    rw [hcontent, eq_of_beq hc]
    exact List.cons_prefix_cons.mpr ⟨rfl, htext⟩
  · rintro ⟨tail, rfl⟩
    exact ⟨_, mem_one.mpr ⟨d, text ++ tail, rfl, beq_self_eq_true d, rfl⟩, tail, rfl⟩

/-- A character that stands for itself is read as that character. -/
theorem escape_itself (h : StandsForItself lenient a) (cs : List Char) :
    escape lenient (a :: cs) = some (.atom (.char a), cs) := by
  rcases h with ha | ⟨hdigit, hletter, hlenient⟩
  · simp [escape, ha]
  · by_cases ha : a.isAlphanum = false
    · simp [escape, ha]
    · have hclass : classEscape a = none := by
        unfold classEscape
        split <;> simp_all
      have hescape : letterEscape lenient a cs = some (a, cs) := by
        unfold letterEscape
        split <;> simp_all
      have hb : a ≠ 'b' := by
        rintro rfl
        exact hletter (by decide)
      have hB : a ≠ 'B' := by
        rintro rfl
        exact hletter (by decide)
      simp [escape, ha, hdigit, hb, hB, hclass, hescape]

/-- A handler that runs was asked for by its own pattern. -/
theorem newCommand_of_mem {commands : List Command}
    (h : command ∈ handlers lenient start content commands) :
    newCommand lenient start command.name content = some true := by
  induction commands with
  | nil => cases h
  | cons other commands ih =>
    rw [handlers] at h
    split at h
    · cases h
    · rename_i hother
      rcases List.mem_cons.mp h with rfl | h
      · exact hother
      · exact ih h
    · exact ih h

/-- The names of the commands do not begin with one another. -/
theorem apart_of_exact (h : ∀ (command : Command) (content : List Char),
    newCommand lenient start command.name content = some true →
      start ++ command.name <+: content) (content : List Char) :
    ¬ (.ping ∈ initCommands lenient start content ∧
      .ttt ∈ initCommands lenient start content) := by
  rintro ⟨hping, httt⟩
  have hp := h _ _ (newCommand_of_mem hping)
  have ht := h _ _ (newCommand_of_mem httt)
  rcases List.prefix_or_prefix_of_prefix hp ht with hn | hn
  · exact absurd ((List.prefix_append_right_inj _).mp hn) (by decide)
  · exact absurd ((List.prefix_append_right_inj _).mp hn) (by decide)

/-- An escaped character that stands for itself and a text without syntax
recognise the commands. -/
theorem recognised_of_literal (h : StandsForItself lenient a)
    (hrest : ∀ c ∈ rest, isSyntax lenient c = false) : Recognised lenient (a :: rest) := by
  have hexact : ∀ (command : Command) (content : List Char),
      newCommand lenient (a :: rest) command.name content = some true ↔
        a :: rest ++ command.name <+: content := by
    intro command content
    have hliteral : ∀ c ∈ rest ++ command.name, isSyntax lenient c = false :=
      List.forall_mem_append.mpr ⟨hrest, name_literal command⟩
    rw [newCommand_escaped (escape_itself h _) (Or.inl rfl) rfl hliteral le_rfl, char_matches]
    exact and_iff_right rfl
  exact ⟨hexact, apart_of_exact fun command content => (hexact command content).mp⟩

/-! ## A first character that does not stand for itself -/

/-- What an escape before a text can be. -/
inductive Escaped (lenient : Char → Bool) (a : Char) (cs : List Char) :
    Regex → List Char → Prop
  /-- The character itself. -/
  | itself (h : StandsForItself lenient a) : Escaped lenient a cs (.char a) cs
  /-- A reference to a group. -/
  | reference {n : ℕ} {rest : List Char} (hn : n ≠ 0) (hrest : rest <:+ cs) :
    Escaped lenient a cs (.backref n) rest
  /-- An edge of a word. -/
  | edge {negated : Bool} (ha : a = 'b' ∨ a = 'B') : Escaped lenient a cs (.boundary negated) cs
  /-- A kind of characters. -/
  | kind {item : Item} (h : classEscape a = some item) :
    Escaped lenient a cs (.chars false [item]) cs
  /-- Another character. -/
  | other {d : Char} {rest : List Char} (hd : d ≠ a) (hspecial : isSyntax lenient d = false)
    (hrest : rest <:+ cs) : Escaped lenient a cs (.char d) rest
  /-- A character given by hexadecimal digits. -/
  | number {d : Char} {digits rest : List Char} (ha : a = 'x' ∨ a = 'u') (hdigits : digits ≠ [])
    (hhex : ∀ c ∈ digits, hexValue c ≠ none) (hrest : cs = digits ++ rest) :
    Escaped lenient a cs (.char d) rest

/-- A hexadecimal escape reads as many digits as it asks for. -/
theorem hexEscape_digits {n value : ℕ} (h : hexEscape n value cs = some (d, rest)) :
    ∃ digits, digits.length = n ∧ (∀ c ∈ digits, hexValue c ≠ none) ∧ cs = digits ++ rest := by
  induction n generalizing value cs with
  | zero =>
    cases h
    exact ⟨[], rfl, List.forall_mem_nil _, rfl⟩
  | succ n ih =>
    cases cs with
    | nil => cases h
    | cons c cs =>
      obtain ⟨v, hv, hmore⟩ := Option.bind_eq_some_iff.mp h
      obtain ⟨digits, hlength, hhex, rfl⟩ := ih hmore
      refine ⟨c :: digits, congrArg Nat.succ hlength, ?_, rfl⟩
      refine List.forall_mem_cons.mpr ⟨?_, hhex⟩
      rw [hv]
      exact Option.some_ne_none v

/-- A hexadecimal escape is a character given by its digits. -/
theorem escaped_hex {n : ℕ} (ha : a = 'x' ∨ a = 'u') (hn : n ≠ 0)
    (h : hexEscape n 0 cs = some (d, rest)) : Escaped lenient a cs (.char d) rest := by
  obtain ⟨digits, hlength, hhex, hcs⟩ := hexEscape_digits h
  refine .number ha ?_ hhex hcs
  rintro rfl
  exact hn hlength.symm

/-- The control characters are neither the letter that escapes them nor
syntax. -/
theorem control_other : ∀ n < 32,
    Char.ofNat n ≠ 'c' ∧ isSyntax (fun _ => false) (Char.ofNat n) = false := by
  decide

/-- An escaped letter that is no assertion and no kind. -/
theorem escaped_letter (hdigit : a.isDigit = false) (hb : a ≠ 'b') (hB : a ≠ 'B')
    (hclass : classEscape a = none) (h : letterEscape lenient a cs = some (d, rest)) :
    Escaped lenient a cs (.char d) rest := by
  unfold letterEscape at h
  split at h
  · cases h
    exact .other (by decide) (isSyntax_of_strict (by decide)) (List.suffix_refl _)
  · cases h
    exact .other (by decide) (isSyntax_of_strict (by decide)) (List.suffix_refl _)
  · cases h
    exact .other (by decide) (isSyntax_of_strict (by decide)) (List.suffix_refl _)
  · cases h
    exact .other (by decide) (isSyntax_of_strict (by decide)) (List.suffix_refl _)
  · cases h
    exact .other (by decide) (isSyntax_of_strict (by decide)) (List.suffix_refl _)
  · unfold controlEscape at h
    split at h
    · cases h
    · split at h
      · cases h
        obtain ⟨hne, hspecial⟩ := control_other _ (Nat.mod_lt _ (by decide))
        exact .other hne (isSyntax_of_strict hspecial) (List.suffix_cons _ _)
      · cases h
  · exact escaped_hex (Or.inl rfl) (by decide) h
  · exact escaped_hex (Or.inr rfl) (by decide) h
  · split at h
    · cases h
      refine .itself (Or.inr ⟨hdigit, ?_, by assumption⟩)
      intro hmem
      simp only [String.reduceToList, List.mem_cons, List.not_mem_nil, or_false] at hmem
      rcases hmem with rfl | rfl | rfl | rfl | rfl | rfl | rfl | rfl | rfl | rfl | rfl | rfl | rfl |
        rfl | rfl | rfl <;> simp_all [classEscape]
    · cases h

/-- Reading more digits never makes a number smaller. -/
theorem le_foldl (digits : List Char) (n : ℕ) :
    n ≤ digits.foldl (fun n d => 10 * n + (d.toNat - 48)) n := by
  induction digits generalizing n with
  | nil => exact le_rfl
  | cons d digits ih =>
    have hle := ih (10 * n + (d.toNat - 48))
    rw [List.foldl_cons]
    omega

/-- A reference is to a group from the first on. -/
theorem natural_ne_zero {n : ℕ} (ha : a.isDigit = true) (hzero : a ≠ '0')
    (h : natural (a :: cs) = some (n, rest)) : n ≠ 0 ∧ rest <:+ cs := by
  simp only [natural, List.takeWhile_cons_of_pos ha, List.dropWhile_cons_of_pos ha, reduceCtorEq,
    if_false, Option.some.injEq, Prod.mk.injEq, List.foldl_cons] at h
  obtain ⟨rfl, rfl⟩ := h
  refine ⟨?_, List.dropWhile_suffix _⟩
  have hle := le_foldl (cs.takeWhile Char.isDigit) (10 * 0 + (a.toNat - 48))
  have hcode : a.toNat ≠ 48 := fun hn => hzero (Char.toNat_inj.mp hn)
  have hdigit : 48 ≤ a.toNat := by
    simp only [Char.isDigit, Bool.and_eq_true, decide_eq_true_eq] at ha
    exact ha.1
  omega

/-- An escaped digit is the null character or a reference. -/
theorem escaped_digit (ha : a.isDigit = true) (h : decimalEscape (a :: cs) = some (r, rest)) :
    Escaped lenient a cs r rest := by
  unfold decimalEscape at h
  split at h
  · rename_i tail heq
    obtain ⟨rfl, rfl⟩ := List.cons.inj heq
    split at h
    · cases h
    · cases h
      exact .other (by decide) (isSyntax_of_strict (by decide)) (List.suffix_refl _)
  · rename_i hzero
    obtain ⟨⟨n, after⟩, hn, heq⟩ := Option.map_eq_some_iff.mp h
    cases heq
    obtain ⟨hne, hafter⟩ := natural_ne_zero ha (fun hz => hzero cs (by rw [hz])) hn
    exact .reference hne hafter

/-- What an escape is read as. -/
theorem escaped_cases (h : escape lenient (a :: cs) = some (t, rest)) :
    ∃ r, (t = .atom r ∨ t = .assertion r) ∧ Escaped lenient a cs r rest := by
  simp only [escape] at h
  split at h
  · rename_i halnum
    cases h
    exact ⟨_, Or.inl rfl, .itself (Or.inl (by simpa using halnum))⟩
  split at h
  · obtain ⟨⟨r, after⟩, hr, heq⟩ := Option.map_eq_some_iff.mp h
    cases heq
    exact ⟨r, Or.inl rfl, escaped_digit (by assumption) hr⟩
  rename_i hdigit
  split at h
  · cases h
    exact ⟨_, Or.inr rfl, .edge (Or.inl (by assumption))⟩
  rename_i hb
  split at h
  · cases h
    exact ⟨_, Or.inr rfl, .edge (Or.inr (by assumption))⟩
  rename_i hB
  split at h
  · rename_i item hitem
    cases h
    exact ⟨_, Or.inl rfl, .kind hitem⟩
  · rename_i hclass
    obtain ⟨⟨d, after⟩, hd, heq⟩ := Option.map_eq_some_iff.mp h
    cases heq
    exact ⟨_, Or.inl rfl, escaped_letter (eq_false_of_ne_true hdigit) hb hB hclass hd⟩

/-- What follows the escape is the end of the text. -/
theorem Escaped.suffix (h : Escaped lenient a cs r rest) : rest <:+ cs := by
  cases h with
  | itself => exact List.suffix_refl _
  | reference _ hrest => exact hrest
  | edge => exact List.suffix_refl _
  | kind => exact List.suffix_refl _
  | other _ _ hrest => exact hrest
  | number _ _ _ hrest => exact ⟨_, hrest.symm⟩

/-- A letter that stands for a kind is not of that kind, or a letter that it
differs from is. -/
theorem classEscape_contains {item : Item} (h : classEscape a = some item) :
    item.contains a = false ∨ a ≠ 'x' ∧ item.contains 'x' = true := by
  unfold classEscape at h
  split at h <;> cases h <;> decide

/-- Before a text without syntax only a character that stands for itself is
recognised exactly. -/
theorem standsForItself_of_exact (hcs : start ++ name = a :: cs)
    (hliteral : ∀ c ∈ cs, isSyntax lenient c = false) (hp : 'p' ∈ cs)
    (h : ∀ content, newCommand lenient start name content = some true ↔ a :: cs <+: content) :
    StandsForItself lenient a := by
  have hself := (h (a :: cs)).mpr List.prefix_rfl
  cases hescape : escape lenient (a :: cs) with
  | none =>
    rw [newCommand_unescaped hescape hcs] at hself
    cases hself
  | some out =>
    obtain ⟨t, rest⟩ := out
    obtain ⟨r, ht, hescaped⟩ := escaped_cases hescape
    have hsuffix := hescaped.suffix
    have hiff : ∀ content, newCommand lenient start name content = some true ↔
        r.references = 0 ∧ ∃ y ∈ r.run (position content 0), rest <+: y.after := fun _ =>
      newCommand_escaped hescape ht hcs (fun c hc => hliteral c (hsuffix.subset hc))
        hsuffix.length_le
    obtain ⟨hreferences, hmatch⟩ := (hiff _).mp hself
    cases hescaped with
    | itself hitself => exact hitself
    | reference hn => exact absurd hreferences hn
    | edge ha =>
      obtain ⟨y, hy, htext⟩ := hmatch
      simp only [Regex.run] at hy
      split at hy
      · cases List.mem_singleton.mp hy
        have hin := mem_of_prefix_append (List.cons_ne_nil a []) htext 'p' hp
        cases List.mem_singleton.mp hin
        exact absurd ha (by decide)
      · cases hy
    | @kind item hitem =>
      obtain ⟨y, hy, htext⟩ := hmatch
      obtain ⟨c, tail, hafter, hc, rfl⟩ := mem_one.mp hy
      obtain ⟨rfl, rfl⟩ := List.cons.inj hafter
      rcases classEscape_contains hitem with hno | ⟨hne, hx⟩
      · simp [hno] at hc
      · have hother := (hiff ('x' :: cs)).mpr ⟨rfl, _,
          mem_one.mpr ⟨'x', cs, rfl, by simp [hx], rfl⟩, List.prefix_rfl⟩
        exact absurd (List.cons_prefix_cons.mp ((h _).mp hother)).1 hne
    | other hd => exact absurd (List.cons_prefix_cons.mp (char_matches.mp hmatch)).1 hd
    | @number d digits rest ha hdigits hhex hrest =>
      subst hrest
      have htext := (List.cons_prefix_cons.mp (char_matches.mp hmatch)).2
      have hin : 'p' ∈ digits :=
        (List.mem_append.mp hp).elim id (mem_of_prefix_append hdigits htext 'p')
      exact absurd (by decide) (hhex 'p' hin)

/-! ## A text with syntax -/

/-- No character of the syntax ends a line or is of one of the kinds that
escapes stand for. -/
theorem syntax_cases (h : isSyntax lenient a = true) : isLineEnd a = false ∧
    Kind.contains a .digit = false ∧ Kind.contains a .space = false ∧
    Kind.contains a .word = false := by
  simp only [isSyntax, List.mem_cons, List.not_mem_nil, or_false, decide_eq_true_eq] at h
  rcases h with h | ⟨rfl | rfl, -⟩
  · rcases h with rfl | rfl | rfl | rfl | rfl | rfl | rfl | rfl | rfl | rfl | rfl | rfl <;> decide
  · decide
  · decide

/-- Exchanging two characters moves no other one. -/
theorem swap_other {m z c : Char} (hm : c ≠ m) (hz : c ≠ z) (d : Char) :
    Equiv.swap m z d = c ↔ d = c := by
  rw [← Equiv.eq_symm_apply, Equiv.symm_swap, Equiv.swap_apply_of_ne_of_ne hm hz]

/-- What does not tell two characters apart does not see their exchange. -/
theorem swap_same {β : Type*} {m z : Char} (g : Char → β) (h : g m = g z) (d : Char) :
    g (Equiv.swap m z d) = g d := by
  rw [Equiv.swap_apply_def]
  split_ifs with hm hz
  · rw [hm, h]
  · rw [hz, h]
  · rfl

/-- No escape but a hexadecimal one tells two characters of the syntax
apart. -/
theorem Escaped.blind {m z : Char} (hm : isSyntax lenient m = true)
    (hz : isSyntax lenient z = true) (hma : m ≠ a) (hza : z ≠ a) (hx : a ≠ 'x') (hu : a ≠ 'u')
    (h : Escaped lenient a cs r rest) : r.Blind (Equiv.swap m z) := by
  obtain ⟨-, hmdigit, hmspace, hmword⟩ := syntax_cases hm
  obtain ⟨-, hzdigit, hzspace, hzword⟩ := syntax_cases hz
  cases h with
  | itself => exact fun d => swap_other hma.symm hza.symm d
  | reference => exact (Equiv.swap m z).injective
  | edge => exact swap_same isWord (hmword.trans hzword.symm)
  | @kind item hitem =>
    refine swap_same (fun d => [item].any (Item.contains d)) ?_
    unfold classEscape at hitem
    split at hitem <;> cases hitem <;>
      simp [Item.contains, hmdigit, hzdigit, hmspace, hzspace, hmword, hzword]
  | other hd hspecial =>
    refine fun d => swap_other ?_ ?_ d
    · rintro rfl
      rw [hm] at hspecial
      cases hspecial
    · rintro rfl
      rw [hz] at hspecial
      cases hspecial
  | number ha => exact absurd ha (by simp [hx, hu])

/-- Some character of the syntax differs from two given ones. -/
theorem other_syntax (lenient : Char → Bool) (m a : Char) :
    ∃ z, isSyntax lenient z = true ∧ z ≠ m ∧ z ≠ a := by
  by_contra hno
  push Not at hno
  have hdot := hno '.' (by simp [isSyntax])
  have hstar := hno '*' (by simp [isSyntax])
  have hplus := hno '+' (by simp [isSyntax])
  by_cases hm : m = '.'
  · subst hm
    exact absurd ((hstar (by decide)).trans (hplus (by decide)).symm) (by decide)
  · have ha := hdot (Ne.symm hm)
    by_cases hm' : m = '*'
    · subst hm'
      exact absurd (ha.trans (hplus (by decide)).symm) (by decide)
    · exact absurd (ha.trans (hstar (Ne.symm hm')).symm) (by decide)

/-- A text with other syntax than the first character is not recognised
exactly: exchange one of its characters for another one of the syntax. -/
theorem not_exact_of_syntax {m : Char} (hcs : start ++ name = a :: cs) (hx : a ≠ 'x') (hu : a ≠ 'u')
    (hplain : ∀ c ∈ cs, c ≠ '\\' ∧ c ≠ '[') (hm : m ∈ cs) (hspecial : isSyntax lenient m = true)
    (hma : m ≠ a)
    (h : ∀ content, newCommand lenient start name content = some true ↔ a :: cs <+: content) :
    False := by
  obtain ⟨z, hz, hzm, hza⟩ := other_syntax lenient m a
  have hself := (h (a :: cs)).mpr List.prefix_rfl
  rw [newCommand, regexString, hcs] at hself
  obtain ⟨r, hcompile, hsearch⟩ := Option.map_eq_some_iff.mp hself
  have hblind : r.Blind (Equiv.swap m z) := by
    cases hescape : escape lenient (a :: cs) with
    | none =>
      rw [compile_unescaped hescape] at hcompile
      cases hcompile
    | some out =>
      obtain ⟨t, rest⟩ := out
      obtain ⟨s, ht, hescaped⟩ := escaped_cases hescape
      have hs := hescaped.blind hspecial hz hma hza hx hu
      refine compile_blind (swap_same isLineEnd ?_) hescape ?_ (fun c hc => ?_) hcompile
      · exact (syntax_cases hspecial).1.trans (syntax_cases hz).1.symm
      · rcases ht with rfl | rfl <;> exact hs
      · obtain ⟨hescapes, hclass⟩ := hplain c (hescaped.suffix.subset hc)
        refine ⟨hescapes, hclass, fun hno => swap_other ?_ ?_⟩
        · rintro rfl
          rw [hspecial] at hno
          cases hno
        · rintro rfl
          rw [hz] at hno
          cases hno
  have hswapped : newCommand lenient start name ((a :: cs).map (Equiv.swap m z)) = some true := by
    rw [newCommand, regexString, hcs, hcompile, Option.map_some, search_rename hblind, hsearch]
  -- both texts have one length, so the exchange would have changed nothing
  have heq := ((h _).mp hswapped).eq_of_length (List.length_map _).symm
  have hfixed := List.map_inj_left.mp (heq.symm.trans (List.map_id _).symm) m
    (List.mem_cons_of_mem _ hm)
  rw [Equiv.swap_apply_left] at hfixed
  exact hzm hfixed

/-- The prefix keeps its meaning in the pattern: the escaped character stands
for itself, and no other character belongs to the syntax. -/
def KeepsMeaning (lenient : Char → Bool) (a : Char) (rest : List Char) : Prop :=
  StandsForItself lenient a ∧ ∀ c ∈ rest, isSyntax lenient c = false

/-- After the first character there is no syntax, or there is some that is
neither an escape, nor a class, nor that character. -/
def Settled (lenient : Char → Bool) (a : Char) (rest : List Char) : Prop :=
  (∀ c ∈ rest, isSyntax lenient c = false) ∨
    a ≠ 'x' ∧ a ≠ 'u' ∧ (∀ c ∈ rest, c ≠ '\\' ∧ c ≠ '[') ∧
      ∃ m ∈ rest, isSyntax lenient m = true ∧ m ≠ a

/-- A prefix that keeps its meaning is recognised exactly, and of the settled
prefixes no other one is. -/
theorem recognised_of_keepsMeaning (lenient : Char → Bool) (a : Char) (rest : List Char) :
    (KeepsMeaning lenient a rest → Recognised lenient (a :: rest)) ∧
      (Settled lenient a rest → Recognised lenient (a :: rest) → KeepsMeaning lenient a rest) := by
  refine ⟨fun ⟨ha, hrest⟩ => recognised_of_literal ha hrest, ?_⟩
  rintro hsettled ⟨hexact, -⟩
  have hping := hexact .ping
  rcases hsettled with hrest | ⟨hx, hu, hplain, m, hm, hspecial, hma⟩
  · refine ⟨standsForItself_of_exact rfl ?_ ?_ hping, hrest⟩
    · exact List.forall_mem_append.mpr ⟨hrest, name_literal .ping⟩
    · exact List.mem_append_right _ (by decide)
  · refine absurd hping fun h => not_exact_of_syntax rfl hx hu ?_ ?_ hspecial hma h
    · refine List.forall_mem_append.mpr ⟨hplain, fun c hc => ?_⟩
      have hname : isSyntax (fun _ => false) c = false := name_literal .ping c hc
      refine ⟨?_, ?_⟩ <;>
        · rintro rfl
          cases hname
    · exact List.mem_append_left _ hm

/-- A prefix of one mark is recognised exactly. -/
theorem bang_recognised : Recognised (fun _ => false) ['!'] :=
  (recognised_of_keepsMeaning (fun _ => false) '!' []).1 ⟨Or.inl (by decide), List.forall_mem_nil _⟩

/-- With the prefix "!." another message runs the handler, and with the
prefix "d" the message that begins with it does not. -/
theorem dot_not_recognised :
    newCommand (fun _ => false) "!.".toList Command.ping.name "!xping".toList = some true ∧
      ¬ Recognised (fun _ => false) "!.".toList ∧ ¬ Recognised (fun _ => false) "d".toList := by
  have hdot : newCommand (fun _ => false) "!.".toList Command.ping.name "!xping".toList =
      some true := by decide +kernel
  have hdigit : newCommand (fun _ => false) "d".toList Command.ping.name "dping".toList ≠
      some true := by decide +kernel
  refine ⟨hdot, fun h => ?_, fun h => hdigit ((h.exact .ping _).mpr (by decide))⟩
  exact absurd ((h.exact .ping _).mp hdot) (by decide)

end TintempPlusPlus.Commands
