import TintempPlusPlus.Library.EcmaRegex

/-!
# Patterns of the ECMAScript grammar

A pattern is read into tokens, and these are put together with a stack of
the groups that are still open. Where the grammar leaves a pattern without
meaning there is no regular expression, and building one is an error.

The grammar gives no meaning to the escape of some letters and to a closing
bracket or brace that closes nothing. Such a character stands for itself or is
an error. Implementations differ here, so this is a parameter.
-/

namespace TintempPlusPlus.EcmaRegex

/-- How a group begins. -/
inductive GroupKind where
  | capture (index : ℕ)
  | plain
  | ahead (negated : Bool)

/-- What a pattern is read into. -/
inductive Token where
  /-- A term that a quantifier may follow. -/
  | atom (r : Regex)
  /-- A term that no quantifier may follow. -/
  | assertion (r : Regex)
  | quantifier (min : ℕ) (max : Option ℕ) (greedy : Bool)
  | capture
  | plain
  | ahead (negated : Bool)
  | close
  | bar

/-- The characters that do not stand for themselves. -/
def isSyntax (lenient : Char → Bool) (c : Char) : Bool :=
  c ∈ ['^', '$', '\\', '.', '*', '+', '?', '(', ')', '[', '{', '|'] ∨
    c ∈ [']', '}'] ∧ lenient c = false

/-- A number at the front of a text. -/
def natural (cs : List Char) : Option (ℕ × List Char) :=
  let digits := cs.takeWhile Char.isDigit
  if digits = [] then none
  else some (digits.foldl (fun n d => 10 * n + (d.toNat - 48)) 0, cs.dropWhile Char.isDigit)

/-- A character given by hexadecimal digits. -/
def hexEscape : ℕ → ℕ → List Char → Option (Char × List Char)
  | 0, value, cs => some (Char.ofNat value, cs)
  | _ + 1, _, [] => none
  | n + 1, value, c :: cs => (hexValue c).bind fun d => hexEscape n (16 * value + d) cs

/-- A control character given by a letter. -/
def controlEscape : List Char → Option (Char × List Char)
  | [] => none
  | l :: cs => if l.isAlpha then some (Char.ofNat (l.toNat % 32), cs) else none

/-- The character that an escaped letter stands for. -/
def letterEscape (lenient : Char → Bool) (c : Char) (cs : List Char) : Option (Char × List Char) :=
  match c with
  | 'f' => some ('\x0c', cs)
  | 'n' => some ('\n', cs)
  | 'r' => some ('\r', cs)
  | 't' => some ('\t', cs)
  | 'v' => some ('\x0b', cs)
  | 'c' => controlEscape cs
  | 'x' => hexEscape 2 0 cs
  | 'u' => hexEscape 4 0 cs
  | _ => if lenient c then some (c, cs) else none

/-- The characters that an escaped letter stands for. -/
def classEscape : Char → Option Item
  | 'd' => some (.kind false .digit)
  | 'D' => some (.kind true .digit)
  | 's' => some (.kind false .space)
  | 'S' => some (.kind true .space)
  | 'w' => some (.kind false .word)
  | 'W' => some (.kind true .word)
  | _ => none

/-- A number after a backslash: the null character or a group. -/
def decimalEscape (cs : List Char) : Option (Regex × List Char) :=
  match cs with
  | '0' :: rest =>
    if rest.head?.any Char.isDigit then none else some (.char '\x00', rest)
  | _ => (natural cs).map fun (n, rest) => (.backref n, rest)

/-- What follows a backslash outside character classes. -/
def escape (lenient : Char → Bool) : List Char → Option (Token × List Char)
  | [] => none
  | c :: cs =>
    if !c.isAlphanum then some (.atom (.char c), cs)
    else if c.isDigit then (decimalEscape (c :: cs)).map fun (r, rest) => (.atom r, rest)
    else if c = 'b' then some (.assertion (.boundary false), cs)
    else if c = 'B' then some (.assertion (.boundary true), cs)
    else
      match classEscape c with
      | some item => some (.atom (.chars false [item]), cs)
      | none => (letterEscape lenient c cs).map fun (d, rest) => (.atom (.char d), rest)

/-- The names of kinds in bracket expressions. -/
def kindNames : List (String × Kind) :=
  [("alnum", .alnum), ("alpha", .alpha), ("blank", .blank), ("cntrl", .cntrl), ("digit", .digit),
    ("graph", .graph), ("lower", .lower), ("print", .print), ("punct", .punct), ("space", .space),
    ("upper", .upper), ("xdigit", .xdigit), ("d", .digit), ("s", .space), ("w", .word)]

/-- One atom of a character class: a character or a kind. -/
def classAtom (lenient : Char → Bool) : List Char → Option ((Char ⊕ Item) × List Char)
  | [] => none
  | '\\' :: c :: cs =>
    if !c.isAlphanum then some (.inl c, cs)
    else if c.isDigit then
      if c = '0' ∧ ¬ cs.head?.any Char.isDigit then some (.inl '\x00', cs) else none
    else if c = 'b' then some (.inl '\x08', cs)
    else
      match classEscape c with
      | some item => some (.inr item, cs)
      | none => (letterEscape lenient c cs).map fun (d, rest) => (.inl d, rest)
  | ['\\'] => none
  | '[' :: ':' :: cs =>
    (kindNames.find? fun entry => (entry.1 ++ ":]").toList.isPrefixOf cs).map fun entry =>
      (.inr (.kind false entry.2), cs.drop (entry.1.length + 2))
  | '[' :: '.' :: c :: '.' :: ']' :: cs => some (.inl c, cs)
  | '[' :: '=' :: c :: '=' :: ']' :: cs => some (.inl c, cs)
  | '[' :: '.' :: _ => none
  | '[' :: '=' :: _ => none
  | c :: cs => some (.inl c, cs)

/-- An atom of a class as an item of its own. -/
def classItem : Char ⊕ Item → Item
  | .inl c => .range c c
  | .inr item => item

/-- The items of a character class up to its closing bracket. The first
argument bounds their number. -/
def classItems (lenient : Char → Bool) : ℕ → List Char → Option (List Item × List Char)
  | 0, _ => none
  | _ + 1, ']' :: cs => some ([], cs)
  | fuel + 1, cs => do
    let (first, cs) ← classAtom lenient cs
    match cs with
    | '-' :: ']' :: cs => some ([classItem first, .range '-' '-'], cs)
    | '-' :: cs =>
      let (last, cs) ← classAtom lenient cs
      match first, last with
      | .inl first, .inl last =>
        if first ≤ last then
          (classItems lenient fuel cs).map fun (items, cs) => (.range first last :: items, cs)
        else none
      | _, _ => none
    | _ => (classItems lenient fuel cs).map fun (items, cs) => (classItem first :: items, cs)

/-- The bounds between the braces of a quantifier. -/
def bounds (cs : List Char) : Option (ℕ × Option ℕ × List Char) := do
  let (min, cs) ← natural cs
  match cs with
  | '}' :: cs => some (min, some min, cs)
  | ',' :: '}' :: cs => some (min, none, cs)
  | ',' :: cs => do
    let (max, cs) ← natural cs
    match cs with
    | '}' :: cs => if min ≤ max then some (min, some max, cs) else none
    | _ => none
  | _ => none

/-- A quantifier is lazy when a question mark follows. -/
def quantifier (min : ℕ) (max : Option ℕ) : List Char → Token × List Char
  | '?' :: cs => (.quantifier min max false, cs)
  | cs => (.quantifier min max true, cs)

/-- The token that begins with a character of the syntax. -/
def syntaxToken (lenient : Char → Bool) (c : Char) (cs : List Char) :
    Option (Token × List Char) :=
  match c, cs with
  | '^', _ => some (.assertion .start, cs)
  | '$', _ => some (.assertion .finish, cs)
  | '\\', _ => escape lenient cs
  | '.', _ => some (.atom .any, cs)
  | '*', _ => some (quantifier 0 none cs)
  | '+', _ => some (quantifier 1 none cs)
  | '?', _ => some (quantifier 0 (some 1) cs)
  | '(', '?' :: ':' :: rest => some (.plain, rest)
  | '(', '?' :: '=' :: rest => some (.ahead false, rest)
  | '(', '?' :: '!' :: rest => some (.ahead true, rest)
  | '(', _ => some (.capture, cs)
  | ')', _ => some (.close, cs)
  | '[', '^' :: rest =>
    (classItems lenient (rest.length + 1) rest).map fun (items, rest) =>
      (.atom (.chars true items), rest)
  | '[', _ =>
    (classItems lenient (cs.length + 1) cs).map fun (items, rest) =>
      (.atom (.chars false items), rest)
  | '{', _ => (bounds cs).map fun (min, max, rest) => quantifier min max rest
  | '|', _ => some (.bar, cs)
  | _, _ => none

/-- The first token of a pattern. -/
def token (lenient : Char → Bool) (c : Char) (cs : List Char) : Option (Token × List Char) :=
  if isSyntax lenient c then syntaxToken lenient c cs else some (.atom (.char c), cs)

/-- The tokens of a pattern. Each takes a character or more, so the length of
the pattern bounds their number. -/
def lex (lenient : Char → Bool) : ℕ → List Char → Option (List Token)
  | _, [] => some []
  | 0, _ :: _ => none
  | fuel + 1, c :: cs =>
    (token lenient c cs).bind fun (t, rest) => (lex lenient fuel rest).map fun ts => t :: ts

/-- A group that is still open. -/
structure Frame where
  /-- How it began; the pattern itself is not a group. -/
  kind : GroupKind := .plain
  /-- Its finished alternatives. -/
  done : Option Regex := none
  /-- The terms of the current alternative. -/
  sequence : Regex := .empty
  /-- The last term, while a quantifier may follow it. -/
  last : Option Regex := none

/-- The terms of the current alternative. -/
def Frame.flush (f : Frame) : Regex :=
  match f.last with
  | none => f.sequence
  | some r => .concat f.sequence r

/-- All alternatives. -/
def Frame.result (f : Frame) : Regex :=
  match f.done with
  | none => f.flush
  | some r => .alt r f.flush

/-- Add a term that a quantifier may follow. -/
def Frame.atom (f : Frame) (r : Regex) : Frame :=
  { f with sequence := f.flush, last := some r }

/-- Add a term that no quantifier may follow. -/
def Frame.assertion (f : Frame) (r : Regex) : Frame :=
  { f with sequence := .concat f.flush r, last := none }

/-- Add a finished group. -/
def Frame.add (f : Frame) (kind : GroupKind) (r : Regex) : Frame :=
  match kind with
  | .capture index => f.atom (.group index r)
  | .plain => f.atom r
  | .ahead negated => f.assertion (.look negated r)

/-- Put the tokens together. The second component of the result is the
number of capture groups. -/
def assemble : List Token → Frame → List Frame → ℕ → Option (Regex × ℕ)
  | [], f, [], n => some (f.result, n)
  | [], _, _ :: _, _ => none
  | .atom r :: ts, f, fs, n => assemble ts (f.atom r) fs n
  | .assertion r :: ts, f, fs, n => assemble ts (f.assertion r) fs n
  | .quantifier min max greedy :: ts, f, fs, n =>
    match f.last with
    | none => none
    | some r => assemble ts
        { f with sequence := .concat f.sequence (.repeated r min max greedy), last := none } fs n
  | .capture :: ts, f, fs, n => assemble ts { kind := .capture (n + 1) } (f :: fs) (n + 1)
  | .plain :: ts, f, fs, n => assemble ts { kind := .plain } (f :: fs) n
  | .ahead negated :: ts, f, fs, n => assemble ts { kind := .ahead negated } (f :: fs) n
  | .close :: _, _, [], _ => none
  | .close :: ts, f, g :: fs, n => assemble ts (g.add f.kind f.result) fs n
  | .bar :: ts, f, fs, n =>
    assemble ts { f with done := some f.result, sequence := .empty, last := none } fs n

/-- The largest group that is referred to. -/
def Regex.references : Regex → ℕ
  | backref n => n
  | group _ r => r.references
  | look _ r => r.references
  | concat r s => max r.references s.references
  | alt r s => max r.references s.references
  | repeated r _ _ _ => r.references
  | _ => 0

/-- The regular expression of a pattern, when it has one. -/
def compile (lenient : Char → Bool) (pattern : List Char) : Option Regex := do
  let tokens ← lex lenient pattern.length pattern
  let (r, groups) ← assemble tokens {} [] 0
  if r.references ≤ groups then some r else none

variable {lenient : Char → Bool} {a c : Char} {text rest cs : List Char} {r : Regex} {t : Token}
  {ts : List Token} {fuel : ℕ}

/-- What stands for itself in every implementation does so in each. -/
theorem isSyntax_of_strict (h : isSyntax (fun _ => false) c = false) :
    isSyntax lenient c = false := by
  simp only [isSyntax, decide_eq_false_iff_not, not_or, and_true] at h ⊢
  exact ⟨h.1, fun hc => h.2 hc.1⟩

/-- A text without syntax is read as it stands. -/
theorem lex_literal (h : ∀ c ∈ text, isSyntax lenient c = false) (hfuel : text.length ≤ fuel) :
    lex lenient fuel text = some (text.map fun c => .atom (.char c)) := by
  induction text generalizing fuel with
  | nil => cases fuel <;> rfl
  | cons c text ih =>
    obtain ⟨hc, htext⟩ := List.forall_mem_cons.mp h
    cases fuel with
    | zero => cases hfuel
    | succ fuel =>
      have hrest := ih htext (Nat.le_of_succ_le_succ hfuel)
      simp [lex, token, hc, hrest]

/-- Atoms are put in a row. -/
theorem assemble_atoms (rs : List Regex) (f : Frame) (hf : f.done = none) (n : ℕ) :
    assemble (rs.map .atom) f [] n = some (f.flush.row rs, n) := by
  induction rs generalizing f with
  | nil => simp [assemble, Frame.result, hf, Regex.row]
  | cons r rs ih =>
    rw [List.map_cons, assemble, ih (f.atom r) hf]
    rfl

/-- A text as it stands refers to no group. -/
theorem references_literal (r : Regex) (text : List Char) :
    (r.row (text.map .char)).references = r.references := by
  induction text generalizing r with
  | nil => rfl
  | cons c text ih =>
    rw [List.map_cons, row_cons, ih]
    exact Nat.max_zero _

/-- An anchored pattern whose first character is escaped, up to the text that
follows the escape. -/
theorem lex_escaped (h : escape lenient (a :: cs) = some (t, rest))
    (hrest : ∀ c ∈ rest, isSyntax lenient c = false) (hlength : rest.length ≤ cs.length) :
    lex lenient (cs.length + 3) ('^' :: '\\' :: a :: cs) =
      some (.assertion .start :: t :: rest.map fun c => .atom (.char c)) := by
  have hliteral : lex lenient (cs.length + 1) rest = _ :=
    lex_literal hrest (Nat.le_succ_of_le hlength)
  have hstart : token lenient '^' ('\\' :: a :: cs) =
      some (.assertion .start, '\\' :: a :: cs) := rfl
  have hescape : token lenient '\\' (a :: cs) = some (t, rest) := h
  simp only [lex, hstart, hescape, hliteral, Option.bind_some, Option.map_some]

/-- The escape, and then the text as it stands. -/
theorem compile_escaped (h : escape lenient (a :: cs) = some (t, rest))
    (ht : t = .atom r ∨ t = .assertion r) (hrest : ∀ c ∈ rest, isSyntax lenient c = false)
    (hlength : rest.length ≤ cs.length) :
    compile lenient ('^' :: '\\' :: a :: cs) =
      if r.references = 0 then some ((Regex.concat (.concat .empty .start) r).row (rest.map .char))
      else none := by
  have hmap : (rest.map fun c => Token.atom (.char c)) = (rest.map Regex.char).map .atom := by
    rw [List.map_map]
    rfl
  have hassemble : assemble (.assertion .start :: t :: rest.map fun c => .atom (.char c)) {} [] 0 =
      some ((Regex.concat (.concat .empty .start) r).row (rest.map .char), 0) := by
    rw [hmap]
    rcases ht with rfl | rfl
    · exact assemble_atoms _ _ rfl 0
    · exact assemble_atoms _ _ rfl 0
  have hlex := lex_escaped h hrest hlength
  rw [compile]
  simp only [List.length_cons, hlex, hassemble, Option.bind_eq_bind, Option.bind_some,
    references_literal, Regex.references, Nat.max_zero, Nat.zero_max, Nat.le_zero]

/-- An escape without meaning makes the pattern an error. -/
theorem compile_unescaped (h : escape lenient (a :: cs) = none) :
    compile lenient ('^' :: '\\' :: a :: cs) = none := by
  have hescape : token lenient '\\' (a :: cs) = none := h
  have hstart : token lenient '^' ('\\' :: a :: cs) =
      some (.assertion .start, '\\' :: a :: cs) := rfl
  rw [compile]
  simp only [List.length_cons, lex, hstart, hescape, Option.bind_eq_bind, Option.bind_some,
    Option.bind_none, Option.map_none]

section Renaming

variable {f : Char → Char}

/-- The token tells no character from its new name. -/
def Token.Blind (f : Char → Char) : Token → Prop
  | atom r => r.Blind f
  | assertion r => r.Blind f
  | _ => True

/-- Reading a number leaves a part of the text. -/
theorem natural_subset {n : ℕ} (h : natural cs = some (n, rest)) : rest ⊆ cs := by
  simp only [natural] at h
  split at h
  · cases h
  · obtain ⟨-, rfl⟩ := Prod.mk.inj (Option.some.inj h)
    exact (List.dropWhile_suffix _).subset

/-- A quantifier names no character. -/
theorem quantifier_blind (min : ℕ) (max : Option ℕ) (cs : List Char) :
    (quantifier min max cs).1.Blind f ∧ (quantifier min max cs).2 ⊆ cs := by
  unfold quantifier
  split
  · exact ⟨trivial, List.subset_cons_self _ _⟩
  · exact ⟨trivial, List.Subset.refl _⟩

/-- Reading bounds leaves a part of the text. -/
theorem bounds_subset {min : ℕ} {max : Option ℕ} (h : bounds cs = some (min, max, rest)) :
    rest ⊆ cs := by
  unfold bounds at h
  obtain ⟨⟨n, after⟩, hn, h⟩ := Option.bind_eq_some_iff.mp h
  have hafter := natural_subset hn
  dsimp only at h
  split at h
  · cases h
    exact fun d hd => hafter (List.mem_cons_of_mem _ hd)
  · cases h
    exact fun d hd => hafter (List.mem_cons_of_mem _ (List.mem_cons_of_mem _ hd))
  · obtain ⟨⟨m, after'⟩, hm, h⟩ := Option.bind_eq_some_iff.mp h
    have hafter' := natural_subset hm
    dsimp only at h
    split at h
    · split at h
      · cases h
        exact fun d hd => hafter (List.mem_cons_of_mem _ (hafter' (List.mem_cons_of_mem _ hd)))
      · cases h
    · cases h
  · cases h

/-- Without escapes and classes a token sees only characters that stand for
themselves. -/
theorem token_blind (hline : ∀ d, isLineEnd (f d) = isLineEnd d)
    (hc : isSyntax lenient c = false → ∀ d, f d = c ↔ d = c) (hescape : c ≠ '\\') (hclass : c ≠ '[')
    (h : token lenient c cs = some (t, rest)) : t.Blind f ∧ rest ⊆ cs := by
  unfold token at h
  split at h
  · unfold syntaxToken at h
    have hquantifier : ∀ {min : ℕ} {max : Option ℕ},
        some (quantifier min max cs) = some (t, rest) → t.Blind f ∧ rest ⊆ cs := by
      intro min max hq
      have hblind := quantifier_blind (f := f) min max cs
      rwa [Option.some.inj hq] at hblind
    split at h
    · cases h
      exact ⟨trivial, List.Subset.refl _⟩
    · cases h
      exact ⟨trivial, List.Subset.refl _⟩
    · exact absurd rfl hescape
    · cases h
      exact ⟨hline, List.Subset.refl _⟩
    · exact hquantifier h
    · exact hquantifier h
    · exact hquantifier h
    · cases h
      exact ⟨trivial, fun d hd => List.mem_cons_of_mem _ (List.mem_cons_of_mem _ hd)⟩
    · cases h
      exact ⟨trivial, fun d hd => List.mem_cons_of_mem _ (List.mem_cons_of_mem _ hd)⟩
    · cases h
      exact ⟨trivial, fun d hd => List.mem_cons_of_mem _ (List.mem_cons_of_mem _ hd)⟩
    · cases h
      exact ⟨trivial, List.Subset.refl _⟩
    · cases h
      exact ⟨trivial, List.Subset.refl _⟩
    · exact absurd rfl hclass
    · exact absurd rfl hclass
    · obtain ⟨⟨min, max, after⟩, hb, hq⟩ := Option.map_eq_some_iff.mp h
      have hblind := quantifier_blind (f := f) min max after
      dsimp only at hq
      rw [hq] at hblind
      exact ⟨hblind.1, fun d hd => bounds_subset hb (hblind.2 hd)⟩
    · cases h
      exact ⟨trivial, List.Subset.refl _⟩
    · cases h
  · obtain ⟨rfl, rfl⟩ := Prod.mk.inj (Option.some.inj h)
    exact ⟨hc (eq_false_of_ne_true (by assumption)), List.Subset.refl _⟩

/-- Without escapes and classes no token tells a character from its new name.
-/
theorem lex_blind (hline : ∀ d, isLineEnd (f d) = isLineEnd d)
    (hcs : ∀ c ∈ cs, c ≠ '\\' ∧ c ≠ '[' ∧ (isSyntax lenient c = false → ∀ d, f d = c ↔ d = c))
    (h : lex lenient fuel cs = some ts) : ∀ t ∈ ts, t.Blind f := by
  induction fuel generalizing cs ts with
  | zero =>
    cases cs with
    | nil =>
      cases h
      exact fun t ht => by cases ht
    | cons c cs => cases h
  | succ fuel ih =>
    cases cs with
    | nil =>
      cases h
      exact fun t ht => by cases ht
    | cons c cs =>
      obtain ⟨⟨hescape, hclass, hc⟩, htail⟩ := List.forall_mem_cons.mp hcs
      obtain ⟨⟨t, rest⟩, htoken, h⟩ := Option.bind_eq_some_iff.mp h
      obtain ⟨us, hus, rfl⟩ := Option.map_eq_some_iff.mp h
      obtain ⟨ht, hrest⟩ := token_blind hline hc hescape hclass htoken
      exact List.forall_mem_cons.mpr ⟨ht, ih (fun d hd => htail d (hrest hd)) hus⟩

/-- What a frame has collected tells no character from its new name. -/
structure Frame.Blind (f : Char → Char) (frame : Frame) : Prop where
  /-- The finished alternatives. -/
  done : ∀ r, frame.done = some r → r.Blind f
  /-- The terms before the last one. -/
  sequence : frame.sequence.Blind f
  /-- The last term. -/
  last : ∀ r, frame.last = some r → r.Blind f

variable {frame : Frame}

/-- A new frame has collected nothing. -/
theorem blind_new (kind : GroupKind) : Frame.Blind f { kind := kind } where
  done := by rintro r ⟨⟩
  sequence := trivial
  last := by rintro r ⟨⟩

/-- The terms of the current alternative are blind. -/
theorem Frame.Blind.flush (h : frame.Blind f) : frame.flush.Blind f := by
  unfold Frame.flush
  split
  · exact h.sequence
  · exact ⟨h.sequence, h.last _ (by assumption)⟩

/-- All alternatives are blind. -/
theorem Frame.Blind.result (h : frame.Blind f) : frame.result.Blind f := by
  unfold Frame.result
  split
  · exact h.flush
  · exact ⟨h.done _ (by assumption), h.flush⟩

/-- A blind term may be added. -/
theorem Frame.Blind.atom (h : frame.Blind f) (hr : r.Blind f) : (frame.atom r).Blind f := by
  refine ⟨h.done, h.flush, ?_⟩
  rintro _ ⟨⟩
  exact hr

/-- A blind assertion may be added. -/
theorem Frame.Blind.assertion (h : frame.Blind f) (hr : r.Blind f) :
    (frame.assertion r).Blind f :=
  ⟨h.done, ⟨h.flush, hr⟩, fun _ hn => by cases hn⟩

/-- A blind group may be added. -/
theorem Frame.Blind.add (h : frame.Blind f) (kind : GroupKind) (hr : r.Blind f) :
    (frame.add kind r).Blind f := by
  cases kind with
  | capture index => exact h.atom hr
  | plain => exact h.atom hr
  | ahead negated => exact h.assertion hr

/-- Blind tokens make a blind regular expression. -/
theorem assemble_blind {frames : List Frame} {n : ℕ} {out : Regex × ℕ}
    (hts : ∀ t ∈ ts, t.Blind f) (hframe : frame.Blind f) (hframes : ∀ g ∈ frames, g.Blind f)
    (h : assemble ts frame frames n = some out) : out.1.Blind f := by
  induction ts generalizing frame frames n with
  | nil =>
    cases frames with
    | nil =>
      cases h
      exact hframe.result
    | cons g frames => cases h
  | cons t ts ih =>
    obtain ⟨ht, hrest⟩ := List.forall_mem_cons.mp hts
    cases t with
    | atom r => exact ih hrest (hframe.atom ht) hframes h
    | assertion r => exact ih hrest (hframe.assertion ht) hframes h
    | quantifier min max greedy =>
      rw [assemble] at h
      split at h
      · cases h
      · rename_i r hlast
        have hnew : Frame.Blind f { frame with
            sequence := .concat frame.sequence (.repeated r min max greedy), last := none } :=
          ⟨hframe.done, And.intro hframe.sequence (hframe.last r hlast), fun _ hn => by cases hn⟩
        exact ih hrest hnew hframes h
    | capture => exact ih hrest (blind_new _) (List.forall_mem_cons.mpr ⟨hframe, hframes⟩) h
    | plain => exact ih hrest (blind_new _) (List.forall_mem_cons.mpr ⟨hframe, hframes⟩) h
    | ahead negated => exact ih hrest (blind_new _) (List.forall_mem_cons.mpr ⟨hframe, hframes⟩) h
    | close =>
      cases frames with
      | nil => cases h
      | cons g frames =>
        obtain ⟨hg, hframes⟩ := List.forall_mem_cons.mp hframes
        exact ih hrest (hg.add _ hframe.result) hframes h
    | bar =>
      have hnew : Frame.Blind f
          { frame with done := some frame.result, sequence := .empty, last := none } := by
        refine ⟨?_, trivial, fun _ hn => by cases hn⟩
        rintro r ⟨⟩
        exact hframe.result
      exact ih hrest hnew hframes h

/-- A pattern without escapes and classes, after its own first escape. -/
theorem compile_blind (hline : ∀ d, isLineEnd (f d) = isLineEnd d)
    (h : escape lenient (a :: cs) = some (t, rest)) (ht : t.Blind f)
    (hrest : ∀ c ∈ rest, c ≠ '\\' ∧ c ≠ '[' ∧ (isSyntax lenient c = false → ∀ d, f d = c ↔ d = c))
    (hcompile : compile lenient ('^' :: '\\' :: a :: cs) = some r) : r.Blind f := by
  have hstart : token lenient '^' ('\\' :: a :: cs) =
      some (.assertion .start, '\\' :: a :: cs) := rfl
  have hescape : token lenient '\\' (a :: cs) = some (t, rest) := h
  obtain ⟨ts, hlex, hbind⟩ := Option.bind_eq_some_iff.mp hcompile
  obtain ⟨⟨out, groups⟩, hassemble, hout⟩ := Option.bind_eq_some_iff.mp hbind
  simp only [List.length_cons, lex, hstart, hescape, Option.bind_some] at hlex
  obtain ⟨us, hus, rfl⟩ := Option.map_eq_some_iff.mp hlex
  obtain ⟨vs, hvs, rfl⟩ := Option.map_eq_some_iff.mp hus
  have hfirst : ∀ s ∈ Token.assertion .start :: t :: vs, s.Blind f := by
    intro s hs
    rcases List.mem_cons.mp hs with rfl | hs
    · trivial
    · rcases List.mem_cons.mp hs with rfl | hs
      · exact ht
      · exact lex_blind hline hrest hvs s hs
  have hblind := assemble_blind hfirst (blind_new .plain) (fun _ hg => by cases hg) hassemble
  dsimp only at hout
  split at hout
  · cases hout
    exact hblind
  · cases hout

end Renaming

end TintempPlusPlus.EcmaRegex
