import YeetYoink.Text.Digest
import YeetYoink.Token

/-!
# Reading tokens from a text

`Lexer.next` skips blanks and comments and reads one token; `Lexer.tokens` reads them all. Every
reader returns the characters it took and the characters left, which together are what it was given
(`scan_append`), so spans are sums of byte sizes and each token leaves a shorter text
(`next_rest_length_lt`).

Templates nest: `holes` has one number for every hole that is open, the count of braces opened
inside it and not closed yet. A closing brace that finds a zero on top closes the hole and goes on
with the template's text.
-/

namespace YeetYoink

open Text (byteSize)

structure Lexer where
  rest : List Char
  /-- The offset in bytes at which `rest` starts. -/
  offset : Nat
  holes : List Nat

/-- What one reader took from the front of a text. -/
structure Lexeme where
  kind : Token.Kind
  taken : List Char
  rest : List Char
  holes : List Nat

namespace Lexer

def ofString (s : String) : Lexer := ⟨s.toList, 0, []⟩

/-- Splits off the blanks and comments at the front. Inside a comment everything up to the end of
the line goes. -/
def splitBlank : (inComment : Bool) → List Char → List Char × List Char
  | _, [] => ([], [])
  | true, c :: cs =>
    let (blank, rest) := splitBlank (c ≠ '\n') cs
    (c :: blank, rest)
  | false, '/' :: '/' :: cs =>
    let (blank, rest) := splitBlank true cs
    ('/' :: '/' :: blank, rest)
  | false, c :: cs =>
    if isBlank c then
      let (blank, rest) := splitBlank false cs
      (c :: blank, rest)
    else ([], c :: cs)

/-- A name or a keyword. -/
def scanName (holes : List Nat) (cs : List Char) : Lexeme :=
  let name := String.ofList (cs.takeWhile isNameChar)
  { kind := match Keyword.ofText? name with
      | some k => .keyword k
      | none => .ident name
    taken := cs.takeWhile isNameChar
    rest := cs.dropWhile isNameChar
    holes }

/-- Digits, and a fraction if a digit follows the point. -/
def scanNumber (holes : List Nat) (cs : List Char) : Lexeme :=
  let whole := cs.takeWhile isDigit
  match cs.dropWhile isDigit with
  | '.' :: d :: rest =>
    if isDigit d then
      let taken := whole ++ '.' :: (d :: rest).takeWhile isDigit
      { kind := .float (String.ofList taken), taken, rest := (d :: rest).dropWhile isDigit, holes }
    else { kind := .int (String.ofList whole), taken := whole, rest := '.' :: d :: rest, holes }
  | rest => { kind := .int (String.ofList whole), taken := whole, rest, holes }

/-- The character that an escaped character stands for. -/
def unescape : Char → Char
  | 'n' => '\n'
  | 't' => '\t'
  | 'r' => '\r'
  | c => c

/-- A text that ended, or the text read up to the end of the input. -/
structure Segment where
  /-- What stopped the text; `none` is the end of the input. -/
  closer : Option Char
  text : List Char
  taken : List Char
  rest : List Char

/-- Puts one more character before a segment, which stands for `text`. -/
def Segment.cons (s : Segment) (text : List Char) (taken : List Char) : Segment :=
  { s with text := text ++ s.text, taken := taken ++ s.taken }

/-- The text of a string after its opening quote. -/
def stringSegment : List Char → Segment
  | [] => ⟨none, [], [], []⟩
  | '"' :: cs => ⟨some '"', [], ['"'], cs⟩
  | ['\\'] => ⟨none, [], ['\\'], []⟩
  | '\\' :: c :: cs => (stringSegment cs).cons [unescape c] ['\\', c]
  | c :: cs => (stringSegment cs).cons [c] [c]

/-- The text of a template up to its end or its next hole. A doubled brace stands for one, and so
does a lone closing brace. -/
def templateSegment : List Char → Segment
  | [] => ⟨none, [], [], []⟩
  | '\x60' :: cs => ⟨some '\x60', [], ['\x60'], cs⟩
  | '\x7b' :: '\x7b' :: cs => (templateSegment cs).cons ['\x7b'] ['\x7b', '\x7b']
  | '\x7b' :: cs => ⟨some '\x7b', [], ['\x7b'], cs⟩
  | '\x7d' :: '\x7d' :: cs => (templateSegment cs).cons ['\x7d'] ['\x7d', '\x7d']
  | c :: cs => (templateSegment cs).cons [c] [c]

def unterminated : Token.Kind := .illegal "unterminated string"

def scanString (holes : List Nat) (c : Char) (cs : List Char) : Lexeme :=
  let s := stringSegment cs
  { kind := if s.closer.isSome then .string (String.ofList s.text) else unterminated
    taken := c :: s.taken
    rest := s.rest
    holes }

/-- The text of a template after its opening backtick, or, if `resumed`, after the brace that closed
a hole. -/
def scanTemplate (resumed : Bool) (holes : List Nat) (c : Char) (cs : List Char) : Lexeme :=
  let s := templateSegment cs
  let text := String.ofList s.text
  { kind := match s.closer, resumed with
      | some '\x7b', false => .templateHead text
      | some '\x7b', true => .templateMiddle text
      | some _, false => .template text
      | some _, true => .templateTail text
      | none, _ => unterminated
    taken := c :: s.taken
    rest := s.rest
    holes := if s.closer = some '\x7b' then 0 :: holes else holes }

/-- The symbol a text starts with, the longest one if there are two. -/
def symbol? (cs : List Char) : Option Symbol :=
  Symbol.all.find? fun s => s.text.toList.isPrefixOf cs

/-- How a symbol changes the brace counts of the open holes. -/
def countBrace : Symbol → List Nat → List Nat
  | .lbrace, n :: holes | .percentBrace, n :: holes => (n + 1) :: holes
  | .rbrace, n :: holes => (n - 1) :: holes
  | _, holes => holes

def scanSymbol (holes : List Nat) (c : Char) (cs : List Char) : Lexeme :=
  match symbol? (c :: cs) with
  | some s =>
    let n := s.text.length
    { kind := .symbol s
      taken := (c :: cs).take n
      rest := (c :: cs).drop n
      holes := countBrace s holes }
  | none =>
    { kind := .illegal ("illegal character '" ++ String.singleton c ++ "'")
      taken := [c]
      rest := cs
      holes }

/-- Reads one token from a text that starts with `c`, no blank. -/
def scan (holes : List Nat) (c : Char) (cs : List Char) : Lexeme :=
  if c = '"' then scanString holes c cs
  else if c = '\x60' then scanTemplate false holes c cs
  else if isNameStart c then scanName holes (c :: cs)
  else if isDigit c then scanNumber holes (c :: cs)
  else
    match c, holes with
    | '\x7d', 0 :: holes => scanTemplate true holes c cs
    | _, _ => scanSymbol holes c cs

/-- Reads one token. At the end of the text it is the empty token `eof`, again and again. -/
def next (l : Lexer) : Token × Lexer :=
  let split := splitBlank false l.rest
  let start := l.offset + byteSize split.1
  match split.2 with
  | [] => (⟨.eof, start, start⟩, { l with rest := [], offset := start })
  | c :: cs =>
    let x := scan l.holes c cs
    let stop := start + byteSize x.taken
    (⟨x.kind, start, stop⟩, ⟨x.rest, stop, x.holes⟩)

/-! ### Readers split the text -/

theorem splitBlank_append (b : Bool) (cs : List Char) :
    (splitBlank b cs).1 ++ (splitBlank b cs).2 = cs := by
  fun_induction splitBlank b cs <;> simp_all

theorem stringSegment_append (cs : List Char) :
    (stringSegment cs).taken ++ (stringSegment cs).rest = cs := by
  fun_induction stringSegment cs <;> simp_all [Segment.cons]

theorem templateSegment_append (cs : List Char) :
    (templateSegment cs).taken ++ (templateSegment cs).rest = cs := by
  fun_induction templateSegment cs <;> simp_all [Segment.cons]

theorem scanNumber_append (holes : List Nat) (cs : List Char) :
    (scanNumber holes cs).taken ++ (scanNumber holes cs).rest = cs := by
  have h := List.takeWhile_append_dropWhile (p := isDigit) (l := cs)
  unfold scanNumber
  split
  · rename_i d rest hd
    rw [hd] at h
    split
    · simpa [List.takeWhile_append_dropWhile] using h
    · exact h
  · exact h

theorem scanSymbol_append (holes : List Nat) (c : Char) (cs : List Char) :
    (scanSymbol holes c cs).taken ++ (scanSymbol holes c cs).rest = c :: cs := by
  unfold scanSymbol
  split
  · exact List.take_append_drop _ _
  · rfl

theorem scan_append (holes : List Nat) (c : Char) (cs : List Char) :
    (scan holes c cs).taken ++ (scan holes c cs).rest = c :: cs := by
  unfold scan
  split
  · simp [scanString, stringSegment_append]
  split
  · simp [scanTemplate, templateSegment_append]
  split
  · simp only [scanName, List.takeWhile_append_dropWhile]
  split
  · exact scanNumber_append _ _
  split
  · simp [scanTemplate, templateSegment_append]
  · exact scanSymbol_append _ _ _

/-! ### Every token takes a character -/

theorem symbol_length_pos (s : Symbol) : 0 < s.text.length := by
  cases s <;> decide

theorem scan_taken_ne_nil (holes : List Nat) (c : Char) (cs : List Char) :
    (scan holes c cs).taken ≠ [] := by
  unfold scan
  split
  · simp [scanString]
  split
  · simp [scanTemplate]
  split
  · rename_i h
    simp [scanName, isNameChar, h]
  split
  · rename_i h
    unfold scanNumber
    split
    · split <;> simp [h]
    · simp [h]
  split
  · simp [scanTemplate]
  · unfold scanSymbol
    split
    · rename_i s _
      have := symbol_length_pos s
      simp only [ne_eq, List.take_eq_nil_iff, reduceCtorEq, or_false]
      omega
    · simp

theorem next_rest_length_lt {l : Lexer} (h : (next l).1.kind ≠ .eof) :
    (next l).2.rest.length < l.rest.length := by
  have hb := congrArg List.length (splitBlank_append false l.rest)
  rw [List.length_append] at hb
  cases hr : (splitBlank false l.rest).2 with
  | nil => simp [next, hr] at h
  | cons c cs =>
    have hs := congrArg List.length (scan_append l.holes c cs)
    have ht := List.length_pos_iff.2 (scan_taken_ne_nil l.holes c cs)
    simp only [hr, List.length_append, List.length_cons] at hb hs
    simp only [next, hr]
    omega

/-- Every token up to the end of the text. -/
def tokens (l : Lexer) : List Token :=
  if (next l).1.kind = .eof then []
  else (next l).1 :: tokens (next l).2
termination_by l.rest.length
decreasing_by exact next_rest_length_lt ‹_›

end Lexer

/-- The tokens of a text. -/
def Token.lex (s : String) : List Token := (Lexer.ofString s).tokens

end YeetYoink
