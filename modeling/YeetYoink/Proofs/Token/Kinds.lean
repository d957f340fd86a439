import YeetYoink.Proofs.Text.Chars
import YeetYoink.Token.Lexer

/-!
# The kinds of the tokens of a text

`Lexer.kinds holes cs` are the kinds of the tokens read from `cs` with the given holes open. Kinds
do not depend on the offset at which reading starts (`map_kind_tokens`), so a text is read piece by
piece: each lemma here says what one piece is read as, whatever follows it. A name or a number ends
at a `Boundary`; every other piece ends by itself.
-/

namespace YeetYoink

namespace Lexer

/-- The kinds of the tokens of a text, inside the holes that are open. -/
def kinds (holes : List Nat) (cs : List Char) : List Token.Kind :=
  (tokens ⟨cs, 0, holes⟩).map (·.kind)

/-- Which reader reads a token, told by its first character and the open holes. A brace that closes
a hole is no symbol. -/
theorem scan_cases {motive : (List Char → Lexeme) → Prop} (holes : List Nat) (c : Char)
    (string : c = '"' → motive (scanString holes c))
    (template : c = '\x60' → motive (scanTemplate false holes c))
    (name : isNameStart c = true → motive fun cs => scanName holes (c :: cs))
    (number : isDigit c = true → motive fun cs => scanNumber holes (c :: cs))
    (resumed : ∀ outer, holes = 0 :: outer → motive (scanTemplate true outer c))
    (symbol : (∀ outer, c = '\x7d' → holes ≠ 0 :: outer) → motive (scanSymbol holes c)) :
    motive (scan holes c) := by
  change motive fun cs => scan holes c cs
  unfold scan
  split
  · exact string ‹_›
  split
  · exact template ‹_›
  split
  · exact name ‹_›
  split
  · exact number ‹_›
  split
  · exact resumed _ rfl
  · rename_i h
    exact symbol fun outer hc hh => h outer hc hh

theorem scan_kind_ne_eof (holes : List Nat) (c : Char) (cs : List Char) :
    (scan holes c cs).kind ≠ .eof := by
  have htemplate : ∀ resumed holes, (scanTemplate resumed holes c cs).kind ≠ .eof := by
    intro resumed holes
    simp only [scanTemplate, unterminated]
    split <;> simp
  refine scan_cases (motive := fun f => (f cs).kind ≠ .eof) holes c (fun _ => ?_)
    (fun _ => htemplate _ _)
    (fun _ => ?_) (fun _ => ?_) (fun _ _ => htemplate _ _) fun _ => ?_
  · simp only [scanString, unterminated]
    split <;> simp
  · simp only [scanName]
    split <;> simp
  · simp only [scanNumber]
    split <;> (try split) <;> simp
  · unfold scanSymbol
    split <;> simp

theorem scan_rest_length_lt {cs ds : List Char} {c : Char} (h : (splitBlank false cs).2 = c :: ds)
    (holes : List Nat) : (scan holes c ds).rest.length < cs.length := by
  have hn : (next ⟨cs, 0, holes⟩).1.kind ≠ .eof := by
    simpa [next, h] using scan_kind_ne_eof holes c ds
  simpa [next, h] using next_rest_length_lt hn

theorem tokens_of_nil {l : Lexer} (h : (splitBlank false l.rest).2 = []) : tokens l = [] := by
  rw [tokens]
  simp [next, h]

theorem tokens_of_cons {l : Lexer} {c : Char} {cs : List Char}
    (h : (splitBlank false l.rest).2 = c :: cs) :
    tokens l = (next l).1 :: tokens (next l).2 := by
  rw [tokens, if_neg]
  simpa [next, h] using scan_kind_ne_eof l.holes c cs

theorem map_kind_tokens (l : Lexer) : l.tokens.map (·.kind) = kinds l.holes l.rest := by
  unfold kinds
  generalize hn : l.rest.length = n
  -- Both readings take the same characters, so the induction is on how many are left.
  induction n using Nat.strongRecOn generalizing l with
  | ind n ih =>
    obtain ⟨cs, o, holes⟩ := l
    simp only at hn ⊢
    cases hr : (splitBlank false cs).2 with
    | nil => rw [tokens_of_nil (l := ⟨cs, o, holes⟩) hr, tokens_of_nil (l := ⟨cs, 0, holes⟩) hr]
    | cons c cs' =>
      have hlt : (scan holes c cs').rest.length < n := hn ▸ scan_rest_length_lt hr holes
      rw [tokens_of_cons (l := ⟨cs, o, holes⟩) hr, tokens_of_cons (l := ⟨cs, 0, holes⟩) hr]
      simp only [next, hr, List.map_cons]
      have hrest : ∀ o, (tokens ⟨(scan holes c cs').rest, o, (scan holes c cs').holes⟩).map
        (·.kind) =
          (tokens ⟨(scan holes c cs').rest, 0, (scan holes c cs').holes⟩).map (·.kind) :=
        fun o => ih _ hlt ⟨_, o, _⟩ rfl
      exact congrArg _ ((hrest _).trans (hrest _).symm)

/-- Reading goes on with the first character that is neither blank nor in a comment. -/
theorem kinds_eq (holes : List Nat) (cs : List Char) :
    kinds holes cs = match (splitBlank false cs).2 with
      | [] => []
      | c :: cs =>
        (scan holes c cs).kind :: kinds (scan holes c cs).holes (scan holes c cs).rest := by
  rw [kinds]
  cases hr : (splitBlank false cs).2 with
  | nil => rw [tokens_of_nil hr]; rfl
  | cons c cs' =>
    rw [tokens_of_cons (l := ⟨cs, 0, holes⟩) hr, List.map_cons, map_kind_tokens]
    simp only [next, hr]

@[simp] theorem kinds_nil (holes : List Nat) : kinds holes [] = [] := by
  rw [kinds_eq]; rfl

theorem splitBlank_blank {c : Char} (h : isBlank c = true) (cs : List Char) :
    (splitBlank false (c :: cs)).2 = (splitBlank false cs).2 := by
  rw [splitBlank]
  · simp [h]
  · rintro cs' rfl
    exact absurd h (by decide)

theorem kinds_blank {c : Char} (h : isBlank c = true) (holes : List Nat) (cs : List Char) :
    kinds holes (c :: cs) = kinds holes cs := by
  rw [kinds_eq, splitBlank_blank h, ← kinds_eq]

@[simp] theorem kinds_space (holes : List Nat) (cs : List Char) :
    kinds holes (' ' :: cs) = kinds holes cs := kinds_blank (by decide) holes cs

@[simp] theorem kinds_newline (holes : List Nat) (cs : List Char) :
    kinds holes ('\n' :: cs) = kinds holes cs := kinds_blank (by decide) holes cs

/-- Reading starts at once at a character that is neither blank nor the start of a comment. -/
theorem kinds_cons {c : Char} {cs : List Char} (h : (splitBlank false (c :: cs)).2 = c :: cs)
    (holes : List Nat) :
    kinds holes (c :: cs) =
      (scan holes c cs).kind :: kinds (scan holes c cs).holes (scan holes c cs).rest := by
  rw [kinds_eq, h]

theorem splitBlank_visible {c : Char} (h : 33 ≤ c.toNat) (h' : c.toNat ≤ 127) (hc : c.toNat ≠ 47)
    (cs : List Char) : (splitBlank false (c :: cs)).2 = c :: cs := by
  rw [splitBlank]
  · simp [isBlank_eq_false h h']
  · rintro cs' rfl
    exact absurd rfl hc

/-! ### Symbols -/

theorem prefix_of_symbol? {cs : List Char} {s : Symbol} (h : symbol? cs = some s) :
    s.text.toList <+: cs := by
  have := List.find?_some h
  exact List.isPrefixOf_iff_prefix.1 this

/-- A symbol is read as the longest one that the text starts with. -/
theorem kinds_symbol {c : Char} {cs : List Char} {s : Symbol} {holes : List Nat}
    (h : (splitBlank false (c :: cs)).2 = c :: cs)
    (hc : scan holes c cs = scanSymbol holes c cs) (hs : symbol? (c :: cs) = some s) :
    kinds holes (c :: cs) =
      .symbol s :: kinds (countBrace s holes) ((c :: cs).drop s.text.length) := by
  rw [kinds_cons h, hc]
  simp only [scanSymbol, hs]

section

variable (holes : List Nat) (cs : List Char)

@[simp] theorem kinds_lparen : kinds holes ('(' :: cs) = .symbol .lparen :: kinds holes cs :=
  kinds_symbol rfl rfl rfl

@[simp] theorem kinds_rparen : kinds holes (')' :: cs) = .symbol .rparen :: kinds holes cs :=
  kinds_symbol rfl rfl rfl

@[simp] theorem kinds_lbracket : kinds holes ('[' :: cs) = .symbol .lbracket :: kinds holes cs :=
  kinds_symbol rfl rfl rfl

@[simp] theorem kinds_rbracket : kinds holes (']' :: cs) = .symbol .rbracket :: kinds holes cs :=
  kinds_symbol rfl rfl rfl

@[simp] theorem kinds_comma : kinds holes (',' :: cs) = .symbol .comma :: kinds holes cs :=
  kinds_symbol rfl rfl rfl

@[simp] theorem kinds_semicolon : kinds holes (';' :: cs) = .symbol .semicolon :: kinds holes cs :=
  kinds_symbol rfl rfl rfl

@[simp] theorem kinds_backslash : kinds holes ('\\' :: cs) = .symbol .backslash :: kinds holes cs :=
  kinds_symbol rfl rfl rfl

@[simp] theorem kinds_atBackslash :
    kinds holes ('@' :: '\\' :: cs) = .symbol .atBackslash :: kinds holes cs :=
  kinds_symbol rfl rfl rfl

@[simp] theorem kinds_dotDot : kinds holes ('.' :: '.' :: cs) = .symbol .dotDot :: kinds holes cs :=
  kinds_symbol rfl rfl rfl

@[simp] theorem kinds_colon :
    kinds holes (':' :: ' ' :: cs) = .symbol .colon :: kinds holes cs := by
  rw [kinds_symbol (s := .colon) rfl rfl rfl]
  exact congrArg _ (kinds_space holes cs)

@[simp] theorem kinds_ampAmp :
    kinds holes ('&' :: '&' :: cs) = .symbol .ampAmp :: kinds holes cs :=
  kinds_symbol rfl rfl rfl

@[simp] theorem kinds_pipePipe :
    kinds holes ('|' :: '|' :: cs) = .symbol .pipePipe :: kinds holes cs :=
  kinds_symbol rfl rfl rfl

end

/-! ### Braces -/

section

variable (holes : List Nat) (cs : List Char)

@[simp] theorem kinds_lbrace :
    kinds holes ('\x7b' :: cs) = .symbol .lbrace :: kinds (countBrace .lbrace holes) cs :=
  kinds_symbol rfl rfl rfl

@[simp] theorem kinds_percentBrace :
    kinds holes ('%' :: '\x7b' :: cs) =
      .symbol .percentBrace :: kinds (countBrace .lbrace holes) cs := by
  rw [kinds_symbol (s := .percentBrace) rfl rfl rfl]
  cases holes <;> rfl

/-- A brace closes the one that was opened last, and the holes are as before it. -/
@[simp] theorem kinds_rbrace :
    kinds (countBrace .lbrace holes) ('\x7d' :: cs) = .symbol .rbrace :: kinds holes cs := by
  cases holes with
  | nil => exact kinds_symbol rfl rfl rfl
  | cons n holes => exact kinds_symbol (s := .rbrace) rfl rfl rfl

end

/-! ### Names and numbers -/

/-- Neither a name nor a number goes on here. -/
def Boundary : List Char → Prop
  | [] => True
  | c :: cs => isNameChar c = false ∧ (c = '.' → ∀ d ∈ cs.head?, isDigit d = false)

@[simp] theorem boundary_nil : Boundary [] := trivial

theorem boundary_cons {c : Char} (h : isNameChar c = false) (hc : c ≠ '.') (cs : List Char) :
    Boundary (c :: cs) := ⟨h, fun h => absurd h hc⟩

section

variable (cs : List Char)

@[simp] theorem boundary_space : Boundary (' ' :: cs) := boundary_cons (by decide) (by decide) cs
@[simp] theorem boundary_lparen : Boundary ('(' :: cs) := boundary_cons (by decide) (by decide) cs
@[simp] theorem boundary_rparen : Boundary (')' :: cs) := boundary_cons (by decide) (by decide) cs
@[simp] theorem boundary_lbracket : Boundary ('[' :: cs) := boundary_cons (by decide) (by decide) cs
@[simp] theorem boundary_rbracket : Boundary (']' :: cs) := boundary_cons (by decide) (by decide) cs
@[simp] theorem boundary_rbrace : Boundary ('\x7d' :: cs) :=
  boundary_cons (by decide) (by decide) cs
@[simp] theorem boundary_comma : Boundary (',' :: cs) := boundary_cons (by decide) (by decide) cs
@[simp] theorem boundary_colon : Boundary (':' :: cs) := boundary_cons (by decide) (by decide) cs
@[simp] theorem boundary_semicolon : Boundary (';' :: cs) :=
  boundary_cons (by decide) (by decide) cs
@[simp] theorem boundary_dotDot : Boundary ('.' :: '.' :: cs) := by
  simp [Boundary]
  decide

end

theorem Boundary.not_nameChar {rest : List Char} (h : Boundary rest) :
    ∀ c ∈ rest.head?, isNameChar c = false := by
  cases rest with
  | nil => simp
  | cons c rest => simpa using h.1

theorem Boundary.not_digit {rest : List Char} (h : Boundary rest) :
    ∀ c ∈ rest.head?, isDigit c = false := by
  intro c hc
  have := h.not_nameChar c hc
  rw [isNameChar, Bool.or_eq_false_iff] at this
  exact this.2

/-- The text of a name or a keyword. -/
def IsWord (cs : List Char) : Prop :=
  ∃ c cs', cs = c :: cs' ∧ isNameStart c = true ∧ ∀ d ∈ cs', isNameChar d = true

theorem IsWord.all {cs : List Char} (h : IsWord cs) : ∀ c ∈ cs, isNameChar c = true := by
  obtain ⟨c, cs, rfl, hc, hcs⟩ := h
  exact List.forall_mem_cons.2 ⟨isNameChar_of_nameStart hc, hcs⟩

/-- What a word is read as. -/
def wordKind (name : String) : Token.Kind :=
  match Keyword.ofText? name with
  | some k => .keyword k
  | none => .ident name

theorem scan_word {c : Char} (h : isNameStart c = true) (holes : List Nat) (cs : List Char) :
    scan holes c cs = scanName holes (c :: cs) := by
  have hn := isNameStart_iff.1 h
  have h1 : c ≠ '"' := ne_of_apply_ne Char.toNat (by simp; omega)
  have h2 : c ≠ '\x60' := ne_of_apply_ne Char.toNat (by simp; omega)
  unfold scan
  rw [if_neg h1, if_neg h2, if_pos h]

theorem kinds_word {cs rest : List Char} (h : IsWord cs) (hr : Boundary rest) (holes : List Nat) :
    kinds holes (cs ++ rest) = wordKind (String.ofList cs) :: kinds holes rest := by
  have hw := takeWhile_stop h.all hr.not_nameChar
  obtain ⟨c, cs, rfl, hc, -⟩ := h
  have hn := isNameStart_iff.1 hc
  rw [List.cons_append] at hw ⊢
  rw [kinds_cons (splitBlank_visible (by omega) (by omega) (by omega) _), scan_word hc]
  simp only [scanName, hw]
  rfl

theorem scan_digit {c : Char} (h : isDigit c = true) (holes : List Nat) (cs : List Char) :
    scan holes c cs = scanNumber holes (c :: cs) := by
  have hn := isDigit_iff.1 h
  have h1 : c ≠ '"' := ne_of_apply_ne Char.toNat (by simp; omega)
  have h2 : c ≠ '\x60' := ne_of_apply_ne Char.toNat (by simp; omega)
  unfold scan
  rw [if_neg h1, if_neg h2, isDigit_not_nameStart h, if_neg (by decide), if_pos h]

theorem kinds_scanNumber {cs : List Char} (hne : cs ≠ []) (h : ∀ c ∈ cs, isDigit c = true)
    (holes : List Nat) (rest : List Char) :
    kinds holes (cs ++ rest) = (scanNumber holes (cs ++ rest)).kind ::
      kinds (scanNumber holes (cs ++ rest)).holes (scanNumber holes (cs ++ rest)).rest := by
  obtain ⟨c, cs, rfl⟩ := List.exists_cons_of_ne_nil hne
  have hc := h c (List.mem_cons_self ..)
  have hn := isDigit_iff.1 hc
  rw [List.cons_append, kinds_cons (splitBlank_visible (by omega) (by omega) (by omega) _),
    scan_digit hc]

/-- The one way on from digits is a point with a digit after it, which a boundary excludes. -/
theorem scanNumber_digits {cs rest : List Char} (h : ∀ c ∈ cs, isDigit c = true)
    (hr : Boundary rest)
    (holes : List Nat) :
    scanNumber holes (cs ++ rest) = ⟨.int (String.ofList cs), cs, rest, holes⟩ := by
  have hd := takeWhile_stop h hr.not_digit
  unfold scanNumber
  rw [hd.1, hd.2]
  split
  · have := hr.2 rfl _ rfl
    simp [this]
  · rfl

theorem scanNumber_point {cs ds rest : List Char} (h : ∀ c ∈ cs, isDigit c = true) (hne : ds ≠ [])
    (h' : ∀ c ∈ ds, isDigit c = true) (hr : Boundary rest) (holes : List Nat) :
    scanNumber holes (cs ++ '.' :: (ds ++ rest)) =
      ⟨.float (String.ofList (cs ++ '.' :: ds)), cs ++ '.' :: ds, rest, holes⟩ := by
  have hc := takeWhile_stop h
    (show ∀ c ∈ ('.' :: (ds ++ rest)).head?, isDigit c = false by simp; decide)
  have hd := takeWhile_stop h' hr.not_digit
  obtain ⟨d, ds, rfl⟩ := List.exists_cons_of_ne_nil hne
  unfold scanNumber
  rw [hc.1, hc.2]
  rw [List.cons_append] at hd ⊢
  simp only [h' d (List.mem_cons_self ..), if_true, hd]

theorem kinds_digits {cs rest : List Char} (hne : cs ≠ []) (h : ∀ c ∈ cs, isDigit c = true)
    (hr : Boundary rest) (holes : List Nat) :
    kinds holes (cs ++ rest) = .int (String.ofList cs) :: kinds holes rest := by
  rw [kinds_scanNumber hne h, scanNumber_digits h hr]

theorem kinds_point {cs ds rest : List Char} (hne : cs ≠ []) (h : ∀ c ∈ cs, isDigit c = true)
    (hne' : ds ≠ []) (h' : ∀ c ∈ ds, isDigit c = true) (hr : Boundary rest) (holes : List Nat) :
    kinds holes (cs ++ '.' :: ds ++ rest) =
      .float (String.ofList (cs ++ '.' :: ds)) :: kinds holes rest := by
  rw [List.append_assoc, List.cons_append, kinds_scanNumber hne h, scanNumber_point h hne' h' hr]

end Lexer

/-- A word that is no keyword. -/
def IsName (name : String) : Prop := Lexer.IsWord name.toList ∧ Keyword.ofText? name = none

end YeetYoink
