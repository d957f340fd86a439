import Mathlib.Data.List.TakeWhile
import YeetYoink.Proofs.Token.Nesting
import YeetYoink.Proofs.Token.Spans

/-!
# Tokens with blanks between them

Where one token ends depends on what follows it: a `=` may go on a symbol, a digit a number, a brace
a template. What was read as a token is read so again when it stands alone (`scan_taken`), and a
blank behind it does not change that. So the tokens of a source, written with a space between each
two, are read as the same kinds (`Token.lex_spaced`).
-/

namespace YeetYoink

/-- The same token with nothing behind it. -/
def Lexeme.alone (x : Lexeme) : Lexeme := { x with rest := [] }

namespace Lexer

open Text (byteSize)

/-! ### Texts -/

theorem stringSegment_taken (cs : List Char) :
    stringSegment (stringSegment cs).taken = { stringSegment cs with rest := [] } := by
  fun_induction stringSegment cs with
  | case1 | case2 | case3 => rfl
  | case4 c cs ih => simp_all [stringSegment, Segment.cons]
  | case5 c cs h₁ h₂ h₃ ih =>
    have hc := ne_backslash h₂ h₃
    simp only [Segment.cons, List.singleton_append]
    rw [stringSegment]
    · simp_all [Segment.cons]
    all_goals simp_all

theorem templateSegment_taken (cs : List Char) :
    templateSegment (templateSegment cs).taken = { templateSegment cs with rest := [] } := by
  fun_induction templateSegment cs with
  | case1 | case2 => rfl
  | case3 cs ih => simp_all [templateSegment, Segment.cons]
  | case4 cs hc => rfl
  | case5 cs ih => simp_all [templateSegment, Segment.cons]
  | case6 c cs h₁ h₂ h₃ h₄ ih =>
    -- A brace is doubled in what was taken only if it is so in the text.
    have hdouble : ∀ ds, c = '\x7d' → (templateSegment cs).taken ≠ '\x7d' :: ds := by
      intro ds hc htaken
      have happ := templateSegment_append cs
      rw [htaken] at happ
      exact h₄ _ hc happ.symm
    simp only [Segment.cons, List.singleton_append]
    rw [templateSegment]
    · rw [ih]
      rfl
    · exact h₁
    · exact fun ds hc => absurd hc h₃
    · exact h₃
    · exact hdouble

/-! ### Tokens -/

/-- What was taken, read again: it starts with the same character, and it is the same token. -/
def Retaken (c : Char) (cs : List Char) (f : List Char → Lexeme) : Prop :=
  ∃ ds, (f cs).taken = c :: ds ∧ f ds = (f cs).alone

section

variable {c : Char} (holes : List Nat) (cs : List Char)

theorem retaken_scanString : Retaken c cs (scanString holes c) := by
  refine ⟨(stringSegment cs).taken, rfl, ?_⟩
  simp only [scanString, stringSegment_taken]
  rfl

theorem retaken_scanTemplate (resumed : Bool) : Retaken c cs (scanTemplate resumed holes c) := by
  refine ⟨(templateSegment cs).taken, rfl, ?_⟩
  simp only [scanTemplate, templateSegment_taken]
  rfl

theorem retaken_scanName (hc : isNameChar c = true) :
    Retaken c cs fun cs => scanName holes (c :: cs) := by
  have hdrop : (cs.takeWhile isNameChar).dropWhile isNameChar = [] :=
    List.dropWhile_eq_nil_iff.2 fun _ => List.mem_takeWhile_imp
  refine ⟨cs.takeWhile isNameChar, List.takeWhile_cons_of_pos hc, ?_⟩
  simp only [scanName, List.takeWhile_cons_of_pos hc, List.dropWhile_cons_of_pos hc,
    List.takeWhile_idem, hdrop]
  rfl

/-- A number is digits, or digits with a point between them. -/
theorem scanNumber_cases (cs : List Char) :
    (∃ rest, scanNumber holes cs =
      ⟨.int (String.ofList (cs.takeWhile isDigit)), cs.takeWhile isDigit, rest, holes⟩) ∨
    ∃ ds rest, ds ≠ [] ∧ (∀ d ∈ ds, isDigit d = true) ∧ scanNumber holes cs =
      ⟨.float (String.ofList (cs.takeWhile isDigit ++ '.' :: ds)),
        cs.takeWhile isDigit ++ '.' :: ds, rest,
        holes⟩ := by
  unfold scanNumber
  split
  next d rest _ =>
    split
    next hd =>
      exact .inr ⟨(d :: rest).takeWhile isDigit, _, by simp [hd],
        fun _ => List.mem_takeWhile_imp, rfl⟩
    next => exact .inl ⟨_, rfl⟩
  next => exact .inl ⟨_, rfl⟩

theorem retaken_scanNumber (hc : isDigit c = true) :
    Retaken c cs fun cs => scanNumber holes (c :: cs) := by
  have hdigits : ∀ d ∈ (c :: cs).takeWhile isDigit, isDigit d = true :=
    fun _ => List.mem_takeWhile_imp
  obtain ⟨rest, hs⟩ | ⟨ds, rest, hne, hds, hs⟩ := scanNumber_cases holes (c :: cs)
  all_goals
    rw [List.takeWhile_cons_of_pos hc] at hs hdigits
  · refine ⟨cs.takeWhile isDigit, by simp only [hs], ?_⟩
    have hw := scanNumber_digits hdigits boundary_nil holes
    rw [List.append_nil] at hw
    simp only [hs, hw]
    rfl
  · refine ⟨cs.takeWhile isDigit ++ '.' :: ds, by simp only [hs, List.cons_append], ?_⟩
    have hw := scanNumber_point hdigits hne hds boundary_nil holes
    rw [List.append_nil] at hw
    simp only [hs, ← List.cons_append, hw]
    rfl

theorem symbol?_text (s : Symbol) : symbol? s.text.toList = some s := by
  cases s <;> rfl

theorem symbol?_singleton (h : symbol? (c :: cs) = none) : symbol? [c] = none := by
  refine List.find?_eq_none.2 fun s hs hp => List.find?_eq_none.1 h s hs ?_
  rw [List.isPrefixOf_iff_prefix] at hp ⊢
  exact hp.trans ⟨cs, rfl⟩

theorem retaken_scanSymbol : Retaken c cs (scanSymbol holes c) := by
  unfold Retaken
  cases hs : symbol? (c :: cs) with
  | none =>
    refine ⟨[], by simp only [scanSymbol, hs], ?_⟩
    simp only [scanSymbol, hs, symbol?_singleton cs hs]
    rfl
  | some s =>
    have htext : s.text.toList = (c :: cs).take s.text.length := by
      rw [← String.length_toList]
      exact List.prefix_iff_eq_take.1 (prefix_of_symbol? hs)
    obtain ⟨ds, hds⟩ : ∃ ds, s.text.toList = c :: ds := by
      obtain ⟨n, hn⟩ := Nat.exists_eq_add_one.2 (symbol_length_pos s)
      exact ⟨cs.take n, by rw [htext, hn, List.take_succ_cons]⟩
    have hread : scanSymbol holes c cs =
        ⟨.symbol s, c :: ds, (c :: cs).drop s.text.length, countBrace s holes⟩ := by
      simp only [scanSymbol, hs, ← htext, hds]
    have halone : scanSymbol holes c ds = ⟨.symbol s, c :: ds, [], countBrace s holes⟩ := by
      have hlen : s.text.length = (c :: ds).length := by rw [← hds, String.length_toList]
      simp only [scanSymbol, hds ▸ symbol?_text s, hlen, List.take_length, List.drop_length]
    exact ⟨ds, by rw [hread], by rw [hread, halone]; rfl⟩

/-- What was taken as a token is that token again when it is read alone. -/
theorem scan_taken (c : Char) : Retaken c cs (scan holes c) :=
  scan_cases (motive := Retaken c cs) holes c (fun _ => retaken_scanString holes cs)
    (fun _ => retaken_scanTemplate holes cs false)
    (fun hc => retaken_scanName holes cs (isNameChar_of_nameStart hc))
    (fun hc => retaken_scanNumber holes cs hc) (fun outer _ => retaken_scanTemplate outer cs true)
    fun _ => retaken_scanSymbol holes cs

end

/-! ### Where reading starts -/

/-- A token may start here: there is neither a blank nor a comment. -/
def Starts (c : Char) (cs : List Char) : Prop :=
  isBlank c = false ∧ (c = '/' → ∀ ds, cs ≠ '/' :: ds)

theorem starts_of_splitBlank {inComment : Bool} {cs ds : List Char} {c : Char}
    (h : (splitBlank inComment cs).2 = c :: ds) : Starts c ds := by
  fun_induction splitBlank inComment cs with
  | case1 => cases h
  | case2 _ _ _ _ hs ih | case3 _ _ _ hs ih | case4 _ _ _ _ _ _ hs ih =>
    exact ih (by rw [hs]; exact h)
  | case5 d cs hc hb =>
    cases h
    exact ⟨Bool.eq_false_iff.2 hb, fun hslash ds => hc ds hslash⟩

theorem Starts.splitBlank {c : Char} {cs : List Char} (h : Starts c cs) :
    (splitBlank false (c :: cs)).2 = c :: cs := by
  rw [Lexer.splitBlank]
  · simp [h.1]
  · exact fun ds hc => h.2 hc ds

theorem Starts.of_append {c : Char} {ds rest : List Char} (h : Starts c (ds ++ rest)) :
    Starts c ds := by
  refine ⟨h.1, ?_⟩
  rintro hc es rfl
  exact h.2 hc _ rfl

/-- A blank behind the first token does not make a comment of it. -/
theorem Starts.append_space {c : Char} {ds : List Char} (h : Starts c ds) (rest : List Char) :
    Starts c (ds ++ ' ' :: rest) :=
  ⟨h.1, fun hc => append_ne_cons (by decide) (h.2 hc) rest⟩

/-! ### Token after token -/

section

variable {holes : List Nat} {c : Char} {cs : List Char}

theorem exists_taken (h : Starts c cs) (holes : List Nat) :
    ∃ ds, (scan holes c cs).taken = c :: ds ∧ Starts c ds ∧
      scan holes c ds = (scan holes c cs).alone := by
  obtain ⟨ds, htaken, halone⟩ := scan_taken holes cs c
  have happ := scan_append holes c cs
  rw [htaken, List.cons_append, List.cons.injEq] at happ
  exact ⟨ds, htaken, (happ.2 ▸ h).of_append, halone⟩

theorem kinds_taken (h : Starts c cs) :
    kinds holes (scan holes c cs).taken = [(scan holes c cs).kind] := by
  obtain ⟨ds, htaken, hstart, halone⟩ := exists_taken h holes
  rw [htaken, kinds_cons hstart.splitBlank, halone]
  exact congrArg _ (kinds_nil _)

theorem kinds_taken_space (h : Starts c cs) (hk : (scan holes c cs).kind ≠ unterminated)
    (rest : List Char) :
    kinds holes ((scan holes c cs).taken ++ ' ' :: rest) =
      (scan holes c cs).kind :: kinds (scan holes c cs).holes rest := by
  obtain ⟨ds, htaken, hstart, halone⟩ := exists_taken h holes
  have hk' : (scan holes c ds).kind ≠ unterminated := by rwa [halone]
  have hscan := scan_append_blank (b := ' ') (by decide) holes rest hk'
  rw [htaken, List.cons_append, kinds_cons (hstart.append_space rest).splitBlank, hscan, halone]
  exact congrArg _ (kinds_space _ rest)

end

/-- The next token spans what was taken, and reading goes on behind it. -/
theorem next_of_cons {l : Lexer} {c : Char} {cs : List Char}
    (h : (splitBlank false l.rest).2 = c :: cs) :
    (next l).1.kind = (scan l.holes c cs).kind ∧
      (next l).1.start = l.offset + byteSize (splitBlank false l.rest).1 ∧
      (next l).1.stop = (next l).1.start + byteSize (scan l.holes c cs).taken ∧
      (next l).2 = ⟨(scan l.holes c cs).rest, (next l).1.stop, (scan l.holes c cs).holes⟩ := by
  simp [next, h]

/-- The texts of the tokens that are left are read as these tokens. -/
theorem kinds_spaced {source : String} {before : List Char} (l : Lexer)
    (hs : source.toList = before ++ l.rest) (ho : l.offset = byteSize before) :
    kinds l.holes (" ".intercalate (l.tokens.map (·.text source))).toList =
      l.tokens.map (·.kind) := by
  generalize hn : l.rest.length = n
  induction n using Nat.strongRecOn generalizing l before with
  | ind n ih =>
    cases hr : (splitBlank false l.rest).2 with
    | nil =>
      rw [tokens_of_nil hr]
      exact kinds_nil _
    | cons c cs =>
      have hstart := starts_of_splitBlank hr
      obtain ⟨hkind, hbegin, hend, hnext⟩ := next_of_cons hr
      have happ : source.toList =
          before ++ ((splitBlank false l.rest).1 ++ (scan l.holes c cs).taken ++
            (scan l.holes c cs).rest) := by
        rw [List.append_assoc, scan_append, ← hr, splitBlank_append, hs]
      rw [ho] at hbegin
      obtain ⟨-, htext, -⟩ := Token.spans_of_append happ hbegin hend
      obtain ⟨hrest, hoffset⟩ := Token.append_of_append happ hbegin hend
      have htail := ih _ (hn ▸ scan_rest_length_lt hr l.holes)
        ⟨_, _, (scan l.holes c cs).holes⟩ hrest hoffset rfl
      rw [tokens_of_cons hr, hnext, List.map_cons, List.map_cons, hkind, htext]
      cases hts : tokens ⟨(scan l.holes c cs).rest, (next l).1.stop, (scan l.holes c cs).holes⟩ with
      | nil =>
        rw [List.map_nil, String.intercalate_singleton, String.toList_ofList]
        exact kinds_taken hstart
      | cons u us =>
        -- A text that does not end would leave no further token.
        have hk : (scan l.holes c cs).kind ≠ unterminated := by
          intro hk
          rw [scan_rest hk, tokens_of_nil rfl] at hts
          cases hts
        rw [hts, List.map_cons] at htail
        rw [List.map_cons, String.intercalate_cons_cons, String.toList_append, String.toList_append,
          String.toList_ofList, List.append_assoc]
        exact (kinds_taken_space hstart hk _).trans (congrArg _ htail)

end Lexer

/-- The texts of the tokens of a source, with single spaces between them, are read as the same kinds
of tokens, with the same payloads. -/
theorem Token.lex_spaced (source : String) :
    (lex (" ".intercalate ((lex source).map (·.text source)))).map (·.kind) =
      (lex source).map (·.kind) :=
  Lexer.kinds_spaced (Lexer.ofString source) (List.nil_append _).symm rfl

end YeetYoink
