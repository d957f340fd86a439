import YeetYoink.Proofs.Text.Bytes
import YeetYoink.Proofs.Token.Valid

/-!
# The tokens of a source tile it

A source is cut into lexemes with gaps between them (`Tiling`): each token spans its lexeme, and the
gaps hold blanks and comments only. Everything that is said about spans follows from this one
decomposition, by induction over it: they are in order and on character boundaries, and a token with
one spelling spans just that spelling (`Token.lex_tiles`).
-/

namespace YeetYoink

open Text (byteSize slice IsBoundary)

/-- Tokens that stand in the source as their literals: names, keywords, numbers and symbols. -/
def Token.Kind.IsSpelled : Token.Kind → Prop
  | .ident _ | .int _ | .float _ | .symbol _ | .keyword _ => True
  | _ => False

/-- The text that a token was read from. -/
def Token.text (source : String) (t : Token) : String := slice source t.start t.stop

/-- Blanks and comments. A comment runs to a new line, and in the `last` gap of a source perhaps to
its end. -/
inductive IsGap (last : Bool) : List Char → Prop
  | nil : IsGap last []
  | blank {c : Char} {cs : List Char} (hc : isBlank c = true) (h : IsGap last cs) :
    IsGap last (c :: cs)
  | comment {body cs : List Char} (hb : '\n' ∉ body) (h : IsGap last cs) :
      IsGap last ('/' :: '/' :: (body ++ '\n' :: cs))
  | lastComment {body : List Char} (hl : last = true) (hb : '\n' ∉ body) :
    IsGap last ('/' :: '/' :: body)

/-- A text that starts at an offset, cut into gaps and the lexemes of tokens. -/
inductive Tiling : Nat → List Char → List Token → Prop
  | last {offset : Nat} {gap : List Char} (hg : IsGap true gap) : Tiling offset gap []
  | token {offset : Nat} {gap lexeme rest : List Char} {t : Token} {ts : List Token}
      (hg : IsGap false gap) (hne : lexeme ≠ []) (hstart : t.start = offset + byteSize gap)
      (hstop : t.stop = t.start + byteSize lexeme)
      (hl : t.kind.IsSpelled → String.ofList lexeme = t.kind.literal) (h : Tiling t.stop rest ts) :
      Tiling offset (gap ++ lexeme ++ rest) (t :: ts)

namespace Lexer

/-- What is skipped is a gap, and it is the last one if nothing is left. In a comment, its text so
far belongs to the gap. -/
theorem isGap_splitBlank (inComment : Bool) (cs : List Char) {body : List Char} (hb : '\n' ∉ body) :
    IsGap (splitBlank inComment cs).2.isEmpty
      ((if inComment then '/' :: '/' :: body else []) ++ (splitBlank inComment cs).1) := by
  fun_induction splitBlank inComment cs generalizing body with
  | case1 inComment =>
    cases inComment with
    | true => simpa using .lastComment rfl hb
    | false => exact .nil
  | case2 c cs blank rest hs ih =>
    simp only [hs] at ih
    by_cases hc : c = '\n'
    · subst hc
      exact .comment hb (ih hb)
    · have hbody : '\n' ∉ body ++ [c] := by simpa [Ne.symm hc] using hb
      simpa [hc] using ih hbody
  | case3 cs blank rest hs ih =>
    simp only [hs] at ih
    exact ih (List.not_mem_nil)
  | case4 c cs hc hblank blank rest hs ih =>
    simp only [hs] at ih
    exact .blank hblank (ih hb)
  | case5 => exact .nil

theorem literal_scanName (holes : List Nat) (cs : List Char) :
    String.ofList (scanName holes cs).taken = (scanName holes cs).kind.literal := by
  simp only [scanName]
  cases hk : Keyword.ofText? (String.ofList (cs.takeWhile isNameChar)) with
  | none => rfl
  | some k =>
    have := List.find?_some hk
    simp only [decide_eq_true_eq] at this
    exact this.symm

theorem literal_scanNumber (holes : List Nat) (cs : List Char) :
    String.ofList (scanNumber holes cs).taken = (scanNumber holes cs).kind.literal := by
  unfold scanNumber
  split
  · split <;> rfl
  · rfl

theorem literal_scanSymbol {holes : List Nat} {c : Char} {cs : List Char}
    (h : (scanSymbol holes c cs).kind.IsSpelled) :
    String.ofList (scanSymbol holes c cs).taken = (scanSymbol holes c cs).kind.literal := by
  unfold scanSymbol at h ⊢
  cases hs : symbol? (c :: cs) with
  | none =>
    rw [hs] at h
    exact h.elim
  | some s =>
    have ht := List.prefix_iff_eq_take.1 (prefix_of_symbol? hs)
    rw [String.length_toList] at ht
    change String.ofList ((c :: cs).take s.text.length) = s.text
    rw [← ht, String.ofList_toList]

theorem not_isSpelled_scanTemplate (resumed : Bool) (holes : List Nat) (c : Char) (cs : List Char) :
    ¬ (scanTemplate resumed holes c cs).kind.IsSpelled := by
  simp only [scanTemplate, unterminated]
  split <;> exact id

theorem literal_scan {holes : List Nat} {c : Char} {cs : List Char}
    (h : (scan holes c cs).kind.IsSpelled) :
    String.ofList (scan holes c cs).taken = (scan holes c cs).kind.literal := by
  refine scan_cases (motive := fun f =>
    (f cs).kind.IsSpelled → String.ofList (f cs).taken = (f cs).kind.literal)
    holes c ?_ ?_ ?_ ?_ ?_ (fun _ => literal_scanSymbol) h
  · intro _ h
    simp only [scanString, unterminated] at h
    split at h <;> exact h.elim
  · exact fun _ h => absurd h (not_isSpelled_scanTemplate _ _ _ _)
  · exact fun _ _ => literal_scanName holes (c :: cs)
  · exact fun _ _ => literal_scanNumber holes (c :: cs)
  · exact fun _ _ h => absurd h (not_isSpelled_scanTemplate _ _ _ _)

theorem tiling_tokens (l : Lexer) : Tiling l.offset l.rest l.tokens := by
  generalize hn : l.rest.length = n
  induction n using Nat.strongRecOn generalizing l with
  | ind n ih =>
    have hgap : IsGap _ (splitBlank false l.rest).1 :=
      isGap_splitBlank false l.rest List.not_mem_nil
    have happ := splitBlank_append false l.rest
    cases hr : (splitBlank false l.rest).2 with
    | nil =>
      rw [hr] at hgap happ
      rw [List.append_nil] at happ
      rw [tokens_of_nil hr, ← happ]
      exact .last hgap
    | cons c cs =>
      rw [hr] at hgap happ
      have hlt : (next l).2.rest.length < n := by
        rw [← hn]
        simpa only [next, hr] using scan_rest_length_lt hr l.holes
      have htail := ih _ hlt (next l).2 rfl
      rw [tokens_of_cons hr, ← happ, ← scan_append l.holes c cs, ← List.append_assoc]
      simp only [next, hr] at htail ⊢
      exact .token hgap (scan_taken_ne_nil _ _ _) rfl rfl literal_scan htail

end Lexer

/-! ### Spans in the source -/

/-- The offset behind tokens, the first of which comes after the given one. -/
def Token.endOf : Nat → List Token → Nat
  | offset, [] => offset
  | _, t :: ts => endOf t.stop ts

section

variable {source : String} {offset : Nat} {before gap lexeme rest cs : List Char} {t : Token}
    {ts : List Token}

/-- What comes after one token, as what came after the text before it. -/
theorem Token.append_of_append (hs : source.toList = before ++ (gap ++ lexeme ++ rest))
    (hstart : t.start = byteSize before + byteSize gap)
    (hstop : t.stop = t.start + byteSize lexeme) :
    source.toList = before ++ gap ++ lexeme ++ rest ∧
      t.stop = byteSize (before ++ gap ++ lexeme) := by
  refine ⟨by simpa using hs, ?_⟩
  rw [hstop, hstart, Text.byteSize_append, Text.byteSize_append]

/-- The spans of one token and of the gap in front of it. -/
theorem Token.spans_of_append (hs : source.toList = before ++ (gap ++ lexeme ++ rest))
    (hstart : t.start = byteSize before + byteSize gap)
    (hstop : t.stop = t.start + byteSize lexeme) :
    slice source (byteSize before) t.start = String.ofList gap ∧
      t.text source = String.ofList lexeme ∧
      IsBoundary source t.start ∧ IsBoundary source t.stop := by
  obtain ⟨hlex, he⟩ := Token.append_of_append hs hstart hstop
  have hgap : source.toList = before ++ gap ++ (lexeme ++ rest) := by simpa using hs
  have ht : t.start = byteSize (before ++ gap) := by rw [hstart, Text.byteSize_append]
  refine ⟨?_, ?_, ?_, ?_⟩
  · rw [hstart]
    exact Text.slice_byteSize hgap
  · rw [Token.text, hstop, ht]
    exact Text.slice_byteSize hlex
  · rw [ht]
    exact Text.isBoundary_byteSize hgap
  · rw [he]
    exact Text.isBoundary_byteSize hlex

namespace Tiling

theorem offset_le_start (h : Tiling offset cs ts) : ∀ t ∈ ts, offset ≤ t.start := by
  induction h with
  | last => simp
  | token hg hne hstart hstop hl h ih =>
    refine List.forall_mem_cons.2 ⟨by omega, fun u hu => ?_⟩
    have := ih u hu
    omega

theorem pairwise (h : Tiling offset cs ts) : ts.Pairwise fun a b => a.stop ≤ b.start := by
  induction h with
  | last => exact .nil
  | token hg hne hstart hstop hl h ih => exact .cons h.offset_le_start ih

theorem start_lt_stop (h : Tiling offset cs ts) : ∀ t ∈ ts, t.start < t.stop := by
  induction h with
  | last => simp
  | token hg hne hstart hstop hl h ih =>
    have := Text.byteSize_pos hne
    exact List.forall_mem_cons.2 ⟨by omega, ih⟩

theorem start_lt (h : Tiling offset cs ts) : ∀ t ∈ ts, t.start < offset + byteSize cs := by
  induction h with
  | last => simp
  | token hg hne hstart hstop hl h ih =>
    have := Text.byteSize_pos hne
    simp only [Text.byteSize_append]
    refine List.forall_mem_cons.2 ⟨by omega, fun u hu => ?_⟩
    have := ih u hu
    omega

theorem spans (h : Tiling offset cs ts) (hs : source.toList = before ++ cs)
    (ho : offset = byteSize before) :
    ∀ t ∈ ts, IsBoundary source t.start ∧ IsBoundary source t.stop ∧
      (t.kind.IsSpelled → t.text source = t.kind.literal) := by
  induction h generalizing before with
  | last => simp
  | @token offset gap lexeme rest t ts hg hne hstart hstop hl h ih =>
    subst ho
    obtain ⟨-, htext, hb, he⟩ := Token.spans_of_append hs hstart hstop
    obtain ⟨hrest, hoffset⟩ := Token.append_of_append hs hstart hstop
    exact List.forall_mem_cons.2 ⟨⟨hb, he, fun hk => htext.trans (hl hk)⟩, ih hrest hoffset⟩

theorem isGap (h : Tiling offset cs ts) (hs : source.toList = before ++ cs)
    (ho : offset = byteSize before) {us vs : List Token} {t : Token} (hts : ts = us ++ t :: vs) :
    IsGap false (slice source (Token.endOf offset us) t.start).toList := by
  induction h generalizing before us with
  | last => simp at hts
  | @token offset gap lexeme rest u ts hg hne hstart hstop hl h ih =>
    subst ho
    cases us with
    | nil =>
      obtain ⟨rfl, -⟩ := List.cons.inj hts
      obtain ⟨hgap, -⟩ := Token.spans_of_append hs hstart hstop
      rwa [Token.endOf, hgap, String.toList_ofList]
    | cons v us =>
      rw [List.cons_append, List.cons.injEq] at hts
      obtain ⟨rfl, htail⟩ := hts
      obtain ⟨hrest, hoffset⟩ := Token.append_of_append hs hstart hstop
      exact ih hrest hoffset htail

theorem isGap_last (h : Tiling offset cs ts) (hs : source.toList = before ++ cs)
    (ho : offset = byteSize before) :
    IsGap true (slice source (Token.endOf offset ts) source.utf8ByteSize).toList := by
  induction h generalizing before with
  | @last offset gap hg =>
    have hsize : source.utf8ByteSize = byteSize before + byteSize gap := by
      rw [← Text.byteSize_toList, hs, Text.byteSize_append]
    have hlast : source.toList = before ++ gap ++ [] := by rw [List.append_nil, hs]
    rw [Token.endOf, ho, hsize, Text.slice_byteSize hlast, String.toList_ofList]
    exact hg
  | @token offset gap lexeme rest t ts hg hne hstart hstop hl h ih =>
    subst ho
    obtain ⟨hrest, hoffset⟩ := Token.append_of_append hs hstart hstop
    exact ih hrest hoffset

end Tiling

end

/-! ### Literals and the source -/

/-- There is no blank in a token that is spelled. -/
theorem Token.Kind.Valid.isBlank_literal {k : Token.Kind} (hv : k.Valid) (hk : k.IsSpelled) :
    ∀ c ∈ k.literal.toList, isBlank c = false := by
  cases k with
  | ident name => exact fun c hc => isBlank_of_isNameChar (hv.1.all c hc)
  | int text => exact fun c hc => isBlank_of_isDigit (hv c hc)
  | float text =>
    obtain ⟨cs, ds, htext, -, hcs, hds⟩ := hv
    intro c hc
    rw [Token.Kind.literal, htext, List.mem_append, List.mem_cons] at hc
    obtain hc | rfl | hc := hc
    · exact isBlank_of_isDigit (hcs c hc)
    · decide
    · exact isBlank_of_isDigit (hds c hc)
  | symbol s =>
    have hs : (Token.Kind.symbol s).literal.toList.all (!isBlank ·) = true := by cases s <;> rfl
    simpa using hs
  | keyword k =>
    have hk : (Token.Kind.keyword k).literal.toList.all (!isBlank ·) = true := by cases k <;> rfl
    simpa using hk
  | _ => exact hk.elim

/-- A gap without comments is blank. -/
theorem IsGap.isBlank {last : Bool} {gap : List Char} (h : IsGap last gap)
    (hc : ¬ ['/', '/'] <:+: gap) :
    ∀ c ∈ gap, isBlank c = true := by
  induction h with
  | nil => simp
  | blank hb h ih =>
    exact List.forall_mem_cons.2 ⟨hb, ih fun hi => hc (hi.trans (List.suffix_cons _ _).isInfix)⟩
  | @comment body cs => exact absurd (List.prefix_append ['/', '/'] (body ++ '\n' :: cs)).isInfix hc
  | @lastComment body => exact absurd (List.prefix_append ['/', '/'] body).isInfix hc

theorem Tiling.flatMap_literal {offset : Nat} {cs : List Char} {ts : List Token}
    (h : Tiling offset cs ts)
    (hv : ∀ t ∈ ts, t.kind.Valid) (hk : ∀ t ∈ ts, t.kind.IsSpelled) (hc : ¬ ['/', '/'] <:+: cs) :
    ts.flatMap (·.kind.literal.toList) = cs.filter (!isBlank ·) := by
  induction h with
  | last hg => simpa using hg.isBlank hc
  | @token offset gap lexeme rest t ts hg hne hstart hstop hl h ih =>
    rw [List.forall_mem_cons] at hv hk
    have hgap : gap.filter (!isBlank ·) = [] := by
      refine List.filter_eq_nil_iff.2 fun c hm => ?_
      rw [hg.isBlank (fun hi => hc (hi.trans ⟨[], lexeme ++ rest, by simp⟩)) c hm]
      decide
    have hlex : lexeme = t.kind.literal.toList := by rw [← hl hk.1, String.toList_ofList]
    have hkeep : lexeme.filter (!isBlank ·) = lexeme := by
      refine List.filter_eq_self.2 fun c hm => ?_
      rw [hv.1.isBlank_literal hk.1 c (hlex ▸ hm)]
      decide
    rw [List.filter_append, List.filter_append, hgap, hkeep, List.flatMap_cons, ← hlex,
      ih hv.2 hk.2 fun hi => hc (hi.trans ⟨gap ++ lexeme, [], by simp⟩)]
    rfl

/-- Tokens are in order, they span whole characters, and there is nothing but blanks and comments
between them. Names, keywords, numbers and symbols span their literals, so that a source of these
and blanks is their concatenation. -/
theorem Token.lex_tiles (source : String) :
    (∀ t ∈ lex source, t.start < t.stop ∧ t.stop ≤ source.utf8ByteSize ∧ IsBoundary source t.start ∧
      IsBoundary source t.stop ∧ (t.kind.IsSpelled → t.text source = t.kind.literal)) ∧
    ((lex source).Pairwise fun a b => a.stop ≤ b.start) ∧
    (∀ us t vs, lex source = us ++ t :: vs →
      IsGap false (slice source (endOf 0 us) t.start).toList) ∧
    IsGap true (slice source (endOf 0 (lex source)) source.utf8ByteSize).toList ∧
    ((∀ t ∈ lex source, t.kind.IsSpelled) → ¬ ['/', '/'] <:+: source.toList →
      String.join ((lex source).map (·.kind.literal)) =
      String.ofList (source.toList.filter (!isBlank ·))) := by
  have h : Tiling 0 source.toList (lex source) := Lexer.tiling_tokens (Lexer.ofString source)
  have hs : source.toList = [] ++ source.toList := rfl
  refine ⟨fun t ht => ?_, h.pairwise, fun us t vs => h.isGap hs rfl, h.isGap_last hs rfl,
    fun hk hc => ?_⟩
  · obtain ⟨hstart, hstop, htext⟩ := h.spans hs rfl t ht
    exact ⟨h.start_lt_stop t ht, hstop.le, hstart, hstop, htext⟩
  · rw [← h.flatMap_literal (Lexer.valid_tokens _) hk hc]
    simp [← String.toList_inj, List.flatMap_map]

theorem Token.lex_tiles_quotient :
    (∀ t ∈ lex "(a/b)\x0b<<\u3000%\x7b1.5: 2..3\x7d", t.kind.IsSpelled) ∧
      String.join ((lex "(a/b)\x0b<<\u3000%\x7b1.5: 2..3\x7d").map (·.kind.literal)) =
        "(a/b)<<%\x7b1.5:2..3\x7d" := by
  have hl : lex "(a/b)\x0b<<\u3000%\x7b1.5: 2..3\x7d" =
      [⟨.symbol .lparen, 0, 1⟩, ⟨.ident "a", 1, 2⟩, ⟨.symbol .slash, 2, 3⟩, ⟨.ident "b", 3, 4⟩,
        ⟨.symbol .rparen, 4, 5⟩, ⟨.symbol .shiftLeft, 6, 8⟩, ⟨.symbol .percentBrace, 11, 13⟩,
        ⟨.float "1.5", 13, 16⟩, ⟨.symbol .colon, 16, 17⟩, ⟨.int "2", 18, 19⟩,
        ⟨.symbol .dotDot, 19, 21⟩, ⟨.int "3", 21, 22⟩, ⟨.symbol .rbrace, 22, 23⟩] := by
    with_unfolding_all rfl
  have hk : ∀ t ∈ lex "(a/b)\x0b<<\u3000%\x7b1.5: 2..3\x7d", t.kind.IsSpelled := by
    rw [hl]
    simp [Token.Kind.IsSpelled]
  have hc : ¬ ['/', '/'] <:+: "(a/b)\x0b<<\u3000%\x7b1.5: 2..3\x7d".toList := by
    simp [List.infix_cons_iff]
  exact ⟨hk, (lex_tiles _).2.2.2.2 hk hc⟩

end YeetYoink
