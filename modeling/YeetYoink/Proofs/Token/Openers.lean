import YeetYoink.Proofs.Token.Holes

/-!
# Texts without openers

A brace, `%` with a brace, and the head of a template open a construct in which a semicolon may
stand. A text that has no opening brace, no quote and no backtick has no such tokens, and ends
outside of every string and template (`tokens_of_plain`).
-/

namespace YeetYoink

/-- A token behind which semicolons do not end the statement, up to the token that closes it. -/
def Token.Kind.isOpener : Token.Kind → Bool
  | .symbol .lbrace | .symbol .percentBrace | .templateHead _ => true
  | _ => false

/-- A character that starts no string and no template, and that no opener is written with. -/
def IsPlain (c : Char) : Prop := c ≠ '"' ∧ c ≠ '\x60' ∧ c ≠ '\x7b'

instance (c : Char) : Decidable (IsPlain c) := inferInstanceAs (Decidable (_ ∧ _))

namespace Lexer

open Text (byteSize)

theorem advance_nil {k : Token.Kind} (h : k.isOpener = false) : advance [] k = [] := by
  cases k with
  | symbol s => cases s <;> rfl
  | templateHead => cases h
  | _ => rfl

theorem isOpener_scanSymbol {c : Char} {cs : List Char} (h : '\x7b' ∉ c :: cs) (holes : List Nat) :
    (scanSymbol holes c cs).kind.isOpener = false := by
  unfold scanSymbol
  split
  · rename_i s hs
    have hsub := (prefix_of_symbol? hs).subset
    cases s with
    | lbrace | percentBrace => exact absurd (hsub (by decide)) h
    | _ => rfl
  · rfl

theorem isOpener_scanName (holes : List Nat) (cs : List Char) :
    (scanName holes cs).kind.isOpener = false := by
  simp only [scanName]
  split <;> rfl

theorem isOpener_scanNumber (holes : List Nat) (cs : List Char) :
    (scanNumber holes cs).kind.isOpener = false := by
  unfold scanNumber
  split
  · split <;> rfl
  · rfl

/-- A plain text goes on with a plain token. -/
theorem scan_of_plain {c : Char} {cs : List Char} (h : ∀ d ∈ c :: cs, IsPlain d) :
    (scan [] c cs).kind ≠ unterminated ∧ (scan [] c cs).kind.isOpener = false := by
  obtain ⟨hquote, hbacktick, -⟩ := h c (List.mem_cons_self ..)
  refine scan_cases (motive := fun f =>
    (f cs).kind ≠ unterminated ∧ (f cs).kind.isOpener = false) [] c
    (fun hc => absurd hc hquote) (fun hc => absurd hc hbacktick) ?_ ?_ (fun _ hh => nomatch hh) ?_
  · exact fun _ => ⟨scanName_kind_ne [] (c :: cs), isOpener_scanName [] (c :: cs)⟩
  · exact fun _ => ⟨scanNumber_kind_ne [] (c :: cs), isOpener_scanNumber [] (c :: cs)⟩
  · exact fun _ => ⟨scanSymbol_kind_ne [] c cs, isOpener_scanSymbol (fun hb => (h _ hb).2.2 rfl) []⟩

theorem tokens_of_plain {l : Lexer} (h : ∀ c ∈ l.rest, IsPlain c) (hl : l.holes = []) :
    ∀ t ∈ l.tokens, t.kind ≠ unterminated ∧ t.kind.isOpener = false := by
  fun_induction tokens l with
  | case1 l he => simp
  | case2 l he ih =>
    have hsplit := splitBlank_append false l.rest
    cases hr : (splitBlank false l.rest).2 with
    | nil => simp [next, hr] at he
    | cons c cs =>
      rw [hr] at hsplit
      have hplain : ∀ d ∈ c :: cs, IsPlain d :=
        fun d hd => h d (hsplit ▸ List.mem_append_right _ hd)
      obtain ⟨hk, ho⟩ := scan_of_plain hplain
      simp only [next, hr, hl] at ih ⊢
      refine List.forall_mem_cons.2 ⟨⟨hk, ho⟩, ih (fun d hd => hplain d ?_) ?_⟩
      · rw [← scan_append [] c cs]
        exact List.mem_append_right _ hd
      · rw [scan_holes hk, advance_nil ho]

theorem foldl_advance {ks : List Token.Kind} (h : ∀ k ∈ ks, k.isOpener = false) :
    ks.foldl advance [] = [] := by
  induction ks with
  | nil => rfl
  | cons k ks ih =>
    rw [List.forall_mem_cons] at h
    rw [List.foldl_cons, advance_nil h.1, ih h.2]

theorem tokens_newline (cs : List Char) (offset : Nat) :
    tokens ⟨'\n' :: cs, offset, []⟩ = tokens ⟨cs, offset + 1, []⟩ := by
  refine tokens_congr (splitBlank_blank (by decide) cs) ?_ rfl
  change offset + (1 + byteSize (splitBlank false cs).1) = _
  rw [Nat.add_assoc]

theorem tokens_semicolon (cs : List Char) (offset : Nat) :
    tokens ⟨';' :: cs, offset, []⟩ =
      ⟨.symbol .semicolon, offset, offset + 1⟩ :: tokens ⟨cs, offset + 1, []⟩ := by
  rw [tokens_of_cons (l := ⟨';' :: cs, offset, []⟩) rfl]
  rfl

/-- Behind a plain text and a semicolon on a line of its own, another text is read from its start.
-/
theorem lex_append_semicolon {s : String} (hs : ∀ c ∈ s.toList, IsPlain c) (t : String) :
    Token.lex (s ++ "\n;\n" ++ t) = Token.lex s ++
      ⟨.symbol .semicolon, s.utf8ByteSize + 1, s.utf8ByteSize + 2⟩ ::
        tokens ⟨t.toList, s.utf8ByteSize + 3, []⟩ := by
  have hplain := tokens_of_plain (l := ofString s) hs rfl
  have hopen : ((ofString s).tokens.map (·.kind)).foldl advance (ofString s).holes = [] :=
    foldl_advance (List.forall_mem_map.2 fun t ht => (hplain t ht).2)
  have happ := tokens_append_newline (ofString s) (';' :: '\n' :: t.toList)
    fun t ht => (hplain t ht).1
  rw [hopen] at happ
  simp only [ofString, Text.byteSize_toList, Nat.zero_add] at happ
  rw [Token.lex, Token.lex, ofString]
  simp only [String.toList_append, List.append_assoc]
  exact happ.trans (congrArg _ ((tokens_semicolon _ _).trans (congrArg _ (tokens_newline _ _))))

end Lexer

end YeetYoink
