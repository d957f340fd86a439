import YeetYoink.Proofs.Token.Holes

/-!
# Holes are closed by their own brace

A machine that counts, for every hole that is open, the braces opened inside it, and that is stuck
at a token that would close a brace or go on with a template out of turn. It runs through the tokens
of every source (`Token.lex_nests`): its stack is the lexer's count of open holes, up to a text that
does not end, and such a text is the last token.
-/

namespace YeetYoink

namespace Lexer

/-- One step of the machine; `none` if it is stuck. -/
def nest : List Nat → Token.Kind → Option (List Nat)
  | holes, .templateHead _ => some (0 :: holes)
  | n :: holes, .symbol .lbrace | n :: holes, .symbol .percentBrace => some ((n + 1) :: holes)
  | 0 :: _, .symbol .rbrace => none
  | (n + 1) :: holes, .symbol .rbrace => some (n :: holes)
  | 0 :: holes, .templateMiddle _ => some (0 :: holes)
  | 0 :: holes, .templateTail _ => some holes
  | _, .templateMiddle _ | _, .templateTail _ => none
  | holes, _ => some holes

/-! ### A text that does not end -/

theorem stringSegment_rest {cs : List Char} (h : (stringSegment cs).closer = none) :
    (stringSegment cs).rest = [] := by
  fun_induction stringSegment cs <;> simp_all [Segment.cons]

theorem templateSegment_rest {cs : List Char} (h : (templateSegment cs).closer = none) :
    (templateSegment cs).rest = [] := by
  fun_induction templateSegment cs <;> simp_all [Segment.cons]

theorem scanTemplate_rest {resumed : Bool} {holes : List Nat} {c : Char} {cs : List Char}
    (h : (scanTemplate resumed holes c cs).kind = unterminated) :
    (scanTemplate resumed holes c cs).rest = [] := by
  refine templateSegment_rest ?_
  simp only [scanTemplate, unterminated] at h
  split at h <;> first | assumption | cases h

theorem scan_rest {holes : List Nat} {c : Char} {cs : List Char}
    (h : (scan holes c cs).kind = unterminated) :
    (scan holes c cs).rest = [] := by
  refine scan_cases (motive := fun f => (f cs).kind = unterminated → (f cs).rest = []) holes c ?_
    (fun _ => scanTemplate_rest) ?_ ?_ (fun _ _ => scanTemplate_rest) ?_ h
  · intro _ h
    refine stringSegment_rest ?_
    simp only [scanString] at h
    cases hs : (stringSegment cs).closer with
    | none => rfl
    | some d => simp [hs, unterminated] at h
  · exact fun _ h => absurd h (scanName_kind_ne holes (c :: cs))
  · exact fun _ h => absurd h (scanNumber_kind_ne holes (c :: cs))
  · exact fun _ h => absurd h (scanSymbol_kind_ne holes c cs)

/-! ### Steps and runs -/

theorem nest_symbol {s : Symbol} {holes : List Nat}
    (h : ∀ outer, s = .rbrace → holes ≠ 0 :: outer) :
    nest holes (.symbol s) = some (countBrace s holes) := by
  cases holes with
  | nil => cases s <;> rfl
  | cons n holes =>
    cases s with
    | rbrace =>
      cases n with
      | zero => exact absurd rfl (h holes rfl)
      | succ n => rfl
    | _ => rfl

theorem nest_scanName (holes : List Nat) (cs : List Char) :
    nest holes (scanName holes cs).kind = some (scanName holes cs).holes := by
  simp only [scanName]
  split <;> cases holes <;> rfl

theorem nest_scanNumber (holes : List Nat) (cs : List Char) :
    nest holes (scanNumber holes cs).kind = some (scanNumber holes cs).holes := by
  unfold scanNumber
  split
  · split <;> cases holes <;> rfl
  · cases holes <;> rfl

theorem nest_scanSymbol {holes : List Nat} {c : Char} {cs : List Char}
    (h : ∀ outer, c = '\x7d' → holes ≠ 0 :: outer) :
    nest holes (scanSymbol holes c cs).kind = some (scanSymbol holes c cs).holes := by
  unfold scanSymbol
  cases hs : symbol? (c :: cs) with
  | none => cases holes <;> rfl
  | some s =>
    refine nest_symbol fun outer hr => h outer ?_
    subst hr
    exact (List.cons_prefix_cons.1 (prefix_of_symbol? hs)).1.symm

theorem nest_scanTemplate {resumed : Bool} {holes : List Nat} {c : Char} {cs : List Char}
    (h : (scanTemplate resumed holes c cs).kind ≠ unterminated) :
    nest (if resumed then 0 :: holes else holes) (scanTemplate resumed holes c cs).kind =
      some (scanTemplate resumed holes c cs).holes := by
  simp only [scanTemplate] at h ⊢
  cases hs : (templateSegment cs).closer with
  | none => simp [hs] at h
  | some d =>
    by_cases hd : d = '\x7b'
    · subst hd
      cases resumed with
      | true => rfl
      | false => cases holes <;> rfl
    · cases resumed with
      | true => simp [hd, nest]
      | false => cases holes <;> simp [hd, nest]

/-- The machine steps as the lexer does. -/
theorem nest_scan {holes : List Nat} {c : Char} {cs : List Char}
    (h : (scan holes c cs).kind ≠ unterminated) :
    nest holes (scan holes c cs).kind = some (scan holes c cs).holes := by
  refine scan_cases (motive := fun f =>
    (f cs).kind ≠ unterminated → nest holes (f cs).kind = some (f cs).holes)
    holes c ?_ (fun _ => nest_scanTemplate) ?_ ?_ ?_ (fun hc _ => nest_scanSymbol hc) h
  · intro _ h
    simp only [scanString] at h ⊢
    split
    · cases holes <;> rfl
    · simp_all
  · exact fun _ _ => nest_scanName holes (c :: cs)
  · exact fun _ _ => nest_scanNumber holes (c :: cs)
  · rintro outer rfl
    exact nest_scanTemplate

theorem nest_tokens (l : Lexer) :
    ∃ holes, (l.tokens.map (·.kind)).foldlM nest l.holes = some holes := by
  generalize hn : l.rest.length = n
  induction n using Nat.strongRecOn generalizing l with
  | ind n ih =>
    cases hr : (splitBlank false l.rest).2 with
    | nil => exact ⟨l.holes, by rw [tokens_of_nil hr]; rfl⟩
    | cons c cs =>
      have hlt : (next l).2.rest.length < n := by
        rw [← hn]
        simpa only [next, hr] using scan_rest_length_lt hr l.holes
      obtain ⟨holes, htail⟩ := ih _ hlt (next l).2 rfl
      rw [tokens_of_cons hr, List.map_cons, List.foldlM_cons]
      simp only [next, hr] at htail ⊢
      by_cases hk : (scan l.holes c cs).kind = unterminated
      · -- The lexer may have left the hole already, but there is nothing more to read.
        rw [tokens_of_nil (by rw [scan_rest hk]; rfl), hk]
        exact ⟨l.holes, by cases l.holes <;> rfl⟩
      · rw [nest_scan hk]
        exact ⟨holes, htail⟩

end Lexer

theorem Token.lex_nests (source : String) :
    ∃ holes, ((Token.lex source).map (·.kind)).foldlM Lexer.nest [] = some holes :=
  Lexer.nest_tokens (Lexer.ofString source)

end YeetYoink
