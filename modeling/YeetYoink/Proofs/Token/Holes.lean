import YeetYoink.Proofs.Text.Bytes
import YeetYoink.Proofs.Token.Kinds

/-!
# Reading one text after another

What a token does to the open holes can be told from its kind (`advance`), unless it is a text that
does not end. A source without such a token is read the same if a new line and more text follow, and
that text is then read inside the holes that are open at the end of the first one
(`tokens_append_newline`).
-/

namespace YeetYoink

def Token.Kind.IsLegal : Token.Kind → Prop
  | .illegal _ => False
  | _ => True

/-- The same token with more text behind it. -/
def Lexeme.append (x : Lexeme) (more : List Char) : Lexeme := { x with rest := x.rest ++ more }

theorem Token.Kind.IsLegal.ne_unterminated {k : Token.Kind} (h : k.IsLegal) :
    k ≠ Lexer.unterminated := by
  rintro rfl
  exact h

namespace Lexer

open Text (byteSize)

/-- The holes that are open after a token. -/
def advance : List Nat → Token.Kind → List Nat
  | holes, .symbol s => countBrace s holes
  | holes, .templateHead _ => 0 :: holes
  | _ :: holes, .templateMiddle _ => 0 :: holes
  | _ :: holes, .templateTail _ => holes
  | holes, _ => holes

/-- What stands in front of another character starts with a character if it does so alone. -/
theorem append_ne_cons {b c : Char} (hc : c ≠ b) {cs : List Char} (h : ∀ ds, cs ≠ c :: ds)
    (rest ds : List Char) : cs ++ b :: rest ≠ c :: ds := by
  cases cs with
  | nil => simpa using fun h => absurd h.symm hc
  | cons d cs =>
    rw [List.cons_append, Ne, List.cons.injEq]
    exact fun heq => h cs (by rw [heq.1])

/-! ### Blanks -/

/-- The new line ends a comment and is a blank otherwise. -/
theorem splitBlank_append_newline (b : Bool) (cs rest : List Char) :
    (splitBlank b (cs ++ '\n' :: rest)).2 =
      if (splitBlank b cs).2 = [] then (splitBlank false rest).2
      else (splitBlank b cs).2 ++ '\n' :: rest := by
  fun_induction splitBlank b cs with
  | case1 b =>
    cases b with
    | true => rfl
    | false => exact splitBlank_blank (by decide) rest
  | case2 c cs _ _ _ ih => simp_all [splitBlank]
  | case3 cs _ _ _ ih => simp_all [splitBlank]
  | case4 c cs hc hb _ _ _ ih =>
    rw [List.cons_append, splitBlank_blank hb]
    simp_all
  | case5 c cs hc hb =>
    rw [List.cons_append, splitBlank]
    · simp [hb]
    · exact fun cs' hslash => append_ne_cons (by decide) (fun ds => hc ds hslash) rest cs'

/-! ### Texts -/

/-- A backslash stands before some character or at the end. -/
theorem ne_backslash {c : Char} {cs : List Char} (h : c = '\\' → cs = [] → False)
    (h' : ∀ d ds, c = '\\' → cs = d :: ds → False) : c ≠ '\\' := by
  cases cs with
  | nil => exact fun hc => h hc rfl
  | cons d ds => exact fun hc => h' d ds hc rfl

theorem stringSegment_append_of_isSome {cs : List Char}
    (h : (stringSegment cs).closer.isSome = true) (more : List Char) : stringSegment (cs ++ more) =
      { stringSegment cs with rest := (stringSegment cs).rest ++ more } := by
  fun_induction stringSegment cs with
  | case1 | case3 => simp at h
  | case2 cs => simp [stringSegment]
  | case4 c cs ih => simp_all [stringSegment, Segment.cons]
  | case5 c cs h₁ h₂ h₃ ih =>
    have hc := ne_backslash h₂ h₃
    rw [List.cons_append, stringSegment]
    · simp_all [Segment.cons]
    all_goals simp_all

theorem templateSegment_append_blank {b : Char} (hb : isBlank b = true) {cs : List Char}
    (h : (templateSegment cs).closer.isSome = true) (rest : List Char) :
    templateSegment (cs ++ b :: rest) =
      { templateSegment cs with rest := (templateSegment cs).rest ++ b :: rest } := by
  have hopen : '\x7b' ≠ b := ne_of_isBlank (by decide) hb
  have hclose : '\x7d' ≠ b := ne_of_isBlank (by decide) hb
  fun_induction templateSegment cs with
  | case1 => simp at h
  | case2 cs => simp [templateSegment]
  | case3 cs ih => simp_all [templateSegment, Segment.cons]
  | case4 cs hc =>
    rw [List.cons_append, templateSegment]
    exact append_ne_cons hopen hc rest
  | case5 cs ih => simp_all [templateSegment, Segment.cons]
  | case6 c cs h₁ h₂ h₃ h₄ ih =>
    rw [List.cons_append, templateSegment]
    · rw [ih h]
      rfl
    · exact h₁
    · exact fun ds hc => append_ne_cons hopen (fun ds => h₂ ds hc) rest ds
    · exact h₃
    · exact fun ds hc => append_ne_cons hclose (fun ds => h₄ ds hc) rest ds

/-! ### Tokens -/

section

variable {b : Char} (hb : isBlank b = true) (holes : List Nat) (rest : List Char)

include hb

theorem scanName_append_blank (cs : List Char) :
    scanName holes (cs ++ b :: rest) = (scanName holes cs).append (b :: rest) := by
  have hn := isNameChar_of_isBlank hb
  simp only [scanName, takeWhile_append_stop hn, dropWhile_append_stop hn]
  rfl

theorem scanNumber_append_blank (cs : List Char) :
    scanNumber holes (cs ++ b :: rest) = (scanNumber holes cs).append (b :: rest) := by
  have hn := isDigit_of_isBlank hb
  have hpoint : b ≠ '.' := (ne_of_isBlank (by decide) hb).symm
  simp only [scanNumber, takeWhile_append_stop hn, dropWhile_append_stop hn]
  cases cs.dropWhile isDigit with
  | nil =>
    simp only [List.nil_append]
    split
    · simp_all
    · rfl
  | cons c ds =>
    by_cases hc : c = '.'
    · subst hc
      cases ds with
      -- The point is followed by the blank, which is no digit.
      | nil =>
        simp only [List.cons_append, List.nil_append, hn]
        rfl
      | cons d ds =>
        have ht := takeWhile_append_stop hn (d :: ds) rest
        have hd := dropWhile_append_stop hn (d :: ds) rest
        rw [List.cons_append] at ht hd
        simp only [List.cons_append, ht, hd]
        split <;> rfl
    · simp only [List.cons_append]
      split
      · simp_all
      · split
        · simp_all
        · rfl

omit hb in
theorem scanString_append_blank {c : Char} {cs : List Char}
    (h : (scanString holes c cs).kind ≠ unterminated) :
    scanString holes c (cs ++ b :: rest) = (scanString holes c cs).append (b :: rest) := by
  have hs : (stringSegment cs).closer.isSome = true := by
    cases hs : (stringSegment cs).closer with
    | none => simp [scanString, hs] at h
    | some _ => rfl
  simp only [scanString, stringSegment_append_of_isSome hs]
  rfl

theorem scanTemplate_append_blank {resumed : Bool} {c : Char} {cs : List Char}
    (h : (scanTemplate resumed holes c cs).kind ≠ unterminated) :
    scanTemplate resumed holes c (cs ++ b :: rest) =
      (scanTemplate resumed holes c cs).append (b :: rest) := by
  have hs : (templateSegment cs).closer.isSome = true := by
    cases hs : (templateSegment cs).closer with
    | none => simp [scanTemplate, hs] at h
    | some _ => rfl
  simp only [scanTemplate, templateSegment_append_blank hb hs]
  rfl

theorem symbol?_append_blank (cs : List Char) : symbol? (cs ++ b :: rest) = symbol? cs := by
  have hn : ∀ s : Symbol, b ∉ s.text.toList := by
    intro s hs
    have hall : s.text.toList.all (!isBlank ·) = true := by cases s <;> rfl
    simpa [hb] using List.all_eq_true.1 hall b hs
  simp only [symbol?, isPrefixOf_append_stop (hn _)]

theorem scanSymbol_append_blank (c : Char) (cs : List Char) :
    scanSymbol holes c (cs ++ b :: rest) = (scanSymbol holes c cs).append (b :: rest) := by
  unfold scanSymbol
  rw [← List.cons_append, symbol?_append_blank hb]
  cases hs : symbol? (c :: cs) with
  | none => rfl
  | some s =>
    have hp : s.text.length ≤ (c :: cs).length := by
      rw [← String.length_toList]
      exact (prefix_of_symbol? hs).length_le
    simp only [List.take_append_of_le_length hp, List.drop_append_of_le_length hp]
    rfl

/-- No token reaches over a blank, but for a text that does not end. -/
theorem scan_append_blank {c : Char} {cs : List Char} (h : (scan holes c cs).kind ≠ unterminated) :
    scan holes c (cs ++ b :: rest) = (scan holes c cs).append (b :: rest) := by
  refine scan_cases (motive := fun f =>
    (f cs).kind ≠ unterminated → f (cs ++ b :: rest) = (f cs).append (b :: rest)) holes c ?_ ?_ ?_
      ?_ ?_ ?_ h
  · exact fun _ => scanString_append_blank holes rest
  · exact fun _ => scanTemplate_append_blank hb holes rest
  · exact fun _ _ => scanName_append_blank hb holes rest (c :: cs)
  · exact fun _ _ => scanNumber_append_blank hb holes rest (c :: cs)
  · exact fun outer _ => scanTemplate_append_blank hb outer rest
  · exact fun _ _ => scanSymbol_append_blank hb holes rest c cs

end

/-! ### Holes -/

theorem scanSymbol_kind_ne (holes : List Nat) (c : Char) (cs : List Char) :
    (scanSymbol holes c cs).kind ≠ unterminated := by
  unfold scanSymbol
  split
  · exact nofun
  · -- The messages differ in their first letter.
    intro h
    have := congrArg String.toList (Token.Kind.illegal.inj h)
    simp at this

theorem scanName_kind_ne (holes : List Nat) (cs : List Char) :
    (scanName holes cs).kind ≠ unterminated := by
  simp only [scanName]
  split <;> rintro ⟨⟩

theorem scanNumber_kind_ne (holes : List Nat) (cs : List Char) :
    (scanNumber holes cs).kind ≠ unterminated := by
  unfold scanNumber
  split
  · split <;> exact nofun
  · exact nofun

theorem scanName_holes (holes : List Nat) (cs : List Char) :
    (scanName holes cs).holes = advance holes (scanName holes cs).kind := by
  simp only [scanName]
  split <;> simp [advance]

theorem scanNumber_holes (holes : List Nat) (cs : List Char) :
    (scanNumber holes cs).holes = advance holes (scanNumber holes cs).kind := by
  unfold scanNumber
  split
  · split <;> simp [advance]
  · simp [advance]

theorem scanSymbol_holes (holes : List Nat) (c : Char) (cs : List Char) :
    (scanSymbol holes c cs).holes = advance holes (scanSymbol holes c cs).kind := by
  unfold scanSymbol
  split <;> simp [advance]

/-- A template that goes on was in a hole without open braces. -/
theorem scanTemplate_holes {resumed : Bool} {holes : List Nat} {c : Char} {cs : List Char}
    (h : (scanTemplate resumed holes c cs).kind ≠ unterminated) :
    (scanTemplate resumed holes c cs).holes =
      advance (if resumed then 0 :: holes else holes) (scanTemplate resumed holes c cs).kind := by
  simp only [scanTemplate] at h ⊢
  cases hs : (templateSegment cs).closer with
  | none => simp [hs] at h
  | some d =>
    by_cases hd : d = '\x7b'
    · subst hd
      cases resumed <;> rfl
    · cases resumed <;> simp [hd, advance]

theorem scan_holes {holes : List Nat} {c : Char} {cs : List Char}
    (h : (scan holes c cs).kind ≠ unterminated) :
    (scan holes c cs).holes = advance holes (scan holes c cs).kind := by
  refine scan_cases (motive := fun f =>
    (f cs).kind ≠ unterminated → (f cs).holes = advance holes (f cs).kind) holes c ?_
    (fun _ => scanTemplate_holes) ?_ ?_ ?_ ?_ h
  · intro _ _
    simp only [scanString, unterminated]
    split <;> simp [advance]
  · exact fun _ _ => scanName_holes holes (c :: cs)
  · exact fun _ _ => scanNumber_holes holes (c :: cs)
  · rintro outer rfl
    exact scanTemplate_holes
  · exact fun _ _ => scanSymbol_holes holes c cs

/-! ### One text after another -/

/-- What is left to read, where it starts and the open holes tell the tokens. -/
theorem tokens_congr {l l' : Lexer}
    (hrest : (splitBlank false l.rest).2 = (splitBlank false l'.rest).2)
    (hstart : l.offset + byteSize (splitBlank false l.rest).1 =
      l'.offset + byteSize (splitBlank false l'.rest).1)
    (hholes : l.holes = l'.holes) : tokens l = tokens l' := by
  cases hr : (splitBlank false l.rest).2 with
  | nil => rw [tokens_of_nil hr, tokens_of_nil (hrest ▸ hr)]
  | cons c cs =>
    have hr' := hrest ▸ hr
    rw [tokens_of_cons hr, tokens_of_cons hr']
    simp only [next, hr, hr', hstart, hholes]

/-- Whatever follows a text and a new line is read after it, inside the holes that it leaves open.
-/
theorem tokens_append_newline (l : Lexer) (rest : List Char)
    (h : ∀ t ∈ l.tokens, t.kind ≠ unterminated) :
    tokens { l with rest := l.rest ++ '\n' :: rest } = l.tokens ++
      tokens ⟨rest, l.offset + byteSize l.rest + 1,
        (l.tokens.map (·.kind)).foldl advance l.holes⟩ := by
  generalize hn : l.rest.length = n
  induction n using Nat.strongRecOn generalizing l with
  | ind n ih =>
    have hafter := splitBlank_append_newline false l.rest rest
    have hsplit := splitBlank_append false l.rest
    have hsplit' := splitBlank_append false (l.rest ++ '\n' :: rest)
    rw [hafter] at hsplit'
    cases hr : (splitBlank false l.rest).2 with
    | nil =>
      rw [if_pos hr] at hafter hsplit'
      have hblank : (splitBlank false (l.rest ++ '\n' :: rest)).1 =
          l.rest ++ '\n' :: (splitBlank false rest).1 := by
        refine List.append_cancel_right (hsplit'.trans ?_)
        rw [List.append_assoc, List.cons_append, splitBlank_append]
      rw [tokens_of_nil hr, List.nil_append]
      refine tokens_congr hafter ?_ rfl
      have hnewline : '\n'.utf8Size = 1 := rfl
      simp only [hblank, Text.byteSize_append, byteSize, hnewline]
      omega
    | cons c cs =>
      rw [if_neg (by simp [hr]), hr, List.cons_append] at hafter hsplit'
      rw [hr] at hsplit
      have hblank : (splitBlank false (l.rest ++ '\n' :: rest)).1 =
          (splitBlank false l.rest).1 := by
        refine List.append_cancel_right (hsplit'.trans ?_)
        rw [← List.cons_append, ← List.append_assoc, hsplit]
      rw [tokens_of_cons hr] at h ⊢
      obtain ⟨hk, hks⟩ := List.forall_mem_cons.1 h
      have hlt : (next l).2.rest.length < n := by
        rw [← hn]
        simpa only [next, hr] using scan_rest_length_lt hr l.holes
      have htail := ih _ hlt _ hks rfl
      simp only [next, hr] at hk hks htail ⊢
      have hstop : byteSize l.rest = byteSize (splitBlank false l.rest).1 +
          (byteSize (scan l.holes c cs).taken + byteSize (scan l.holes c cs).rest) := by
        rw [← Text.byteSize_append, scan_append, ← Text.byteSize_append, hsplit]
      have hscan := scan_append_blank (b := '\n') (by decide) l.holes rest hk
      rw [tokens_of_cons (l := { l with rest := l.rest ++ '\n' :: rest }) hafter]
      simp only [next, hafter, hblank, hscan, Lexeme.append, htail]
      rw [List.cons_append, List.map_cons, List.foldl_cons, ← scan_holes hk, hstop]
      simp only [Nat.add_assoc]

theorem kinds_append_newline (holes : List Nat) (cs rest : List Char)
    (h : ∀ k ∈ kinds holes cs, k ≠ unterminated) :
    kinds holes (cs ++ '\n' :: rest) =
      kinds holes cs ++ kinds ((kinds holes cs).foldl advance holes) rest := by
  have := congrArg (List.map (·.kind)) (tokens_append_newline ⟨cs, 0, holes⟩ rest (by
    simpa [kinds] using h))
  rw [List.map_append, map_kind_tokens ⟨rest, _, _⟩] at this
  exact this

end Lexer

end YeetYoink
