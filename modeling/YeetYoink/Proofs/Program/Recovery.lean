import YeetYoink.Proofs.Parser.Breaks
import YeetYoink.Proofs.Program.Pieces

/-!
# Reading goes on after a semicolon

A semicolon ends whatever was wrong before it, and what follows is read as if it stood alone, with
one exception: a statement that is broken off, so that it fails where its text ends, fails at the
semicolon and takes it. Reading then goes on behind the next semicolon, or at the next token that
starts a statement, and what stands before that is lost (`read_after_semicolon`).
-/

namespace YeetYoink.Program

open YeetYoink.Parser

/-- The last statement of the tokens fails where they end. The number bounds the statements. -/
def breaksOff : Nat → List Token → Bool
  | 0, _ => false
  | n + 1, ts =>
    match ts.dropWhile (·.kind = .symbol .semicolon) with
    | [] => false
    | t :: ts =>
      match expression (ts.length + 2) .lowest (t :: ts) with
      | .ok _ rest => breaksOff n rest
      | .error (.failed e) rest => e.isPremature || breaksOff n (recover rest)
      | .error .exhausted _ => false

/-- The last statement of the source fails where the source ends. -/
def BreaksOff (source : String) : Prop :=
  breaksOff ((Token.lex source).length + 1) (Token.lex source) = true

instance (source : String) : Decidable (BreaksOff source) := inferInstanceAs (Decidable (_ = _))

/-- The program that is read from tokens. -/
def ofTokens (ts : List Token) : Program := (statements (ts.length + 1) false ts).program

theorem program_read (source : String) : (read source).program = ofTokens (Token.lex source) := rfl

theorem program_eq_ofTokens {n : Nat} {ts : List Token} (hn : ts.length < n) (recovering : Bool) :
    (statements n recovering ts).program = ofTokens ts := by
  rw [program_statements n recovering false, statements_congr hn (Nat.lt_succ_self _), ofTokens]

section

variable {n : Nat} {t : Token} {ts rest : List Token}

theorem breaksOff_nil (n : Nat) : breaksOff n [] = false := by
  cases n <;> rfl

theorem breaksOff_semicolon (n : Nat) (ht : t.kind = .symbol .semicolon) (ts : List Token) :
    breaksOff n (t :: ts) = breaksOff n ts := by
  cases n with
  | zero => rfl
  | succ n => rw [breaksOff, breaksOff, List.dropWhile_cons_of_pos (by simpa using ht)]

theorem breaksOff_ok {e : Expr} (ht : t.kind ≠ .symbol .semicolon)
    (h : expression (ts.length + 2) .lowest (t :: ts) = .ok e rest) :
    breaksOff (n + 1) (t :: ts) = breaksOff n rest := by
  rw [breaksOff, List.dropWhile_cons_of_neg (by simpa using ht)]
  simp only [h]

theorem breaksOff_failed {e : ParseError} (ht : t.kind ≠ .symbol .semicolon)
    (h : expression (ts.length + 2) .lowest (t :: ts) = .error (.failed e) rest) :
    breaksOff (n + 1) (t :: ts) = (e.isPremature || breaksOff n (recover rest)) := by
  rw [breaksOff, List.dropWhile_cons_of_neg (by simpa using ht)]
  simp only [h]

theorem ofTokens_semicolon (ht : t.kind = .symbol .semicolon) (ts : List Token) :
    ofTokens (t :: ts) = ofTokens ts := by
  rw [ofTokens, statements_semicolon _ _ ht]
  exact program_eq_ofTokens (by rw [List.length_cons]; omega) false

theorem ofTokens_ok {e : Expr} (ht : t.kind ≠ .symbol .semicolon)
    (h : expression (ts.length + 2) .lowest (t :: ts) = .ok e rest) :
    ofTokens (t :: ts) = e :: ofTokens rest := by
  have ho := meets_expression (ts.length + 2) .lowest (t :: ts) (by simp)
  rw [h] at ho
  obtain ⟨taken, htaken, hw⟩ := ho
  have hlen := length_le_of_taken htaken hw.ne_nil
  rw [ofTokens, statements_ok ht h, program_eq_ofTokens (by rw [List.length_cons]; omega)]

theorem ofTokens_failed {e : ParseError} (ht : t.kind ≠ .symbol .semicolon)
    (h : expression (ts.length + 2) .lowest (t :: ts) = .error (.failed e) rest) :
    ofTokens (t :: ts) = .bad t :: ofTokens (recover rest) := by
  have ho := meets_expression (ts.length + 2) .lowest (t :: ts) (by simp)
  rw [h] at ho
  obtain ⟨taken, htaken, hb⟩ := ho
  have hlen := length_le_of_taken htaken (hb.ne_nil htaken)
  have hrest := (recover_suffix rest).length_le
  rw [ofTokens, statements_failed ht h]
  simp only
  rw [program_eq_ofTokens (by rw [List.length_cons]; omega)]

end

/-! ### A semicolon behind tokens without openers -/

section

variable {semicolon : Token} (hc : semicolon.kind = .symbol .semicolon) (more : List Token)
include hc

/-- Reading recovers before the semicolon, or the semicolon is where it does. -/
theorem recover_append (ts : List Token) :
    recover (ts ++ semicolon :: more) = recover ts ++ semicolon :: more ∨
      recover ts = [] ∧ recover (ts ++ semicolon :: more) = more := by
  induction ts with
  | nil => exact .inr ⟨rfl, by rw [List.nil_append, recover, if_pos hc]⟩
  | cons t ts ih =>
    rw [List.cons_append, recover, recover]
    split
    · exact .inl rfl
    split
    · exact .inl rfl
    · exact ih

theorem resumes_statement {t : Token} {ts : List Token} (hts : Flat (t :: ts)) :
    Resumes semicolon more (expression (ts.length + 2) .lowest (t :: ts))
      (expression ((ts ++ semicolon :: more).length + 2) .lowest
        (t :: (ts ++ semicolon :: more))) := by
  have hn : ts.length + 2 ≤ (ts ++ semicolon :: more).length + 2 := by simp
  exact breaks_expression hn .lowest (t :: ts) semicolon more hts hc

theorem ofTokens_recover_append {n : Nat} {ts : List Token}
    (h : ofTokens (recover ts ++ semicolon :: more) =
      ofTokens (recover ts) ++ ofTokens (if breaksOff n (recover ts) then recover more else more)) :
    ofTokens (recover (ts ++ semicolon :: more)) =
      ofTokens (recover ts) ++
        ofTokens (if breaksOff n (recover ts) then recover more else more) := by
  obtain hr | ⟨hr, hmore⟩ := recover_append hc more ts
  · rw [hr, h]
  · rw [hr, hmore, breaksOff_nil]
    rfl

/-- What is read in front of the semicolon stays, and so does what is behind it, unless the
semicolon is taken by a statement that is broken off. -/
theorem ofTokens_append_semicolon {n : Nat} {ts : List Token} (hts : Flat ts) (hn : ts.length < n) :
    ofTokens (ts ++ semicolon :: more) =
      ofTokens ts ++ ofTokens (if breaksOff n ts then recover more else more) := by
  refine statements_induct (motive := fun _ ts _ => Flat ts → ∀ n, ts.length < n →
    ofTokens (ts ++ semicolon :: more) =
    ofTokens ts ++ ofTokens (if breaksOff n ts then recover more else more))
    ?nil ?semicolon ?ok ?failed hn false hts n hn
  case nil =>
    intro _ _ n _
    rw [List.nil_append, ofTokens_semicolon hc, breaksOff_nil]
    rfl
  case semicolon =>
    intro _ t ts _ ht ih hts n hn
    rw [List.cons_append, ofTokens_semicolon ht, ofTokens_semicolon ht, breaksOff_semicolon n ht]
    exact ih (allKinds_cons.1 hts).2 n (Nat.lt_of_succ_lt hn)
  case ok =>
    intro _ t ts taken rest x _ ht htaken hw hx ih hts n hn
    obtain ⟨n, rfl⟩ := Nat.exists_eq_add_one.2 (Nat.zero_lt_of_lt hn)
    have hlen := length_le_of_taken htaken hw.ne_nil
    have hx' := resumes_statement hc more hts
    rw [hx] at hx'
    obtain ⟨hrest, hx'⟩ := hx'
    rw [List.length_cons] at hn
    rw [List.cons_append, ofTokens_ok ht hx', ofTokens_ok ht hx, breaksOff_ok ht hx,
      ih hrest n (by omega)]
    rfl
  case failed =>
    intro _ t ts taken rest e _ ht htaken hb hx ih hts n hn
    obtain ⟨n, rfl⟩ := Nat.exists_eq_add_one.2 (Nat.zero_lt_of_lt hn)
    have hx' := resumes_statement hc more hts
    rw [hx] at hx'
    rw [ofTokens_failed ht hx, breaksOff_failed ht hx]
    cases he : e.isPremature with
    | true =>
      -- The tokens were all taken, and in front of the semicolon nothing is left to recover.
      obtain rfl := hb.eq_nil he
      simp only [Resumes, he, if_true] at hx'
      obtain ⟨e', hx'⟩ := hx'
      rw [List.cons_append, ofTokens_failed ht hx']
      rfl
    | false =>
      simp only [Resumes, he, Bool.false_eq_true, if_false] at hx'
      have hlen := length_le_of_taken htaken (hb.ne_nil htaken)
      have hsuffix := recover_suffix rest
      have hflat : Flat (recover rest) := by
        rw [htaken, Flat, allKinds_append] at hts
        exact fun u hu => hts.2 u (hsuffix.subset hu)
      have hrest : (recover rest).length < n := by
        have := hsuffix.length_le
        rw [List.length_cons] at hn
        omega
      rw [List.cons_append, ofTokens_failed ht hx',
        ofTokens_recover_append hc more (ih hflat n hrest), Bool.false_or, List.cons_append]

end

/-- Where the first token is one at which reading starts again, nothing is skipped. -/
theorem ofTokens_recover {us : List Token}
    (h : Ahead (fun k => k = .symbol .semicolon ∨ startsStatement k = true) us) :
    ofTokens (recover us) = ofTokens us := by
  cases us with
  | nil => rfl
  | cons u us =>
    rw [recover]
    split
    · rename_i hu
      rw [ofTokens_semicolon hu]
    · rename_i hu
      rw [if_pos ((h u rfl).resolve_left hu)]

theorem program_read_append {s : String} (hs : ∀ c ∈ s.toList, IsPlain c) (t : String) :
    (read (s ++ "\n;\n" ++ t)).program = (read s).program ++
      ofTokens (if BreaksOff s then recover (Lexer.tokens ⟨t.toList, s.utf8ByteSize + 3, []⟩)
        else Lexer.tokens ⟨t.toList, s.utf8ByteSize + 3, []⟩) := by
  have hflat : Flat (Token.lex s) := fun u hu => (Lexer.tokens_of_plain hs rfl u hu).2
  rw [program_read, program_read, Lexer.lex_append_semicolon hs]
  exact ofTokens_append_semicolon rfl _ hflat (Nat.lt_succ_self _)

/-- Behind a semicolon a program is read as if it stood alone, unless a statement is broken off
there. In that case reading recovers first, which changes nothing if the program starts with a token
at which reading starts again. -/
theorem read_after_semicolon {s t : String} {ts : Program} (hs : ∀ c ∈ s.toList, IsPlain c)
    (ht : parse t = .ok ts) :
    (¬ BreaksOff s ∨ Ahead (fun k => k = .symbol .semicolon ∨
      startsStatement k = true) (Token.lex t) →
      (read (s ++ "\n;\n" ++ t)).program = (read s).program ++ ts) ∧
    (BreaksOff s → (read (s ++ "\n;\n" ++ t)).program =
      (read s).program ++ ofTokens (recover
        (Lexer.tokens ⟨t.toList, s.utf8ByteSize + 3, []⟩))) := by
  have hk : (Lexer.tokens ⟨t.toList, s.utf8ByteSize + 3, []⟩).map (·.kind) =
      (Token.lex t).map (·.kind) := by
    rw [Token.lex, Lexer.map_kind_tokens, Lexer.map_kind_tokens, Lexer.ofString]
  rw [program_read_append hs]
  generalize Lexer.tokens ⟨t.toList, s.utf8ByteSize + 3, []⟩ = us at hk ⊢
  have hus : ofTokens us = ts :=
    congrArg Reading.program (statements_of_parse ht hk (Nat.lt_succ_self _))
  refine ⟨fun h => ?_, fun h => by rw [if_pos h]⟩
  by_cases hb : BreaksOff s
  · have hahead := (h.resolve_left (not_not_intro hb)).of_kinds hk
    rw [if_pos hb, ofTokens_recover hahead, hus]
  · rw [if_neg hb, hus]

/-- A closing bracket out of place is over at the semicolon, a sum without its second operand is
not. -/
theorem read_after_semicolon_unclosed :
    (¬ BreaksOff "x := (1 + ]" ∧ parse "y := 2" = .ok [.assign .declare (.ident "y") (.int 2)] ∧
      (read ("x := (1 + ]" ++ "\n;\n" ++ "y := 2")).program =
        [.bad ⟨.ident "x", 0, 1⟩, .assign .declare (.ident "y") (.int 2)]) ∧
    (BreaksOff "1 +" ∧ parse "x; y" = .ok [.ident "x", .ident "y"] ∧
      (read ("1 +" ++ "\n;\n" ++ "x; y")).program = [.bad ⟨.int "1", 0, 1⟩, .ident "y"]) := by
  have hclosed : breaksOff ((Token.lex "x := (1 + ]").length + 1) (Token.lex "x := (1 + ]") =
      false := by
    with_unfolding_all rfl
  have hb : ¬ BreaksOff "x := (1 + ]" := Bool.eq_false_iff.1 hclosed
  have hopen : BreaksOff "1 +" := by with_unfolding_all rfl
  have hy : parse "y := 2" = .ok [.assign .declare (.ident "y") (.int 2)] := by
    with_unfolding_all rfl
  have hxy : parse "x; y" = .ok [.ident "x", .ident "y"] := by with_unfolding_all rfl
  refine ⟨⟨hb, hy, ?_⟩, hopen, hxy, ?_⟩
  · rw [(read_after_semicolon (by simp [IsPlain]) hy).1 (.inl hb)]
    with_unfolding_all rfl
  · rw [(read_after_semicolon (by simp [IsPlain]) hxy).2 hopen]
    with_unfolding_all rfl

end YeetYoink.Program
