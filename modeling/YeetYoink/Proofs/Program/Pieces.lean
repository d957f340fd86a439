import YeetYoink.Proofs.Expr.Balanced
import YeetYoink.Proofs.Parser.Extends
import YeetYoink.Proofs.Program.Reading
import YeetYoink.Proofs.Program.Reparse

/-!
# Programs in pieces

Two sources that are read without errors are read one after the other when a semicolon on a line of
its own stands between them (`Program.parse_append`). The first one closes all its holes, so the
lexer starts anew after it, and its last statement ends at the semicolon as it did at the end.
-/

namespace YeetYoink.Program

open YeetYoink.Parser

theorem IsWritten.balanced {ts : List Token} {p : Program} (h : IsWritten ts p) : Balanced ts := by
  induction h with
  | nil => exact .nil
  | semicolon hc _ ih => exact ih.cons (by rw [hc]; rfl)
  | cons he _ ih => exact he.balanced.append ih

theorem parse_eq_ok_iff {source : String} {p : Program} :
    parse source = .ok p ↔ read source = ⟨p, []⟩ := by
  unfold parse
  obtain ⟨q, errors⟩ := read source
  cases errors with
  | nil => simp
  | cons e errors => simp

theorem kinds_lex_append {source : String} {p : Program} (h : parse source = .ok p)
    (more : String) :
    (Token.lex (source ++ "\n;\n" ++ more)).map (·.kind) =
      (Token.lex source).map (·.kind) ++ .symbol .semicolon :: (Token.lex more).map (·.kind) := by
  have hb := (written_of_parse h).balanced []
  have hk : ∀ s : String, (Token.lex s).map (·.kind) = Lexer.kinds [] s.toList :=
    fun s => Lexer.map_kind_tokens _
  have hended : ∀ k ∈ Lexer.kinds [] source.toList, k ≠ Lexer.unterminated := by
    rw [← hk]
    exact List.forall_mem_map.2 fun t ht => (hb.legal t ht).ne_unterminated
  have hclosed : (Lexer.kinds [] source.toList).foldl Lexer.advance [] = [] := by
    rw [← hk]
    exact hb.holes
  have htext : (source ++ "\n;\n" ++ more).toList =
      source.toList ++ '\n' :: ';' :: '\n' :: more.toList := by
    simp
  rw [hk, hk, hk, htext, Lexer.kinds_append_newline _ _ _ hended, hclosed, Lexer.kinds_semicolon,
    Lexer.kinds_newline]

/-- Statements that were read without an error are read again from tokens of the same kinds, and
reading goes on with what is behind them. -/
theorem statements_append {n m : Nat} {ts us more : List Token} (hn : ts.length < n)
    (h : (statements n false ts).errors = []) (hm : Ahead (· = .symbol .semicolon) more)
    (hk : us.map (·.kind) = ts.map (·.kind)) (hl : (us ++ more).length < m) :
    statements m false (us ++ more) =
      ⟨(statements n false ts).program ++ (statements m false more).program,
      (statements m false more).errors⟩ := by
  refine statements_induct (motive := fun recovering ts r => recovering = false → r.errors = [] →
    ∀ us m, us.map (·.kind) = ts.map (·.kind) → (us ++ more).length < m →
      statements m false (us ++ more) =
        ⟨r.program ++ (statements m false more).program, (statements m false more).errors⟩)
    ?nil ?semicolon ?ok ?failed hn false rfl h us m hk hl
  case nil =>
    intro _ _ _ us m hk _
    obtain rfl := List.map_eq_nil_iff.1 hk
    rfl
  case semicolon =>
    intro recovering t ts r ht ih hr he us m hk hl
    obtain ⟨u, us, rfl, hu, hus⟩ := List.map_eq_cons_iff.1 hk
    rw [List.cons_append, statements_semicolon m false (hu.trans ht)]
    exact ih hr he us m hus (Nat.lt_of_succ_lt hl)
  case ok =>
    intro recovering t ts taken rest x r ht htaken hw hx ih _ he us m hk hl
    obtain ⟨u, us, rfl, hu, hus⟩ := List.map_eq_cons_iff.1 hk
    obtain ⟨m, rfl⟩ := Nat.exists_eq_add_one.2 (Nat.zero_lt_of_lt hl)
    have hlen : us.length = ts.length := by simpa using congrArg List.length hus
    obtain ⟨vs, hvs, hx'⟩ := extends_expression (m := (us ++ more).length + 2)
      (by simp; omega) .lowest
      (t :: ts) (u :: us) more hk hm x rest hx
    have hvlen : vs.length = rest.length := by simpa using congrArg List.length hvs
    have hrest := length_le_of_taken htaken hw.ne_nil
    simp only [List.length_append, List.length_cons] at hl
    have hvl : (vs ++ more).length < m := by
      rw [List.length_append]
      omega
    have hmore : statements m false more = statements (m + 1) false more :=
      statements_congr (by omega) (by omega)
    rw [List.cons_append, statements_ok (by rwa [hu]) hx', ih rfl he vs m hvs hvl, hmore]
    rfl
  case failed =>
    rintro recovering t ts taken rest e r _ _ _ _ _ rfl he
    simp at he

/-- A program without errors is read again from tokens of the same kinds. -/
theorem statements_of_parse {source : String} {p : Program} (h : parse source = .ok p) {m : Nat}
    {us : List Token}
    (hk : us.map (·.kind) = (Token.lex source).map (·.kind)) (hm : us.length < m) :
    statements m false us = ⟨p, []⟩ := by
  have hread : statements ((Token.lex source).length + 1) false (Token.lex source) = ⟨p, []⟩ :=
    parse_eq_ok_iff.1 h
  have hend : Ahead (· = .symbol .semicolon) ([] : List Token) := by simp [Ahead]
  have hus := statements_append (m := m) (Nat.lt_succ_self _) (by rw [hread]) hend hk
    (by simpa using hm)
  rwa [List.append_nil, statements_nil, List.append_nil, hread] at hus

theorem parse_append {source more : String} {p q : Program} (hp : parse source = .ok p)
    (hq : parse more = .ok q) : parse (source ++ "\n;\n" ++ more) = .ok (p ++ q) := by
  have hk := kinds_lex_append hp more
  obtain ⟨us, vs, hts, hus, hvs⟩ := List.map_eq_append_iff.1 hk
  obtain ⟨c, vs, rfl, hc, hvs⟩ := List.map_eq_cons_iff.1 hvs
  have hsemi : Ahead (· = .symbol .semicolon) (c :: vs) := by
    rintro _ ⟨⟩
    exact hc
  have hq' := statements_of_parse hq (m := (us ++ c :: vs).length + 1) hvs (by simp; omega)
  rw [parse_eq_ok_iff, read] at hp ⊢
  have hs := statements_append (Nat.lt_succ_self _) (by rw [hp]) hsemi hus (Nat.lt_succ_self _)
  rw [hts, hs, statements_semicolon _ false hc, hq', hp]

end YeetYoink.Program
