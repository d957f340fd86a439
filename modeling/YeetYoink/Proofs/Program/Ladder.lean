import YeetYoink.Proofs.Expr.Terse
import YeetYoink.Proofs.Program.Statements

/-!
# The ladder of levels

The parser follows the ladder: an expression of operators that is written with the fewest
parentheses is read as that expression (`parse_terse`), whichever operators stand inside each other
and on which side.
-/

namespace YeetYoink.Program

open YeetYoink.Parser

theorem parse_terse {e : Expr} (h : e.Throughout Expr.Operative) : parse e.terse = .ok [e] := by
  have hk : (Token.lex e.terse).map (·.kind) = e.terseKinds := by
    have hs := Expr.spells_terse h [] [] trivial
    rw [Token.lex, Lexer.map_kind_tokens]
    simpa [Lexer.ofString] using hs
  obtain ⟨k, ks, hks, -, hne⟩ := Expr.opens_terseKinds h
  obtain ⟨t, ts, hts, ht, -⟩ := List.map_eq_cons_iff.1 (hk.trans hks)
  rw [hts] at hk
  have hok : expression (ts.length + 2) .lowest (t :: ts) = .ok e [] := by
    have hr := (Expr.parsed_terse h).reads (ts.length + 2) (t :: ts) [] hk nofun (by simp)
    simpa using hr
  have hread : statements ((t :: ts).length + 1) false (t :: ts) = ⟨[e], []⟩ := by
    rw [statements_ok (ht ▸ hne) hok, statements_nil]
  rw [parse, read, hts, hread]
  rfl

/-- Every rung of the ladder, with assignments as operands, as an argument and as a value. -/
theorem parse_terse_rungs :
    parse
      "f[a] = b := !(a = 1)(b, f = a) * -2 - (a - b)..f << (a < 3) == (a && b) || b % f(a)[b] < f" =
      .ok [.assign .update (.index (.ident "f") (.ident "a")) (.assign .declare (.ident "b")
        (.or
          (.binary .equal
            (.binary .push
              (.range
                (.binary .minus
                  (.binary .times
                    (.unary .bang (.call (.assign .update (.ident "a") (.int 1))
                      [.ident "b", .assign .update (.ident "f") (.ident "a")]))
                    (.unary .minus (.int 2)))
                  (.binary .minus (.ident "a") (.ident "b")))
                (.ident "f"))
              (.binary .less (.ident "a") (.int 3)))
            (.and (.ident "a") (.ident "b")))
          (.binary .less
            (.binary .modulo (.ident "b") (.index (.call (.ident "f") [.ident "a"]) (.ident "b")))
            (.ident "f"))))] := by
  have ha : IsName "a" := ⟨⟨'a', [], rfl, by decide, nofun⟩, by decide⟩
  have hb : IsName "b" := ⟨⟨'b', [], rfl, by decide, nofun⟩, by decide⟩
  have hf : IsName "f" := ⟨⟨'f', [], rfl, by decide, nofun⟩, by decide⟩
  refine Eq.trans (congrArg parse ?text) (parse_terse ?operative)
  case operative =>
    simp [Expr.Throughout, Expr.nodes, Expr.nodesAll, Expr.Operative, Expr.IsTarget, ha, hb, hf]
  case text => with_unfolding_all rfl

end YeetYoink.Program
