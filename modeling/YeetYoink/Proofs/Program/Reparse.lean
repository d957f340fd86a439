import YeetYoink.Proofs.Expr.Lexing
import YeetYoink.Proofs.Expr.Parsing
import YeetYoink.Proofs.Program.Statements

/-!
# Reading a printed program

A program whose nodes are all printable is read back from its printed form, statement by statement.
-/

namespace YeetYoink.Program

open YeetYoink.Parser

/-- The tokens of a printed program: each statement with a semicolon after it. -/
def kinds (p : Program) : List Token.Kind := p.flatMap fun e => e.kinds ++ [.symbol .semicolon]

theorem kinds_lex_print {p : Program} (h : ∀ e ∈ p, e.Throughout Expr.Legible) :
    (Token.lex p.print).map (·.kind) = kinds p := by
  rw [Token.lex, Lexer.map_kind_tokens]
  change Lexer.kinds [] p.print.toList = _
  induction p with
  | nil => simp [Program.print, kinds]
  | cons e p ih =>
    have hp : Program.print (e :: p) = e.print ++ ";\n" ++ Program.print p := by
      simp [Program.print, String.join_cons]
    rw [hp, String.toList_append, String.toList_append, List.append_assoc]
    change Lexer.kinds [] (e.print.toList ++ ';' :: '\n' :: (Program.print p).toList) = _
    rw [Expr.spells_print (h e (.head _)) _ _ (Lexer.boundary_semicolon _), Lexer.kinds_semicolon,
      Lexer.kinds_newline, ih fun x hx => h x (.tail _ hx)]
    simp [kinds]

theorem statements_kinds {p : Program} (h : ∀ e ∈ p, e.Throughout Expr.Printable) {n : Nat}
    (hn : p.length < n) {ts : List Token} (hts : ts.map (·.kind) = kinds p) :
    statements n false ts = ⟨p, []⟩ := by
  induction p generalizing n ts with
  | nil =>
    obtain rfl := List.map_eq_nil_iff.1 hts
    cases n <;> rfl
  | cons e p ih =>
    cases n with
    | zero => simp at hn
    | succ n =>
      have he := h e (.head _)
      rw [kinds, List.flatMap_cons, List.append_assoc] at hts
      obtain ⟨us, vs, rfl, hus, hvs⟩ := List.map_eq_append_iff.1 hts
      obtain ⟨semicolon, vs, rfl, hsemi, hvs⟩ := List.map_eq_cons_iff.1 hvs
      obtain ⟨k, l, hk, hs, -⟩ := Expr.opens_kinds (he.mono fun _ hp => hp.1.1)
      obtain ⟨t, us, rfl, ht, -⟩ := List.map_eq_cons_iff.1 (hus.trans hk)
      have hok : expression ((us ++ semicolon :: vs).length + 2) .lowest
        (t :: (us ++ semicolon :: vs)) =
          .ok e (semicolon :: vs) := by
        refine (Expr.continues_kinds he).reads (by decide) (t :: us)
          (semicolon :: vs) hus ?_ (by simp)
        rintro _ ⟨⟩
        rw [hsemi]
        exact Expr.ends_lowest rfl
      have hne : t.kind ≠ .symbol .semicolon := by
        rw [ht]
        rintro rfl
        simp [Expr.startsOperand] at hs
      rw [List.cons_append, statements_ok hne hok, statements_semicolon n false hsemi,
        ih (fun x hx => h x (.tail _ hx)) (by simpa using hn) hvs]

theorem length_le_kinds {p : Program} : p.length ≤ (kinds p).length := by
  induction p with
  | nil => simp
  | cons e p ih =>
    simp only [kinds, List.flatMap_cons, List.length_append, List.length_cons] at ih ⊢
    omega

theorem parse_print {p : Program} (h : ∀ e ∈ p, e.Throughout Expr.Printable) :
    parse p.print = .ok p := by
  have hk := kinds_lex_print fun e he => (h e he).mono fun _ hp => hp.1
  have hl : p.length < (Token.lex p.print).length + 1 := by
    have := congrArg List.length hk
    have := @length_le_kinds p
    simp only [List.length_map] at *
    omega
  simp only [parse, read, statements_kinds h hl hk]
  rfl

end YeetYoink.Program
