import YeetYoink.Proofs.Expr.Readable
import YeetYoink.Proofs.Program.Statements

/-!
# What a program read from a source is like

The tokens of a source that is read without an error are those of its statements, with semicolons
between them (`Program.written_of_parse`). So all nodes of the statements are such as the grammar
can write (`Program.readable_of_parse`).
-/

namespace YeetYoink.Program

open YeetYoink.Parser

/-- The tokens of the statements, with any number of semicolons before, between and after them. -/
inductive IsWritten : List Token → Program → Prop
  | nil : IsWritten [] []
  | semicolon {c : Token} {ts : List Token} {p : Program} (hc : c.kind = .symbol .semicolon)
      (h : IsWritten ts p) : IsWritten (c :: ts) p
  | cons {us ts : List Token} {e : Expr} {p : Program} (he : Written us e) (h : IsWritten ts p) :
      IsWritten (us ++ ts) (e :: p)

theorem isWritten_statements {n : Nat} {ts : List Token} (hn : ts.length < n)
    (h : (statements n false ts).errors = []) : IsWritten ts (statements n false ts).program := by
  refine statements_induct (motive := fun recovering ts r =>
    recovering = false → r.errors = [] → IsWritten ts r.program) ?nil ?semicolon ?ok ?failed hn
      false rfl h
  case nil =>
    exact fun _ _ _ => .nil
  case semicolon =>
    exact fun ht ih hr he => .semicolon ht (ih hr he)
  case ok =>
    intro recovering t ts taken rest x r _ htaken hw _ ih _ he
    rw [htaken]
    exact .cons hw (ih rfl he)
  case failed =>
    rintro recovering t ts taken rest e r _ _ _ _ _ rfl he
    simp at he

theorem written_of_parse {source : String} {p : Program} (h : parse source = .ok p) :
    IsWritten (Token.lex source) p := by
  simp only [parse] at h
  split at h
  · rename_i he
    cases h
    exact isWritten_statements (Nat.lt_succ_self _) (List.isEmpty_iff.1 he)
  · cases h

theorem IsWritten.formed {V : Token.Kind → Prop} {ts : List Token} {p : Program}
    (h : IsWritten ts p) (hv : AllKinds V ts) : ∀ e ∈ p, e.Throughout (Expr.Formed V) := by
  induction h with
  | nil => simp
  | semicolon _ _ ih => exact ih (allKinds_cons.1 hv).2
  | cons he _ ih =>
    rw [allKinds_append] at hv
    exact List.forall_mem_cons.2 ⟨he.formed hv.1, ih hv.2⟩

theorem readable_of_parse {source : String} {p : Program} (h : parse source = .ok p) :
    ∀ e ∈ p, e.Throughout Expr.Readable :=
  fun e he => ((written_of_parse h).formed (Lexer.valid_tokens _) e he).mono
    fun _ => Expr.Formed.readable

end YeetYoink.Program
