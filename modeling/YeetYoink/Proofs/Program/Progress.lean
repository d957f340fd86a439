import YeetYoink.Proofs.Parser.Advances
import YeetYoink.Proofs.Program.Statements

/-!
# Reading always makes progress

The parser's routines never give tokens back, and a bound above the number of tokens is never too
low for them: they come to the end that they would have without a bound (`Routine`, `Concludes`). An
expression takes a token whether it can be read or not, so a program is read to its end, statement
by statement (`Completes`), and has no more statements than tokens (`read_progresses`).
-/

namespace YeetYoink

namespace Parser

/-- The routines of the parser, given a bound on the nesting of expressions and one on repetitions.
-/
inductive Routine : {α : Type} → (Nat → Nat → Parser α) → Prop
  | peek : Routine fun _ _ => peek?
  | next : Routine fun _ _ => next?
  | nextIs (k : Token.Kind) : Routine fun _ _ => nextIs k
  | accept (k : Token.Kind) : Routine fun _ _ => accept k
  | expect (k : Token.Kind) : Routine fun _ _ => expect k
  | ident : Routine fun _ _ => ident
  | skipSemicolons : Routine fun _ _ => skipSemicolons
  | expressions (close : Symbol) : Routine fun m n => sequence (expression m .lowest) close n
  | dictPairs (close : Symbol) : Routine fun m n => sequence (dictPair (expression m)) close n
  | block : Routine fun m n => block (expression m .lowest) n
  | bracedBlock : Routine fun m n => bracedBlock (expression m .lowest) n
  | names (close : Symbol) (first : Bool) : Routine fun _ n => names close n first
  | templateRest : Routine fun m n => templateRest (expression m) n
  | template (head : String) : Routine fun m n => template (expression m) n head
  | dictPair : Routine fun m _ => dictPair (expression m)
  | paramsAndBody : Routine fun m n => paramsAndBody (expression m) n
  | conditional : Routine fun m n => conditional (expression m) n
  | loop : Routine fun m n => loop (expression m) n
  | iteration : Routine fun m n => iteration (expression m) n
  | yeet : Routine fun m _ => yeet (expression m)
  | operand (t : Token) : Routine fun m n => operand (expression m) n t
  | assignment (t : Token) (s : Symbol) (x : Expr) : Routine fun m _ =>
    assignment (expression m) t s x
  | operation (t : Token) (s : Symbol) (x : Expr) : Routine fun m n =>
    operation (expression m) n t s x
  | operations (level : Level) (x : Expr) : Routine fun m n => operations (expression m) level n x
  | expression (level : Level) : Routine fun m _ => expression m level

/-- From any tokens, all bounds above their number lead to one end, which is not that a bound was
too low. -/
def Concludes {α : Type} (p : Nat → Nat → Parser α) : Prop :=
  ∀ ts : List Token, ∃ r, Ended r ∧ ∀ m n, ts.length < m → ts.length < n → p m n ts = r

section

variable {α : Type} {p : Nat → Nat → Parser α}

theorem Routine.advances (h : Routine p) {k m n m' n' : Nat} (hkm : k ≤ m) (hm : m ≤ m')
    (hkn : k ≤ n) (hn : n ≤ n') : Advances 0 k (p m n) (p m' n') := by
  have hi : ∀ level, Advances 1 k (Parser.expression m level) (Parser.expression m' level) :=
    advances_expression hkm hm
  cases h with
  | peek => exact .drops (fun _ => rfl) fun _ => List.suffix_rfl
  | next => exact .drops (fun _ => rfl) List.tail_suffix
  | nextIs k => exact .nextIs k
  | accept k => exact .accept k
  | expect k => exact (Advances.expect k).uncounted
  | ident => exact Advances.ident.uncounted
  | skipSemicolons => exact .skipSemicolons
  | expressions close => exact advances_sequence (advances_inner hi _) close hkn hn
  | dictPairs close => exact advances_sequence (advances_dictPair hi) close hkn hn
  | block => exact advances_block (hi _) hkn hn
  | bracedBlock => exact advances_bracedBlock (hi _) hkn hn
  | names close first => exact advances_names close first hkn hn
  | templateRest => exact advances_templateRest hi hkn hn
  | template head => exact (advances_templateRest hi hkn hn).map _
  | dictPair => exact advances_dictPair hi
  | paramsAndBody => exact advances_paramsAndBody hi hkn hn
  | conditional => exact advances_conditional hi hkn hn
  | loop => exact advances_loop hi hkn hn
  | iteration => exact advances_iteration hi hkn hn
  | yeet => exact advances_yeet hi
  | operand t => exact advances_operand hi t hkn hn
  | assignment t s x => exact advances_assignment hi t s x
  | operation t s x => exact advances_operation hi t s x hkn hn
  | operations level x => exact advances_operations hi level x hkn hn
  | expression level => exact advances_inner hi level

theorem Routine.left_suffix (h : Routine p) (m n : Nat) (ts : List Token) :
    left (p m n ts) <:+ ts :=
  (h.advances (Nat.zero_le m) m.le_refl (Nat.zero_le n) n.le_refl ts).suffix

theorem Routine.concludes (h : Routine p) : Concludes p := by
  intro ts
  have hlt := Nat.lt_succ_self ts.length
  refine ⟨p (ts.length + 1) (ts.length + 1) ts, ?_, fun m n hm hn => ?_⟩
  · exact (h.advances (Nat.le_refl _) (Nat.le_refl _) (Nat.le_refl _) (Nat.le_refl _) ts).ends hlt
  · have hran := h.advances (Nat.le_refl _) hm (Nat.le_refl _) hn ts
    exact hran.agrees (hran.ends hlt)

end

/-- An expression takes the next token, whatever comes of it. -/
theorem left_expression_suffix (n : Nat) (level : Level) (t : Token) (ts : List Token) :
    left (expression (n + 1) level (t :: ts)) <:+ ts := by
  -- The bound may be too low here, so nothing is asked of it: the runs are compared with
  -- themselves.
  have hi : ∀ level, Advances 1 0 (expression n level) (expression n level) :=
    advances_expression n.zero_le n.le_refl
  have hrest : Advances 0 0 (operand (expression n) n t >>= operations (expression n) level n)
      (operand (expression n) n t >>= operations (expression n) level n) :=
    (advances_operand hi t n.zero_le n.le_refl).andThen fun x =>
      advances_operations hi level x n.zero_le n.le_refl
  exact (hrest ts).suffix

end Parser

namespace Program

open YeetYoink.Parser

/-- Reading the statements to their end, without a bound: a semicolon is skipped, an expression is
read, or a bad node stands for what could not be read and reading goes on where it recovers. -/
inductive Completes : Bool → List Token → Reading → Prop
  | nil {recovering : Bool} : Completes recovering [] ⟨[], []⟩
  | semicolon {recovering : Bool} {t : Token} {ts : List Token} {r : Reading}
      (ht : t.kind = .symbol .semicolon)
      (h : Completes recovering ts r) : Completes recovering (t :: ts) r
  | ok {recovering : Bool} {t : Token} {ts rest : List Token} {x : Expr} {r : Reading}
      (ht : t.kind ≠ .symbol .semicolon)
      (hx : ∀ n, (t :: ts).length < n → expression n .lowest (t :: ts) = .ok x rest)
      (h : Completes false rest r) : Completes recovering (t :: ts) ⟨x :: r.program, r.errors⟩
  | failed {recovering : Bool} {t : Token} {ts rest : List Token} {e : ParseError} {r : Reading}
      (ht : t.kind ≠ .symbol .semicolon)
      (hx : ∀ n, (t :: ts).length < n → expression n .lowest (t :: ts) = .error (.failed e) rest)
      (h : Completes true (recover rest) r) :
      Completes recovering (t :: ts) ⟨.bad t :: r.program,
        if recovering then r.errors else e :: r.errors⟩

/-- An end that was reached with the least bound is reached with every higher one. -/
theorem expression_eq_of_ended {t : Token} {ts : List Token}
    {r : EStateM.Result Stop (List Token) Expr}
    (h : expression (ts.length + 2) .lowest (t :: ts) = r) (hr : Ended r) {n : Nat}
    (hn : (t :: ts).length < n) :
    expression n .lowest (t :: ts) = r := by
  subst h
  exact (advances_expression (Nat.le_refl _) hn .lowest (t :: ts)).agrees hr

theorem completes_statements {n : Nat} {ts : List Token} (hn : ts.length < n) (recovering : Bool) :
    Completes recovering ts (statements n recovering ts) := by
  refine statements_induct (motive := Completes)
    (fun _ => .nil) .semicolon ?ok ?failed hn recovering
  case ok =>
    intro recovering t ts taken rest x r ht _ _ hx ih
    exact .ok ht (fun n hn => expression_eq_of_ended hx trivial hn) ih
  case failed =>
    intro recovering t ts taken rest e r ht _ _ hx ih
    exact .failed ht (fun n hn => expression_eq_of_ended hx trivial hn) ih

/-- What is left of an expression lies behind the token that it started with. -/
theorem left_suffix_of_eq {t : Token} {ts : List Token} {r : EStateM.Result Stop (List Token) Expr}
    (h : ∀ n, (t :: ts).length < n → expression n .lowest (t :: ts) = r) : left r <:+ ts := by
  rw [← h _ (Nat.lt_succ_self _)]
  exact left_expression_suffix (t :: ts).length .lowest t ts

/-- Every statement has taken a token of its own. -/
theorem Completes.length_program_le {recovering : Bool} {ts : List Token} {r : Reading}
    (h : Completes recovering ts r) : r.program.length ≤ ts.length := by
  induction h with
  | nil => exact Nat.le_refl 0
  | semicolon _ _ ih => exact Nat.le_succ_of_le ih
  | ok _ hx _ ih =>
    have hrest := left_suffix_of_eq hx
    exact Nat.succ_le_succ (Nat.le_trans ih hrest.length_le)
  | failed _ hx _ ih =>
    have hrest := (recover_suffix _).trans (left_suffix_of_eq hx)
    exact Nat.succ_le_succ (Nat.le_trans ih hrest.length_le)

/-- No routine of the parser gives tokens back, and none goes on for ever; an expression takes at
least one token, read or not. So every source is read to its end and has no more statements than
tokens. -/
theorem read_progresses :
    (∀ {α : Type} {p : Nat → Nat → Parser α}, Routine p →
      (∀ m n ts, left (p m n ts) <:+ ts) ∧ Concludes p) ∧
    (∀ n level t ts, left (expression (n + 1) level (t :: ts)) <:+ ts) ∧
    (∀ ts, recover ts <:+ ts) ∧
    (∀ n recovering ts, ts.length < n → Completes recovering ts (statements n recovering ts) ∧
      (statements n recovering ts).program.length ≤ ts.length) ∧
    ∀ source, Completes false (Token.lex source) (read source) ∧
      (read source).program.length ≤ (Token.lex source).length := by
  have hstatements : ∀ n recovering ts, ts.length < n →
    Completes recovering ts (statements n recovering ts) ∧
      (statements n recovering ts).program.length ≤ ts.length := fun n recovering ts hn =>
    have h := completes_statements hn recovering
    ⟨h, h.length_program_le⟩
  refine ⟨fun h => ⟨h.left_suffix, h.concludes⟩, left_expression_suffix, recover_suffix,
    hstatements, fun source => ?_⟩
  exact hstatements _ false _ (Nat.lt_succ_self _)

theorem read_progresses_unclosed :
    Completes false [⟨.keyword .yif, 0, 3⟩, ⟨.symbol .lparen, 4, 5⟩]
      (statements 3 false [⟨.keyword .yif, 0, 3⟩, ⟨.symbol .lparen, 4, 5⟩]) ∧
    Concludes fun m n => conditional (expression m) n :=
  ⟨(read_progresses.2.2.2.1 3 false _ (by decide)).1, (read_progresses.1 .conditional).2⟩

end Program

end YeetYoink
