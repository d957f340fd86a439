import YeetYoink.Proofs.Parser.Grammar
import YeetYoink.Program

/-!
# Reading statement by statement

What one statement does to the reading of a program: a semicolon is skipped, an expression is read
and put in front, or a bad node stands for what could not be read and reading goes on where it
recovers. Since the parser always takes a token and its bound is never too low, these are all the
cases there are, and whatever they keep holds of the whole reading (`statements_induct`).
-/

namespace YeetYoink.Program

open YeetYoink.Parser

theorem recover_suffix (ts : List Token) : recover ts <:+ ts := by
  induction ts with
  | nil => exact List.suffix_rfl
  | cons t ts ih =>
    rw [recover]
    split
    · exact List.suffix_cons t ts
    split
    · exact List.suffix_rfl
    · exact ih.trans (List.suffix_cons t ts)

theorem statements_nil (n : Nat) (recovering : Bool) : statements n recovering [] = ⟨[], []⟩ := by
  cases n <;> rfl

/-- A semicolon before a statement does not count. -/
theorem statements_semicolon (n : Nat) (recovering : Bool) {t : Token}
    (ht : t.kind = .symbol .semicolon)
    (ts : List Token) : statements n recovering (t :: ts) = statements n recovering ts := by
  cases n with
  | zero => rfl
  | succ n => rw [statements, statements, List.dropWhile_cons_of_pos (by simpa using ht)]

section

variable {n : Nat} {recovering : Bool} {t : Token} {ts rest : List Token}

theorem statements_ok {e : Expr} (ht : t.kind ≠ .symbol .semicolon)
    (h : expression (ts.length + 2) .lowest (t :: ts) = .ok e rest) :
    statements (n + 1) recovering (t :: ts) =
      ⟨e :: (statements n false rest).program, (statements n false rest).errors⟩ := by
  rw [statements, List.dropWhile_cons_of_neg (by simpa using ht)]
  simp only [h]

theorem statements_failed {e : ParseError} (ht : t.kind ≠ .symbol .semicolon)
    (h : expression (ts.length + 2) .lowest (t :: ts) = .error (.failed e) rest) :
    statements (n + 1) recovering (t :: ts) =
      ⟨.bad t :: (statements n true (recover rest)).program,
        if recovering then (statements n true (recover rest)).errors
        else e :: (statements n true (recover rest)).errors⟩ := by
  rw [statements, List.dropWhile_cons_of_neg (by simpa using ht)]
  simp only [h]

end

theorem length_le_of_taken {t : Token} {ts taken rest : List Token} (h : t :: ts = taken ++ rest)
    (hne : taken ≠ []) : rest.length ≤ ts.length := by
  have hlen := congrArg List.length h
  have hpos := List.length_pos_iff.2 hne
  simp only [List.length_cons, List.length_append] at hlen
  omega

/-- Induction along the statements of a reading. -/
theorem statements_induct {motive : Bool → List Token → Reading → Prop}
    (nil : ∀ recovering, motive recovering [] ⟨[], []⟩)
    (semicolon : ∀ {recovering t ts r}, t.kind = .symbol .semicolon → motive recovering ts r →
      motive recovering (t :: ts) r)
    (ok : ∀ {recovering t ts taken rest x r}, t.kind ≠ .symbol .semicolon →
      t :: ts = taken ++ rest →
      Written taken x → expression (ts.length + 2) .lowest (t :: ts) = .ok x rest →
      motive false rest r →
      motive recovering (t :: ts) ⟨x :: r.program, r.errors⟩)
    (failed : ∀ {recovering t ts taken rest e r}, t.kind ≠ .symbol .semicolon →
      t :: ts = taken ++ rest →
      Blames e taken rest → expression (ts.length + 2) .lowest (t :: ts) = .error (.failed e) rest →
      motive true (recover rest) r →
      motive recovering (t :: ts) ⟨.bad t :: r.program,
        if recovering then r.errors else e :: r.errors⟩)
    {n : Nat} {ts : List Token} (hn : ts.length < n) (recovering : Bool) :
    motive recovering ts (statements n recovering ts) := by
  generalize hl : ts.length = l
  induction l using Nat.strongRecOn generalizing n ts recovering with
  | ind l ih =>
    cases ts with
    | nil =>
      rw [statements_nil]
      exact nil recovering
    | cons t ts =>
      rw [List.length_cons] at hn hl
      by_cases ht : t.kind = .symbol .semicolon
      · rw [statements_semicolon n recovering ht]
        exact semicolon ht (ih ts.length (by omega) (by omega) recovering rfl)
      · obtain ⟨n, rfl⟩ := Nat.exists_eq_add_one.2 (Nat.zero_lt_of_lt hn)
        have ho := meets_expression (ts.length + 2) .lowest (t :: ts) (by simp)
        match hx : expression (ts.length + 2) .lowest (t :: ts), ho with
        | .ok x rest, ⟨taken, htaken, hw⟩ =>
          have hlen := length_le_of_taken htaken hw.ne_nil
          rw [statements_ok ht hx]
          exact ok ht htaken hw hx (ih rest.length (by omega) (by omega) false rfl)
        | .error (.failed e) rest, ⟨taken, htaken, hb⟩ =>
          have hlen := length_le_of_taken htaken (hb.ne_nil htaken)
          have hrest := (recover_suffix rest).length_le
          rw [statements_failed ht hx]
          exact failed ht htaken hb hx (ih (recover rest).length (by omega) (by omega) true rfl)

/-- Any bound above the number of tokens gives the same reading. -/
theorem statements_congr {n m : Nat} {recovering : Bool} {ts : List Token} (hn : ts.length < n)
    (hm : ts.length < m) : statements n recovering ts = statements m recovering ts := by
  refine statements_induct (motive := fun recovering ts r =>
    ∀ m, ts.length < m → r = statements m recovering ts)
    (fun _ _ _ => (statements_nil _ _).symm) ?semicolon ?ok ?failed hn recovering m hm
  case semicolon =>
    intro recovering t ts r ht ih m hm
    rw [statements_semicolon m recovering ht]
    exact ih m (Nat.lt_of_succ_lt hm)
  case ok =>
    intro recovering t ts taken rest x r ht htaken hw hx ih m hm
    obtain ⟨m, rfl⟩ := Nat.exists_eq_add_one.2 (Nat.zero_lt_of_lt hm)
    have hlen := length_le_of_taken htaken hw.ne_nil
    rw [List.length_cons] at hm
    rw [statements_ok ht hx, ← ih m (by omega)]
  case failed =>
    intro recovering t ts taken rest e r ht htaken hb hx ih m hm
    obtain ⟨m, rfl⟩ := Nat.exists_eq_add_one.2 (Nat.zero_lt_of_lt hm)
    have hlen := length_le_of_taken htaken (hb.ne_nil htaken)
    have hrest := (recover_suffix rest).length_le
    rw [List.length_cons] at hm
    rw [statements_failed ht hx, ← ih m (by omega)]

/-- Whether errors are told does not matter to the program. -/
theorem program_statements (n : Nat) (recovering recovering' : Bool) (ts : List Token) :
    (statements n recovering ts).program = (statements n recovering' ts).program := by
  cases n with
  | zero => rfl
  | succ n =>
    rw [statements, statements]
    split
    · rfl
    · split <;> rfl

end YeetYoink.Program
