import YeetYoink.Proofs.Expr.Readable
import YeetYoink.Proofs.Parser.Meets
import YeetYoink.Proofs.Token.Openers

/-!
# Parsers broken off by a semicolon

`Breaks p q` compares `p` on tokens without openers with `q` on the same tokens with a semicolon and
more behind them. Where `p` has a result or fails at a token, `q` does the same. Where `p` fails at
the end of its tokens, `q` takes the semicolon and fails at it. A parser for expressions is broken
off in this way, and so are those with a higher bound (`breaks_expression`): outside of braces and
templates no construct goes on behind a semicolon.
-/

namespace YeetYoink

/-- The tokens ended too early. -/
def ParseError.isPremature : ParseError → Bool
  | .prematureEnd _ => true
  | _ => false

namespace Parser

variable {α β : Type}

/-- Behind tokens that ended too early there are no others. -/
theorem Blames.eq_nil {e : ParseError} {taken rest : List Token} (h : Blames e taken rest)
    (he : e.isPremature = true) : rest = [] := by
  obtain ⟨-, hrest⟩ | ⟨t, -, ho⟩ := h
  · exact hrest
  · cases e with
    | prematureEnd x => exact absurd (ho (t.start + 1)) (Nat.succ_ne_self _)
    | _ => cases he

/-- Tokens without openers. -/
abbrev Flat (ts : List Token) : Prop := AllKinds (·.isOpener = false) ts

/-- The second result, with a semicolon and more behind the tokens, given the first. Nothing is said
if a bound was too low. -/
def Resumes (semicolon : Token) (more : List Token)
    (r r' : EStateM.Result Stop (List Token) α) : Prop :=
  match r with
  | .ok a rest => Flat rest ∧ r' = .ok a (rest ++ semicolon :: more)
  | .error (.failed e) rest =>
    if e.isPremature then ∃ e', r' = .error (.failed e') more
    else r' = .error (.failed e) (rest ++ semicolon :: more)
  | .error .exhausted _ => True

def Breaks (p q : Parser α) : Prop :=
  ∀ (ts : List Token) (semicolon : Token) (more : List Token), Flat ts →
    semicolon.kind = .symbol .semicolon →
    Resumes semicolon more (p ts) (q (ts ++ semicolon :: more))

/-- The parser fails at a semicolon, and takes it. -/
def Refuses (p : Parser α) : Prop :=
  ∀ (semicolon : Token) (more : List Token), semicolon.kind = .symbol .semicolon →
    ∃ e, p (semicolon :: more) = .error (.failed e) more

theorem Refuses.bind {p : Parser α} (h : Refuses p) (f : α → Parser β) : Refuses (p >>= f) := by
  intro c more hc
  obtain ⟨e, he⟩ := h c more hc
  refine ⟨e, ?_⟩
  change EStateM.bind p f _ = _
  rw [EStateM.bind, he]

namespace Breaks

variable {p q : Parser α} {f g : α → Parser β}

theorem pure (a : α) : Breaks (Pure.pure a) (Pure.pure a) := fun _ _ _ hts _ => ⟨hts, rfl⟩

theorem exhausted : Breaks exhausted q := fun _ _ _ _ _ => trivial

theorem fail {e : ParseError} (he : e.isPremature = false) :
    Breaks (Parser.fail e) (Parser.fail e : Parser α) := by
  intro ts c more _ _
  change if e.isPremature then _ else _
  rw [he]
  rfl

theorem bind (h : Breaks p q) (hf : ∀ a, Breaks (f a) (g a)) : Breaks (p >>= f) (q >>= g) := by
  intro ts c more hts hc
  have hp := h ts c more hts hc
  change Resumes c more (EStateM.bind p f ts) (EStateM.bind q g _)
  rw [EStateM.bind, EStateM.bind]
  match p ts, hp with
  | .ok a rest, ⟨hrest, hq⟩ =>
    rw [hq]
    exact hf a rest c more hrest hc
  | .error (.failed e) rest, hq =>
    by_cases he : e.isPremature
    · simp only [Resumes, if_pos he] at hq ⊢
      obtain ⟨e', hq⟩ := hq
      rw [hq]
      exact ⟨e', rfl⟩
    · simp only [Resumes, if_neg he] at hq ⊢
      rw [hq]
  | .error .exhausted rest, _ => trivial

/-- A parser whose result is only wrapped. -/
theorem map (h : Breaks p q) (f : α → β) :
    Breaks (p >>= fun a => Pure.pure (f a)) (q >>= fun a => Pure.pure (f a)) :=
  h.bind fun a => pure (f a)

/-- Looking at the next token, which is the semicolon where the one side is at its end. -/
theorem peek {f g : Option Token → Parser β}
    (h : ∀ (t : Token) (ts : List Token) (semicolon : Token) (more : List Token), t.kind.isOpener =
      false → Flat ts →
      semicolon.kind = .symbol .semicolon →
      Resumes semicolon more (f (some t) (t :: ts)) (g (some t) (t :: ts ++ semicolon :: more)))
    (hend : ∀ (semicolon : Token) (more : List Token), semicolon.kind = .symbol .semicolon →
      Resumes semicolon more (f none []) (g (some semicolon) (semicolon :: more))) :
    Breaks (peek? >>= f) (peek? >>= g) := by
  intro ts c more hts hc
  cases ts with
  | nil => exact hend c more hc
  | cons t ts =>
    rw [Flat, allKinds_cons] at hts
    exact h t ts c more hts.1 hts.2 hc

/-- Where the one side needs a token, the other takes the semicolon and fails. -/
theorem next {f g : Option Token → Parser β}
    (h : ∀ t, t.kind.isOpener = false → Breaks (f (some t)) (g (some t)))
    {x : Expected} (hnone : f none = Parser.fail (.prematureEnd x))
    (hend : ∀ (semicolon : Token) (more : List Token), semicolon.kind = .symbol .semicolon →
      ∃ e, g (some semicolon) more = .error (.failed e) more) :
    Breaks (next? >>= f) (next? >>= g) := by
  intro ts c more hts hc
  cases ts with
  | nil =>
    change Resumes c more (f none []) (g (some c) more)
    rw [hnone]
    exact hend c more hc
  | cons t ts =>
    rw [Flat, allKinds_cons] at hts
    exact h t hts.1 ts c more hts.2 hc

theorem unexpected (x : Expected) (t : Token) :
    Breaks (Parser.unexpected x (some t)) (Parser.unexpected x (some t) : Parser α) := fail rfl

theorem expect {k : Token.Kind} (hk : k ≠ .symbol .semicolon) :
    Breaks (Parser.expect k) (Parser.expect k) := by
  refine next (fun t _ => ?_) rfl fun c more hc => ?_
  · simp only [Option.any_some]
    split
    · exact pure ()
    · exact unexpected _ t
  · rw [Option.any_some, hc, decide_eq_false hk.symm]
    exact ⟨_, rfl⟩

theorem ident : Breaks Parser.ident Parser.ident := by
  refine next (fun t _ => ?_) rfl fun c more hc => ?_
  · obtain ⟨k, i, j⟩ := t
    cases k with
    | ident name => exact pure name
    | _ => exact unexpected _ _
  · obtain ⟨k, i, j⟩ := c
    obtain rfl : k = .symbol .semicolon := hc
    exact ⟨_, rfl⟩

/-- A parser that goes on at a token that was only looked at. -/
theorem stay (h : Breaks p q) {t c : Token} {ts more : List Token} (ht : t.kind.isOpener = false)
    (hts : Flat ts)
    (hc : c.kind = .symbol .semicolon) : Resumes c more (p (t :: ts)) (q (t :: ts ++ c :: more)) :=
  h (t :: ts) c more (allKinds_cons.2 ⟨ht, hts⟩) hc

theorem nextIs {k : Token.Kind} (hk : k ≠ .symbol .semicolon) :
    Breaks (Parser.nextIs k) (Parser.nextIs k) := by
  refine peek (fun t ts c more ht hts hc => (pure _).stay ht hts hc) fun c more hc => ?_
  rw [Option.any_some, hc, decide_eq_false hk.symm]
  exact ⟨allKinds_nil, rfl⟩

/-- The next token is taken if it is of a kind. -/
theorem takeIf {g g' h h' : Parser β} {k : Token.Kind} (hk : k ≠ .symbol .semicolon)
    (hg : Breaks g g') (hh : Breaks h h') :
    Breaks (Parser.nextIs k >>= fun c => if c then next? >>= fun _ => g else h)
      (Parser.nextIs k >>= fun c => if c then next? >>= fun _ => g' else h') := by
  simp only [Parser.nextIs, bind_assoc, pure_bind]
  refine peek (fun t ts c more ht hts hc => ?_) fun c more hc => ?_
  · simp only [Option.any_some]
    split
    · exact hg ts c more hts hc
    · exact hh.stay ht hts hc
  · simpa [hc, hk.symm] using hh [] c more allKinds_nil hc

theorem accept {k : Token.Kind} (hk : k ≠ .symbol .semicolon) :
    Breaks (Parser.accept k) (Parser.accept k) :=
  takeIf hk (pure true) (pure false)

/-- Without an opening brace there is no body, and nothing comes after it. -/
theorem body {n m : Nat} {f g : List α → Parser β} :
    Breaks (bracedBlock p n >>= f) (bracedBlock q m >>= g) := by
  simp only [bracedBlock, Parser.expect, bind_assoc]
  refine next (fun t ht => ?_) rfl fun c more hc => ?_
  · have hk : t.kind ≠ .symbol .lbrace := by
      intro h
      rw [h] at ht
      cases ht
    simp only [Option.any_some, decide_eq_false hk]
    exact unexpected _ t
  · rw [Option.any_some, hc]
    exact ⟨_, rfl⟩

end Breaks

/-! ### Repetitions -/

section Repetitions

variable {n m : Nat}

/-- An element is needed up to the closing symbol, and at a semicolon it is refused. -/
theorem breaks_sequence {p q : Parser α} (h : Breaks p q) (hq : Refuses q) {close : Symbol}
    (hclose : close ≠ .semicolon) (hn : n ≤ m) :
    Breaks (sequence p close n) (sequence q close m) := by
  induction n generalizing m with
  | zero => exact .exhausted
  | succ n ih =>
    obtain ⟨m, rfl⟩ := Nat.exists_eq_add_one.2 (Nat.zero_lt_of_lt hn)
    have hne : Token.Kind.symbol .semicolon ≠ .symbol close := by simpa using hclose.symm
    rw [sequence, sequence]
    refine .peek (fun t ts c more ht hts hc => ?_) fun c more hc => ?_
    · simp only
      split
      · exact Breaks.pure [] ts c more hts hc
      · refine Breaks.stay (h.bind fun x => ?_) ht hts hc
        refine .next (fun t _ => ?_) rfl fun c more hc => ?_
        · simp only [Option.any_some]
          split
          · exact (ih (by omega)).map (x :: ·)
          · split
            · exact .pure [x]
            · exact .unexpected _ t
        · simp only [Option.any_some, hc, decide_eq_false hne]
          exact ⟨_, rfl⟩
    · have hk : c.kind ≠ .symbol close := hc ▸ hne
      simp only [if_neg hk]
      exact hq.bind _ c more hc

theorem breaks_names {close : Symbol} (hc : close ≠ .semicolon) (first : Bool) (hn : n ≤ m) :
    Breaks (names close n first) (names close m first) := by
  induction n generalizing m first with
  | zero => exact .exhausted
  | succ n ih =>
    obtain ⟨m, rfl⟩ := Nat.exists_eq_add_one.2 (Nat.zero_lt_of_lt hn)
    have hname : Breaks (do let x ← ident; let xs ← names close n false; return x :: xs)
        (do let x ← ident; let xs ← names close m false; return x :: xs) :=
      Breaks.ident.bind fun x => (ih false (by omega)).map (x :: ·)
    rw [names, names]
    refine (Breaks.nextIs (by simpa using hc)).bind fun b => ?_
    cases b with
    | true => exact .pure []
    | false =>
      cases first with
      | true => exact hname
      | false => exact .takeIf (by simp) (ih false (by omega)) hname

end Repetitions

/-! ### Constructs -/

section Constructs

variable {inner inner' : Inner} {n m : Nat} (hi : ∀ level, Breaks (inner level) (inner' level))

theorem breaks_paramsAndBody (hn : n ≤ m) :
    Breaks (paramsAndBody inner n) (paramsAndBody inner' m) := by
  rw [paramsAndBody, paramsAndBody]
  refine (Breaks.accept (by simp)).bind fun b => ?_
  cases b with
  | true =>
    exact (breaks_names (by simp) true hn).bind fun _ => (Breaks.expect (by simp)).bind
      fun _ => .body
  | false => exact (breaks_names (by simp) true hn).bind fun _ => .body

include hi

theorem breaks_conditional (hn : n ≤ m) : Breaks (conditional inner n) (conditional inner' m) := by
  cases n with
  | zero => exact .exhausted
  | succ n =>
    obtain ⟨m, rfl⟩ := Nat.exists_eq_add_one.2 (Nat.zero_lt_of_lt hn)
    rw [conditional, conditional]
    exact (hi _).bind fun _ => .body

theorem breaks_loop : Breaks (loop inner n) (loop inner' m) := by
  rw [loop, loop]
  refine (Breaks.nextIs (by simp)).bind fun b => ?_
  cases b with
  | true => exact .body
  | false => exact (hi _).bind fun _ => .body

theorem breaks_iteration : Breaks (iteration inner n) (iteration inner' m) := by
  rw [iteration, iteration]
  refine (hi _).bind fun x => ?_
  cases x with
  | ident key =>
    refine (Breaks.accept (by simp)).bind fun b => ?_
    cases b with
    | true => exact (hi _).bind fun _ => .body
    | false => exact .body
  | _ => exact .body

/-- A `yeet` at the end has no value, and neither has one before a semicolon. -/
theorem breaks_yeet : Breaks (yeet inner) (yeet inner') := by
  rw [yeet, yeet]
  refine .peek (fun t ts c more ht hts hc => ?_) fun c more hc => ?_
  · simp only [Option.all_some]
    split
    · exact (Breaks.pure _).stay ht hts hc
    · exact ((hi _).map Expr.yeet).stay ht hts hc
  · simp only [Option.all_some, hc]
    exact ⟨allKinds_nil, rfl⟩

theorem breaks_assignment (t : Token) (s : Symbol) (x : Expr) :
    Breaks (assignment inner t s x) (assignment inner' t s x) := by
  rw [assignment, assignment]
  split
  · refine (hi _).bind fun y => ?_
    split <;> exact .pure _
  · exact .fail rfl

variable (hr : 0 < m → ∀ level, Refuses (inner' level))
include hr

theorem breaks_expressions {close : Symbol} (hclose : close ≠ .semicolon) (hn : n ≤ m) :
    Breaks (sequence (inner .lowest) close n) (sequence (inner' .lowest) close m) := by
  cases m with
  | zero =>
    obtain rfl : n = 0 := by omega
    exact .exhausted
  | succ m => exact breaks_sequence (hi _) (hr (by omega) _) hclose hn

theorem breaks_operand {t : Token} (ht : t.kind.isOpener = false) (hn : n ≤ m) :
    Breaks (operand inner n t) (operand inner' m t) := by
  unfold operand
  split
  case h_1 => exact .pure _
  case h_2 text _ =>
    cases Decimal.toInt64? text.toList with
    | some k => exact .pure _
    | none => exact .fail rfl
  case h_3 text _ =>
    cases Decimal.toFloat? text.toList with
    | some x => exact .pure _
    | none => exact .fail rfl
  case h_4 | h_5 | h_7 | h_8 | h_9 => exact .pure _
  case h_6 | h_14 | h_15 => simp_all [Token.Kind.isOpener]
  case h_10 | h_11 => exact (hi _).map _
  case h_12 => exact (hi _).bind fun x => (Breaks.expect (by simp)).map fun _ => x
  case h_13 => exact (breaks_expressions hi hr (by simp) hn).map _
  case h_16 => exact breaks_conditional hi hn
  case h_17 => exact breaks_loop hi
  case h_18 => exact breaks_iteration hi
  case h_19 => exact .body
  case h_20 => exact breaks_yeet hi
  case h_21 | h_22 => exact (breaks_paramsAndBody hn).map _
  case h_23 | h_24 => exact .fail rfl

theorem breaks_operation (t : Token) (s : Symbol) (x : Expr) (hn : n ≤ m) :
    Breaks (operation inner n t s x) (operation inner' m t s x) := by
  unfold operation
  split
  · exact (breaks_expressions hi hr (by simp) hn).map _
  · exact (hi _).bind fun y => (Breaks.expect (by simp)).map fun _ => _
  · exact (hi _).map _
  · exact (hi _).map _
  · exact (hi _).map _
  · split
    · exact (hi _).map _
    · exact breaks_assignment hi t _ x

/-- A semicolon binds as loosely as the end. -/
theorem breaks_operations (level : Level) (x : Expr) (hn : n ≤ m) :
    Breaks (operations inner level n x) (operations inner' level m x) := by
  induction n generalizing m x with
  | zero => exact .exhausted
  | succ n ih =>
    obtain ⟨m, rfl⟩ := Nat.exists_eq_add_one.2 (Nat.zero_lt_of_lt hn)
    rw [operations, operations]
    refine .peek (fun t ts c more ht hts hc => ?_) fun c more hc => ?_
    · obtain ⟨k, i, j⟩ := t
      cases k with
      | symbol s =>
        simp only
        split
        · refine Breaks.bind (breaks_operation hi ?_ _ s x (by omega))
            (fun y => ih ?_ y (by omega)) ts c more hts hc
          · exact fun _ => hr (by omega)
          · exact fun _ => hr (by omega)
        · exact (Breaks.pure x).stay ht hts hc
      | _ => exact (Breaks.pure x).stay ht hts hc
    · obtain ⟨k, i, j⟩ := c
      obtain rfl : k = .symbol .semicolon := hc
      exact ⟨allKinds_nil, rfl⟩

end Constructs

theorem refuses_expression (n : Nat) (level : Level) : Refuses (expression (n + 1) level) := by
  rintro ⟨k, i, j⟩ more hc
  obtain rfl : k = .symbol .semicolon := hc
  exact ⟨_, rfl⟩

theorem breaks_expression {n m : Nat} (hn : n ≤ m) (level : Level) :
    Breaks (expression n level) (expression m level) := by
  induction n generalizing m level with
  | zero => exact .exhausted
  | succ n ih =>
    obtain ⟨m, rfl⟩ := Nat.exists_eq_add_one.2 (Nat.zero_lt_of_lt hn)
    have hi := fun level => ih (Nat.le_of_succ_le_succ hn) level
    have hr : 0 < m → ∀ level, Refuses (expression m level) := by
      intro hm
      obtain ⟨m, rfl⟩ := Nat.exists_eq_add_one.2 hm
      exact refuses_expression m
    rw [expression, expression]
    refine .next (fun t ht => ?_) rfl (refuses_expression m level)
    exact (breaks_operand hi hr ht (by omega)).bind
      fun x => breaks_operations hi hr level x (by omega)

end Parser

end YeetYoink
