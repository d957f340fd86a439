import YeetYoink.Proofs.Parser.Yields

/-!
# Parsers in front of a semicolon

`Extends p q` says that what `p` reads from tokens, `q` reads from tokens of the same kinds with
nothing or a semicolon behind them, and leaves what is behind. A parser for expressions extends
itself and those with a higher bound (`extends_expression`): where the tokens end, no construct goes
on at a semicolon.
-/

namespace YeetYoink.Parser

variable {α β : Type}

/-- If the first result is a success, then the second is the same one, with more tokens left. -/
def Carries (more : List Token) (r r' : EStateM.Result Stop (List Token) α) : Prop :=
  ∀ a rest, r = .ok a rest →
    ∃ vs : List Token, vs.map (·.kind) = rest.map (·.kind) ∧ r' = .ok a (vs ++ more)

def Extends (p q : Parser α) : Prop :=
  ∀ ts us more : List Token, us.map (·.kind) = ts.map (·.kind) →
    Ahead (· = .symbol .semicolon) more → Carries more (p ts) (q (us ++ more))

/-- The parser has no result. -/
def Fails (p : Parser α) : Prop := ∀ ts a rest, p ts ≠ .ok a rest

theorem fails_fail (e : ParseError) : Fails (fail e : Parser α) := fun _ _ _ h => nomatch h

theorem fails_exhausted : Fails (exhausted : Parser α) := fun _ _ _ h => nomatch h

theorem fails_unexpected (x : Expected) (t : Option Token) : Fails (unexpected x t : Parser α) := by
  cases t with
  | none => exact fails_fail _
  | some t => exact fails_fail _

namespace Extends

variable {p q : Parser α} {f g : α → Parser β}

theorem pure (a : α) : Extends (Pure.pure a) (Pure.pure a) := by
  rintro ts us more hk - _ _ ⟨⟩
  exact ⟨us, hk, rfl⟩

theorem of_fails (h : Fails p) : Extends p q := fun ts _ _ _ _ a rest hp => absurd hp (h ts a rest)

theorem bind (h : Extends p q) (hf : ∀ a, Extends (f a) (g a)) : Extends (p >>= f) (q >>= g) := by
  intro ts us more hk hm b rest hb
  have hp := h ts us more hk hm
  change EStateM.bind p f ts = _ at hb
  rw [EStateM.bind] at hb
  cases hr : p ts with
  | error e s =>
    rw [hr] at hb
    cases hb
  | ok a mid =>
    rw [hr] at hb
    obtain ⟨vs, hv, hq⟩ := hp a mid hr
    rw [bind_ok hq]
    exact hf a mid vs more hv hm b rest hb

/-- A parser whose result is only wrapped. -/
theorem map (h : Extends p q) (f : α → β) :
    Extends (p >>= fun a => Pure.pure (f a)) (q >>= fun a => Pure.pure (f a)) :=
  h.bind fun a => pure (f a)

/-- Looking at the next token. Where the one side is at its end, the other is there too or at the
semicolon. -/
theorem peek {f g : Option Token → Parser β}
    (h : ∀ (t u : Token) (ts us more : List Token), u.kind = t.kind →
      us.map (·.kind) = ts.map (·.kind) → Ahead (· = .symbol .semicolon) more →
      Carries more (f (some t) (t :: ts)) (g (some u) (u :: us ++ more)))
    (hnone : Extends (f none) (g none))
    (hend : ∀ u : Token, u.kind = .symbol .semicolon → Extends (f none) (g (some u))) :
    Extends (peek? >>= f) (peek? >>= g) := by
  intro ts us more hk hm
  cases ts with
  | cons t ts =>
    obtain ⟨u, us, rfl, hu, hus⟩ := List.map_eq_cons_iff.1 hk
    exact h t u ts us more hu hus hm
  | nil =>
    obtain rfl := List.map_eq_nil_iff.1 hk
    cases more with
    | nil => exact hnone [] [] [] rfl hm
    | cons u more => exact hend u (hm u rfl) [] [] (u :: more) rfl hm

/-- A parser that goes on at a token that was only looked at. -/
theorem stay (h : Extends p q) {t u : Token} {ts us more : List Token} (hu : u.kind = t.kind)
    (hk : us.map (·.kind) = ts.map (·.kind)) (hm : Ahead (· = .symbol .semicolon) more) :
    Carries more (p (t :: ts)) (q (u :: us ++ more)) :=
  h (t :: ts) (u :: us) more (by simp [hu, hk]) hm

/-- A token that is there is taken on both sides. -/
theorem take {f g : Option Token → Parser β} {t u : Token} (h : Extends (f (some t)) (g (some u)))
    {ts us more : List Token} (hk : us.map (·.kind) = ts.map (·.kind))
    (hm : Ahead (· = .symbol .semicolon) more) :
    Carries more ((next? >>= f) (t :: ts)) ((next? >>= g) (u :: us ++ more)) := h ts us more hk hm

theorem next {f g : Option Token → Parser β} (hnone : Fails (f none))
    (h : ∀ t u : Token, u.kind = t.kind → Extends (f (some t)) (g (some u))) :
    Extends (next? >>= f) (next? >>= g) := by
  intro ts us more hk hm
  cases ts with
  | nil => exact fun a rest hf => absurd hf (hnone [] a rest)
  | cons t ts =>
    obtain ⟨u, us, rfl, hu, hus⟩ := List.map_eq_cons_iff.1 hk
    exact (h t u hu).take hus hm

theorem expect (k : Token.Kind) : Extends (Parser.expect k) (Parser.expect k) := by
  have hnone : Fails (unexpected (.token k) none : Parser Unit) := fails_unexpected _ _
  refine next hnone fun t u hu => ?_
  simp only [Option.any_some, hu]
  split
  · exact pure ()
  · exact of_fails (fails_unexpected _ _)

theorem ident : Extends Parser.ident Parser.ident := by
  refine next (fails_unexpected _ _) fun t u hu => ?_
  obtain ⟨k, i, j⟩ := t
  obtain ⟨k', i', j'⟩ := u
  obtain rfl : k' = k := hu
  cases k' with
  | ident name => exact pure name
  | _ => exact of_fails (fails_unexpected _ _)

theorem nextIs {k : Token.Kind} (hk : k ≠ .symbol .semicolon) :
    Extends (Parser.nextIs k) (Parser.nextIs k) := by
  refine peek (fun t u ts us more hu hus hm => ?_) (pure _) fun u hu => ?_
  · simp only [Option.any_some, hu]
    exact (pure _).stay hu hus hm
  · simp only [Option.any_some, hu, Option.any_none, decide_eq_false hk.symm]
    exact pure false

/-- The next token is taken if it is of a kind. -/
theorem takeIf {g g' h h' : Parser β} {k : Token.Kind} (hk : k ≠ .symbol .semicolon)
    (hg : Extends g g') (hh : Extends h h') :
    Extends (Parser.nextIs k >>= fun c => if c then next? >>= fun _ => g else h)
      (Parser.nextIs k >>= fun c => if c then next? >>= fun _ => g' else h') := by
  simp only [Parser.nextIs, bind_assoc, pure_bind]
  refine peek (fun t u ts us more hu hus hm => ?_) hh fun u hu => ?_
  · simp only [Option.any_some, hu]
    split
    · exact hg.take hus hm
    · exact hh.stay hu hus hm
  · simpa [hu, hk.symm] using hh

theorem accept {k : Token.Kind} (hk : k ≠ .symbol .semicolon) :
    Extends (Parser.accept k) (Parser.accept k) := takeIf hk (pure true) (pure false)

/-- Semicolons are skipped on both sides up to the same token, which must be there. -/
theorem skipSemicolons {f g : Unit → Parser β} (h : Extends (f ()) (g ()))
    (hend : ∀ b rest, f () [] ≠ .ok b rest) :
    Extends (Parser.skipSemicolons >>= f) (Parser.skipSemicolons >>= g) := by
  intro ts us more hk hm
  change Carries more (f () (ts.dropWhile _)) (g () ((us ++ more).dropWhile _))
  have hd : (us.dropWhile (·.kind = .symbol .semicolon)).map (·.kind) =
      (ts.dropWhile (·.kind = .symbol .semicolon)).map (·.kind) := by
    have hmap := congrArg (List.dropWhile (· = .symbol .semicolon)) hk
    rw [List.dropWhile_map, List.dropWhile_map] at hmap
    exact hmap
  by_cases he : ts.dropWhile (·.kind = .symbol .semicolon) = []
  · rw [he]
    exact fun b rest hb => absurd hb (hend b rest)
  · have he' : us.dropWhile (·.kind = .symbol .semicolon) ≠ [] := by
      rintro h0
      rw [h0] at hd
      exact he (List.map_eq_nil_iff.1 hd.symm)
    rw [List.dropWhile_append, if_neg (by simpa using he')]
    exact h _ _ more hd hm

end Extends

/-! ### Repetitions -/

section Repetitions

variable {p q : Parser α} {n m : Nat}

theorem extends_sequence (h : Extends p q) (close : Symbol) (hn : n ≤ m) :
    Extends (sequence p close n) (sequence q close m) := by
  induction n generalizing m with
  | zero => exact .of_fails fails_exhausted
  | succ n ih =>
    obtain ⟨m, rfl⟩ := Nat.exists_eq_add_one.2 (Nat.zero_lt_of_lt hn)
    rw [sequence, sequence]
    refine .peek (fun t u ts us more hu hus hm => ?_) (.of_fails (fails_unexpected _ _)) fun _ _ =>
      .of_fails (fails_unexpected _ _)
    simp only [hu]
    split
    · exact (Extends.pure []).take hus hm
    · refine Extends.stay (h.bind fun x => ?_) hu hus hm
      refine .next (fails_unexpected (.token (.symbol .comma)) none) fun t u hu => ?_
      simp only [Option.any_some, hu]
      split
      · exact (ih (by omega)).map (x :: ·)
      · split
        · exact .pure [x]
        · exact .of_fails (fails_unexpected _ _)

theorem extends_block (h : Extends p q) (hn : n ≤ m) : Extends (block p n) (block q m) := by
  induction n generalizing m with
  | zero => exact .of_fails fails_exhausted
  | succ n ih =>
    obtain ⟨m, rfl⟩ := Nat.exists_eq_add_one.2 (Nat.zero_lt_of_lt hn)
    rw [block, block]
    refine .skipSemicolons ?_ fun _ _ => fails_unexpected (.token (.symbol .rbrace)) none [] _ _
    refine .peek (fun t u ts us more hu hus hm => ?_) (.of_fails (fails_unexpected _ _)) fun _ _ =>
      .of_fails (fails_unexpected _ _)
    simp only [hu]
    split
    · exact (Extends.pure []).take hus hm
    · exact Extends.stay (h.bind fun x => (ih (by omega)).map (x :: ·)) hu hus hm

theorem extends_bracedBlock (h : Extends p q) (hn : n ≤ m) :
    Extends (bracedBlock p n) (bracedBlock q m) :=
  (Extends.expect _).bind fun _ => extends_block h hn

theorem extends_names {close : Symbol} (hc : close ≠ .semicolon) (first : Bool) (hn : n ≤ m) :
    Extends (names close n first) (names close m first) := by
  induction n generalizing m first with
  | zero => exact .of_fails fails_exhausted
  | succ n ih =>
    obtain ⟨m, rfl⟩ := Nat.exists_eq_add_one.2 (Nat.zero_lt_of_lt hn)
    have hname : Extends (do let x ← ident; let xs ← names close n false; return x :: xs)
        (do let x ← ident; let xs ← names close m false; return x :: xs) :=
      Extends.ident.bind fun x => (ih false (by omega)).map (x :: ·)
    rw [names, names]
    refine (Extends.nextIs (by simpa using hc)).bind fun b => ?_
    cases b with
    | true => exact .pure []
    | false =>
      cases first with
      | true => exact hname
      | false => exact .takeIf (by simp) (ih false (by omega)) hname

end Repetitions

/-! ### Constructs -/

section Constructs

variable {inner inner' : Inner} {n m : Nat} (hi : ∀ level, Extends (inner level) (inner' level))
include hi

theorem extends_body (hn : n ≤ m) :
    Extends (bracedBlock (inner .lowest) n) (bracedBlock (inner' .lowest) m) :=
  extends_bracedBlock (hi .lowest) hn

theorem extends_templateValue (h : Extends (templateRest inner n) (templateRest inner' m)) :
    Extends (templateValue inner n) (templateValue inner' m) := by
  rw [templateValue, templateValue]
  refine (hi _).bind fun x => .next (fails_unexpected _ _) fun t u hu => ?_
  obtain ⟨k, i, j⟩ := t
  obtain ⟨k', i', j'⟩ := u
  obtain rfl : k' = k := hu
  cases k' with
  | templateMiddle text => exact h.map _
  | templateTail text => exact .pure _
  | _ => exact .of_fails (fails_unexpected _ _)

theorem extends_templateRest (hn : n ≤ m) :
    Extends (templateRest inner n) (templateRest inner' m) := by
  induction n generalizing m with
  | zero => exact .of_fails fails_exhausted
  | succ n ih =>
    obtain ⟨m, rfl⟩ := Nat.exists_eq_add_one.2 (Nat.zero_lt_of_lt hn)
    have hvalue := extends_templateValue hi (ih (m := m) (by omega))
    rw [templateRest, templateRest]
    refine .peek (fun t u ts us more hu hus hm => ?_) hvalue fun u hu => ?_
    · obtain ⟨k, i, j⟩ := t
      obtain ⟨k', i', j'⟩ := u
      obtain rfl : k' = k := hu
      cases k' with
      | templateMiddle text => exact (Extends.of_fails (fails_unexpected _ _)).take hus hm
      | templateTail text => exact (Extends.of_fails (fails_unexpected _ _)).take hus hm
      | _ => exact hvalue.stay rfl hus hm
    · obtain ⟨k, i, j⟩ := u
      obtain rfl : k = .symbol .semicolon := hu
      exact hvalue

theorem extends_dictPair : Extends (dictPair inner) (dictPair inner') :=
  (hi _).bind fun key => (Extends.expect _).bind fun _ => (hi _).map (key, ·)

theorem extends_paramsAndBody (hn : n ≤ m) :
    Extends (paramsAndBody inner n) (paramsAndBody inner' m) := by
  rw [paramsAndBody, paramsAndBody]
  refine (Extends.accept (by simp)).bind fun b => ?_
  cases b with
  | true =>
    refine (extends_names (by simp) true hn).bind fun params => (Extends.expect _).bind fun _ => ?_
    exact (extends_body hi hn).map (params, ·)
  | false =>
    refine (extends_names (by simp) true hn).bind fun params => ?_
    exact (extends_body hi hn).map (params, ·)

theorem extends_conditional (hn : n ≤ m) :
    Extends (conditional inner n) (conditional inner' m) := by
  induction n generalizing m with
  | zero => exact .of_fails fails_exhausted
  | succ n ih =>
    obtain ⟨m, rfl⟩ := Nat.exists_eq_add_one.2 (Nat.zero_lt_of_lt hn)
    rw [conditional, conditional]
    refine (hi _).bind fun x => (extends_body hi (by omega)).bind fun body => ?_
    refine (Extends.accept (by simp)).bind fun b => ?_
    cases b with
    | false => exact .pure _
    | true =>
      refine (Extends.accept (by simp)).bind fun b => ?_
      cases b with
      | true => exact (ih (by omega)).map _
      | false => exact (extends_body hi (by omega)).map _

theorem extends_loop (hn : n ≤ m) : Extends (loop inner n) (loop inner' m) := by
  rw [loop, loop]
  refine (Extends.nextIs (by simp)).bind fun b => ?_
  cases b with
  | true => exact (extends_body hi hn).map _
  | false => exact (hi _).bind fun x => (extends_body hi hn).map _

theorem extends_iteration (hn : n ≤ m) : Extends (iteration inner n) (iteration inner' m) := by
  rw [iteration, iteration]
  refine (hi _).bind fun x => ?_
  cases x with
  | ident key =>
    refine (Extends.accept (by simp)).bind fun b => ?_
    cases b with
    | true => exact (hi _).bind fun source => (extends_body hi hn).map _
    | false => exact (extends_body hi hn).map _
  | _ => exact (extends_body hi hn).map _

/-- A `yeet` at the end has no value, and neither has one before a semicolon. -/
theorem extends_yeet : Extends (yeet inner) (yeet inner') := by
  rw [yeet, yeet]
  refine .peek (fun t u ts us more hu hus hm => ?_) (.pure _) fun u hu => ?_
  · simp only [Option.all_some, hu]
    split
    · exact (Extends.pure _).stay hu hus hm
    · exact ((hi _).map Expr.yeet).stay hu hus hm
  · simp only [Option.all_some, hu]
    exact .pure _

theorem extends_operand {t u : Token} (hu : u.kind = t.kind) (hn : n ≤ m) :
    Extends (operand inner n t) (operand inner' m u) := by
  unfold operand
  rw [hu]
  split
  case h_1 => exact .pure _
  case h_2 text _ =>
    cases Decimal.toInt64? text.toList with
    | some k => exact .pure _
    | none => exact .of_fails (fails_fail _)
  case h_3 text _ =>
    cases Decimal.toFloat? text.toList with
    | some x => exact .pure _
    | none => exact .of_fails (fails_fail _)
  case h_4 | h_5 | h_7 | h_8 | h_9 => exact .pure _
  case h_6 => exact (extends_templateRest hi hn).map _
  case h_10 | h_11 => exact (hi _).map _
  case h_12 => exact (hi _).bind fun x => (Extends.expect _).map fun _ => x
  case h_13 => exact (extends_sequence (hi _) _ hn).map _
  case h_14 => exact (extends_sequence (extends_dictPair hi) _ hn).map _
  case h_15 => exact (extends_block (hi _) hn).map _
  case h_16 => exact extends_conditional hi hn
  case h_17 => exact extends_loop hi hn
  case h_18 => exact extends_iteration hi hn
  case h_19 => exact (extends_body hi hn).map _
  case h_20 => exact extends_yeet hi
  case h_21 | h_22 => exact (extends_paramsAndBody hi hn).map _
  case h_23 | h_24 => exact .of_fails (fails_fail _)

theorem extends_assignment (t u : Token) (s : Symbol) (x : Expr) :
    Extends (assignment inner t s x) (assignment inner' u s x) := by
  rw [assignment, assignment]
  split
  · refine (hi _).bind fun y => ?_
    split <;> exact .pure _
  · exact .of_fails (fails_fail _)

theorem extends_operation (t u : Token) (s : Symbol) (x : Expr) (hn : n ≤ m) :
    Extends (operation inner n t s x) (operation inner' m u s x) := by
  unfold operation
  split
  · exact (extends_sequence (hi _) _ hn).map _
  · exact (hi _).bind fun y => (Extends.expect _).map fun _ => _
  · exact (hi _).map _
  · exact (hi _).map _
  · exact (hi _).map _
  · split
    · exact (hi _).map _
    · exact extends_assignment hi t u _ x

/-- A semicolon binds as loosely as the end. -/
theorem extends_operations (level : Level) (x : Expr) (hn : n ≤ m) :
    Extends (operations inner level n x) (operations inner' level m x) := by
  induction n generalizing m x with
  | zero => exact .of_fails fails_exhausted
  | succ n ih =>
    obtain ⟨m, rfl⟩ := Nat.exists_eq_add_one.2 (Nat.zero_lt_of_lt hn)
    rw [operations, operations]
    refine .peek (fun t u ts us more hu hus hm => ?_) (.pure x) fun u hu => ?_
    · obtain ⟨k, i, j⟩ := t
      obtain ⟨k', i', j'⟩ := u
      obtain rfl : k' = k := hu
      cases k' with
      | symbol s =>
        simp only
        split
        · refine Extends.take (Extends.bind ?_ fun y => ih y (by omega)) hus hm
          exact extends_operation hi _ _ s x (by omega)
        · exact (Extends.pure x).stay rfl hus hm
      | _ => exact (Extends.pure x).stay rfl hus hm
    · obtain ⟨k, i, j⟩ := u
      obtain rfl : k = .symbol .semicolon := hu
      exact .pure x

end Constructs

theorem extends_expression {n m : Nat} (hn : n ≤ m) (level : Level) :
    Extends (expression n level) (expression m level) := by
  induction n generalizing m level with
  | zero => exact .of_fails fails_exhausted
  | succ n ih =>
    obtain ⟨m, rfl⟩ := Nat.exists_eq_add_one.2 (Nat.zero_lt_of_lt hn)
    have hi := fun level => ih (Nat.le_of_succ_le_succ hn) level
    rw [expression, expression]
    refine .next (fails_fail _) fun t u hu => (extends_operand hi hu (by omega)).bind fun x => ?_
    exact extends_operations hi level x (by omega)

end YeetYoink.Parser
