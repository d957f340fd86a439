import YeetYoink.Proofs.Parser.Yields

/-!
# Parsers go forward

`Advances c k p q` says what a parser does to its tokens, and that its bound does not matter.
However it ends, the tokens left are a suffix of those that were there, and a success has taken at
least `c` of them. With fewer than `k` tokens it never runs out of its bound, and where it does not
run out of it, `q` does the same. An expression takes at least one token, so that any bound above
the number of tokens is as good as any other (`advances_expression`).
-/

namespace YeetYoink.Parser

variable {α β : Type}

/-- The tokens that are left, however the run ended. -/
def left : EStateM.Result Stop (List Token) α → List Token
  | .ok _ rest | .error _ rest => rest

/-- The run did not run out of its bound. -/
def Ended : EStateM.Result Stop (List Token) α → Prop
  | .error .exhausted _ => False
  | _ => True

/-- A run on the tokens, and one with higher bounds. -/
structure Ran (c k : Nat) (ts : List Token) (r r' : EStateM.Result Stop (List Token) α) : Prop where
  suffix : left r <:+ ts
  takes : ∀ {a rest}, r = .ok a rest → rest.length + c ≤ ts.length
  ends : ts.length < k → Ended r
  agrees : Ended r → r' = r

def Advances (c k : Nat) (p q : Parser α) : Prop := ∀ ts : List Token, Ran c k ts (p ts) (q ts)

/-- Tokens that were taken before count as taken. -/
theorem Ran.after {c d k m : Nat} {ts rest : List Token} {r r' : EStateM.Result Stop (List Token) α}
    (h : Ran d m rest r r') (hs : rest <:+ ts) (hl : rest.length + c ≤ ts.length) (hk : k ≤ m + c) :
    Ran (c + d) k ts r r' where
  suffix := h.suffix.trans hs
  takes hr := by
    have := h.takes hr
    omega
  ends hts := h.ends (by omega)
  agrees := h.agrees

theorem Ran.mono {c d k m : Nat} {ts : List Token} {r r' : EStateM.Result Stop (List Token) α}
    (h : Ran c k ts r r') (hd : d ≤ c) (hm : m ≤ k) : Ran d m ts r r' where
  suffix := h.suffix
  takes hr := Nat.le_trans (Nat.add_le_add_left hd _) (h.takes hr)
  ends hl := h.ends (Nat.lt_of_lt_of_le hl hm)
  agrees := h.agrees

namespace Advances

variable {p q : Parser α} {f g : α → Parser β} {c d k m : Nat}

theorem mono (h : Advances c k p q) (hd : d ≤ c) (hm : m ≤ k) : Advances d m p q :=
  fun ts => (h ts).mono hd hm

/-- What was taken need not be counted. -/
theorem uncounted (h : Advances 1 k p q) : Advances 0 k p q := h.mono (Nat.zero_le 1) k.le_refl

/-- With a bound for one token less. -/
theorem pred (h : Advances c k p q) : Advances c (k - 1) p q := h.mono c.le_refl (k.sub_le 1)

/-- A parser that always succeeds, and drops tokens from the front or none. -/
theorem drops {a : List Token → α} {rest : List Token → List Token}
    (hp : ∀ ts, p ts = .ok (a ts) (rest ts)) (hs : ∀ ts, rest ts <:+ ts) : Advances 0 k p p := by
  intro ts
  rw [hp ts]
  exact
    { suffix := hs ts
      takes := by
        rintro _ _ ⟨⟩
        exact (hs ts).length_le
      ends := fun _ => trivial
      agrees := fun _ => rfl }

theorem pure (a : α) : Advances 0 k (Pure.pure a) (Pure.pure a) :=
  drops (fun _ => rfl) fun _ => List.suffix_rfl

theorem skipSemicolons : Advances 0 k Parser.skipSemicolons Parser.skipSemicolons :=
  drops (fun _ => rfl) fun _ => List.dropWhile_suffix _

theorem fail (e : ParseError) : Advances c k (Parser.fail e) (Parser.fail e : Parser α) := fun _ =>
  { suffix := List.suffix_rfl
    takes := nofun
    ends := fun _ => trivial
    agrees := fun _ => rfl }

theorem unexpected (x : Expected) (t : Option Token) :
    Advances c k (Parser.unexpected x t) (Parser.unexpected x t : Parser α) := by
  cases t with
  | none => exact fail _
  | some t => exact fail _

theorem exhausted : Advances c 0 exhausted q := fun _ =>
  { suffix := List.suffix_rfl
    takes := nofun
    ends := fun hl => absurd hl (Nat.not_lt_zero _)
    agrees := False.elim }

/-- One parser after another: the second may have a bound lower by what the first has taken. -/
theorem bind (h : Advances c k p q) (hf : ∀ a, Advances d m (f a) (g a)) (hk : k ≤ m + c) :
    Advances (c + d) k (p >>= f) (q >>= g) := by
  intro ts
  have hp := h ts
  change Ran (c + d) k ts (EStateM.bind p f ts) (EStateM.bind q g ts)
  rw [EStateM.bind, EStateM.bind]
  cases hr : p ts with
  | ok a rest =>
    rw [hr] at hp
    rw [hp.agrees trivial]
    exact (hf a rest).after hp.suffix (hp.takes rfl) hk
  | error e rest =>
    rw [hr] at hp
    exact
      { suffix := hp.suffix
        takes := nofun
        ends := fun hl => by
          cases e with
          | failed e => trivial
          | exhausted => exact hp.ends hl
        agrees := fun he => by
          cases e with
          | failed e => rw [hp.agrees trivial]
          | exhausted => exact he.elim }

/-- Going on after a parser of which it is not known whether it takes anything. -/
theorem andThen (h : Advances 0 k p q) (hf : ∀ a, Advances 0 k (f a) (g a)) :
    Advances 0 k (p >>= f) (q >>= g) := h.bind hf k.le_refl

/-- Going on after a token was taken. -/
theorem thenFewer (h : Advances 1 k p q) (hf : ∀ a, Advances 0 (k - 1) (f a) (g a)) :
    Advances 1 k (p >>= f) (q >>= g) := h.bind hf (by omega)

/-- A parser whose result is only wrapped. -/
theorem map (h : Advances c k p q) (f : α → β) :
    Advances c k (p >>= fun a => Pure.pure (f a)) (q >>= fun a => Pure.pure (f a)) :=
  h.bind (fun a => pure (f a)) (Nat.le_add_right k c)

theorem peek {f g : Option Token → Parser β} (hnone : Advances c k (f none) (g none))
    (h : ∀ t ts, Ran c k (t :: ts) (f (some t) (t :: ts)) (g (some t) (t :: ts))) :
    Advances c k (peek? >>= f) (peek? >>= g) := by
  intro ts
  cases ts with
  | nil => exact hnone []
  | cons t ts => exact h t ts

/-- A token that is there is taken. -/
theorem take {f g : Option Token → Parser β} {t : Token}
    (h : Advances 0 (k - 1) (f (some t)) (g (some t)))
    (ts : List Token) : Ran 1 k (t :: ts) ((next? >>= f) (t :: ts)) ((next? >>= g) (t :: ts)) :=
  (h ts).after (List.suffix_cons t ts) (Nat.le_refl _) (by omega)

/-- A token that was looked at is taken. -/
theorem taken {f g : Option Token → Parser β} {t : Token}
    (h : Advances 0 (k - 1) (f (some t)) (g (some t)))
    (ts : List Token) : Ran 0 k (t :: ts) ((next? >>= f) (t :: ts)) ((next? >>= g) (t :: ts)) :=
  (h.take ts).mono (Nat.zero_le 1) k.le_refl

theorem next {f g : Option Token → Parser β} (hnone : Advances 1 k (f none) (g none))
    (h : ∀ t, Advances 0 (k - 1) (f (some t)) (g (some t))) :
    Advances 1 k (next? >>= f) (next? >>= g) := by
  intro ts
  cases ts with
  | nil => exact hnone []
  | cons t ts => exact take (h t) ts

theorem expect (kind : Token.Kind) : Advances 1 k (Parser.expect kind) (Parser.expect kind) := by
  refine next (unexpected (.token kind) none) fun t => ?_
  split
  · exact pure ()
  · exact unexpected _ _

theorem ident : Advances 1 k Parser.ident Parser.ident := by
  refine next (unexpected .identifier none) fun t => ?_
  obtain ⟨kind, i, j⟩ := t
  cases kind with
  | ident name => exact pure name
  | _ => exact unexpected _ _

theorem nextIs (kind : Token.Kind) : Advances 0 k (Parser.nextIs kind) (Parser.nextIs kind) :=
  peek (pure _) fun t ts => pure _ (t :: ts)

/-- The next token is taken if it is of a kind. -/
theorem takeIf {g g' h h' : Parser β} {kind : Token.Kind} (hg : Advances 0 (k - 1) g g')
    (hh : Advances 0 k h h') :
    Advances 0 k (Parser.nextIs kind >>= fun b => if b then next? >>= fun _ => g else h)
      (Parser.nextIs kind >>= fun b => if b then next? >>= fun _ => g' else h') := by
  simp only [Parser.nextIs, bind_assoc, pure_bind]
  refine peek hh fun t ts => ?_
  rw [Option.any_some]
  split
  · exact taken (f := fun _ => g) hg ts
  · exact hh (t :: ts)

theorem accept (kind : Token.Kind) : Advances 0 k (Parser.accept kind) (Parser.accept kind) :=
  takeIf (pure true) (pure false)

end Advances

/-! ### Repetitions -/

section Repetitions

variable {p q : Parser α} {k n m : Nat}

theorem advances_sequence (h : Advances 0 k p q) (close : Symbol) (hk : k ≤ n) (hn : n ≤ m) :
    Advances 0 k (sequence p close n) (sequence q close m) := by
  induction n generalizing k m with
  | zero =>
    obtain rfl := Nat.le_zero.1 hk
    exact .exhausted
  | succ n ih =>
    obtain ⟨m, rfl⟩ := Nat.exists_eq_add_one.2 (Nat.zero_lt_of_lt hn)
    rw [sequence, sequence]
    refine .peek (.unexpected _ _) fun t ts => ?_
    simp only
    split
    · exact (Advances.pure []).taken ts
    · refine h.andThen (fun x => Advances.uncounted ?_) (t :: ts)
      refine .next (.unexpected (.token (.symbol .comma)) none) fun t => ?_
      simp only [Option.any_some]
      split
      · exact (ih h.pred (by omega) (by omega)).map (x :: ·)
      · split
        · exact .pure [x]
        · exact .unexpected _ _

/-- The elements take a token each, so that the closing brace or the end is reached. -/
theorem advances_block (h : Advances 1 k p q) (hk : k ≤ n) (hn : n ≤ m) :
    Advances 0 k (block p n) (block q m) := by
  induction n generalizing k m with
  | zero =>
    obtain rfl := Nat.le_zero.1 hk
    exact .exhausted
  | succ n ih =>
    obtain ⟨m, rfl⟩ := Nat.exists_eq_add_one.2 (Nat.zero_lt_of_lt hn)
    rw [block, block]
    refine Advances.skipSemicolons.andThen fun _ => .peek (.unexpected _ _) fun t ts => ?_
    simp only
    split
    · exact (Advances.pure []).taken ts
    · refine (h.thenFewer fun x => ?_).uncounted (t :: ts)
      exact (ih h.pred (by omega) (by omega)).map (x :: ·)

theorem advances_bracedBlock (h : Advances 1 k p q) (hk : k ≤ n) (hn : n ≤ m) :
    Advances 0 k (bracedBlock p n) (bracedBlock q m) :=
  (Advances.expect _).uncounted.andThen fun _ => advances_block h hk hn

theorem advances_names (close : Symbol) (first : Bool) (hk : k ≤ n) (hn : n ≤ m) :
    Advances 0 k (names close n first) (names close m first) := by
  induction n generalizing k m first with
  | zero =>
    obtain rfl := Nat.le_zero.1 hk
    exact .exhausted
  | succ n ih =>
    obtain ⟨m, rfl⟩ := Nat.exists_eq_add_one.2 (Nat.zero_lt_of_lt hn)
    have hrest : ∀ first, Advances 0 (k - 1) (names close n first) (names close m first) :=
      fun first => ih first (by omega) (by omega)
    have hname : Advances 0 k (do let x ← ident; let xs ← names close n false; return x :: xs)
        (do let x ← ident; let xs ← names close m false; return x :: xs) :=
      (Advances.ident.thenFewer fun x => (hrest false).map (x :: ·)).uncounted
    rw [names, names]
    refine (Advances.nextIs _).andThen fun b => ?_
    cases b with
    | true => exact .pure []
    | false =>
      cases first with
      | true => exact hname
      | false => exact .takeIf (hrest false) hname

end Repetitions

/-! ### Constructs -/

section Constructs

variable {inner inner' : Inner} {k n m : Nat}
    (hi : ∀ level, Advances 1 k (inner level) (inner' level))
include hi

/-- Expressions that may take any number of tokens. -/
theorem advances_inner (level : Level) : Advances 0 k (inner level) (inner' level) :=
  (hi level).uncounted

theorem advances_body (hk : k ≤ n) (hn : n ≤ m) :
    Advances 0 k (bracedBlock (inner .lowest) n) (bracedBlock (inner' .lowest) m) :=
  advances_bracedBlock (hi .lowest) hk hn

theorem advances_templateValue
    (h : Advances 0 (k - 1) (templateRest inner n) (templateRest inner' m)) :
    Advances 0 k (templateValue inner n) (templateValue inner' m) := by
  rw [templateValue, templateValue]
  refine (advances_inner hi _).andThen fun x => Advances.uncounted ?_
  refine .next (.unexpected .templateContinuation none) fun t => ?_
  obtain ⟨kind, i, j⟩ := t
  cases kind with
  | templateMiddle text => exact h.map _
  | templateTail text => exact .pure _
  | _ => exact .unexpected _ _

theorem advances_templateRest (hk : k ≤ n) (hn : n ≤ m) :
    Advances 0 k (templateRest inner n) (templateRest inner' m) := by
  induction n generalizing k m with
  | zero =>
    obtain rfl := Nat.le_zero.1 hk
    exact .exhausted
  | succ n ih =>
    obtain ⟨m, rfl⟩ := Nat.exists_eq_add_one.2 (Nat.zero_lt_of_lt hn)
    have hvalue := advances_templateValue hi
      (ih (fun level => (hi level).pred) (m := m) (by omega) (by omega))
    rw [templateRest, templateRest]
    refine .peek hvalue fun t ts => ?_
    obtain ⟨kind, i, j⟩ := t
    cases kind with
    | templateMiddle text => exact (Advances.unexpected _ _).taken ts
    | templateTail text => exact (Advances.unexpected _ _).taken ts
    | _ => exact hvalue _

theorem advances_dictPair : Advances 0 k (dictPair inner) (dictPair inner') := by
  refine (advances_inner hi _).andThen fun key => (Advances.expect _).uncounted.andThen fun _ => ?_
  exact (advances_inner hi _).map (key, ·)

theorem advances_paramsAndBody (hk : k ≤ n) (hn : n ≤ m) :
    Advances 0 k (paramsAndBody inner n) (paramsAndBody inner' m) := by
  rw [paramsAndBody, paramsAndBody]
  refine (Advances.accept _).andThen fun b => ?_
  cases b with
  | true =>
    refine (advances_names _ true hk hn).andThen fun params => (Advances.expect _).uncounted.andThen
      fun _ => ?_
    exact (advances_body hi hk hn).map (params, ·)
  | false =>
    refine (advances_names _ true hk hn).andThen fun params => ?_
    exact (advances_body hi hk hn).map (params, ·)

/-- The condition takes a token, so that all that follows it may do with a bound lower by one. -/
theorem advances_conditional (hk : k ≤ n) (hn : n ≤ m) :
    Advances 0 k (conditional inner n) (conditional inner' m) := by
  induction n generalizing k m with
  | zero =>
    obtain rfl := Nat.le_zero.1 hk
    exact .exhausted
  | succ n ih =>
    obtain ⟨m, rfl⟩ := Nat.exists_eq_add_one.2 (Nat.zero_lt_of_lt hn)
    have hi' : ∀ level, Advances 1 (k - 1) (inner level) (inner' level) :=
      fun level => (hi level).pred
    have hbody := advances_body hi' (n := n) (m := m) (by omega) (by omega)
    rw [conditional, conditional]
    refine ((hi _).thenFewer fun x => hbody.andThen fun body => ?_).uncounted
    refine (Advances.accept _).andThen fun b => ?_
    cases b with
    | false => exact .pure _
    | true =>
      refine (Advances.accept _).andThen fun b => ?_
      cases b with
      | true => exact (ih hi' (by omega) (by omega)).map _
      | false => exact hbody.map _

theorem advances_loop (hk : k ≤ n) (hn : n ≤ m) : Advances 0 k (loop inner n) (loop inner' m) := by
  rw [loop, loop]
  refine (Advances.nextIs _).andThen fun b => ?_
  cases b with
  | true => exact (advances_body hi hk hn).map _
  | false => exact (advances_inner hi _).andThen fun x => (advances_body hi hk hn).map _

theorem advances_iteration (hk : k ≤ n) (hn : n ≤ m) :
    Advances 0 k (iteration inner n) (iteration inner' m) := by
  rw [iteration, iteration]
  refine (advances_inner hi _).andThen fun x => ?_
  cases x with
  | ident key =>
    refine (Advances.accept _).andThen fun b => ?_
    cases b with
    | true => exact (advances_inner hi _).andThen fun source => (advances_body hi hk hn).map _
    | false => exact (advances_body hi hk hn).map _
  | _ => exact (advances_body hi hk hn).map _

theorem advances_yeet : Advances 0 k (yeet inner) (yeet inner') := by
  rw [yeet, yeet]
  refine .peek (.pure _) fun t ts => ?_
  simp only [Option.all_some]
  split
  · exact Advances.pure _ (t :: ts)
  · exact (advances_inner hi _).map Expr.yeet (t :: ts)

theorem advances_operand (t : Token) (hk : k ≤ n) (hn : n ≤ m) :
    Advances 0 k (operand inner n t) (operand inner' m t) := by
  unfold operand
  split
  case h_1 => exact .pure _
  case h_2 text _ =>
    cases Decimal.toInt64? text.toList with
    | some k => exact .pure _
    | none => exact .fail _
  case h_3 text _ =>
    cases Decimal.toFloat? text.toList with
    | some x => exact .pure _
    | none => exact .fail _
  case h_4 | h_5 | h_7 | h_8 | h_9 => exact .pure _
  case h_6 => exact (advances_templateRest hi hk hn).map _
  case h_10 | h_11 => exact (advances_inner hi _).map _
  case h_12 =>
    exact (advances_inner hi _).andThen fun x => (Advances.expect _).uncounted.map fun _ => x
  case h_13 => exact (advances_sequence (advances_inner hi _) _ hk hn).map _
  case h_14 => exact (advances_sequence (advances_dictPair hi) _ hk hn).map _
  case h_15 => exact (advances_block (hi _) hk hn).map _
  case h_16 => exact advances_conditional hi hk hn
  case h_17 => exact advances_loop hi hk hn
  case h_18 => exact advances_iteration hi hk hn
  case h_19 => exact (advances_body hi hk hn).map _
  case h_20 => exact advances_yeet hi
  case h_21 | h_22 => exact (advances_paramsAndBody hi hk hn).map _
  case h_23 | h_24 => exact .fail _

theorem advances_assignment (t : Token) (s : Symbol) (x : Expr) :
    Advances 0 k (assignment inner t s x) (assignment inner' t s x) := by
  rw [assignment, assignment]
  split
  · refine (advances_inner hi _).andThen fun y => ?_
    split <;> exact .pure _
  · exact .fail _

theorem advances_operation (t : Token) (s : Symbol) (x : Expr) (hk : k ≤ n) (hn : n ≤ m) :
    Advances 0 k (operation inner n t s x) (operation inner' m t s x) := by
  unfold operation
  split
  · exact (advances_sequence (advances_inner hi _) _ hk hn).map _
  · exact (advances_inner hi _).andThen fun y => (Advances.expect _).uncounted.map fun _ => _
  · exact (advances_inner hi _).map _
  · exact (advances_inner hi _).map _
  · exact (advances_inner hi _).map _
  · split
    · exact (advances_inner hi _).map _
    · exact advances_assignment hi t _ x

theorem advances_operations (level : Level) (x : Expr) (hk : k ≤ n) (hn : n ≤ m) :
    Advances 0 k (operations inner level n x) (operations inner' level m x) := by
  induction n generalizing k m x with
  | zero =>
    obtain rfl := Nat.le_zero.1 hk
    exact .exhausted
  | succ n ih =>
    obtain ⟨m, rfl⟩ := Nat.exists_eq_add_one.2 (Nat.zero_lt_of_lt hn)
    have hi' : ∀ level, Advances 1 (k - 1) (inner level) (inner' level) :=
      fun level => (hi level).pred
    rw [operations, operations]
    refine .peek (.pure x) fun t ts => ?_
    obtain ⟨kind, i, j⟩ := t
    cases kind with
    | symbol s =>
      simp only
      split
      · refine Advances.taken ?_ ts
        refine (advances_operation hi' _ s x (by omega) (by omega)).andThen fun y => ?_
        exact ih hi' y (by omega) (by omega)
      · exact Advances.pure x _
    | _ => exact Advances.pure x _

end Constructs

theorem advances_expression {k n m : Nat} (hk : k ≤ n) (hn : n ≤ m) (level : Level) :
    Advances 1 k (expression n level) (expression m level) := by
  induction n generalizing k m level with
  | zero =>
    obtain rfl := Nat.le_zero.1 hk
    exact .exhausted
  | succ n ih =>
    obtain ⟨m, rfl⟩ := Nat.exists_eq_add_one.2 (Nat.zero_lt_of_lt hn)
    have hi : ∀ level, Advances 1 (k - 1) (expression n level) (expression m level) :=
      fun level => ih (by omega) (by omega) level
    rw [expression, expression]
    refine .next (.fail _) fun t => (advances_operand hi t (by omega) (by omega)).andThen
      fun x => ?_
    exact advances_operations hi level x (by omega) (by omega)

end YeetYoink.Parser
