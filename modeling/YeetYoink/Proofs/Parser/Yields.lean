import YeetYoink.Proofs.Expr.Spelling
import YeetYoink.Expr.Parse

/-!
# Parsers on the kinds of tokens

`Yields p n ks after a` says that the parser takes tokens of the kinds `ks` and gives `a`, when
fewer than `n` tokens are left and what follows the tokens taken is of a kind that `after` admits. A
parser never looks at more of a token than its kind unless it fails, so runs that succeed are put
together on kinds alone.
-/

namespace YeetYoink.Parser

variable {α β : Type}

/-- The token in front, if there is one, is of a kind with the property. -/
def Ahead (p : Token.Kind → Prop) (ts : List Token) : Prop := ∀ t ∈ ts.head?, p t.kind

def Yields (p : Parser α) (n : Nat) (ks : List Token.Kind) (after : Token.Kind → Prop)
    (a : α) : Prop :=
  ∀ ts rest : List Token, ts.map (·.kind) = ks → Ahead after rest → (ts ++ rest).length < n →
    p (ts ++ rest) = .ok a rest

theorem Ahead.of_kinds {p : Token.Kind → Prop} {ts us : List Token} (h : Ahead p ts)
    (hk : us.map (·.kind) = ts.map (·.kind)) : Ahead p us := by
  cases us with
  | nil => exact nofun
  | cons u us =>
    obtain ⟨t, ts, rfl, ht, -⟩ := List.map_eq_cons_iff.1 hk.symm
    have ht : t.kind = u.kind := ht
    rintro _ ⟨⟩
    exact ht ▸ h t rfl

/-- The first of the kinds has the property, or there is none and every kind that may follow has it.
-/
def Begins (p : Token.Kind → Prop) : List Token.Kind → (Token.Kind → Prop) → Prop
  | [], after => ∀ k, after k → p k
  | k :: _, _ => p k

/-- There is a first kind, and it has the property. -/
def Opens (p : Token.Kind → Prop) (ks : List Token.Kind) : Prop := ∃ k l, ks = k :: l ∧ p k

@[simp] theorem begins_cons {p after : Token.Kind → Prop} {k : Token.Kind} {ks : List Token.Kind} :
    Begins p (k :: ks) after ↔ p k := Iff.rfl

theorem ahead_append {p after : Token.Kind → Prop} {ks : List Token.Kind} {ts rest : List Token}
    (hb : Begins p ks after) (hk : ts.map (·.kind) = ks) (ha : Ahead after rest) :
    Ahead p (ts ++ rest) := by
  subst hk
  cases ts with
  | nil => exact fun t ht => hb _ (ha t ht)
  | cons t ts =>
    intro u hu
    obtain rfl : t = u := by simpa using hu
    exact hb

theorem bind_ok {p : Parser α} {f : α → Parser β} {ts rest : List Token} {a : α}
    (h : p ts = .ok a rest) : (p >>= f) ts = f a rest := by
  change EStateM.bind p f ts = _
  rw [EStateM.bind, h]

theorem accept_bind (k : Token.Kind) (f : Bool → Parser β) :
    accept k >>= f = nextIs k >>= fun c => if c then next? >>= fun _ => f true else f false := by
  rw [accept, bind_assoc]
  congr 1
  funext c
  cases c <;> simp

/-- A value in a template and what comes after it: what is read of a template where no piece of its
text is next. -/
def templateValue (inner : Inner) (n : Nat) : Parser (List Expr × List Char) := do
  let x ← inner .lowest
  match ← next? with
  | some ⟨.templateMiddle text, _, _⟩ =>
    let (xs, rest) ← templateRest inner n
    return (x :: xs, Template.hole ++ Template.literal text.toList ++ rest)
  | some ⟨.templateTail text, _, _⟩ =>
    return ([x], Template.hole ++ Template.literal text.toList)
  | t => unexpected .templateContinuation t

namespace Yields

variable {p : Parser α} {n m : Nat} {ks ls : List Token.Kind} {after before : Token.Kind → Prop}
  {a : α} {b : β}

theorem mono (h : Yields p n ks before a) (hn : m ≤ n) (hk : ∀ k, after k → before k) :
    Yields p m ks after a :=
  fun ts rest hts ha hl => h ts rest hts (fun t ht => hk _ (ha t ht)) (Nat.lt_of_lt_of_le hl hn)

theorem of_le (h : Yields p n ks after a) (hn : m ≤ n) : Yields p m ks after a :=
  h.mono hn fun _ hk => hk

/-- One parser after another: the second may have a bound lower by what the first has taken. -/
theorem bind {f : α → Parser β} (h : Yields p n ks before a) (hb : Begins before ls after)
    (hf : Yields (f a) m ls after b) (hn : n ≤ m + ks.length) :
    Yields (p >>= f) n (ks ++ ls) after b := by
  intro ts rest hts ha hl
  obtain ⟨us, vs, rfl, rfl, rfl⟩ := List.map_eq_append_iff.1 hts
  simp only [List.append_assoc, List.length_append, List.length_map] at hl hn ⊢
  rw [bind_ok (h us (vs ++ rest) rfl (ahead_append hb rfl ha) (by simpa using hl))]
  refine hf vs rest rfl ha ?_
  simp only [List.length_append]
  omega

/-- A parser whose result is only wrapped. -/
theorem map (h : Yields p n ks after a) (f : α → β) :
    Yields (p >>= fun a => Pure.pure (f a)) n ks after (f a) := by
  intro ts rest hts ha hl
  rw [bind_ok (h ts rest hts ha hl)]
  rfl

theorem pure (a : α) : Yields (Pure.pure a) n [] after a := by
  intro ts rest hts _ _
  obtain rfl := List.map_eq_nil_iff.1 hts
  rfl

theorem peek {f : Option Token → Parser β} {k : Token.Kind}
    (h : ∀ t : Token, t.kind = k → Yields (f (some t)) n (k :: ks) after b) :
    Yields (peek? >>= f) n (k :: ks) after b := by
  intro ts rest hts ha hl
  obtain ⟨t, us, rfl, hk, hus⟩ := List.map_eq_cons_iff.1 hts
  exact h t hk (t :: us) rest hts ha hl

theorem peek_opens {f : Option Token → Parser β} {q : Token.Kind → Prop} (ho : Opens q ks)
    (h : ∀ t : Token, q t.kind → Yields (f (some t)) n (ks ++ ls) after b) :
    Yields (peek? >>= f) n (ks ++ ls) after b := by
  obtain ⟨k, l, rfl, hk⟩ := ho
  exact peek fun t ht => h t (ht ▸ hk)

theorem next {f : Option Token → Parser β} {k : Token.Kind}
    (h : ∀ t : Token, t.kind = k → Yields (f (some t)) n ks after b) :
    Yields (next? >>= f) (n + 1) (k :: ks) after b := by
  intro ts rest hts ha hl
  obtain ⟨t, us, rfl, hk, hus⟩ := List.map_eq_cons_iff.1 hts
  exact h t hk us rest hus ha (by simpa using hl)

theorem expect (k : Token.Kind) : Yields (expect k) n [k] after () := by
  cases n with
  | zero => exact fun _ _ _ _ hl => absurd hl (Nat.not_lt_zero _)
  | succ n =>
    rw [Parser.expect]
    refine next fun t ht => ?_
    simpa [ht] using pure ()

theorem expect_bind {f : Unit → Parser β} {k : Token.Kind} (h : Yields (f ()) n ks after b) :
    Yields (Parser.expect k >>= f) n (k :: ks) after b := by
  have hk : Yields (Parser.expect k) n [k] (fun _ => True) () := expect k
  exact hk.bind (by cases ks <;> simp [Begins]) h (by simp)

/-- Looking for a kind that is not there. -/
theorem nextIs_false {f : Bool → Parser β} {k : Token.Kind} (hb : Begins (· ≠ k) ks after)
    (h : Yields (f false) n ks after b) : Yields (nextIs k >>= f) n ks after b := by
  intro ts rest hts ha hl
  have hne : (ts ++ rest).head?.any (·.kind = k) = false := by
    have hd := ahead_append hb hts ha
    cases hh : (ts ++ rest).head? with
    | none => rfl
    | some t => simpa using hd t hh
  have hr : nextIs k (ts ++ rest) = .ok false (ts ++ rest) := congrArg (EStateM.Result.ok · _) hne
  rw [bind_ok hr]
  exact h ts rest hts ha hl

theorem nextIs_true {f : Bool → Parser β} {k : Token.Kind}
    (h : Yields (f true) n (k :: ks) after b) :
    Yields (nextIs k >>= f) n (k :: ks) after b := by
  intro ts rest hts ha hl
  obtain ⟨t, us, rfl, hk, hus⟩ := List.map_eq_cons_iff.1 hts
  have hr : nextIs k (t :: us ++ rest) = .ok true (t :: us ++ rest) := by
    refine congrArg (EStateM.Result.ok · _) ?_
    simp [hk]
  rw [bind_ok hr]
  exact h (t :: us) rest hts ha hl

theorem accept_false {f : Bool → Parser β} {k : Token.Kind} (hb : Begins (· ≠ k) ks after)
    (h : Yields (f false) n ks after b) : Yields (accept k >>= f) n ks after b := by
  rw [accept_bind]
  exact nextIs_false hb h

theorem accept_true {f : Bool → Parser β} {k : Token.Kind} (h : Yields (f true) n ks after b) :
    Yields (accept k >>= f) (n + 1) (k :: ks) after b := by
  rw [accept_bind]
  exact nextIs_true (next fun _ _ => h)

theorem skipSemicolons {f : Unit → Parser β} (hb : Begins (· ≠ .symbol .semicolon) ks after)
    (h : Yields (f ()) n ks after b) : Yields (skipSemicolons >>= f) n ks after b := by
  intro ts rest hts ha hl
  have hs : Parser.skipSemicolons (ts ++ rest) = .ok () (ts ++ rest) := by
    have hd := ahead_append hb hts ha
    refine congrArg (EStateM.Result.ok ()) ?_
    cases hh : ts ++ rest with
    | nil => rfl
    | cons t us =>
      rw [hh] at hd
      exact List.dropWhile_cons_of_neg (by simpa using hd t rfl)
  rw [bind_ok hs]
  exact h ts rest hts ha hl

/-- Nothing is said when the bound is no more than the tokens to take. -/
theorem of_le_length (h : n ≤ ks.length) : Yields p n ks after a := by
  rintro ts rest rfl - hl
  simp only [List.length_append, List.length_map] at hl h
  omega

theorem zero : Yields p 0 ks after a := of_le_length (Nat.zero_le _)

end Yields

/-! ### Repetitions -/

section Repetitions

variable {p : Parser α} {kindsOf : α → List Token.Kind} {xs : List α} {n m : Nat}
  {after : Token.Kind → Prop}

open YeetYoink.Expr (joinKinds)

theorem joinKinds_cons (s : Symbol) (x y : List Token.Kind) (ys : List (List Token.Kind)) :
    joinKinds s (x :: y :: ys) = x ++ .symbol s :: joinKinds s (y :: ys) := by
  simp [joinKinds, List.intercalate]

theorem joinKinds_singleton (s : Symbol) (x : List Token.Kind) : joinKinds s [x] = x := by
  simp [joinKinds, List.intercalate]

theorem yields_sequence {close : Symbol} (hc : close ≠ .comma)
    (ho : ∀ x ∈ xs, Opens (· ≠ .symbol close) (kindsOf x))
    (hp : ∀ x ∈ xs, Yields p m (kindsOf x) (fun k => k = .symbol .comma ∨ k = .symbol close) x)
    (hn : n ≤ m) :
    Yields (sequence p close n) n (joinKinds .comma (xs.map kindsOf) ++ [.symbol close])
      after xs := by
  induction xs generalizing n with
  | nil =>
    cases n with
    | zero => exact .zero
    | succ n =>
      rw [sequence]
      refine .peek fun t ht => ?_
      simp only [ht, if_true]
      exact .next fun _ _ => .pure _
  | cons x xs ih =>
    cases n with
    | zero => exact .zero
    | succ n =>
      have hx := (hp x (List.mem_cons_self ..)).of_le hn
      have hox := ho x (List.mem_cons_self ..)
      rw [sequence]
      cases xs with
      | nil =>
        simp only [List.map_cons, List.map_nil, joinKinds_singleton]
        refine .peek_opens hox fun t ht => ?_
        simp only [ht, if_false]
        refine hx.bind (by simp) (.next fun t ht => ?_) (Nat.le_add_right ..)
        simpa [ht, hc] using .pure _
      | cons y ys =>
        have ih := ih (fun z hz => ho z (.tail _ hz)) (fun z hz => hp z (.tail _ hz))
          (by omega) (n := n)
        simp only [List.map_cons, joinKinds_cons, List.append_assoc, List.cons_append]
        refine .peek_opens hox fun t ht => ?_
        simp only [ht, if_false]
        refine hx.bind (by simp) (.next fun t ht => ?_) (Nat.le_add_right ..)
        simpa [ht] using ih.map (x :: ·)

/-- A semicolon before the expressions of a block does not count. -/
theorem Yields.semicolon_block {ks : List Token.Kind} (h : Yields (block p n) n ks after xs) :
    Yields (block p n) n (.symbol .semicolon :: ks) after xs := by
  intro ts rest hts ha hl
  obtain ⟨t, us, rfl, hk, hus⟩ := List.map_eq_cons_iff.1 hts
  have hs : Parser.skipSemicolons (t :: (us ++ rest)) = Parser.skipSemicolons (us ++ rest) := by
    refine congrArg (EStateM.Result.ok ()) ?_
    exact List.dropWhile_cons_of_pos (by simpa using hk)
  cases n with
  | zero => exact absurd hl (Nat.not_lt_zero _)
  | succ n =>
    rw [← h us rest hus ha (by simp at hl ⊢; omega), block]
    change EStateM.bind _ _ _ = EStateM.bind _ _ _
    rw [EStateM.bind, EStateM.bind, List.cons_append, hs]

theorem yields_block
    (ho : ∀ x ∈ xs, Opens (fun k => k ≠ .symbol .semicolon ∧ k ≠ .symbol .rbrace) (kindsOf x))
    (hp : ∀ x ∈ xs, Yields p m (kindsOf x)
      (fun k => k = .symbol .semicolon ∨ k = .symbol .rbrace) x)
    (hn : n ≤ m) :
    Yields (block p n) n (joinKinds .semicolon (xs.map kindsOf) ++ [.symbol .rbrace]) after xs := by
  induction xs generalizing n with
  | nil =>
    cases n with
    | zero => exact .zero
    | succ n =>
      rw [block]
      refine .skipSemicolons (by simp [joinKinds, List.intercalate]) (.peek fun t ht => ?_)
      simp only [ht, if_true]
      exact .next fun _ _ => .pure _
  | cons x xs ih =>
    cases n with
    | zero => exact .zero
    | succ n =>
      have hx := (hp x (List.mem_cons_self ..)).of_le hn
      have hox := ho x (List.mem_cons_self ..)
      have ih := ih (fun z hz => ho z (.tail _ hz)) (fun z hz => hp z (.tail _ hz))
        (by omega) (n := n)
      obtain ⟨k, l, hkl, hk, -⟩ := id hox
      have hb : ∀ ls, Begins (· ≠ .symbol .semicolon) (kindsOf x ++ ls) after := fun ls => hkl ▸ hk
      have hl : n + 1 ≤ n + (kindsOf x).length := by simp [hkl]
      rw [block]
      cases xs with
      | nil =>
        simp only [List.map_cons, List.map_nil, joinKinds_singleton] at ih ⊢
        refine .skipSemicolons (hb _) (.peek_opens hox fun t ht => ?_)
        simp only [ht.2, if_false]
        exact hx.bind (by simp) (ih.map (x :: ·)) hl
      | cons y ys =>
        simp only [List.map_cons, joinKinds_cons, List.append_assoc, List.cons_append] at ih ⊢
        refine .skipSemicolons (hb _) (.peek_opens hox fun t ht => ?_)
        simp only [ht.2, if_false]
        exact hx.bind (by simp) (ih.semicolon_block.map (x :: ·)) hl

end Repetitions

/-! ### Parameters -/

section Names

variable {f : List String → Parser β} {b : β} {close : Symbol} {n m : Nat} {ks : List Token.Kind}
  {after : Token.Kind → Prop}

theorem paramKinds_cons (x : String) (xs : List String) : Expr.paramKinds (x :: xs) =
    .ident x :: xs.flatMap fun x => [.symbol .comma, .ident x] := by
  induction xs generalizing x with
  | nil => rfl
  | cons y ys ih =>
    have ih := ih y
    simp only [Expr.paramKinds, List.map_cons, joinKinds_cons] at ih ⊢
    simp [ih]

theorem andM_true (p : Parser Bool) : (pure !true <&&> p) = pure false := rfl

theorem andM_false (p : Parser Bool) : (pure !false <&&> p) = p := rfl

theorem Yields.names_ident {x : String} (first : Bool)
    (h : Yields (names close n false >>= fun xs => f (x :: xs)) n ks after b) :
    Yields (names close (n + 1) first >>= f) (n + 1) (.ident x :: ks) after b := by
  have hi : Yields (ident >>= fun x => names close n false >>= fun xs => f (x :: xs)) (n + 1)
      (.ident x :: ks) after b := by
    rw [ident, bind_assoc]
    refine .next fun t ht => ?_
    obtain ⟨k, i, j⟩ := t
    obtain rfl : k = .ident x := ht
    simpa using h
  rw [names, bind_assoc]
  refine .nextIs_false (by simp) ?_
  cases first with
  | true =>
    rw [andM_true]
    simpa using hi
  | false =>
    rw [andM_false]
    simp only [Bool.false_eq_true, if_false, bind_assoc]
    refine .nextIs_false (by simp) ?_
    simpa using hi

theorem Yields.names_tail {xs : List String} (hc : close ≠ .comma)
    (h : Yields (f xs) m (.symbol close :: ks) after b) (hn : n ≤ m) :
    Yields (names close n false >>= f) n
      (xs.flatMap (fun x => [.symbol .comma, .ident x]) ++ .symbol close :: ks) after b := by
  induction xs generalizing n f with
  | nil =>
    cases n with
    | zero => exact .zero
    | succ n =>
      rw [names, bind_assoc]
      refine .nextIs_true ?_
      simpa using h.of_le hn
  | cons x xs ih =>
    -- one step takes the comma, the next one the name
    match n with
    | 0 => exact .zero
    | 1 => exact .of_le_length (by simp)
    | n + 2 =>
      rw [names, bind_assoc]
      refine .nextIs_false (by simpa using hc.symm) ?_
      rw [andM_false]
      simp only [Bool.false_eq_true, if_false, bind_assoc]
      refine .nextIs_true ?_
      simp only [if_true, bind_assoc]
      exact .next fun _ _ => .names_ident false (ih h (by omega))

theorem Yields.names {xs : List String} (hc : close ≠ .comma)
    (h : Yields (f xs) n (.symbol close :: ks) after b) :
    Yields (names close n true >>= f) n (Expr.paramKinds xs ++ .symbol close :: ks) after b := by
  cases n with
  | zero => exact .zero
  | succ n =>
    cases xs with
    | nil =>
      rw [Parser.names, bind_assoc]
      refine .nextIs_true ?_
      simpa using h
    | cons x xs =>
      rw [paramKinds_cons]
      exact .names_ident true (.names_tail hc h (Nat.le_succ n))

end Names

end YeetYoink.Parser
