import YeetYoink.Proofs.Decimal.RoundTrip
import YeetYoink.Proofs.Parser.Yields

/-!
# Parsing the tokens of a printed expression

Tokens of the kinds `e.kinds` are parsed as `e` (`reads_kinds`). After an operand the parser goes on
with the operators that follow, so the induction is over `Continues`: on the tokens of `e` and
whatever comes after them, the parser does what it does after the operand `e`. Only calls use the
tokens that come after; every other operator is printed in parentheses.
-/

namespace YeetYoink.Expr

open YeetYoink.Parser

/-- A kind at which an expression that is read at this level ends. -/
def Ends (level : Level) (k : Token.Kind) : Prop :=
  k ≠ .keyword .yels ∧ ∀ s, k = .symbol s → (Level.ofSymbol s).rank ≤ level.rank

def Continues (e : Expr) : Prop :=
  ∀ ⦃n : Nat⦄ ⦃level : Level⦄ ⦃ks : List Token.Kind⦄ ⦃after : Token.Kind → Prop⦄ ⦃b : Expr⦄,
    level.rank < Level.call.rank → Begins (· ≠ .keyword .yels) ks after →
    (∀ m ≤ n, Yields (operations (expression n) level m e) m ks after b) →
    Yields (expression (n + 1) level) (n + 1) (e.kinds ++ ks) after b

def Reads (e : Expr) : Prop :=
  ∀ ⦃n : Nat⦄ ⦃level : Level⦄, level.rank < Level.call.rank →
    Yields (expression n level) n e.kinds (Ends level) e

/-- The expression is what its first token makes of those after it. -/
def IsOperand (e : Expr) : Prop :=
  ∃ k ks, e.kinds = k :: ks ∧ ∀ (n : Nat) (t : Token), t.kind = k →
    Yields (operand (expression n) n t) n ks (· ≠ .keyword .yels) e

theorem operations_ends {inner : Inner} {level : Level} {n : Nat} {e : Expr} :
    Yields (operations inner level n e) n [] (Ends level) e := by
  cases n with
  | zero => exact .zero
  | succ n =>
    intro ts rest hts ha _
    obtain rfl := List.map_eq_nil_iff.1 hts
    match rest, ha with
    | [], _ => rfl
    | ⟨k, i, j⟩ :: ts, ha =>
      have he : Ends level k := ha _ rfl
      cases k with
      | symbol s =>
        have : ¬ level.rank < (Level.ofSymbol s).rank := Nat.not_lt.2 (he.2 s rfl)
        change (if level.rank < (Level.ofSymbol s).rank then _ else _ : Parser Expr) _ = _
        rw [if_neg this]
        rfl
      | _ => rfl

/-- One operator after an operand, and what the parser makes of the operand. -/
theorem operations_step {inner : Inner} {level : Level} {n : Nat} {e left : Expr} {s : Symbol}
    {ks ls : List Token.Kind} {before after : Token.Kind → Prop} {b : Expr}
    (hs : level.rank < (Level.ofSymbol s).rank)
    (ho : ∀ t : Token, Yields (operation inner n t s e) n ks before left)
    (hb : Begins before ls after) (h : Yields (operations inner level n left) n ls after b) :
    Yields (operations inner level (n + 1) e) (n + 1) (.symbol s :: ks ++ ls) after b := by
  rw [operations]
  refine .peek fun t ht => ?_
  obtain ⟨k, i, j⟩ := t
  obtain rfl : k = .symbol s := ht
  simp only [hs, if_true]
  exact .next fun _ _ => (ho _).bind hb h (Nat.le_add_right ..)

theorem Continues.reads {e : Expr} (h : e.Continues) : e.Reads := by
  intro n level hl
  cases n with
  | zero => exact .zero
  | succ n =>
    rw [← List.append_nil e.kinds]
    exact h hl (fun k hk => hk.1) fun m _ => operations_ends

theorem IsOperand.continues {e : Expr} (h : e.IsOperand) : e.Continues := by
  obtain ⟨k, ks, hk, h⟩ := h
  intro n level ls after b _ hb hc
  rw [hk, expression, List.cons_append]
  exact .next fun t ht => (h n t ht).bind hb (hc n n.le_refl) (Nat.le_add_right ..)

/-! ### Operators in parentheses -/

theorem ends_rparen (level : Level) (k : Token.Kind) (hk : k = .symbol .rparen) : Ends level k := by
  subst hk
  exact ⟨by simp, by rintro _ ⟨⟩; exact Nat.zero_le _⟩

theorem isOperand_paren {e : Expr} (ks : List Token.Kind)
    (hk : e.kinds = .symbol .lparen :: ks ++ [.symbol .rparen])
    (h : ∀ n, Yields (expression n .lowest) n ks (· = .symbol .rparen) e) : e.IsOperand := by
  refine ⟨_, _, hk, fun n t ht => ?_⟩
  simp only [operand, ht]
  exact (h n).bind rfl (.expect_bind (.pure e)) (Nat.le_add_right ..)

theorem isOperand_infix {left e : Expr} {s : Symbol} (ks : List Token.Kind) (hl : left.Continues)
    (hk : e.kinds = .symbol .lparen :: left.kinds ++ .symbol s :: ks ++ [.symbol .rparen])
    (hs : Level.lowest.rank < (Level.ofSymbol s).rank)
    (ho : ∀ n m t, m ≤ n →
      Yields (operation (expression n) m t s left) m ks (· = .symbol .rparen) e) :
    e.IsOperand := by
  refine isOperand_paren (left.kinds ++ .symbol s :: ks) (by simpa using hk) fun n => ?_
  cases n with
  | zero => exact .zero
  | succ n =>
    refine hl (by decide) (by simp) fun m hm => ?_
    cases m with
    | zero => exact .zero
    | succ m =>
      rw [← List.append_nil (.symbol s :: ks)]
      exact operations_step hs (fun t => ho n m t (by omega)) (fun _ hk => hk)
        (operations_ends.mono m.le_refl (ends_rparen _))

/-- An operator whose right operand is read at a level. -/
theorem isOperand_operator {left right : Expr} {s : Symbol} (level : Level) (make : Expr → Expr)
    (hl : left.Continues) (hr : right.Reads) (hv : level.rank < Level.call.rank)
    (hs : Level.lowest.rank < (Level.ofSymbol s).rank)
    (ho : ∀ (inner : Inner) m t,
      operation inner m t s left = inner level >>= fun x => pure (make x))
    (hk : (make right).kinds =
      .symbol .lparen :: left.kinds ++ .symbol s :: right.kinds ++ [.symbol .rparen]) :
    (make right).IsOperand := by
  refine isOperand_infix right.kinds hl hk hs fun n m t hm => ?_
  rw [ho]
  exact ((hr hv).mono hm (ends_rparen _)).map make

theorem isOperand_binary {op : BinaryOp} {left right : Expr} (hl : left.Continues)
    (hr : right.Reads) :
    (Expr.binary op left right).IsOperand :=
  isOperand_operator (s := op.symbol) (Level.ofSymbol op.symbol) (.binary op left) hl hr
    (by cases op <;> decide) (by cases op <;> decide) (fun _ _ _ => by cases op <;> rfl)
    (by rw [kinds])

theorem isOperand_assign {kind : AssignKind} {target value : Expr} (ht : IsTarget kind target)
    (hl : target.Continues) (hr : value.Reads) : (Expr.assign kind target value).IsOperand := by
  refine isOperand_operator (s := kind.symbol) .lowest (.assign kind target) hl hr (by decide)
    (by cases kind <;> decide) (fun inner m t => ?_) (by rw [kinds])
  have hv : validTarget kind.symbol target = true := by
    cases kind <;> cases target <;> first | rfl | exact ht.elim
  have ho : operation inner m t kind.symbol target = assignment inner t kind.symbol target := by
    cases kind <;> rfl
  rw [ho, assignment, if_pos hv]
  cases kind <;> rfl

theorem isOperand_index {container key : Expr} (hl : container.Continues) (hr : key.Reads) :
    (Expr.index container key).IsOperand := by
  refine isOperand_infix (s := .lbracket) (key.kinds ++ [.symbol .rbracket]) hl (by simp [kinds])
    (by decide) fun n m t hm => ?_
  have hk : Begins (Ends .lowest) [.symbol .rbracket] (· = .symbol .rparen) :=
    ⟨by simp, by rintro _ ⟨⟩; exact Nat.zero_le _⟩
  exact ((hr (by decide)).of_le hm).bind hk (.expect_bind (.pure _)) (Nat.le_add_right ..)

/-- An operator before its operand, read up to the closing parenthesis. -/
theorem isOperand_leading {e : Expr} {k : Token.Kind} (ks : List Token.Kind)
    (hk : e.kinds = .symbol .lparen :: k :: ks ++ [.symbol .rparen])
    (h : ∀ n t, t.kind = k → Yields (operand (expression n) n t) n ks (· = .symbol .rparen) e) :
    e.IsOperand := by
  refine isOperand_paren (k :: ks) hk fun n => ?_
  cases n with
  | zero => exact .zero
  | succ n =>
    rw [expression, ← List.append_nil ks]
    refine .next fun t ht => (h n t ht).bind (fun _ hk => hk) ?_ (Nat.le_add_right ..)
    exact operations_ends.mono n.le_refl (ends_rparen _)

theorem isOperand_unary {op : UnaryOp} {operand : Expr} (h : operand.Reads) :
    (Expr.unary op operand).IsOperand := by
  refine isOperand_leading (k := .symbol op.symbol) operand.kinds (by simp [kinds]) fun n t ht => ?_
  have hop : Parser.operand (expression n) n t =
      expression n .unary >>= fun x => pure (.unary op x) := by
    cases op <;> simp only [Parser.operand, ht, UnaryOp.symbol]
  rw [hop]
  exact ((h (by decide)).mono n.le_refl (ends_rparen _)).map _

/-! ### The first token -/

/-- A kind that an expression starts with when it is printed. -/
def startsOperand : Token.Kind → Bool
  | .ident _ | .int _ | .float _ | .string _ | .template _ | .templateHead _ => true
  | .keyword k => k ≠ .yels
  | .symbol s =>
    s = .lparen || s = .lbracket || s = .percentBrace || s = .lbrace || s = .backslash ||
    s = .atBackslash
  | _ => false

theorem opens_kinds {e : Expr} (h : e.Throughout Readable) :
    Opens (fun k => startsOperand k = true ∧ (k = .symbol .lbrace → e.opensBlock = true))
      e.kinds := by
  induction e using Expr.induct with
  | call callee args ih _ =>
    obtain ⟨k, l, hk, hs⟩ := ih (h.child (by simp [children]))
    exact ⟨k, l ++ _, by simp only [kinds, hk, List.cons_append, List.append_assoc]; rfl, hs⟩
  | bad t => exact h.here.elim
  | template text values =>
    rw [kinds]
    cases hs : (Template.segments (Template.pieces text.toList)).2 <;>
      simp [Opens, templateKinds, startsOperand]
  | bool b => cases b <;> exact ⟨_, _, rfl, rfl, by rintro ⟨⟩⟩
  | block body => exact ⟨_, _, rfl, rfl, fun _ => rfl⟩
  | _ => exact ⟨_, _, rfl, rfl, by rintro ⟨⟩⟩

theorem Opens.mono {p q : Token.Kind → Prop} {ks : List Token.Kind} (h : Opens p ks)
    (hpq : ∀ k, p k → q k) : Opens q ks := by
  obtain ⟨k, l, rfl, hk⟩ := h
  exact ⟨k, l, rfl, hpq k hk⟩

theorem opens_ne {e : Expr} (h : e.Throughout Readable) {k : Token.Kind}
    (hk : startsOperand k = false) :
    Opens (· ≠ k) e.kinds :=
  Opens.mono (opens_kinds h) fun l hl => by
    rintro rfl
    simp [hk] at hl

/-! ### Constructs -/

theorem ends_lowest {s : Symbol} (h : Level.ofSymbol s = .lowest) : Ends .lowest (.symbol s) :=
  ⟨by simp, by rintro _ ⟨⟩; exact Nat.le_of_eq (congrArg _ h)⟩

theorem yields_expressions {xs : List Expr} (hx : ∀ x ∈ xs, x.Throughout Readable)
    (hr : ∀ x ∈ xs, x.Reads)
    {close : Symbol} (hc : close ≠ .comma) (hs : startsOperand (.symbol close) = false)
    (hl : Level.ofSymbol close = .lowest) {n m : Nat} (hn : n ≤ m) {after : Token.Kind → Prop} :
    Yields (sequence (expression m .lowest) close n) n
      (joinKinds .comma (kindsAll xs) ++ [.symbol close]) after xs := by
  rw [kindsAll_eq]
  refine yields_sequence hc (fun x h => opens_ne (hx x h) hs) (fun x h => ?_) hn
  refine (hr x h (by decide)).mono m.le_refl ?_
  rintro k (rfl | rfl)
  · exact ends_lowest rfl
  · exact ends_lowest hl

theorem yields_statements {xs : List Expr} (hx : ∀ x ∈ xs, x.Throughout Readable)
    (hr : ∀ x ∈ xs, x.Reads) {n m : Nat} (hn : n ≤ m) {after : Token.Kind → Prop} :
    Yields (Parser.block (expression m .lowest) n) n
      (joinKinds .semicolon (kindsAll xs) ++ [.symbol .rbrace]) after xs := by
  rw [kindsAll_eq]
  refine yields_block (fun x h => ?_) (fun x h => ?_) hn
  · obtain ⟨k, l, hk, hs, -⟩ := opens_kinds (hx x h)
    exact ⟨k, l, hk, by rintro rfl; simp [startsOperand] at hs,
      by rintro rfl; simp [startsOperand] at hs⟩
  · refine (hr x h (by decide)).mono m.le_refl ?_
    rintro k (rfl | rfl) <;> exact ends_lowest rfl

theorem yields_body {xs : List Expr} (hx : ∀ x ∈ xs, x.Throughout Readable) (hr : ∀ x ∈ xs, x.Reads)
    {n m : Nat} (hn : n ≤ m) {after : Token.Kind → Prop} :
    Yields (bracedBlock (expression m .lowest) n) n (blockKinds (kindsAll xs)) after xs :=
  .expect_bind (yields_statements hx hr hn)

/-- The rest of a template at a value: the value is read, and the token after it says how to go on.
-/
theorem templateRest_value {inner : Inner} {n m : Nat} {v : Expr} {ks : List Token.Kind}
    {k : Token.Kind}
    {before after : Token.Kind → Prop} {b : List Expr × List Char} (hx : v.Throughout Readable)
    (hv : Yields (inner .lowest) m v.kinds before v) (hn : n < m) (hb : before k)
    (h : ∀ t : Token, t.kind = k → Yields (match some t with
      | some ⟨.templateMiddle text, _, _⟩ => do
        let (xs, rest) ← templateRest inner n
        return (v :: xs, Template.hole ++ Template.literal text.toList ++ rest)
      | some ⟨.templateTail text, _, _⟩ =>
        return ([v], Template.hole ++ Template.literal text.toList)
      | t => unexpected .templateContinuation t) n ks after b) :
    Yields (templateRest inner (n + 1)) (n + 1) (v.kinds ++ k :: ks) after b := by
  rw [templateRest]
  refine .peek_opens (opens_kinds hx) fun t ht => ?_
  obtain ⟨k, i, j⟩ := t
  cases k with
  | templateMiddle _ => exact absurd ht.1 (by simp [startsOperand])
  | templateTail _ => exact absurd ht.1 (by simp [startsOperand])
  | _ => exact (hv.of_le hn).bind (begins_cons.2 hb) (.next h) (Nat.le_add_right ..)

theorem yields_templateRest {values : List Expr} {tails : List (List Char)}
    (hx : ∀ v ∈ values, v.Throughout Readable) (hr : ∀ v ∈ values, v.Reads)
    (hl : tails.length = values.length) (hne : values ≠ []) {n m : Nat} (hn : n ≤ m)
    {after : Token.Kind → Prop} :
    Yields (templateRest (expression m) n) n (holeKinds tails (values.map kinds)) after
      (values, tails.flatMap fun t => Template.hole ++ Template.literal t) := by
  induction values generalizing tails n with
  | nil => exact absurd rfl hne
  | cons v values ih =>
    cases n with
    | zero => exact .zero
    | succ n =>
      have hv : Yields (expression m .lowest) m v.kinds (Ends .lowest) v :=
        hr v (List.mem_cons_self ..) (by decide)
      match tails, values with
      | [], _ => simp at hl
      | _ :: _ :: _, [] => simp at hl
      | [_], _ :: _ => simp at hl
      | [t], [] =>
        refine templateRest_value (hx v (List.mem_cons_self ..)) hv hn ⟨by simp, nofun⟩
          fun u hu => ?_
        obtain ⟨k, i, j⟩ := u
        obtain rfl : k = .templateTail (String.ofList t) := hu
        simpa using .pure _
      | t :: u :: tails, w :: values =>
        refine templateRest_value (hx v (List.mem_cons_self ..)) hv hn ⟨by simp, nofun⟩
          fun x hx' => ?_
        obtain ⟨k, i, j⟩ := x
        obtain rfl : k = .templateMiddle (String.ofList t) := hx'
        have ih : Yields _ n (holeKinds (u :: tails) _) _ _ :=
          ih (fun v h => hx v (.tail _ h)) (fun v h => hr v (.tail _ h))
            (by simpa using hl) (by simp)
            (by omega)
        simpa using ih.map fun r => (v :: r.1, Template.hole ++ Template.literal t ++ r.2)

theorem isOperand_template {text : String} {values : List Expr} (ht : IsTemplate text values.length)
    (hx : ∀ v ∈ values, v.Throughout Readable) (hr : ∀ v ∈ values, v.Reads) :
    (Expr.template text values).IsOperand := by
  obtain ⟨head, tails, rfl, hl, -, -⟩ := ht
  have hk : (Expr.template (String.ofList (Template.encode head tails)) values).kinds =
      templateKinds head tails (values.map kinds) := by
    simp only [kinds, String.toList_ofList, Template.segments_encode, kindsAll_eq]
  cases tails with
  | nil =>
    obtain rfl : values = [] := List.length_eq_zero_iff.1 hl.symm
    refine ⟨_, _, hk, fun n t ht => ?_⟩
    simp only [operand, ht]
    simpa [Template.encode] using .pure _
  | cons t tails =>
    refine ⟨_, _, hk, fun n u hu => ?_⟩
    simp only [operand, hu]
    rw [Parser.template, String.toList_ofList]
    have hne : values ≠ [] := by rintro rfl; simp at hl
    exact (yields_templateRest hx hr hl hne n.le_refl).map fun r =>
      Expr.template (String.ofList (Template.literal head ++ r.2)) r.1

theorem isOperand_dict {pairs : List (Expr × Expr)}
    (hx : ∀ p ∈ pairs, p.1.Throughout Readable ∧ p.2.Throughout Readable)
    (hr : ∀ p ∈ pairs, p.1.Reads ∧ p.2.Reads) : (Expr.dict pairs).IsOperand := by
  refine ⟨_, _, by rw [kinds]; rfl, fun n t ht => ?_⟩
  simp only [operand, ht]
  refine Yields.map ?_ _
  rw [kindsPairs_eq]
  refine yields_sequence (m := n) (by decide) (fun p hp => ?_) (fun p hp => ?_) n.le_refl
  · obtain ⟨k, l, hk, hs⟩ := opens_ne (hx p hp).1 (k := .symbol .rbrace) rfl
    exact ⟨k, _, by rw [hk]; rfl, hs⟩
  · rw [dictPair]
    refine ((hr p hp).1 (by decide)).bind (ends_lowest rfl) (.expect_bind ?_) (Nat.le_add_right ..)
    refine (((hr p hp).2 (by decide)).mono n.le_refl ?_).map _
    rintro k (rfl | rfl) <;> exact ends_lowest rfl

theorem length_kinds_pos {e : Expr} (h : e.Throughout Readable) : 0 < e.kinds.length := by
  obtain ⟨k, l, hk, -⟩ := opens_kinds h
  simp [hk]

theorem isOperand_yif {condition : Expr} {body : List Expr} (ho : condition.Throughout Readable)
    (hc : condition.Reads) (hx : ∀ x ∈ body, x.Throughout Readable) (hr : ∀ x ∈ body, x.Reads) :
    (Expr.yif condition body none).IsOperand := by
  refine ⟨_, _, by rw [kinds]; rfl, fun n t ht => ?_⟩
  simp only [operand, ht]
  cases n with
  | zero => exact .zero
  | succ n =>
    have hl := length_kinds_pos ho
    rw [conditional, ← List.append_nil (blockKinds _)]
    refine (hc (by decide)).bind (m := n) (ends_lowest rfl) ?_ (by omega)
    refine (yields_body hx hr n.le_succ).bind (fun _ hk => hk) ?_ (Nat.le_add_right ..)
    exact .accept_false (fun _ hk => hk) (.pure _)

theorem isOperand_yifElse {condition : Expr} {body otherwise : List Expr}
    (ho : condition.Throughout Readable) (hc : condition.Reads)
    (hx : ∀ x ∈ body, x.Throughout Readable) (hr : ∀ x ∈ body, x.Reads)
    (hy : ∀ x ∈ otherwise, x.Throughout Readable) (hs : ∀ x ∈ otherwise, x.Reads) :
    (Expr.yif condition body (some otherwise)).IsOperand := by
  refine ⟨_, _, by rw [kinds, List.cons_append, List.cons_append], fun n t ht => ?_⟩
  simp only [operand, ht]
  cases n with
  | zero => exact .zero
  | succ n =>
    have hl := length_kinds_pos ho
    rw [conditional, List.append_assoc]
    refine (hc (by decide)).bind (m := n) (ends_lowest rfl) ?_ (by omega)
    have hb : Yields _ n _ (fun _ => True) body := yields_body hx hr n.le_succ
    refine hb.bind trivial ?_ (Nat.le_add_right ..)
    refine (Yields.accept_true ?_).of_le n.le_succ
    exact .accept_false (by simp [blockKinds]) ((yields_body hy hs n.le_succ).map _)

theorem isOperand_yoyo {condition : Expr} {body : List Expr} (ho : condition.Throughout Readable)
    (hc : condition.Reads) (hb : condition.opensBlock = false)
    (hx : ∀ x ∈ body, x.Throughout Readable) (hr : ∀ x ∈ body, x.Reads) :
    (Expr.yoyo condition body).IsOperand := by
  refine ⟨_, _, by rw [kinds]; rfl, fun n t ht => ?_⟩
  simp only [operand, ht]
  rw [loop]
  obtain ⟨k, l, hk, -, hs⟩ := opens_kinds ho
  refine .nextIs_false ?_ ?_
  · rw [hk]
    rintro rfl
    simp [hs] at hb
  · exact (hc (by decide)).bind (ends_lowest rfl) ((yields_body hx hr n.le_refl).map _)
      (Nat.le_add_right ..)

theorem isOperand_yall {key : String} {source : Expr} {body : List Expr} (hc : source.Reads)
    (hi : (Expr.ident key).Reads)
    (hx : ∀ x ∈ body, x.Throughout Readable) (hr : ∀ x ∈ body, x.Reads) :
    (Expr.yall key source body).IsOperand := by
  refine ⟨_, _, by rw [kinds]; rfl, fun n t ht => ?_⟩
  simp only [operand, ht]
  rw [iteration]
  refine (hi (by decide)).bind (ends_lowest rfl) ?_ (Nat.le_add_right ..)
  refine (Yields.accept_true ?_).of_le n.le_succ
  exact (hc (by decide)).bind (ends_lowest rfl) ((yields_body hx hr n.le_refl).map _)
    (Nat.le_add_right ..)

theorem isOperand_yeet {value : Expr} (ho : value.Throughout Readable) (h : value.Reads) :
    (Expr.yeet value).IsOperand := by
  refine isOperand_leading (k := .keyword .yeet) value.kinds (by simp [kinds]) fun n t ht => ?_
  simp only [operand, ht]
  rw [Parser.yeet, ← List.append_nil value.kinds]
  refine .peek_opens (opens_kinds ho) fun u hu => ?_
  have he : endsYeet u.kind = false := by
    simp only [endsYeet, Bool.or_eq_false_iff, decide_eq_false_iff_not]
    refine ⟨⟨?_, ?_⟩, ?_⟩ <;> (intro hk; rw [hk] at hu; exact absurd hu.1 (by decide))
  rw [List.append_nil, Option.all_some, if_neg (by simp [he])]
  exact ((h (by decide)).mono n.le_refl (ends_rparen _)).map _

theorem yields_paramsAndBody {params : List String} {body : List Expr}
    (hx : ∀ x ∈ body, x.Throughout Readable) (hr : ∀ x ∈ body, x.Reads) {n : Nat}
    {after : Token.Kind → Prop} :
    Yields (paramsAndBody (expression n) n) n
      (paramKinds params ++ blockKinds (kindsAll body)) after (params, body) := by
  rw [paramsAndBody]
  refine .accept_false ?_ ?_
  · cases params with
    | nil => exact fun h => Symbol.noConfusion (Token.Kind.symbol.inj h)
    | cons p ps => simp [paramKinds_cons]
  · exact .names (by decide) ((yields_body hx hr n.le_refl).map _)

/-- A construct that is its first token and a wrapped part. -/
theorem isOperand_map {α : Type} {e : Expr} {k : Token.Kind} {ks : List Token.Kind}
    {p : Nat → Parser α} {a : α} {f : α → Expr} (he : e = f a) (hk : e.kinds = k :: ks)
    (ho : ∀ n t, t.kind = k → operand (expression n) n t = p n >>= fun a => pure (f a))
    (h : ∀ n, Yields (p n) n ks (· ≠ .keyword .yels) a) : e.IsOperand := by
  subst he
  refine ⟨k, ks, hk, fun n t ht => ?_⟩
  rw [ho n t ht]
  exact (h n).map f

section

variable {xs : List Expr} (hx : ∀ x ∈ xs, x.Throughout Readable) (hr : ∀ x ∈ xs, x.Reads)
include hx hr

theorem isOperand_array : (Expr.array xs).IsOperand := by
  refine isOperand_map (f := .array) rfl (by rw [kinds]; rfl)
    (fun n t ht => by simp only [operand, ht])
    fun n => yields_expressions hx hr (by decide) rfl rfl n.le_refl

theorem isOperand_block : (Expr.block xs).IsOperand := by
  refine isOperand_map (f := .block) rfl (by rw [kinds]; rfl)
    (fun n t ht => by simp only [operand, ht])
    fun n => yields_statements hx hr n.le_refl

theorem isOperand_yolo : (Expr.yolo xs).IsOperand := by
  refine isOperand_map (f := .yolo) rfl (by rw [kinds]) (fun n t ht => by simp only [operand, ht])
    fun n => yields_body hx hr n.le_refl

theorem isOperand_lambda {params : List String} : (Expr.lambda params xs).IsOperand := by
  refine isOperand_map (f := fun r => .lambda r.1 r.2) rfl (by rw [kinds]; rfl)
    (fun n t ht => by simp only [operand, ht])
    fun n => yields_paramsAndBody hx hr

theorem isOperand_macroLit {params : List String} : (Expr.macroLit params xs).IsOperand := by
  refine isOperand_map (f := fun r => .macroLit r.1 r.2) rfl (by rw [kinds]; rfl)
    (fun n t ht => by simp only [operand, ht])
    fun n => yields_paramsAndBody hx hr

end

/-! ### Expressions -/

theorem continues_call {callee : Expr} {args : List Expr} (hc : callee.Continues)
    (hx : ∀ x ∈ args, x.Throughout Readable) (hr : ∀ x ∈ args, x.Reads) :
    (Expr.call callee args).Continues := by
  intro n level ks after b hl hb h
  have hk : (Expr.call callee args).kinds ++ ks = callee.kinds ++
      (.symbol .lparen :: (joinKinds .comma (kindsAll args) ++ [.symbol .rparen]) ++ ks) := by
    simp [kinds]
  rw [hk]
  refine hc hl (by simp) fun m hm => ?_
  cases m with
  | zero => exact .zero
  | succ m =>
    refine operations_step hl (fun t => ?_) hb (h m (by omega))
    exact (yields_expressions hx hr (by decide) rfl rfl (by omega)).map _

theorem isOperand_ident (name : String) : (Expr.ident name).IsOperand := by
  refine ⟨_, _, rfl, fun n t ht => ?_⟩
  simp only [operand, ht]
  exact .pure _

/-- Tokens that the parser takes as they are. -/
theorem isOperand_of_single {e : Expr} (k : Token.Kind) (hk : e.kinds = [k])
    (h : ∀ inner n t, t.kind = k → operand inner n t = pure e) : e.IsOperand := by
  refine ⟨k, [], hk, fun n t ht => ?_⟩
  rw [h _ _ _ ht]
  exact .pure e

theorem continues_kinds {e : Expr} (h : e.Throughout Printable) : e.Continues := by
  induction e using Expr.inductChildren with
  | step e ih =>
    have hp : Printable e := h.here
    have hx : ∀ c ∈ e.children, c.Throughout Readable :=
      fun c hc => (h.child hc).mono fun _ hp => hp.1.1
    have hc : ∀ c ∈ e.children, c.Continues := fun c hc => ih c hc (h.child hc)
    have hr : ∀ c ∈ e.children, c.Reads := fun c h => (hc c h).reads
    clear ih h
    cases e with
    | call callee args =>
      simp only [children, List.forall_mem_cons] at hx hc hr
      exact continues_call hc.1 hx.2 hr.2
    | ident name => exact (isOperand_ident name).continues
    | int n =>
      refine (isOperand_of_single (.int _) (by rw [kinds]) fun inner m t ht => ?_).continues
      simp only [operand, ht, Decimal.toInt64?_ofInt64]
    | num x =>
      obtain ⟨b, hb, hs⟩ := hp.1.decode
      refine (isOperand_of_single (.float _) (by rw [kinds]) fun inner m t ht => ?_).continues
      simp only [operand, ht, Decimal.toFloat?_ofFloat hb hs]
    | bool b =>
      refine (isOperand_of_single (.keyword _) (by rw [kinds]) fun inner m t ht => ?_).continues
      cases b <;> simp only [operand, ht] <;> rfl
    | null =>
      refine (isOperand_of_single (.keyword .null) (by rw [kinds]) fun inner m t ht => ?_).continues
      simp only [operand, ht]
    | str text =>
      refine (isOperand_of_single (.string text) (by rw [kinds]) fun inner m t ht => ?_).continues
      simp only [operand, ht]
    | template text values => exact (isOperand_template hp.1.1 hx hr).continues
    | array items => exact (isOperand_array hx hr).continues
    | dict pairs =>
      have hm : ∀ p ∈ pairs, p.1 ∈ (Expr.dict pairs).children ∧ p.2 ∈ (Expr.dict pairs).children :=
        fun p hp => ⟨List.mem_flatMap.2 ⟨p, hp, by simp⟩, List.mem_flatMap.2 ⟨p, hp, by simp⟩⟩
      exact (isOperand_dict (fun p hp => ⟨hx _ (hm p hp).1, hx _ (hm p hp).2⟩)
        fun p hp => ⟨hr _ (hm p hp).1, hr _ (hm p hp).2⟩).continues
    | range first last =>
      simp only [children, List.forall_mem_cons] at hc hr
      exact (isOperand_operator (s := .dotDot) .range (.range first) hc.1 hr.2.1 (by decide)
        (by decide)
        (fun _ _ _ => rfl) (by rw [kinds])).continues
    | unary op operand =>
      simp only [children, List.forall_mem_cons] at hr
      exact (isOperand_unary hr.1).continues
    | binary op left right =>
      simp only [children, List.forall_mem_cons] at hc hr
      exact (isOperand_binary hc.1 hr.2.1).continues
    | and left right =>
      simp only [children, List.forall_mem_cons] at hc hr
      exact (isOperand_operator (s := .ampAmp) .and (.and left) hc.1 hr.2.1 (by decide) (by decide)
        (fun _ _ _ => rfl) (by rw [kinds])).continues
    | or left right =>
      simp only [children, List.forall_mem_cons] at hc hr
      exact (isOperand_operator (s := .pipePipe) .or (.or left) hc.1 hr.2.1 (by decide) (by decide)
        (fun _ _ _ => rfl) (by rw [kinds])).continues
    | index container key =>
      simp only [children, List.forall_mem_cons] at hc hr
      exact (isOperand_index hc.1 hr.2.1).continues
    | assign kind target value =>
      simp only [children, List.forall_mem_cons] at hc hr
      exact (isOperand_assign hp.1.1 hc.1 hr.2.1).continues
    | block body => exact (isOperand_block hx hr).continues
    | yif condition body otherwise =>
      cases otherwise with
      | none =>
        simp only [children, List.forall_mem_cons] at hx hr
        exact (isOperand_yif hx.1 hr.1 hx.2 hr.2).continues
      | some otherwise =>
        simp only [children, List.forall_mem_cons, List.forall_mem_append] at hx hr
        exact (isOperand_yifElse hx.1 hr.1 hx.2.1 hr.2.1 hx.2.2 hr.2.2).continues
    | yoyo condition body =>
      simp only [children, List.forall_mem_cons] at hx hr
      exact (isOperand_yoyo hx.1 hr.1 hp.2 hx.2 hr.2).continues
    | yall key source body =>
      simp only [children, List.forall_mem_cons] at hx hr
      exact (isOperand_yall hr.1 (isOperand_ident key).continues.reads hx.2 hr.2).continues
    | yeet value =>
      simp only [children, List.forall_mem_cons] at hx hr
      exact (isOperand_yeet hx.1 hr.1).continues
    | yolo body => exact (isOperand_yolo hx hr).continues
    | lambda params body => exact (isOperand_lambda hx hr).continues
    | macroLit params body => exact (isOperand_macroLit hx hr).continues
    | bad t => exact hp.1.1.elim

end YeetYoink.Expr
