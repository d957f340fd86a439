import YeetYoink.Proofs.Expr.Lexing
import YeetYoink.Proofs.Expr.Parsing

/-!
# Expressions with the fewest parentheses

The operators stand on a ladder (`Rung`), the loosest at the bottom. `Expr.terse` writes an
expression made of operators with parentheses only where the ladder asks for them: around an operand
that stands lower than its operator, and around a right operand that stands just as high, since
operators between two operands are read from the left. An assignment that is an operand always has
them, and arguments, keys and assigned values never do.

The levels of the parser are in the order of the rungs (`Rung.height_lt_iff`). The text is read as
its tokens (`spells_terse`), and these are parsed as the expression (`parsed_terse`).
-/

namespace YeetYoink

/-- The ladder of operators. Calls and elements are at the top, with what has no operator outside.
-/
inductive Rung where
  | assignment
  | or
  | and
  | equality
  | order
  | range
  | sum
  | product
  | sign
  | top
  deriving DecidableEq, Repr

def Rung.height : Rung → Nat
  | assignment => 0
  | or => 1
  | and => 2
  | equality => 3
  | order => 4
  | range => 5
  | sum => 6
  | product => 7
  | sign => 8
  | top => 9

/-- Where an operator between two operands stands on the ladder. -/
def BinaryOp.rung : BinaryOp → Rung
  | equal | notEqual => .equality
  | less | lessEqual | greater | greaterEqual | push => .order
  | plus | minus => .sum
  | times | divide | modulo => .product

namespace Expr

/-- Where the outermost operator of an expression stands on the ladder. -/
def rung : Expr → Rung
  | .assign _ _ _ => .assignment
  | .or _ _ => .or
  | .and _ _ => .and
  | .binary op _ _ => op.rung
  | .range _ _ => .range
  | .unary _ _ => .sign
  | _ => .top

/-- A name, a number without a sign, or an operator. -/
def Operative : Expr → Prop
  | .ident name => IsName name
  | .int n => 0 ≤ n.toInt
  | .assign kind target _ => IsTarget kind target
  | .unary _ _ | .binary _ _ _ | .and _ _ | .or _ _ | .range _ _ | .index _ _ | .call _ _ => True
  | _ => False

def parens (needed : Bool) (text : String) : String := if needed then "(" ++ text ++ ")" else text

/-- Two operands with a sign between them. The left one may stand on the rung of the operator. -/
def operatorText (rung : Rung) (sign : String) (left right : Expr) (l r : String) : String :=
  parens (left.rung.height < rung.height) l ++ sign ++ parens (right.rung.height ≤ rung.height) r

mutual

def terse : Expr → String
  | .unary op x => op.text ++ parens (x.rung.height < Rung.sign.height) x.terse
  | .binary op l r => operatorText op.rung (" " ++ op.text ++ " ") l r l.terse r.terse
  | .and l r => operatorText .and " && " l r l.terse r.terse
  | .or l r => operatorText .or " || " l r l.terse r.terse
  | .range l r => operatorText .range ".." l r l.terse r.terse
  | .index c k => parens (c.rung.height < Rung.top.height) c.terse ++ "[" ++ k.terse ++ "]"
  | .call c args =>
    parens (c.rung.height < Rung.top.height) c.terse ++ "(" ++ commas (terseAll args) ++ ")"
  | .assign kind target value => target.terse ++ " " ++ kind.text ++ " " ++ value.terse
  | e => e.print

def terseAll : List Expr → List String
  | [] => []
  | x :: xs => x.terse :: terseAll xs

end

theorem terseAll_eq (xs : List Expr) : terseAll xs = xs.map terse := by
  induction xs with
  | nil => rfl
  | cons x xs ih => rw [terseAll, ih, List.map_cons]

/-! ### The tokens -/

def parenKinds (needed : Bool) (ks : List Token.Kind) : List Token.Kind :=
  if needed then .symbol .lparen :: ks ++ [.symbol .rparen] else ks

def operatorKinds (rung : Rung) (s : Symbol) (left right : Expr) (l r : List Token.Kind) :
    List Token.Kind :=
  parenKinds (left.rung.height < rung.height) l ++
    .symbol s :: parenKinds (right.rung.height ≤ rung.height) r

mutual

def terseKinds : Expr → List Token.Kind
  | .unary op x => .symbol op.symbol :: parenKinds (x.rung.height < Rung.sign.height) x.terseKinds
  | .binary op l r => operatorKinds op.rung op.symbol l r l.terseKinds r.terseKinds
  | .and l r => operatorKinds .and .ampAmp l r l.terseKinds r.terseKinds
  | .or l r => operatorKinds .or .pipePipe l r l.terseKinds r.terseKinds
  | .range l r => operatorKinds .range .dotDot l r l.terseKinds r.terseKinds
  | .index c k =>
    parenKinds (c.rung.height < Rung.top.height) c.terseKinds ++
      .symbol .lbracket :: (k.terseKinds ++ [.symbol .rbracket])
  | .call c args =>
    parenKinds (c.rung.height < Rung.top.height) c.terseKinds ++
      .symbol .lparen :: (joinKinds .comma (terseKindsAll args) ++ [.symbol .rparen])
  | .assign kind target value => target.terseKinds ++ .symbol kind.symbol :: value.terseKinds
  | e => e.kinds

def terseKindsAll : List Expr → List (List Token.Kind)
  | [] => []
  | x :: xs => x.terseKinds :: terseKindsAll xs

end

theorem terseKindsAll_eq (xs : List Expr) : terseKindsAll xs = xs.map terseKinds := by
  induction xs with
  | nil => rfl
  | cons x xs ih => rw [terseKindsAll, ih, List.map_cons]

/-! ### Reading the text -/

theorem Spells.parens {text : String} {ks : List Token.Kind} (h : Spells text ks) (needed : Bool) :
    Spells (parens needed text) (parenKinds needed ks) := by
  cases needed with
  | false => exact h
  | true =>
    intro holes rest _
    simp [Expr.parens, parenKinds, h _ _ (Lexer.boundary_rparen _)]

theorem Starts.parens {p : Char → Prop} {text : String} (h : Starts p text) (hp : p '(')
    (needed : Bool) : Starts p (parens needed text) := by
  cases needed with
  | false => exact h
  | true =>
    have ho : Starts p "(" := ⟨'(', [], rfl, hp⟩
    exact (ho.append _).append _

/-- Two operands, with a sign between them that ends the left one. -/
theorem Spells.operator {l r sign : String} {lk rk : List Token.Kind} {s : Symbol}
    (hl : Spells l lk) (hr : Spells r rk) (hb : ∀ cs, Lexer.Boundary (sign.toList ++ cs))
    (hs : ∀ holes cs, Lexer.kinds holes (sign.toList ++ cs) = .symbol s :: Lexer.kinds holes cs) :
    Spells (l ++ sign ++ r) (lk ++ .symbol s :: rk) := by
  intro holes rest hrest
  simp only [String.toList_append, List.append_assoc]
  rw [hl _ _ (hb _), hs, hr _ _ hrest, List.cons_append]

theorem starts_terse {e : Expr} (h : e.Throughout Operative) : Starts (· ≠ '=') e.terse := by
  induction e using Expr.induct with
  | ident name =>
    obtain ⟨c, cs, hname, hc, -⟩ := h.here.1
    exact ⟨c, cs, hname, (firstChar_nameStart hc .null).1⟩
  | int n =>
    obtain ⟨hne, hd⟩ := Decimal.ofInt64_digits h.here
    obtain ⟨c, cs, hcs⟩ := List.exists_cons_of_ne_nil hne
    exact ⟨c, cs, hcs, (firstChar_digit (hd c (by simp [hcs])) .null).1⟩
  | unary op x ih =>
    have hop : Starts (· ≠ '=') op.text := by cases op <;> exact ⟨_, _, rfl, by decide⟩
    exact hop.append _
  | binary op l r ih | and l r ih | or l r ih | range l r ih =>
    have hl := (ih (h.child (by simp [children]))).parens (by decide)
    exact ((hl _).append _).append _
  | index c k ih =>
    have hc := (ih (h.child (by simp [children]))).parens (by decide)
    exact (((hc _).append _).append _).append _
  | call c args ih =>
    have hc := (ih (h.child (by simp [children]))).parens (by decide)
    exact (((hc _).append _).append _).append _
  | assign kind target value ih =>
    have ht := ih (h.child (by simp [children]))
    exact (((ht.append _).append _).append _).append _
  | _ => exact h.here.elim

theorem spells_terse {e : Expr} (h : e.Throughout Operative) : Spells e.terse e.terseKinds := by
  induction e using Expr.induct with
  | ident name => exact spells_name h.here
  | int n =>
    obtain ⟨hne, hd⟩ := Decimal.ofInt64_digits h.here
    intro holes rest hb
    rw [terse, print, Lexer.kinds_digits hne hd hb, String.ofList_toList, terseKinds, kinds]
    · rfl
    all_goals simp
  | unary op x ih =>
    have hx : x.Throughout Operative := h.child (by simp [children])
    intro holes rest hb
    obtain ⟨c, cs, hcs, hne⟩ :=
      (starts_terse hx).parens (by decide) (x.rung.height < Rung.sign.height)
    have h1 := (ih hx).parens (x.rung.height < Rung.sign.height) holes rest hb
    have hop := Lexer.kinds_unaryOp holes (cs ++ rest) op hne
    rw [hcs, List.cons_append] at h1
    rw [terse, String.toList_append, List.append_assoc, hcs, List.cons_append, hop, h1, terseKinds]
    rfl
  | binary op l r ihl ihr =>
    have hl := (ihl (h.child (by simp [children]))).parens
    have hr := (ihr (h.child (by simp [children]))).parens
    refine (hl _).operator (hr _) (fun cs => ?_) fun holes cs => ?_
    · simp
    · simp [Lexer.kinds_binaryOp]
  | and l r ihl ihr | or l r ihl ihr | range l r ihl ihr =>
    have hl := (ihl (h.child (by simp [children]))).parens
    have hr := (ihr (h.child (by simp [children]))).parens
    exact (hl _).operator (hr _) (fun cs => by simp) fun holes cs => by simp
  | index c k ihc ihk =>
    have hc := (ihc (h.child (by simp [children]))).parens
    have hk := ihk (h.child (by simp [children]))
    intro holes rest _
    simp [terse, terseKinds, hc _ _ _ (Lexer.boundary_lbracket _),
      hk _ _ (Lexer.boundary_rbracket _)]
  | call c args ihc ih =>
    have hc := (ihc (h.child (by simp [children]))).parens
    have hj := spells_commas fun x hx => ih x hx (h.child (List.mem_cons_of_mem _ hx))
    intro holes rest _
    simp [terse, terseKinds, terseAll_eq, terseKindsAll_eq, hc _ _ _ (Lexer.boundary_lparen _),
      hj _ _ (Lexer.boundary_rparen _)]
  | assign kind target value iht ihv =>
    have ht := iht (h.child (by simp [children]))
    have hv := ihv (h.child (by simp [children]))
    intro holes rest hb
    simp [terse, terseKinds, ht _ _ (Lexer.boundary_space _), hv _ _ hb, Lexer.kinds_assignKind]
  | _ => exact h.here.elim

end Expr

/-! ### The levels of the parser -/

/-- The level at which the parser reads what stands on a rung. -/
def Rung.level : Rung → Level
  | assignment => .assignment
  | or => .or
  | and => .and
  | equality => .equality
  | order => .order
  | range => .range
  | sum => .sum
  | product => .product
  | sign => .unary
  | top => .index

/-- The parser has the operators in the order of the ladder. -/
theorem Rung.height_lt_iff {a b : Rung} : a.height < b.height ↔ a.level.rank < b.level.rank := by
  cases a <;> cases b <;> decide

theorem Rung.height_le_iff {a b : Rung} : a.height ≤ b.height ↔ a.level.rank ≤ b.level.rank := by
  rw [← Nat.not_lt, height_lt_iff, Nat.not_lt]

theorem BinaryOp.ofSymbol_symbol (op : BinaryOp) : Level.ofSymbol op.symbol = op.rung.level := by
  cases op <;> rfl

namespace Expr

/-! ### Parsing the tokens -/

open YeetYoink.Parser

/-- The tokens `ks` of `e` may stand wherever something at this level may: on these tokens and what
comes after them, a parser for a looser level does what it does after the operand `e`. -/
def Stands (own : Level) (ks : List Token.Kind) (e : Expr) : Prop :=
  ∀ ⦃n : Nat⦄ ⦃level : Level⦄ ⦃ls : List Token.Kind⦄ ⦃after : Token.Kind → Prop⦄ ⦃b : Expr⦄,
    level.rank < Level.call.rank → level.rank < own.rank ∨ own = .unary →
    Begins (Ends own) ls after →
    (∀ m ≤ n, Yields (operations (expression n) level m e) m ls after b) →
    Yields (expression (n + 1) level) (n + 1) (ks ++ ls) after b

/-- The tokens `ks` are read as `e` up to a token that does not bind more tightly than the level. -/
def ReadsAt (level : Level) (ks : List Token.Kind) (e : Expr) : Prop :=
  ∀ n, Yields (expression n level) n ks (Ends level) e

theorem Ends.mono {level level' : Level} {k : Token.Kind} (h : Ends level k)
    (hl : level.rank ≤ level'.rank) : Ends level' k :=
  ⟨h.1, fun s hs => (h.2 s hs).trans hl⟩

theorem ends_symbol {level : Level} {s : Symbol} (h : (Level.ofSymbol s).rank ≤ level.rank) :
    Ends level (.symbol s) :=
  ⟨by simp, by rintro _ ⟨⟩; exact h⟩

theorem Stands.reads {own level : Level} {ks : List Token.Kind} {e : Expr} (h : Stands own ks e)
    (hc : level.rank < Level.call.rank) (hr : level.rank < own.rank ∨ own = .unary)
    (hl : level.rank ≤ own.rank) : ReadsAt level ks e := by
  intro n
  cases n with
  | zero => exact .zero
  | succ n =>
    rw [← List.append_nil ks]
    exact h hc hr (fun k hk => hk.mono hl) fun m _ => operations_ends

/-- What its first token makes of the tokens after it can stand anywhere. -/
theorem stands_operand {own : Level} {k : Token.Kind} {ks : List Token.Kind} {e : Expr}
    (h : ∀ (n : Nat) (t : Token), t.kind = k →
      Yields (operand (expression n) n t) n ks (Ends own) e) :
    Stands own (k :: ks) e := by
  intro n level ls after b _ _ hb hc
  rw [expression, List.cons_append]
  exact .next fun t ht => (h n t ht).bind hb (hc n n.le_refl) (Nat.le_add_right ..)

theorem Stands.mono {own own' : Level} {ks : List Token.Kind} {e : Expr} (h : Stands own ks e)
    (hr : own'.rank ≤ own.rank) : Stands own' ks e := by
  intro n level ls after b hc hl hb hn
  refine h hc ?_ ?_ hn
  · rcases hl with hl | rfl
    · exact .inl (by omega)
    · cases own with
      | unary => exact .inr rfl
      | call | index => exact .inl (hc.trans_le (by decide))
      | _ => exact absurd hr (by decide)
  · cases ls with
    | nil => exact fun k hk => (hb k hk).mono hr
    | cons k ls => exact Ends.mono hb hr

theorem stands_paren {own : Level} {ks : List Token.Kind} {e : Expr} (h : ReadsAt .lowest ks e) :
    Stands own (.symbol .lparen :: ks ++ [.symbol .rparen]) e := by
  refine stands_operand fun n t ht => ?_
  simp only [operand, ht]
  exact (h n).bind (ends_lowest rfl) (.expect_bind (.pure e)) (Nat.le_add_right ..)

/-- What is known of the parts of an expression: its tokens can be read on their own, and they can
stand where its rung can unless it is an assignment, which takes all that follows for its value. -/
structure Parsed (e : Expr) : Prop where
  reads : ReadsAt .lowest e.terseKinds e
  stands : e.rung ≠ .assignment → Stands e.rung.level e.terseKinds e

theorem lowest_lt_rung (e : Expr) : Level.lowest.rank < e.rung.level.rank := by
  cases e.rung <;> decide

theorem Parsed.of_stands {e : Expr} (h : Stands e.rung.level e.terseKinds e) : Parsed e :=
  ⟨h.reads (by decide) (.inl e.lowest_lt_rung) e.lowest_lt_rung.le, fun _ => h⟩

/-- An operand with the parentheses it needs on a rung. -/
theorem Parsed.stands_parens {e : Expr} (h : Parsed e) {rung : Rung}
    (hr : Rung.assignment.height < rung.height) :
    Stands rung.level (parenKinds (e.rung.height < rung.height) e.terseKinds) e := by
  by_cases hlt : e.rung.height < rung.height
  · simpa [parenKinds, hlt] using stands_paren h.reads
  · have hne : e.rung ≠ .assignment := by rintro he; rw [he] at hlt; exact hlt hr
    have hle := Rung.height_le_iff.1 (Nat.le_of_not_lt hlt)
    simpa [parenKinds, hlt] using (h.stands hne).mono hle

/-- A right operand with the parentheses it needs on a rung. -/
theorem Parsed.reads_parens {e : Expr} (h : Parsed e) {rung : Rung}
    (hc : rung.level.rank < Level.call.rank) :
    ReadsAt rung.level (parenKinds (e.rung.height ≤ rung.height) e.terseKinds) e := by
  by_cases hle : e.rung.height ≤ rung.height
  · have hs : Stands .index (parenKinds true e.terseKinds) e := stands_paren h.reads
    rw [decide_eq_true hle]
    exact hs.reads hc (.inl (hc.trans (by decide))) (hc.le.trans (by decide))
  · have hne : e.rung ≠ .assignment := by rintro he; rw [he] at hle; exact hle (Nat.zero_le _)
    have hlt := Rung.height_lt_iff.1 (Nat.lt_of_not_le hle)
    rw [decide_eq_false hle]
    exact (h.stands hne).reads hc (.inl hlt) hlt.le

section

variable {l r : Expr}

/-- An operator between two operands, whose right operand is read at the level of the operator. -/
theorem stands_operator {s : Symbol} (rung : Rung) (make : Expr → Expr) (hl : Parsed l)
    (hr : Parsed r) (hs : Level.ofSymbol s = rung.level) (ha : Rung.assignment.height < rung.height)
    (hu : rung.height < Rung.sign.height)
    (ho : ∀ (inner : Inner) m t,
      operation inner m t s l = inner rung.level >>= fun x => pure (make x)) :
    Stands rung.level (operatorKinds rung s l r l.terseKinds r.terseKinds) (make r) := by
  intro n outer ls after b hc hlt hb h
  have hu' : rung.level.rank < Level.unary.rank := Rung.height_lt_iff.1 hu
  have hlt : outer.rank < rung.level.rank := by
    rcases hlt with hlt | hlt
    · exact hlt
    · rw [hlt] at hu'
      exact absurd hu' (Nat.lt_irrefl _)
  rw [operatorKinds, List.append_assoc]
  refine hl.stands_parens ha hc (.inl hlt) (ends_symbol (Nat.le_of_eq (congrArg _ hs)))
    fun m hm => ?_
  cases m with
  | zero => exact .zero
  | succ m =>
    refine operations_step (hs ▸ hlt) (fun t => ?_) hb (h m (by omega))
    rw [ho]
    have hr := hr.reads_parens (hu'.trans (by decide)) n
    exact (hr.of_le (by omega)).map make

theorem stands_binary (op : BinaryOp) (hl : Parsed l) (hr : Parsed r) :
    Stands op.rung.level (binary op l r).terseKinds (.binary op l r) :=
  stands_operator op.rung (.binary op l) hl hr op.ofSymbol_symbol (by cases op <;> decide)
    (by cases op <;> decide) fun _ _ _ => by cases op <;> rfl

theorem stands_unary (op : UnaryOp) (hl : Parsed l) :
    Stands .unary (unary op l).terseKinds (.unary op l) := by
  refine stands_operand fun n t ht => ?_
  have hop : operand (expression n) n t = expression n .unary >>= fun x => pure (.unary op x) := by
    cases op <;> simp only [operand, ht, UnaryOp.symbol]
  have hs : Stands Rung.sign.level _ l := hl.stands_parens (by decide)
  rw [hop]
  exact (hs.reads (by decide) (.inr rfl) (Nat.le_refl _) n).map _

/-- An operator after an operand that ends by itself. -/
theorem stands_after {s : Symbol} {ks : List Token.Kind} {e : Expr} (hl : Parsed l)
    (hs : Level.call.rank ≤ (Level.ofSymbol s).rank)
    (ho : ∀ n m t, m ≤ n → Yields (operation (expression n) m t s l) m ks (Ends .index) e) :
    Stands .index (parenKinds (l.rung.height < Rung.top.height) l.terseKinds ++ .symbol s ::
      ks) e := by
  intro n outer ls after b hc hlt hb h
  rw [List.append_assoc]
  have hl' : Stands Rung.top.level _ l := hl.stands_parens (by decide)
  refine hl' hc (.inl (hc.trans (by decide)))
    (ends_symbol (by cases s <;> decide)) fun m hm => ?_
  cases m with
  | zero => exact .zero
  | succ m =>
    exact operations_step (hc.trans_le hs) (fun t => ho n m t (by omega)) hb (h m (by omega))

theorem stands_index (hl : Parsed l) (hr : Parsed r) :
    Stands .index (index l r).terseKinds (.index l r) := by
  refine stands_after (s := .lbracket) hl (by decide) fun n m t hm => ?_
  exact ((hr.reads n).of_le hm).bind (ends_lowest rfl) (.expect_bind (.pure _))
    (Nat.le_add_right ..)

end

theorem opens_terseKinds {e : Expr} (h : e.Throughout Operative) :
    Opens (fun k => k ≠ .symbol .rparen ∧ k ≠ .symbol .semicolon) e.terseKinds := by
  have hparens : ∀ {b : Bool} {ks ls : List Token.Kind},
      Opens (fun k => k ≠ .symbol .rparen ∧ k ≠ .symbol .semicolon) ks →
      Opens (fun k => k ≠ .symbol .rparen ∧ k ≠ .symbol .semicolon) (parenKinds b ks ++ ls) := by
    rintro b ks ls ⟨k, l, rfl, hk⟩
    cases b with
    | false => exact ⟨k, l ++ ls, rfl, hk⟩
    | true => exact ⟨.symbol .lparen, _, rfl, by decide⟩
  induction e using Expr.induct with
  | ident name => exact ⟨_, _, rfl, by simp⟩
  | int n => exact ⟨_, _, rfl, by simp⟩
  | unary op x ih => cases op <;> exact ⟨_, _, rfl, by decide⟩
  | binary op l r ih | and l r ih | or l r ih | range l r ih =>
    exact hparens (ih (h.child (by simp [children])))
  | index c k ih => exact hparens (ih (h.child (by simp [children])))
  | call c args ih => exact hparens (ih (h.child (by simp [children])))
  | assign kind target value ih =>
    exact hparens (b := false) (ih (h.child (by simp [children])))
  | _ => exact h.here.elim

theorem stands_call {c : Expr} {args : List Expr} (hc : Parsed c)
    (hx : ∀ x ∈ args, x.Throughout Operative)
    (ha : ∀ x ∈ args, Parsed x) : Stands .index (call c args).terseKinds (.call c args) := by
  refine stands_after (s := .lparen) hc (by decide) fun n m t hm => ?_
  rw [terseKindsAll_eq]
  refine (yields_sequence (m := n) (by decide) (fun x h => ?_) (fun x h => ?_) hm).map _
  · exact Opens.mono (opens_terseKinds (hx x h)) fun k hk => hk.1
  · refine ((ha x h).reads n).mono (Nat.le_refl n) ?_
    rintro k (rfl | rfl) <;> exact ends_lowest rfl

theorem reads_assign {kind : AssignKind} {target value : Expr} (hk : IsTarget kind target)
    (ht : Parsed target) (hv : Parsed value) :
    ReadsAt .lowest (assign kind target value).terseKinds (.assign kind target value) := by
  intro n
  cases n with
  | zero => exact .zero
  | succ n =>
    have htop : target.rung = .top := by
      cases kind <;> cases target <;> first | rfl | exact hk.elim
    have hs : Stands Rung.top.level target.terseKinds target := htop ▸ ht.stands (by simp [htop])
    have hvalid : validTarget kind.symbol target = true := by
      cases kind <;> cases target <;> first | rfl | exact hk.elim
    refine hs (by decide) (.inl (by decide)) (ends_symbol (by cases kind <;> decide)) fun m hm => ?_
    cases m with
    | zero => exact .zero
    | succ m =>
      rw [← List.append_nil (.symbol kind.symbol :: value.terseKinds)]
      refine operations_step (by cases kind <;> decide) (fun t => ?_) (fun _ h => h) operations_ends
      have ho : operation (expression n) m t kind.symbol target =
          expression n .lowest >>= fun x => pure (.assign kind target x) := by
        have ha : operation (expression n) m t kind.symbol target =
            assignment (expression n) t kind.symbol target := by cases kind <;> rfl
        rw [ha, assignment, if_pos hvalid]
        cases kind <;> rfl
      rw [ho]
      exact ((hv.reads n).of_le (by omega)).map _

theorem parsed_terse {e : Expr} (h : e.Throughout Operative) : Parsed e := by
  induction e using Expr.induct with
  | ident name =>
    refine .of_stands (stands_operand fun n t ht => ?_)
    simp only [operand, ht]
    exact .pure _
  | int n =>
    refine .of_stands (stands_operand fun m t ht => ?_)
    simp only [operand, ht, Decimal.toInt64?_ofInt64]
    exact .pure _
  | unary op x ih => exact .of_stands (stands_unary op (ih (h.child (by simp [children]))))
  | binary op l r ihl ihr =>
    have hl := ihl (h.child (by simp [children]))
    have hr := ihr (h.child (by simp [children]))
    exact .of_stands (stands_binary op hl hr)
  | and l r ihl ihr =>
    have hl := ihl (h.child (by simp [children]))
    have hr := ihr (h.child (by simp [children]))
    exact .of_stands (stands_operator .and (.and l) hl hr rfl (by decide) (by decide)
      fun _ _ _ => rfl)
  | or l r ihl ihr =>
    have hl := ihl (h.child (by simp [children]))
    have hr := ihr (h.child (by simp [children]))
    exact .of_stands (stands_operator .or (.or l) hl hr rfl (by decide) (by decide)
      fun _ _ _ => rfl)
  | range l r ihl ihr =>
    have hl := ihl (h.child (by simp [children]))
    have hr := ihr (h.child (by simp [children]))
    exact .of_stands (stands_operator .range (.range l) hl hr rfl (by decide) (by decide)
      fun _ _ _ => rfl)
  | index c k ihc ihk =>
    have hc := ihc (h.child (by simp [children]))
    exact .of_stands (stands_index hc (ihk (h.child (by simp [children]))))
  | call c args ihc ih =>
    have hx : ∀ x ∈ args, x.Throughout Operative := fun x hx => h.child (List.mem_cons_of_mem _ hx)
    have hc := ihc (h.child (by simp [children]))
    exact .of_stands (stands_call hc hx fun x hm => ih x hm (hx x hm))
  | assign kind target value iht ihv =>
    have ht := iht (h.child (by simp [children]))
    have hv := ihv (h.child (by simp [children]))
    exact ⟨reads_assign h.here ht hv, fun hne => absurd rfl hne⟩
  | _ => exact h.here.elim

end Expr

end YeetYoink
