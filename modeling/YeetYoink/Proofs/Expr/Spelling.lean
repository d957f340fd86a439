import YeetYoink.Proofs.Expr.Nodes
import YeetYoink.Proofs.Template.Segments
import YeetYoink.Proofs.Token.Kinds
import YeetYoink.Decimal.Number

/-!
# The tokens of a printed expression

`Expr.kinds` lists the kinds of the tokens that an expression is printed with. It stands between the
printer and the parser: the printed text is read as these tokens, and these tokens are parsed as the
expression. Three properties of a node matter for that.

`Readable` holds of what a parser can build: names are names, integers have no sign, a template has
as many values as holes, and an assignment has a place as its target. `Finite` excludes the infinite
numbers, which print as a name. `Guarded` excludes the two places where a block would have to keep
the parentheses it was written in: the hole of a template, where its brace is taken for text, and
the condition of `yoyo`, where it is taken for the body. The tokens come out right without the
second.
-/

namespace YeetYoink

def UnaryOp.symbol : UnaryOp → Symbol
  | minus => .minus
  | bang => .bang

def BinaryOp.symbol : BinaryOp → Symbol
  | plus => .plus
  | minus => .minus
  | times => .times
  | divide => .slash
  | modulo => .percent
  | less => .less
  | lessEqual => .lessEqual
  | greater => .greater
  | greaterEqual => .greaterEqual
  | equal => .equal
  | notEqual => .notEqual
  | push => .shiftLeft

def AssignKind.symbol : AssignKind → Symbol
  | declare => .walrus
  | update => .assign

namespace Expr

/-- A block, or a call of one: the expressions that are printed with a brace first. -/
def opensBlock : Expr → Bool
  | .block _ => true
  | .call callee _ => callee.opensBlock
  | _ => false

/-- A place that an assignment of this kind can change. -/
def IsTarget : AssignKind → Expr → Prop
  | _, .ident _ => True
  | .update, .index _ _ => True
  | _, _ => False

/-- A text with one hole for each value, whose segments can stand between backticks. -/
def IsTemplate (text : String) (count : Nat) : Prop :=
  ∃ head tails, text = String.ofList (Template.encode head tails) ∧ tails.length = count ∧
    '\x60' ∉ head ∧ ∀ t ∈ tails, '\x60' ∉ t

/-- What a node that was read from a source is like. -/
def Readable : Expr → Prop
  | .ident name => IsName name
  | .int n => 0 ≤ n.toInt
  | .num x => x = 1.0 / 0.0 ∨ ∃ b, Decimal.Binary.decode x = some b ∧ b.negative = false
  | .template text values => IsTemplate text values.length
  | .assign kind target _ => IsTarget kind target
  | .yall key _ _ => IsName key
  | .lambda params _ => ∀ p ∈ params, IsName p
  | .macroLit params _ => ∀ p ∈ params, IsName p
  | .bad _ => False
  | _ => True

/-- No infinite number. -/
def Finite : Expr → Prop
  | .num x => x.isInf = false
  | _ => True

/-- No value in a hole that is printed with a brace first. -/
def HolesGuarded : Expr → Prop
  | .template _ values => ∀ v ∈ values, v.opensBlock = false
  | _ => True

/-- No condition of `yoyo` that is printed with a brace first. -/
def LoopGuarded : Expr → Prop
  | .yoyo condition _ => condition.opensBlock = false
  | _ => True

def Guarded (e : Expr) : Prop := HolesGuarded e ∧ LoopGuarded e

/-- A node whose text is read as its tokens. -/
def Legible (e : Expr) : Prop := Readable e ∧ Finite e ∧ HolesGuarded e

/-- A node that reads back as it was printed. -/
def Printable (e : Expr) : Prop := Legible e ∧ LoopGuarded e

theorem Legible.decode {x : Float} (h : (num x).Legible) :
    ∃ b, Decimal.Binary.decode x = some b ∧ b.negative = false := by
  refine h.1.resolve_left ?_
  rintro rfl
  exact absurd (show Float.isInf (1.0 / 0.0) = false from h.2.1) (by decide)

/-! ### The tokens -/

/-- Token lists with a symbol between them. -/
def joinKinds (s : Symbol) (items : List (List Token.Kind)) : List Token.Kind :=
  [.symbol s].intercalate items

/-- The values in the holes of a template, each with the text after it. -/
def holeKinds : List (List Char) → List (List Token.Kind) → List Token.Kind
  | [t], v :: _ => v ++ [.templateTail (String.ofList t)]
  | t :: ts, v :: vs => v ++ .templateMiddle (String.ofList t) :: holeKinds ts vs
  | _, _ => []

def templateKinds (head : List Char) (tails : List (List Char)) (values : List (List Token.Kind)) :
    List Token.Kind :=
  match tails with
  | [] => [.template (String.ofList head)]
  | tails => .templateHead (String.ofList head) :: holeKinds tails values

def blockKinds (items : List (List Token.Kind)) : List Token.Kind :=
  .symbol .lbrace :: joinKinds .semicolon items ++ [.symbol .rbrace]

def paramKinds (params : List String) : List Token.Kind :=
  joinKinds .comma (params.map fun p => [.ident p])

mutual

def kinds : Expr → List Token.Kind
  | .ident name => [.ident name]
  | .int n => [.int (Decimal.ofInt64 n)]
  | .num x => [.float (Decimal.ofFloat x)]
  | .bool b => [.keyword (if b then .true else .false)]
  | .null => [.keyword .null]
  | .str text => [.string text]
  | .template text values =>
    let s := Template.segments (Template.pieces text.toList)
    templateKinds s.1 s.2 (kindsAll values)
  | .array items => .symbol .lbracket :: joinKinds .comma (kindsAll items) ++ [.symbol .rbracket]
  | .dict pairs => .symbol .percentBrace :: joinKinds .comma (kindsPairs pairs) ++ [.symbol .rbrace]
  | .range first last =>
    .symbol .lparen :: first.kinds ++ .symbol .dotDot :: last.kinds ++ [.symbol .rparen]
  | .unary op operand => .symbol .lparen :: .symbol op.symbol :: operand.kinds ++ [.symbol .rparen]
  | .binary op left right =>
    .symbol .lparen :: left.kinds ++ .symbol op.symbol :: right.kinds ++ [.symbol .rparen]
  | .and left right =>
    .symbol .lparen :: left.kinds ++ .symbol .ampAmp :: right.kinds ++ [.symbol .rparen]
  | .or left right =>
    .symbol .lparen :: left.kinds ++ .symbol .pipePipe :: right.kinds ++ [.symbol .rparen]
  | .index container key =>
    .symbol .lparen :: container.kinds ++ .symbol .lbracket :: key.kinds ++
      [.symbol .rbracket, .symbol .rparen]
  | .call callee args =>
    callee.kinds ++ .symbol .lparen :: joinKinds .comma (kindsAll args) ++ [.symbol .rparen]
  | .assign kind target value =>
    .symbol .lparen :: target.kinds ++ .symbol kind.symbol :: value.kinds ++ [.symbol .rparen]
  | .block body => blockKinds (kindsAll body)
  | .yif condition body none =>
    .keyword .yif :: condition.kinds ++ blockKinds (kindsAll body)
  | .yif condition body (some otherwise) =>
    .keyword .yif :: condition.kinds ++ blockKinds (kindsAll body) ++
      .keyword .yels :: blockKinds (kindsAll otherwise)
  | .yoyo condition body => .keyword .yoyo :: condition.kinds ++ blockKinds (kindsAll body)
  | .yall key source body =>
    .keyword .yall :: .ident key :: .symbol .colon :: source.kinds ++ blockKinds (kindsAll body)
  | .yeet value => .symbol .lparen :: .keyword .yeet :: value.kinds ++ [.symbol .rparen]
  | .yolo body => .keyword .yolo :: blockKinds (kindsAll body)
  | .lambda params body => .symbol .backslash :: paramKinds params ++ blockKinds (kindsAll body)
  | .macroLit params body => .symbol .atBackslash :: paramKinds params ++ blockKinds (kindsAll body)
  | .bad _ => []

def kindsAll : List Expr → List (List Token.Kind)
  | [] => []
  | x :: xs => x.kinds :: kindsAll xs

def kindsPairs : List (Expr × Expr) → List (List Token.Kind)
  | [] => []
  | (k, v) :: ps => (k.kinds ++ .symbol .colon :: v.kinds) :: kindsPairs ps

end

theorem kindsAll_eq (xs : List Expr) : kindsAll xs = xs.map kinds := by
  induction xs with
  | nil => rfl
  | cons x xs ih => rw [kindsAll, ih, List.map_cons]

theorem kindsPairs_eq (ps : List (Expr × Expr)) :
    kindsPairs ps = ps.map fun p => p.1.kinds ++ .symbol .colon :: p.2.kinds := by
  induction ps with
  | nil => rfl
  | cons p ps ih => rw [kindsPairs, ih, List.map_cons]

end Expr

end YeetYoink
