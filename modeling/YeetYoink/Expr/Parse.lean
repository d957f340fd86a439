import YeetYoink.Expr.Level
import YeetYoink.Expr.Parser
import YeetYoink.Expr.Print

/-!
# Reading an expression

`expression n level` reads an operand and then every operator that binds more tightly than `level`.
Each construct is written over a parser for the expressions inside it, so that nesting is bounded by
one number: `expression (n + 1)` is made of `expression n`.
-/

namespace YeetYoink.Parser

/-- The name that `yall` binds when none is given. -/
def defaultKey : String := "yt"

/-- Expressions inside a construct, at a level. -/
abbrev Inner := Level → Parser Expr

/-- The rest of a template after a piece of its text: a value, and then the next piece. The text is
that after the holes. -/
def templateRest (inner : Inner) : Nat → Parser (List Expr × List Char)
  | 0 => exhausted
  | n + 1 => do
    match ← peek? with
    | some t@⟨.templateMiddle _, _, _⟩ | some t@⟨.templateTail _, _, _⟩ =>
      let _ ← next?
      unexpected .expression (some t)
    | _ =>
      let x ← inner .lowest
      match ← next? with
      | some ⟨.templateMiddle text, _, _⟩ =>
        let (xs, rest) ← templateRest inner n
        return (x :: xs, Template.hole ++ Template.literal text.toList ++ rest)
      | some ⟨.templateTail text, _, _⟩ =>
        return ([x], Template.hole ++ Template.literal text.toList)
      | t => unexpected .templateContinuation t

def template (inner : Inner) (n : Nat) (head : String) : Parser Expr := do
  let (values, rest) ← templateRest inner n
  return .template (String.ofList (Template.literal head.toList ++ rest)) values

def dictPair (inner : Inner) : Parser (Expr × Expr) := do
  let key ← inner .lowest
  expect (.symbol .colon)
  let value ← inner .lowest
  return (key, value)

/-- The parameters of a function and its body. -/
def paramsAndBody (inner : Inner) (n : Nat) : Parser (List String × Block) := do
  if ← accept (.symbol .lparen) then
    let params ← names .rparen n true
    expect (.symbol .rparen)
    let body ← bracedBlock (inner .lowest) n
    return (params, body)
  else
    let params ← names .lbrace n true
    let body ← bracedBlock (inner .lowest) n
    return (params, body)

/-- A conditional after its `yif`. What follows `yels yif` is one again. -/
def conditional (inner : Inner) : Nat → Parser Expr
  | 0 => exhausted
  | n + 1 => do
    let condition ← inner .lowest
    let body ← bracedBlock (inner .lowest) n
    if ← accept (.keyword .yels) then
      if ← accept (.keyword .yif) then
        let otherwise ← conditional inner n
        return .yif condition body (some [otherwise])
      else
        let otherwise ← bracedBlock (inner .lowest) n
        return .yif condition body (some otherwise)
    else return .yif condition body none

/-- A loop after its `yoyo`; without a condition it goes on for ever. -/
def loop (inner : Inner) (n : Nat) : Parser Expr := do
  let condition ← if ← nextIs (.symbol .lbrace) then pure (.bool true) else inner .lowest
  let body ← bracedBlock (inner .lowest) n
  return .yoyo condition body

/-- An iteration after its `yall`. -/
def iteration (inner : Inner) (n : Nat) : Parser Expr := do
  let first ← inner .lowest
  match first with
  | .ident key =>
    if ← accept (.symbol .colon) then
      let source ← inner .lowest
      let body ← bracedBlock (inner .lowest) n
      return .yall key source body
    else
      let body ← bracedBlock (inner .lowest) n
      return .yall defaultKey first body
  | _ =>
    let body ← bracedBlock (inner .lowest) n
    return .yall defaultKey first body

/-- A `yeet` without a value ends the statement, the block or the parenthesis. -/
def endsYeet (k : Token.Kind) : Bool :=
  k = .symbol .semicolon || k = .symbol .rbrace || k = .symbol .rparen

def yeet (inner : Inner) : Parser Expr := do
  if (← peek?).all (endsYeet ·.kind) then return .yeet .null
  else return .yeet (← inner .lowest)

/-- The operand that starts with a token. -/
def operand (inner : Inner) (n : Nat) (t : Token) : Parser Expr :=
  match t.kind with
  | .ident name => return .ident name
  | .int digits =>
    match Decimal.toInt64? digits.toList with
    | some k => return .int k
    | none => fail (.badNumber t)
  | .float digits =>
    match Decimal.toFloat? digits.toList with
    | some x => return .num x
    | none => fail (.badNumber t)
  | .string text => return .str text
  | .template text => return .template (String.ofList (Template.literal text.toList)) []
  | .templateHead text => template inner n text
  | .keyword .true => return .bool true
  | .keyword .false => return .bool false
  | .keyword .null => return .null
  | .symbol .bang => return .unary .bang (← inner .unary)
  | .symbol .minus => return .unary .minus (← inner .unary)
  | .symbol .lparen => do
    let x ← inner .lowest
    expect (.symbol .rparen)
    return x
  | .symbol .lbracket => return .array (← sequence (inner .lowest) .rbracket n)
  | .symbol .percentBrace => return .dict (← sequence (dictPair inner) .rbrace n)
  | .symbol .lbrace => return .block (← block (inner .lowest) n)
  | .keyword .yif => conditional inner n
  | .keyword .yoyo => loop inner n
  | .keyword .yall => iteration inner n
  | .keyword .yolo => return .yolo (← bracedBlock (inner .lowest) n)
  | .keyword .yeet => yeet inner
  | .symbol .backslash => do
    let (params, body) ← paramsAndBody inner n
    return .lambda params body
  | .symbol .atBackslash => do
    let (params, body) ← paramsAndBody inner n
    return .macroLit params body
  | .illegal message => fail (.illegal message t.start)
  | _ => fail (.noExpression t)

/-- A declaration needs a name, any other assignment a name or an element. -/
def validTarget (operator : Symbol) : Expr → Bool
  | .ident _ => true
  | .index _ _ => operator ≠ .walrus
  | _ => false

/-- An assignment after its operator. A compound one stands for the operation and the assignment. -/
def assignment (inner : Inner) (t : Token) (operator : Symbol) (target : Expr) : Parser Expr := do
  if validTarget operator target then
    let value ← inner .lowest
    match operator, BinaryOp.ofCompound? operator with
    | .walrus, _ => return .assign .declare target value
    | _, some op => return .assign .update target (.binary op target value)
    | _, none => return .assign .update target value
  else fail (.badTarget t target.print)

/-- What a symbol after an operand makes of it. -/
def operation (inner : Inner) (n : Nat) (t : Token) (s : Symbol) (left : Expr) : Parser Expr :=
  match s with
  | .lparen => return .call left (← sequence (inner .lowest) .rparen n)
  | .lbracket => do
    let key ← inner .lowest
    expect (.symbol .rbracket)
    return .index left key
  | .dotDot => return .range left (← inner .range)
  | .ampAmp => return .and left (← inner .and)
  | .pipePipe => return .or left (← inner .or)
  | s =>
    match BinaryOp.ofSymbol? s with
    | some op => return .binary op left (← inner (Level.ofSymbol s))
    | none => assignment inner t s left

/-- Operators after an operand, as long as they bind more tightly than the level. -/
def operations (inner : Inner) (level : Level) : Nat → Expr → Parser Expr
  | 0, _ => exhausted
  | n + 1, left => do
    match ← peek? with
    | some t@⟨.symbol s, _, _⟩ =>
      if level.rank < (Level.ofSymbol s).rank then
        let _ ← next?
        let left ← operation inner n t s left
        operations inner level n left
      else return left
    | _ => return left

/-- Reads an expression whose nesting and length are below the bound. -/
def expression : Nat → Inner
  | 0, _ => exhausted
  | n + 1, level => do
    match ← next? with
    | none => fail (.prematureEnd .expression)
    | some t =>
      let left ← operand (expression n) n t
      operations (expression n) level n left

end YeetYoink.Parser
