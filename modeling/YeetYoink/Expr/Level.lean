import YeetYoink.Expr

/-!
# How tightly operators bind
-/

namespace YeetYoink

/-- The ladder of binding strengths, from loose to tight. -/
inductive Level where
  | lowest | assignment | or | and | equality | order | range | sum | product | unary | call | index
  deriving DecidableEq, Repr

namespace Level

def rank : Level → Nat
  | lowest => 0
  | assignment => 1
  | or => 2
  | and => 3
  | equality => 4
  | order => 5
  | range => 6
  | sum => 7
  | product => 8
  | unary => 9
  | call => 10
  | index => 11

/-- The level of a symbol that follows an operand; `lowest` for one that ends the expression. -/
def ofSymbol : Symbol → Level
  | .assign | .walrus | .plusAssign | .minusAssign | .timesAssign | .slashAssign
  | .percentAssign => assignment
  | .pipePipe => or
  | .ampAmp => and
  | .equal | .notEqual => equality
  | .less | .lessEqual | .greater | .greaterEqual | .shiftLeft => order
  | .dotDot => range
  | .plus | .minus => sum
  | .times | .slash | .percent => product
  | .lparen => call
  | .lbracket => index
  | _ => lowest

end Level

/-- The operator a symbol between two operands stands for. -/
def BinaryOp.ofSymbol? : Symbol → Option BinaryOp
  | .plus => some .plus
  | .minus => some .minus
  | .times => some .times
  | .slash => some .divide
  | .percent => some .modulo
  | .equal => some .equal
  | .notEqual => some .notEqual
  | .less => some .less
  | .lessEqual => some .lessEqual
  | .greater => some .greater
  | .greaterEqual => some .greaterEqual
  | .shiftLeft => some .push
  | _ => none

/-- The operator inside a compound assignment. -/
def BinaryOp.ofCompound? : Symbol → Option BinaryOp
  | .plusAssign => some .plus
  | .minusAssign => some .minus
  | .timesAssign => some .times
  | .slashAssign => some .divide
  | .percentAssign => some .modulo
  | _ => none

end YeetYoink
