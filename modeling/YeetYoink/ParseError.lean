import YeetYoink.Token

/-!
# What can go wrong in reading a program
-/

namespace YeetYoink

inductive Expected where
  | token (k : Token.Kind)
  | identifier
  | expression
  | templateContinuation
  deriving DecidableEq, Repr

def Expected.describe : Expected → String
  | token k => k.describe
  | identifier => "identifier"
  | expression => "expression"
  | templateContinuation => "end of template interpolation"

inductive ParseError where
  | prematureEnd (expected : Expected)
  | unexpected (expected : Expected) (got : Token)
  /-- A token that no expression starts with. -/
  | noExpression (got : Token)
  /-- An assignment to something that is no place; the printed target. -/
  | badTarget (operator : Token) (target : String)
  /-- An integer literal that does not fit. -/
  | badNumber (got : Token)
  /-- Text that is no token. -/
  | illegal (message : String) (start : Nat)
  deriving DecidableEq, Repr

namespace ParseError

def message : ParseError → String
  | prematureEnd e => "unexpected end of input, expected " ++ e.describe
  | unexpected e t => "expected " ++ e.describe ++ ", got " ++ t.kind.describe
  | noExpression t => "no prefix parse function for " ++ t.kind.describe
  | badTarget op target => "cannot assign with " ++ op.kind.describe ++ " to " ++ target
  | badNumber t => "could not parse " ++ t.kind.literal ++ " as a number"
  | illegal message _ => message

/-- Where the error lies in a source of `size` bytes. -/
def offset (size : Nat) : ParseError → Nat
  | prematureEnd _ => size
  | unexpected _ t | noExpression t | badTarget t _ | badNumber t => t.start
  | illegal _ start => start

end ParseError

end YeetYoink
