import YeetYoink.Text.Quoted
import YeetYoink.Value

/-!
# What can go wrong in running a program
-/

namespace YeetYoink

inductive EvalError where
  | typeMismatch (left : Kind) (op : BinaryOp) (right : Kind)
  | unknownBinary (left : Kind) (op : BinaryOp) (right : Kind)
  | unknownUnary (op : UnaryOp) (operand : Kind)
  | unknownName (name : String)
  | undeclared (name : String)
  | cannotIndex (container key : Kind)
  | keyNotHashable (key : Kind)
  | wrongArgCount (name : String) (got : Nat) (want : String)
  | unsupportedArg (name : String) (arg : Kind)
  /-- An assignment past the end of an array or text; the printed container. -/
  | outOfBounds (container : Kind) (printed : String)
  | invalidTarget (printed : String)
  | cannotYoink (container : Kind)
  | yassertFailed (message : Option String)
  | divisionByZero
  | lengthOverflow (shown : String)
  | notFunction (callee : Kind)
  | cannotIterate (source : Kind)
  | invalidRange (first last : Kind)
  /-- A macro gave something that is no quoted expression. -/
  | notQuote (result : Kind)
  | cannotUnquote (value : Kind)
  | conversionFailed (value : String) (target : String)
  | badExpression
  deriving DecidableEq, Repr

/-- What messages call a container that can be assigned to by position. -/
def Kind.sequenceName : Kind → String
  | .array => "array"
  | _ => "string"

namespace EvalError

def message : EvalError → String
  | typeMismatch l op r => "type mismatch: " ++ l.name ++ " " ++ op.text ++ " " ++ r.name
  | unknownBinary l op r => "unknown operator: " ++ l.name ++ " " ++ op.text ++ " " ++ r.name
  | unknownUnary op k => "unknown operator: " ++ op.text ++ k.name
  | unknownName name => "identifier not found: " ++ name
  | undeclared name =>
    "identifier not found: " ++ name ++ " (to declare a variable use := operator)"
  | cannotIndex c k => "index operator not supported: " ++ c.name ++ "[" ++ k.name ++ "]"
  | keyNotHashable k => "key not hashable: " ++ k.name
  | wrongArgCount name got want =>
    "wrong number of args for " ++ name ++ " (got " ++ Nat.repr got ++ ", want " ++ want ++ ")"
  | unsupportedArg name k => "unsupported argument type for " ++ name ++ ", got " ++ k.name
  | outOfBounds c printed =>
    "attempted to assign out of bounds for " ++ c.sequenceName ++ " '" ++ printed ++ "'"
  | invalidTarget printed => "cannot assign to " ++ printed
  | cannotYoink k => "cannot yoink from " ++ k.name
  | yassertFailed none => "yassert failed"
  | yassertFailed (some message) => "yassert failed: " ++ message
  | divisionByZero => "division by zero"
  | lengthOverflow shown => "length of " ++ shown ++ " does not fit in an integer"
  | notFunction k => "not a function: " ++ k.name
  | cannotIterate k => "cannot iterate over " ++ k.name
  | invalidRange a b => "range endpoints must be integers, got " ++ a.name ++ ".." ++ b.name
  | notQuote k => "only quoted objects can be returned from macros, got " ++ k.name
  | cannotUnquote k => "cannot unquote " ++ k.name
  | conversionFailed value target =>
    "could not convert " ++ Text.quoted value ++ " to " ++ target
  | badExpression => "cannot evaluate an expression that failed to parse"

end EvalError

end YeetYoink
