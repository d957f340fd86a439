import YeetYoink.Store

/-!
# Values as expressions

The expression that evaluates to a value again. Functions have none, and neither does a value that
contains itself.
-/

namespace YeetYoink

/-- Why a value has no literal. -/
inductive NoLiteral where
  | function
  /-- The bound on nesting was reached. -/
  | endless
  deriving DecidableEq, Repr

/-- A string literal that shows this text: a dollar sign is doubled. -/
def Expr.ofText (t : String) : Expr :=
  .str (String.ofList (t.toList.flatMap fun c => if c = '$' then ['$', '$'] else [c]))

namespace Store

def literalIn (s : Store) : Nat → Value → Except NoLiteral Expr
  | _, .int n => .ok (.int n)
  | _, .num x => .ok (.num x)
  | _, .bool b => .ok (.bool b)
  | _, .null => .ok .null
  | _, .text r => .ok (.ofText (s.text r))
  | _, .range first last => .ok (.range (.int first) (.int last))
  | _, .quote node => .ok node
  | n + 1, .array r => return .array (← (s.array r).toList.mapM (s.literalIn n))
  | n + 1, .dict r => return .dict (← (s.dict r).entries.mapM fun e => do
      let k ← s.literalIn n e.key
      let v ← s.literalIn n e.value
      return (k, v))
  | 0, .array _ | 0, .dict _ => .error .endless
  | _, .function _ | _, .macroFn _ | _, .builtin _ => .error .function

def literal (s : Store) (v : Value) : Except NoLiteral Expr := s.literalIn (s.nesting + 1) v

end Store

end YeetYoink
