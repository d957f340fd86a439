import YeetYoink.Decimal.Binary
import YeetYoink.Value.Display
import YeetYoink.Value.Equality

/-!
# Operators

What the operators mean for operands of the right kinds. Integers wrap around at 64 bits; an integer
with a number is taken as a number. `binary` leaves operands that no rule covers to a fallback.
-/

namespace YeetYoink.Operator

/-- Two integers; `none` if the operator is not for them. -/
def integers (op : BinaryOp) (a b : Int64) : Except EvalError (Option Value) :=
  match op with
  | .plus => .ok (some (.int (a + b)))
  | .minus => .ok (some (.int (a - b)))
  | .times => .ok (some (.int (a * b)))
  | .divide => if b = 0 then .error .divisionByZero else .ok (some (.int (a / b)))
  | .modulo => if b = 0 then .error .divisionByZero else .ok (some (.int (a % b)))
  | .less => .ok (some (.bool (a < b)))
  | .lessEqual => .ok (some (.bool (a ≤ b)))
  | .greater => .ok (some (.bool (a > b)))
  | .greaterEqual => .ok (some (.bool (a ≥ b)))
  | .equal => .ok (some (.bool (a = b)))
  | .notEqual => .ok (some (.bool (a ≠ b)))
  | .push => .ok none

/-- Two numbers; `none` if the operator is not for them. -/
def numbers (op : BinaryOp) (x y : Float) : Option Value :=
  match op with
  | .plus => some (.num (x + y))
  | .minus => some (.num (x - y))
  | .times => some (.num (x * y))
  | .divide => some (.num (x / y))
  | .modulo => some (.num (Decimal.remainder x y))
  | .less => some (.bool (x < y))
  | .lessEqual => some (.bool (x ≤ y))
  | .greater => some (.bool (x > y))
  | .greaterEqual => some (.bool (x ≥ y))
  | .equal => some (.bool (x == y))
  | .notEqual => some (.bool (x != y))
  | .push => none

def toNumber? : Value → Option Float
  | .int n => some n.toFloat
  | .num x => some x
  | _ => none

/-- The meaning that an operator has for the kinds of its operands, if it has one. -/
def typed? (op : BinaryOp) (l r : Value) : Eval (Option Value) := do
  match op, l, r with
  | op, .int a, .int b =>
    match integers op a b with
    | .ok v => return v
    | .error e => Eval.fail e
  | .plus, .text a, .text b =>
    let s ← get
    return some (← Eval.newText (s.text a ++ s.text b))
  | .push, .array a, r => return some (← Eval.newArray (((← get).array a).push r))
  | .plus, .array a, .array b =>
    let s ← get
    return some (← Eval.newArray (s.array a ++ s.array b))
  | op, l, r =>
    match toNumber? l, toNumber? r with
    | some x, some y => return numbers op x y
    | _, _ => return none

/-- Any two values can be compared; whatever else has no meaning of its own goes to the fallback. -/
def binary (fallback : BinaryOp → Value → Value → Eval Value) (op : BinaryOp) (l r : Value) :
    Eval Value := do
  match ← typed? op l r with
  | some v => return v
  | none =>
    match op with
    | .equal => return .bool (← Eval.equal l r)
    | .notEqual => return .bool (!(← Eval.equal l r))
    | op => fallback op l r

/-- Outside of yolo, operands that no rule covers are an error. -/
def mismatch (op : BinaryOp) (l r : Value) : Eval Value :=
  if l.kind = r.kind then Eval.fail (.unknownBinary l.kind op r.kind)
  else Eval.fail (.typeMismatch l.kind op r.kind)

def strictBinary : BinaryOp → Value → Value → Eval Value := binary mismatch

/-- Negation of truth is for every value; the minus sign leaves all but numbers to a fallback. -/
def unary (fallback : Value → Eval Value) (op : UnaryOp) (v : Value) : Eval Value := do
  match op, v with
  | .bang, v => return .bool (!(← get).truthy v)
  | .minus, .int n => return .int (-n)
  | .minus, .num x => return .num (-x)
  | .minus, v => fallback v

def strictUnary (op : UnaryOp) (v : Value) : Eval Value :=
  unary (fun v => Eval.fail (.unknownUnary .minus v.kind)) op v

end YeetYoink.Operator
