import YeetYoink.Decimal.Integer
import YeetYoink.Value.Literal
import YeetYoink.Yolo.Negate
import YeetYoink.Yolo.Noun

/-!
# Operators on anything

In a yolo block an operator has a meaning for every pair of operands: a scalar acts on each element
of an array, texts that read as integers are integers, other texts repeat and split, booleans count
as 0 and 1, ranges move, functions take arguments, compose, and act on their results. Whatever is
left shows side by side.
-/

namespace YeetYoink.Yolo

/-- The names under which a composition holds its two functions. No program can write them. -/
def firstName : String := "#f"

def secondName : String := "#g"

/-- The longest text that repetition makes. -/
def maxRepeated : Nat := 1 <<< 24

def isArithmetic : BinaryOp → Bool
  | .plus | .minus | .times | .divide => true
  | _ => false

/-- A scalar is less than every array and text. -/
def ordering? (op : BinaryOp) (scalarFirst : Bool) : Option Value :=
  match op with
  | .less | .lessEqual => some (.bool scalarFirst)
  | .greater | .greaterEqual => some (.bool (!scalarFirst))
  | _ => none

def concat (l r : Value) : Eval Value := do
  let s ← get
  Eval.newText (s.display l ++ s.display r)

/-- A text so many times. -/
def repeated (t : String) (n : Nat) : String :=
  if t = "" then "" else n.repeat (· ++ t) ""

/-- A text so many times, or what such a group is called. -/
def repeatText (t : String) (count : Int64) : Eval Value :=
  if count < 0 then newAbyss
  else
    match collectiveNoun? (String.ofList (trimBlank t.toList)) with
    | some noun => Eval.newText noun
    | none =>
      let n := count.toInt.toNat
      if t.utf8ByteSize * n ≤ maxRepeated then Eval.newText (repeated t n)
      else newAbyss

/-- The characters of a text. -/
def splitText (t : String) (count : Int64) : Eval Value := do
  if count ≤ 0 then newAbyss
  else
    let vs ← Eval.newChars t.toList
    Eval.newArray vs.toArray

/-- A text that is no integer, with an integer. -/
def textWithCount (op : BinaryOp) (t : String) (count : Int64) (countFirst : Bool) (l r : Value) :
    Eval Value :=
  match op with
  | .times => repeatText t count
  | .divide => splitText t count
  | op =>
    match ordering? op countFirst with
    | some v => return v
    | none => concat l r

/-- Division that has no result at zero, nor where the result would not fit. -/
def checkedDiv? (a b : Int64) : Option Int64 :=
  if b = 0 ∨ (a = Int64.minValue ∧ b = -1) then none else some (a / b)

def endpoint? (op : BinaryOp) (a b : Int64) : Option Int64 :=
  match op with
  | .plus => some (a + b)
  | .minus => some (a - b)
  | .times => some (a * b)
  | .divide => checkedDiv? a b
  | _ => none

/-- A range from two endpoints, if there are two. -/
def rangeOf (first last : Option Int64) : Eval Value :=
  match first, last with
  | some first, some last => return .range first last
  | _, _ => newAbyss

/-! ### Functions -/

/-- The parameters that a value gives values to, and the parameters left: by name from a dictionary,
by position from an array, the first from anything else. -/
def fillParams (s : Store) (params : List String) : Value → List (String × Value) × List String
  | .dict r =>
    let d := s.dict r
    (params.filterMap fun p => (d.getText? s p).map (p, ·),
      params.filter fun p => (d.getText? s p).isNone)
  | .array r =>
    let vs := (s.array r).toList
    (params.zip vs, params.drop vs.length)
  | v => ((params.take 1).map (·, v), params.drop 1)

/-- A function some of whose parameters have their values already. -/
def bake (f : Closure) (v : Value) : Eval Value := do
  match v with
  | .null => return .function f
  | v =>
    let scope ← Eval.enclose f.scope
    let (bound, params) := fillParams (← get) f.params v
    modify (·.bindAll scope bound)
    return .function { f with params, scope }

/-- The function that calls the second on what the first gives. -/
def compose (f : Closure) (first second : Value) : Eval Value := do
  let scope ← Eval.enclose f.scope
  modify (·.bindAll scope [(firstName, first), (secondName, second)])
  let inner := Expr.call (.ident firstName) (f.params.map .ident)
  Eval.newFunction f.params [.call (.ident secondName) [inner]] scope

/-- A function that does an operation on its result and a literal, if the other operand has one. -/
def onResult (f : Closure) (other : Value) (operation : Expr → Expr → Expr) (l r : Value) :
    Eval Value := do
  match (← get).literal other with
  | .ok literal => withBody f [operation (.block f.body) literal]
  | .error .function => concat l r
  | .error .endless => Eval.exhausted

/-! ### All operands -/

/-- A scalar with every element of an array. -/
def elementwise (combine : Value → Eval Value) (a : Ref .array) : Eval Value := do
  let vs ← ((← get).array a).toList.mapM combine
  Eval.newArray vs.toArray

/-- A scalar and an array. -/
def scalarWithArray (op : BinaryOp) (combine : Value → Eval Value) (a : Ref .array)
    (scalarFirst : Bool) (l r : Value) : Eval Value :=
  if isArithmetic op then elementwise combine a
  else
    match ordering? op scalarFirst with
    | some v => return v
    | none => concat l r

/-- A text and an integer. -/
def textWithInt (op : BinaryOp) (combine : Value → Eval Value) (t : Ref .text) (count : Int64)
    (countFirst : Bool) (l r : Value) : Eval Value := do
  let text := (← get).text t
  match Decimal.toInt64? text.toList with
  | some n => combine (.int n)
  | none => textWithCount op text count countFirst l r

/-- Operands for which the operator has no meaning outside of yolo. -/
def coerce (combine : BinaryOp → Value → Value → Eval Value) (op : BinaryOp) (l r : Value) :
    Eval Value :=
  match l, r with
  | .int _, .array a | .num _, .array a => scalarWithArray op (combine op l ·) a true l r
  | .array a, .int _ | .array a, .num _ => scalarWithArray op (combine op · r) a false l r
  | .text t, .int n => textWithInt op (combine op · r) t n false l r
  | .int n, .text t => textWithInt op (combine op l ·) t n true l r
  | .bool b, .int _ | .bool b, .num _ => combine op (.int (if b then 1 else 0)) r
  | .int _, .bool b | .num _, .bool b => combine op l (.int (if b then 1 else 0))
  | .range first last, .int n =>
    if isArithmetic op then rangeOf (endpoint? op first n) (endpoint? op last n) else concat l r
  | .int n, .range first last =>
    if isArithmetic op then rangeOf (endpoint? op n first) (endpoint? op n last) else concat l r
  | .function f, r =>
    if op = .plus then
      match r with
      | .function _ => compose f l r
      | r => bake f r
    else onResult f r (fun body literal => .binary op body literal) l r
  | l, .function f =>
    if op = .plus then bake f l
    else onResult f l (fun body literal => .binary op literal body) l r
  | l, r => concat l r

/-- Operands whose nesting is below the bound. -/
def combine : Nat → BinaryOp → Value → Value → Eval Value
  | 0, _, _, _ => Eval.exhausted
  | n + 1, op, l, r => Operator.binary (coerce (combine n)) op l r

def binary (op : BinaryOp) (l r : Value) : Eval Value := do
  let n := (← get).nesting + 3
  combine n op l r

end YeetYoink.Yolo
