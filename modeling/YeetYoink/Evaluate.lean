import YeetYoink.Builtin
import YeetYoink.Expr.Transform
import YeetYoink.Interpolation
import YeetYoink.Yolo.Combine

/-!
# Evaluation

`evaluate n` gives the value of an expression in a scope, changing the store. Each construct is
written over an evaluator for the expressions inside it, and `evaluate (n + 1)` is made of
`evaluate n` (`evaluate_succ`), so `n` bounds how deep evaluation nests, calls of functions
included, and how many rounds a loop makes. Reaching the bound is a stop of its own.
-/

namespace YeetYoink

/-- Gives the values of expressions in scopes. -/
abbrev Evaluator := Expr → Ref .scope → Eval Value

namespace Evaluator

variable (ev : Evaluator)

/-- Evaluates expressions in order; the value is that of the last one, or the one given. -/
def sequence (scope : Ref .scope) : Value → Block → Eval Value
  | v, [] => return v
  | _, x :: xs => do
    let v ← ev x scope
    sequence scope v xs

def block (scope : Ref .scope) (body : Block) : Eval Value := sequence ev scope .null body

/-- The values of expressions, from left to right. -/
def values (scope : Ref .scope) (xs : List Expr) : Eval (List Value) :=
  xs.mapM (ev · scope)

/-! ### Literals -/

def template (scope : Ref .scope) (text : String) (xs : List Expr) : Eval Value := do
  let vs ← values ev scope xs
  let s ← get
  Eval.newText (Template.fill text (vs.map s.display))

/-- Adds the pairs of a dictionary literal. -/
def dictPairs (scope : Ref .scope) : Dict → List (Expr × Expr) → Eval Dict
  | d, [] => return d
  | d, (k, v) :: ps => do
    let k ← ev k scope
    let v ← ev v scope
    dictPairs scope (← d.insert k v) ps

def dict (scope : Ref .scope) (pairs : List (Expr × Expr)) : Eval Value := do
  Eval.newDict (← dictPairs ev scope {} pairs)

def range (scope : Ref .scope) (first last : Expr) : Eval Value := do
  let first ← ev first scope
  let last ← ev last scope
  match first, last with
  | .int a, .int b => return .range a b
  | a, b => Eval.fail (.invalidRange a.kind b.kind)

/-! ### Operators -/

def applyUnary (scope : Ref .scope) (op : UnaryOp) (v : Value) : Eval Value := do
  if (← get).isYolo scope then Yolo.unary op v else Operator.strictUnary op v

def applyBinary (scope : Ref .scope) (op : BinaryOp) (l r : Value) : Eval Value := do
  if (← get).isYolo scope then Yolo.binary op l r else Operator.strictBinary op l r

def unary (scope : Ref .scope) (op : UnaryOp) (x : Expr) : Eval Value := do
  let v ← ev x scope
  applyUnary scope op v

/-- Pushing to a name that holds an array changes the array. -/
def pushNamed (scope : Ref .scope) (name : String) (x : Expr) : Eval Value := do
  let target ← ev (.ident name) scope
  let v ← ev x scope
  match target with
  | .array r =>
    modify (·.modifyArray r (·.push v))
    return target
  | target => applyBinary scope .push target v

def binary (scope : Ref .scope) (op : BinaryOp) (l r : Expr) : Eval Value := do
  let l ← ev l scope
  let r ← ev r scope
  applyBinary scope op l r

/-- The right operand counts only if the left one has the truth value `on`. -/
def logical (scope : Ref .scope) (on : Bool) (l r : Expr) : Eval Value := do
  let v ← ev l scope
  if (← get).truthy v = on then ev r scope else return v

def index (scope : Ref .scope) (container key : Expr) : Eval Value := do
  let container ← ev container scope
  let key ← ev key scope
  Element.read container key

/-! ### Calls -/

/-- Evaluates a body with arguments for its parameters; `callee` is how errors call it. -/
def enter (callee : Expr) (f : Closure) (args : List Value) : Eval Value := do
  if f.params.length = args.length then
    let scope ← Eval.enclose f.scope
    modify (·.bindAll scope (f.params.zip args))
    Eval.catchYeet (block ev scope f.body)
  else Eval.fail (.wrongArgCount callee.print args.length (Nat.repr f.params.length))

def apply (callee : Expr) (f : Value) (args : List Value) : Eval Value :=
  match f with
  | .function f => enter ev callee f args
  | .builtin b => b.apply args
  | f => Eval.fail (.notFunction f.kind)

/-- Replaces a call of `unquote` by the literal of its argument's value. -/
def unquote (scope : Ref .scope) : Expr → Eval Expr
  | .call (.ident "unquote") [x] => do
    let v ← ev x scope
    match (← get).literal v with
    | .ok x => return x
    | .error .function => Eval.fail (.cannotUnquote v.kind)
    | .error .endless => Eval.exhausted
  | x => return x

def quote (scope : Ref .scope) : List Expr → Eval Value
  | [x] => return .quote (← x.transformM (unquote ev scope))
  | args => Eval.fail (.wrongArgCount "quote" args.length "1")

def call (scope : Ref .scope) (callee : Expr) (args : List Expr) : Eval Value := do
  match callee with
  | .ident "quote" => quote ev scope args
  | callee =>
    let f ← ev callee scope
    let vs ← values ev scope args
    apply ev callee f vs

/-! ### Assignments -/

def declare (scope : Ref .scope) (name : String) (x : Expr) : Eval Value := do
  let v ← ev x scope
  modify (·.bind scope name v)
  return v

/-- Changes a name where it is bound. In yolo an unbound name is declared. -/
def rebind (scope : Ref .scope) (name : String) (v : Value) : Eval Value := do
  if ← modifyGet (·.update scope name v) then return v
  else if (← get).isYolo scope then
    modify (·.bind scope name v)
    return v
  else Eval.fail (.undeclared name)

def update (scope : Ref .scope) (name : String) (x : Expr) : Eval Value := do
  let v ← ev x scope
  rebind scope name v

def updateElement (scope : Ref .scope) (container key x : Expr) : Eval Value := do
  let c ← ev container scope
  let k ← ev key scope
  let v ← ev x scope
  Element.assign c k v container.print

def assign (scope : Ref .scope) (kind : AssignKind) (target x : Expr) : Eval Value :=
  match kind, target with
  | .declare, .ident name => declare ev scope name x
  | .update, .ident name => update ev scope name x
  | .update, .index container key => updateElement ev scope container key x
  | _, target => Eval.fail (.invalidTarget target.print)

/-! ### Control -/

def conditional (scope : Ref .scope) (condition : Expr) (body : Block) (otherwise : Option Block) :
    Eval Value := do
  let v ← ev condition scope
  if (← get).truthy v then block ev scope body
  else
    match otherwise with
    | some body => block ev scope body
    | none => return .null

/-- Evaluates the body as long as the condition holds; the value is that of the last round. -/
def rounds (scope : Ref .scope) (condition : Expr) (body : Block) : Nat → Value → Eval Value
  | 0, _ => Eval.exhausted
  | n + 1, v => do
    let c ← ev condition scope
    if (← get).truthy c then
      let v ← block ev scope body
      rounds scope condition body n v
    else return v

def loop (n : Nat) (scope : Ref .scope) (condition : Expr) (body : Block) : Eval Value := do
  let scope ← Eval.enclose scope
  rounds ev scope condition body n .null

/-- One round of an iteration. -/
def round (scope : Ref .scope) (key : String) (body : Block) (item : Value) : Eval Value := do
  modify (·.bind scope key item)
  block ev scope body

def eachListed (scope : Ref .scope) (key : String) (body : Block) :
    Value → List Value → Eval Value
  | v, [] => return v
  | _, x :: xs => do
    let v ← round ev scope key body x
    eachListed scope key body v xs

def eachCounted (scope : Ref .scope) (key : String) (body : Block) (step : Int64) :
    Value → Int64 → Nat → Eval Value
  | v, _, 0 => return v
  | _, i, n + 1 => do
    let v ← round ev scope key body (.int i)
    eachCounted scope key body step v (i + step) n

def iteration (scope : Ref .scope) (key : String) (source : Expr) (body : Block) : Eval Value := do
  let v ← ev source scope
  let scope ← Eval.enclose scope
  match ← Items.of v with
  | .listed vs => eachListed ev scope key body .null vs
  | .counted first step n => eachCounted ev scope key body step .null first n

def yeet (scope : Ref .scope) (x : Expr) : Eval Value := do
  let v ← ev x scope
  throw (.yeet v)

def yolo (scope : Ref .scope) (body : Block) : Eval Value := do
  let scope ← Eval.enclose scope
  modify (·.markYolo scope)
  block ev scope body

/-! ### All expressions -/

/-- One expression, by the evaluator for those inside it; `n` bounds the rounds of a loop. -/
def node (n : Nat) (x : Expr) (scope : Ref .scope) : Eval Value :=
  match x with
  | .ident name => do Eval.ofExcept ((← get).resolve scope name)
  | .int n => return .int n
  | .num x => return .num x
  | .bool b => return .bool b
  | .null => return .null
  | .str text => do
    let t ← Eval.ofExcept ((← get).interpolate scope text)
    Eval.newText t
  | .template text values => template ev scope text values
  | .array items => do
    let vs ← values ev scope items
    Eval.newArray vs.toArray
  | .dict pairs => dict ev scope pairs
  | .range first last => range ev scope first last
  | .unary op x => unary ev scope op x
  | .binary .push (.ident name) r => pushNamed ev scope name r
  | .binary op l r => binary ev scope op l r
  | .and l r => logical ev scope true l r
  | .or l r => logical ev scope false l r
  | .index container key => index ev scope container key
  | .call callee args => call ev scope callee args
  | .assign kind target x => assign ev scope kind target x
  | .block body => block ev scope body
  | .yif condition body otherwise => conditional ev scope condition body otherwise
  | .yoyo condition body => loop ev n scope condition body
  | .yall key source body => iteration ev scope key source body
  | .yeet x => yeet ev scope x
  | .yolo body => yolo ev scope body
  | .lambda params body => Eval.newFunction params body scope
  | .macroLit params body => Eval.newMacro params body scope
  | .bad _ => Eval.fail .badExpression

end Evaluator

/-- How many levels of nesting share one machine stack. -/
def stackLevels : Nat := 4096

/-- The value of an expression whose evaluation nests less deep than the bound. -/
def evaluate : Nat → Evaluator
  | 0, _, _ => Eval.exhausted
  | n + 1, x, scope =>
    if n % stackLevels = 0 then Eval.onNewStack (Evaluator.node (evaluate n) n x scope)
    else Evaluator.node (evaluate n) n x scope

@[simp] theorem evaluate_zero (x : Expr) (scope : Ref .scope) :
    evaluate 0 x scope = Eval.exhausted := rfl

@[simp] theorem evaluate_succ (n : Nat) (x : Expr) (scope : Ref .scope) :
    evaluate (n + 1) x scope = Evaluator.node (evaluate n) n x scope := by
  simp [evaluate]

/-- The value of a program: that of its last expression, or the first that is yeeted. -/
def evaluateProgram (n : Nat) (p : Program) (scope : Ref .scope) : Eval Value :=
  Eval.catchYeet (Evaluator.block (evaluate n) scope p)

end YeetYoink
