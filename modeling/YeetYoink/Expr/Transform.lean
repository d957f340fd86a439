import YeetYoink.Expr

/-!
# Transforming bottom-up

`Expr.transformM f` rebuilds an expression from its leaves: the children of a node are transformed
from left to right, and the node made of the results is handed to `f`.
-/

namespace YeetYoink.Expr

variable {m : Type → Type} [Monad m]

mutual

def transformM (f : Expr → m Expr) : Expr → m Expr
  | .template text values => do f (.template text (← transformAllM f values))
  | .array items => do f (.array (← transformAllM f items))
  | .dict pairs => do f (.dict (← transformPairsM f pairs))
  | .range first last => do
    let first ← first.transformM f
    let last ← last.transformM f
    f (.range first last)
  | .unary op operand => do f (.unary op (← operand.transformM f))
  | .binary op left right => do
    let left ← left.transformM f
    let right ← right.transformM f
    f (.binary op left right)
  | .and left right => do
    let left ← left.transformM f
    let right ← right.transformM f
    f (.and left right)
  | .or left right => do
    let left ← left.transformM f
    let right ← right.transformM f
    f (.or left right)
  | .index container key => do
    let container ← container.transformM f
    let key ← key.transformM f
    f (.index container key)
  | .call callee args => do
    let callee ← callee.transformM f
    let args ← transformAllM f args
    f (.call callee args)
  | .assign kind target value => do
    let target ← target.transformM f
    let value ← value.transformM f
    f (.assign kind target value)
  | .block body => do f (.block (← transformAllM f body))
  | .yif condition body none => do
    let condition ← condition.transformM f
    let body ← transformAllM f body
    f (.yif condition body none)
  | .yif condition body (some otherwise) => do
    let condition ← condition.transformM f
    let body ← transformAllM f body
    let otherwise ← transformAllM f otherwise
    f (.yif condition body (some otherwise))
  | .yoyo condition body => do
    let condition ← condition.transformM f
    let body ← transformAllM f body
    f (.yoyo condition body)
  | .yall key source body => do
    let source ← source.transformM f
    let body ← transformAllM f body
    f (.yall key source body)
  | .yeet value => do f (.yeet (← value.transformM f))
  | .yolo body => do f (.yolo (← transformAllM f body))
  | .lambda params body => do f (.lambda params (← transformAllM f body))
  | .macroLit params body => do f (.macroLit params (← transformAllM f body))
  | leaf@(.ident _) | leaf@(.int _) | leaf@(.num _) | leaf@(.bool _) | leaf@(.null)
  | leaf@(.str _) | leaf@(.bad _) => f leaf

def transformAllM (f : Expr → m Expr) : List Expr → m (List Expr)
  | [] => pure []
  | x :: xs => do
    let x ← x.transformM f
    let xs ← transformAllM f xs
    pure (x :: xs)

def transformPairsM (f : Expr → m Expr) : List (Expr × Expr) → m (List (Expr × Expr))
  | [] => pure []
  | (k, v) :: ps => do
    let k ← k.transformM f
    let v ← v.transformM f
    let ps ← transformPairsM f ps
    pure ((k, v) :: ps)

end

/-- Transforming with a function that cannot fail. -/
def transform (f : Expr → Expr) (x : Expr) : Expr := Id.run (x.transformM fun y => pure (f y))

end YeetYoink.Expr
