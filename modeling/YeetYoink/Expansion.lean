import YeetYoink.Evaluate

/-!
# Macros

Before a program is evaluated, the macros that it defines at its top level are bound and their
definitions taken out, and every call of a macro is replaced by the expression that the macro
returns. A macro is given its arguments as they are written, as quotes. What it returns is not
searched for calls again.
-/

namespace YeetYoink

namespace Program

/-- Binds the macros defined at the top level and gives the rest of the program. -/
def define (root : Ref .scope) : Program → Eval Program
  | [] => return []
  | .assign .declare (.ident name) (.macroLit params body) :: xs => do
    let v ← Eval.newMacro params body root
    modify (·.bind root name v)
    define root xs
  | x :: xs => do
    let xs ← define root xs
    return x :: xs

end Program

/-- The macro that a name means in a scope. -/
def Store.macroNamed? (s : Store) (r : Ref .scope) (name : String) : Option Closure :=
  match s.lookup? r name with
  | some (.macroFn f) => some f
  | _ => none

namespace Evaluator

/-- The expression that a macro returns for its arguments. -/
def expansion (ev : Evaluator) (name : String) (f : Closure) (args : List Expr) : Eval Expr := do
  match ← enter ev (.ident name) f (args.map .quote) with
  | .quote x => return x
  | v => Eval.fail (.notQuote v.kind)

/-- Replaces a call of a macro; any other expression stays. -/
def expandCall (ev : Evaluator) (root : Ref .scope) : Expr → Eval Expr
  | .call (.ident name) args => do
    match (← get).macroNamed? root name with
    | some f => expansion ev name f args
    | none => return .call (.ident name) args
  | x => return x

end Evaluator

/-- The program without its macros. -/
def Program.expand (n : Nat) (root : Ref .scope) (p : Program) : Eval Program := do
  let p ← p.define root
  Expr.transformAllM (Evaluator.expandCall (evaluate n) root) p

end YeetYoink
