import YeetYoink.EvalError
import YeetYoink.Scope

/-!
# Computations on the store

A computation changes the store and gives a value, or stops: with a value on its way out of a
function, with an error, or because a bound on its depth was too low. What was changed before a stop
stays changed.
-/

namespace YeetYoink

inductive Stop where
  | yeet (v : Value)
  | failed (e : EvalError)
  | exhausted

abbrev Eval := EStateM Stop Store

namespace Eval

variable {α : Type}

def fail (e : EvalError) : Eval α := throw (.failed e)

def exhausted : Eval α := throw .exhausted

def ofExcept : Except EvalError α → Eval α
  | .ok v => return v
  | .error e => fail e

def newText (t : String) : Eval Value :=
  modifyGet fun s => let (r, s) := s.newText t; (.text r, s)

def newArray (a : Array Value) : Eval Value :=
  modifyGet fun s => let (r, s) := s.newArray a; (.array r, s)

def newDict (d : Dict) : Eval Value :=
  modifyGet fun s => let (r, s) := s.newDict d; (.dict r, s)

def enclose (r : Ref .scope) : Eval (Ref .scope) := modifyGet (·.enclose r)

/-- A number that no other function body has. -/
def newBody : Eval Nat := modifyGet fun s => (s.bodies, { s with bodies := s.bodies + 1 })

/-- A function with a body of its own. -/
def newFunction (params : List String) (body : Block) (scope : Ref .scope) : Eval Value := do
  let identity ← newBody
  return .function { params, body, scope, identity }

def newMacro (params : List String) (body : Block) (scope : Ref .scope) : Eval Value := do
  let identity ← newBody
  return .macroFn { params, body, scope, identity }

/-- A text for each character. -/
def newChars (cs : List Char) : Eval (List Value) :=
  modifyGet fun s =>
    ((List.range cs.length).map fun i => .text ⟨s.texts.size + i⟩,
      { s with texts := s.texts ++ cs.map String.singleton })

/-- Ends a function: a value on its way out is the result. -/
def catchYeet (x : Eval Value) : Eval Value := fun s =>
  match x s with
  | .error (.yeet v) s => .ok v s
  | r => r

/-- Runs a computation on a machine stack of its own. It is the same computation. -/
def onNewStack (x : Eval α) : Eval α := fun s => (Task.spawn (fun _ => x s) .dedicated).get

@[simp] theorem onNewStack_eq (x : Eval α) : onNewStack x = x := rfl

end Eval

end YeetYoink
