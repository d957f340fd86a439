import YeetYoink.Expansion
import YeetYoink.Program

/-!
# Sessions

A session runs one source after the other in one root scope, so that later sources see the names and
macros of earlier ones. A source with a parse error is not run at all; what a source did before it
failed stays done.
-/

namespace YeetYoink

/-- Why a source has no value. -/
inductive RunError where
  | parse (errors : List ParseError)
  | runtime (e : EvalError)
  | exhausted

namespace RunError

def ofStop : Stop → RunError
  | .failed e => .runtime e
  | .yeet _ | .exhausted => .exhausted

def message : RunError → String
  | parse es => Nat.repr es.length ++ " parse error(s)"
  | runtime e => "runtime error: " ++ e.message
  | exhausted => "runtime error: evaluation is nested too deep"

/-- The error as shown to whoever wrote the source. -/
def render (source : String) : RunError → String
  | parse es => String.intercalate "\n" (es.map (·.render source))
  | e => e.message

end RunError

structure Session where
  root : Ref .scope
  store : Store

namespace Session

/-- How deep evaluation may nest: beyond what any machine can hold. -/
def depth : Nat := 1 <<< 62

/-- A session with a root scope of its own in a store. -/
def within (s : Store) : Session :=
  let (root, store) := s.openRoot
  { root, store }

def new : Session := within {}

def perform {α : Type} (s : Session) (x : Eval α) : Except RunError α × Session :=
  match x s.store with
  | .ok v store => (.ok v, { s with store })
  | .error e store => (.error (.ofStop e), { s with store })

def expand (s : Session) (p : Program) : Except RunError Program × Session :=
  s.perform (p.expand depth s.root)

/-- The program of a source, without its macros. -/
def prepare (s : Session) (source : String) : Except RunError Program × Session :=
  match Program.parse source with
  | .ok p => s.expand p
  | .error es => (.error (.parse es), s)

def evaluate (s : Session) (p : Program) : Except RunError Value × Session :=
  s.perform (evaluateProgram depth p s.root)

def run (s : Session) (source : String) : Except RunError Value × Session :=
  match s.prepare source with
  | (.ok p, s) => s.evaluate p
  | (.error e, s) => (.error e, s)

def print (s : Session) (line : String) : Session := { s with store := s.store.print line }

/-- What was printed since it was last taken. -/
def takePrinted (s : Session) : String × Session :=
  (s.store.printed, { s with store := { s.store with printed := "" } })

end Session

end YeetYoink
