import YeetYoink.Expr.Print
import YeetYoink.Store

/-!
# Values as text

A text shows as itself on its own and quoted inside a container. While a container is being shown it
is open; met again inside itself, it shows as dots. A path of open containers has no repetition, so
it is never longer than `Store.nesting`.
-/

namespace YeetYoink

/-- A value that holds others. -/
inductive Container where
  | array (r : Ref .array)
  | dict (r : Ref .dict)
  deriving DecidableEq, Repr

namespace Container

def isArray (r : Ref .array) : Container → Bool
  | array a => a.index == r.index
  | dict _ => false

def isDict (r : Ref .dict) : Container → Bool
  | dict d => d.index == r.index
  | array _ => false

theorem isArray_iff (r : Ref .array) (c : Container) : c.isArray r = true ↔ c = array r := by
  cases c with
  | array a => cases a; cases r; simp [isArray]
  | dict d => simp [isArray]

theorem isDict_iff (r : Ref .dict) (c : Container) : c.isDict r = true ↔ c = dict r := by
  cases c with
  | array a => simp [isDict]
  | dict d => cases d; cases r; simp [isDict]

/-- An array is open if and only if it is on the path. -/
theorem any_isArray (path : List Container) (r : Ref .array) :
    path.any (·.isArray r) = true ↔ array r ∈ path := by
  simp [isArray_iff]

/-- A dictionary is open if and only if it is on the path. -/
theorem any_isDict (path : List Container) (r : Ref .dict) :
    path.any (·.isDict r) = true ↔ dict r ∈ path := by
  simp [isDict_iff]

end Container

namespace Store

/-- A value that holds no others; a text is quoted. -/
def inspectPlain (s : Store) : Value → String
  | .int n => Decimal.ofInt64 n
  | .num x => Decimal.ofFloat x
  | .bool b => if b then "true" else "false"
  | .null => "null"
  | .text r => Text.quoted (s.text r)
  | .array _ => "[...]"
  | .dict _ => "%\x7b...\x7d"
  | .range first last => Decimal.ofInt64 first ++ ".." ++ Decimal.ofInt64 last
  | .function f => (Expr.lambda f.params f.body).print
  | .macroFn f => (Expr.macroLit f.params f.body).print
  | .builtin b => "builtin " ++ b.name
  | .quote node => "quote(" ++ node.print ++ ")"

/-- Shows a value inside the containers that are open. -/
def inspectIn (s : Store) : Nat → List Container → Value → String
  | n + 1, path, .array r =>
    if path.any (·.isArray r) then "[...]"
    else "[" ++ Expr.commas ((s.array r).toList.map (s.inspectIn n (.array r :: path))) ++ "]"
  | n + 1, path, .dict r =>
    if path.any (·.isDict r) then "%\x7b...\x7d"
    else
      let path := .dict r :: path
      "%\x7b" ++ Expr.commas ((s.dict r).entries.map fun e =>
        s.inspectIn n path e.key ++ ": " ++ s.inspectIn n path e.value) ++ "\x7d"
  | _, _, v => s.inspectPlain v

/-- How a value shows inside a container. -/
def inspect (s : Store) (v : Value) : String := s.inspectIn (s.nesting + 1) [] v

/-- How a value shows on its own. -/
def display (s : Store) : Value → String
  | .text r => s.text r
  | v => s.inspect v

/-- False, null and whatever is empty count as false. -/
def truthy (s : Store) : Value → Bool
  | .bool b => b
  | .null => false
  | .text r => s.text r ≠ ""
  | .array r => !(s.array r).isEmpty
  | .dict r => !(s.dict r).entries.isEmpty
  | _ => true

end Store

end YeetYoink
