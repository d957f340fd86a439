import YeetYoink.Dict
import YeetYoink.Expr.Same

/-!
# When two values are equal

Values are equal if they are of one kind and have the same content. An array or dictionary equals
itself without a look inside. Dictionaries are compared key by key, in whatever order. Comparing
values that contain themselves may never end; `none` says that the bound was reached.
-/

namespace YeetYoink

/-- Compares two lists element by element, up to the first difference. -/
def equalLists? (eq? : Value → Value → Option Bool) : List Value → List Value → Option Bool
  | [], [] => some true
  | x :: xs, y :: ys =>
    match eq? x y with
    | some true => equalLists? eq? xs ys
    | r => r
  | _, _ => some false

namespace Store

/-- Every entry has an equal value under its key in the other dictionary. -/
def entriesIn? (s : Store) (eq? : Value → Value → Option Bool) (d : Dict) :
    List Entry → Option Bool
  | [] => some true
  | e :: es =>
    match d.get s e.key with
    | .ok (some v) =>
      match eq? v e.value with
      | some true => s.entriesIn? eq? d es
      | r => r
    | _ => some false

def equalIn? (s : Store) : Nat → Value → Value → Option Bool
  | _, .int a, .int b => some (a = b)
  | _, .num a, .num b => some (a == b)
  | _, .bool a, .bool b => some (a = b)
  | _, .text a, .text b => some (s.text a = s.text b)
  | _, .null, .null => some true
  | _, .range a b, .range c d => some (a = c && b = d)
  | _, .function f, .function g | _, .macroFn f, .macroFn g =>
    some (f.params = g.params && f.identity = g.identity && f.scope = g.scope)
  | _, .builtin a, .builtin b => some (a = b)
  | _, .quote a, .quote b => some (a.same b)
  | 0, .array a, .array b => if a = b then some true else none
  | n + 1, .array a, .array b =>
    if a = b then some true
    else if (s.array a).size = (s.array b).size then
      equalLists? (s.equalIn? n) (s.array a).toList (s.array b).toList
    else some false
  | 0, .dict a, .dict b => if a = b then some true else none
  | n + 1, .dict a, .dict b =>
    if a = b then some true
    else if (s.dict a).size = (s.dict b).size then
      s.entriesIn? (s.equalIn? n) (s.dict b) (s.dict a).entries
    else some false
  | _, _, _ => some false

def equal? (s : Store) (a b : Value) : Option Bool := s.equalIn? (s.nesting + 1) a b

/-- Two dictionaries are equal. -/
def equalDicts? (s : Store) (a b : Dict) : Option Bool :=
  if a.size = b.size then s.entriesIn? s.equal? b a.entries else some false

end Store

/-- Whether two values are equal. -/
def Eval.equal (a b : Value) : Eval Bool := do
  match (← get).equal? a b with
  | some r => return r
  | none => Eval.exhausted

end YeetYoink
