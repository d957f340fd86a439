import YeetYoink.Operator

/-!
# The minus sign on anything

In a yolo block the minus sign has a meaning for every value: a text is rotated by thirteen letters,
an array negates its elements, a dictionary exchanges keys and values, a range runs backwards, a
function negates its result. What is left shows with a minus sign before it.
-/

namespace YeetYoink.Yolo

/-- The answer to what has no answer. -/
def abyss : String := "Stare at the abyss long enough, and it starts to stare back at you."

def newAbyss : Eval Value := Eval.newText abyss

/-- Moves a letter thirteen places, round the alphabet. -/
def rot13 (c : Char) : Char :=
  if ('A' ≤ c ∧ c ≤ 'M') ∨ ('a' ≤ c ∧ c ≤ 'm') then Char.ofNat (c.toNat + 13)
  else if ('N' ≤ c ∧ c ≤ 'Z') ∨ ('n' ≤ c ∧ c ≤ 'z') then Char.ofNat (c.toNat - 13)
  else c

/-- Puts the values in as keys and the keys as their values. A value that cannot be a key is left
out. -/
def swapEntries (d : Dict) : List Entry → Eval Dict
  | [] => return d
  | e :: es => do
    if ((← get).hashKey? e.value).isSome then swapEntries (← d.insert e.value e.key) es
    else swapEntries d es

/-- A function like another, with a body of its own. -/
def withBody (f : Closure) (body : Block) : Eval Value := Eval.newFunction f.params body f.scope

/-- A value that has no opposite, with a minus sign before it. -/
def negateShown (v : Value) : Eval Value := do
  Eval.newText ("-" ++ (← get).display v)

/-- The opposite of a value that is no number. -/
def opposite (negate : Value → Eval Value) : Value → Eval Value
  | .null => newAbyss
  | .text r => do Eval.newText (String.ofList (((← get).text r).toList.map rot13))
  | .array r => do
    let vs ← ((← get).array r).toList.mapM negate
    Eval.newArray vs.toArray
  | .bool b => return .bool (!b)
  | .dict r => do
    let d ← swapEntries {} ((← get).dict r).entries
    Eval.newDict d
  | .range first last => return .range last first
  | .function f => withBody f [.unary .minus (.block f.body)]
  | v => negateShown v

/-- The opposite of a value whose nesting is below the bound. -/
def negate : Nat → Value → Eval Value
  | 0, _ => Eval.exhausted
  | n + 1, v => Operator.unary (opposite (negate n)) .minus v

def unary (op : UnaryOp) (v : Value) : Eval Value := do
  let n := (← get).nesting + 1
  Operator.unary (opposite (negate n)) op v

end YeetYoink.Yolo
