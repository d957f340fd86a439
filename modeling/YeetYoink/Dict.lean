import YeetYoink.Eval
import YeetYoink.Text.Digest

/-!
# Dictionaries

Integers, booleans and texts can be keys. A pair is found through the table of the dictionary, under
what its key was filed as when it was put in, if the key kept there is still the one that is asked
for. A text is copied when it becomes a key, so that changing the text later does not change the
key.
-/

namespace YeetYoink

namespace Store

/-- What a value is filed under as a key; `none` if it cannot be one. -/
def hashKey? (s : Store) : Value → Option HashKey
  | .int n => some ⟨.int, n.toUInt64⟩
  | .bool b => some ⟨.bool, if b then 1 else 0⟩
  | .text r => some ⟨.text, Text.digest (s.text r)⟩
  | _ => none

/-- Two keys are the same key. -/
def sameKey (s : Store) : Value → Value → Bool
  | .int a, .int b => a = b
  | .bool a, .bool b => a = b
  | .text a, .text b => s.text a = s.text b
  | _, _ => false

/-- A value is this text. -/
def isText (s : Store) (t : String) : Value → Bool
  | .text r => s.text r = t
  | _ => false

end Store

namespace Dict

def size (d : Dict) : Nat := d.entries.length

/-- The places that are filed under a hash key. -/
def slot (d : Dict) (h : HashKey) : List Nat := (d.slots.lookup h).getD []

/-- Puts a place behind those that are filed under a hash key. -/
def file (h : HashKey) (i : Nat) : List (HashKey × List Nat) → List (HashKey × List Nat)
  | [] => [(h, [i])]
  | (g, is) :: slots => if g = h then (g, is ++ [i]) :: slots else (g, is) :: file h i slots

/-- The place of a pair that is filed under a hash key and whose key satisfies `p`. -/
def place? (d : Dict) (h : HashKey) (p : Value → Bool) : Option Nat :=
  (d.slot h).find? fun i => d.entries[i]?.any fun e => p e.key

/-- The value at the place of such a pair. -/
def find? (d : Dict) (h : HashKey) (p : Value → Bool) : Option Value :=
  (d.place? h p).bind fun i => d.entries[i]?.map (·.value)

/-- Gives the pair at a place another value. -/
def setValue (d : Dict) (i : Nat) (value : Value) : Dict :=
  { d with entries := d.entries.modify i ({ · with value }) }

/-- Puts a pair behind the others and files its place. -/
def push (d : Dict) (h : HashKey) (key value : Value) : Dict where
  entries := d.entries ++ [⟨key, value⟩]
  slots := file h d.size d.slots

/-- The value of a key; the inner `none` if it has none. -/
def get (d : Dict) (s : Store) (key : Value) : Except EvalError (Option Value) :=
  match s.hashKey? key with
  | none => .error (.keyNotHashable key.kind)
  | some h => .ok (d.find? h (s.sameKey · key))

/-- The value of a text as a key. -/
def getText? (d : Dict) (s : Store) (t : String) : Option Value :=
  d.find? ⟨.text, Text.digest t⟩ (s.isText t)

/-- A key that nobody else holds. -/
def detach : Value → Eval Value
  | .text r => do Eval.newText ((← MonadState.get).text r)
  | key => return key

/-- Gives a key its value. A new key comes last. -/
def insert (d : Dict) (key value : Value) : Eval Dict := do
  let s ← MonadState.get
  match s.hashKey? key with
  | none => Eval.fail (.keyNotHashable key.kind)
  | some h =>
    match d.place? h (s.sameKey · key) with
    | some i => return d.setValue i value
    | none => return d.push h (← detach key) value

end Dict

end YeetYoink
