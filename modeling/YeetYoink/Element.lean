import YeetYoink.Value.Display
import YeetYoink.Dict

/-!
# Elements of containers

Reading, assigning and taking out what stands at a place of an array, a text or a dictionary, and
the values an iteration goes through. Texts count characters.
-/

namespace YeetYoink

/-- A place within a sequence of some size. -/
def position? (i : Int64) (size : Nat) : Option Nat :=
  if 0 ≤ i.toInt ∧ i.toInt < size then some i.toInt.toNat else none

/-- A bound moved into a sequence of some size. -/
def clamp (i : Int64) (size : Nat) : Nat := min i.toInt.toNat size

/-- The elements from one bound up to another, the second not included. -/
def slice {α : Type} (first last : Int64) (xs : List α) : List α :=
  (xs.take (clamp last xs.length)).drop (clamp first xs.length)

/-- A text with the character at a place replaced. -/
def replaceAt (t : String) (i : Nat) (new : String) : String :=
  let cs := t.toList
  String.ofList (cs.take i ++ new.toList ++ cs.drop (i + 1))

namespace Element

def read (container key : Value) : Eval Value := do
  let s ← get
  match container, key with
  | .array a, .int i =>
    match position? i (s.array a).size with
    | some i => return (s.array a)[i]?.getD .null
    | none => return .null
  | .array a, .range first last =>
    Eval.newArray (slice first last (s.array a).toList).toArray
  | .text t, .int i =>
    let cs := (s.text t).toList
    match (position? i cs.length).bind (cs[·]?) with
    | some c => Eval.newText (String.singleton c)
    | none => return .null
  | .text t, .range first last => Eval.newText (String.ofList (slice first last (s.text t).toList))
  | .dict d, key =>
    match (s.dict d).get s key with
    | .ok v => return v.getD .null
    | .error e => Eval.fail e
  | container, key => Eval.fail (.cannotIndex container.kind key.kind)

/-- Assigns to a place of the container; `printed` is how errors call it. A value that cannot be a
key leaves a dictionary as it is. -/
def assign (container key value : Value) (printed : String) : Eval Value := do
  let s ← get
  match container, key with
  | .array a, .int i =>
    match position? i (s.array a).size with
    | some i =>
      modify (·.modifyArray a (·.setIfInBounds i value))
      return value
    | none => Eval.fail (.outOfBounds .array printed)
  | .text t, .int i =>
    match position? i (s.text t).length with
    | some i =>
      let shown := s.display value
      modify (·.modifyText t (replaceAt · i shown))
      return value
    | none => Eval.fail (.outOfBounds .text printed)
  | .dict d, key =>
    if (s.hashKey? key).isSome then
      let new ← (s.dict d).insert key value
      modify (·.modifyDict d fun _ => new)
    return value
  | container, key => Eval.fail (.cannotIndex container.kind key.kind)

/-- The place that `yoink` takes from: the one given, or the last. -/
def yoinkPosition? (i : Option Int64) (size : Nat) : Option Nat :=
  match i with
  | some i => position? i size
  | none => if size = 0 then none else some (size - 1)

/-- Takes out an element, or gives null if there is none at the place. -/
def yoink (container : Value) (i : Option Int64) : Eval Value := do
  let s ← get
  match container with
  | .array a =>
    match yoinkPosition? i (s.array a).size with
    | some i =>
      let v := (s.array a)[i]?.getD .null
      modify (·.modifyArray a (·.eraseIdxIfInBounds i))
      return v
    | none => return .null
  | .text t =>
    let cs := (s.text t).toList
    match (yoinkPosition? i cs.length).bind fun i => cs[i]?.map (i, ·) with
    | some (i, c) =>
      modify (·.modifyText t fun _ => String.ofList (cs.eraseIdx i))
      Eval.newText (String.singleton c)
    | none => return .null
  | container => Eval.fail (.cannotYoink container.kind)

/-- Exchanges two elements, if both places are in the array. -/
def swap (a : Ref .array) (i j : Int64) : Eval Unit := do
  let size := ((← get).array a).size
  match position? i size, position? j size with
  | some i, some j => modify (·.modifyArray a (·.swapIfInBounds i j))
  | _, _ => return ()

end Element

/-- How far two integers lie apart. -/
def distance (a b : Int64) : UInt64 :=
  if a ≤ b then b.toUInt64 - a.toUInt64 else a.toUInt64 - b.toUInt64

/-- The values of an iteration. Integers are counted and not listed. -/
inductive Items where
  | listed (vs : List Value)
  | counted (first : Int64) (step : Int64) (count : Nat)

namespace Items

/-- The integers from `first` to `last`, both included, up or down. -/
def ofRange (first last : Int64) : Items :=
  .counted first (if first ≤ last then 1 else -1) ((distance first last).toNat + 1)

/-- What an iteration over a value goes through. An integer stands for the range between it and
zero, the lesser one first. -/
def of (v : Value) : Eval Items := do
  let s ← get
  match v with
  | .array a => return .listed (s.array a).toList
  | .text t => return .listed (← Eval.newChars (s.text t).toList)
  | .range first last => return ofRange first last
  | .int n => return if 0 ≤ n then ofRange 0 n else ofRange n 0
  | v => Eval.fail (.cannotIterate v.kind)

/-- The integers that are counted. -/
def count (first step : Int64) : Nat → List Int64
  | 0 => []
  | n + 1 => first :: count (first + step) step n

def toList : Items → List Value
  | .listed vs => vs
  | .counted first step n => (count first step n).map .int

end Items

end YeetYoink
