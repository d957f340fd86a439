import YeetYoink.Decimal.Number
import YeetYoink.Element
import YeetYoink.Text.Upper

/-!
# The functions that every program can name

Each checks the number of its arguments first, then their kinds.
-/

namespace YeetYoink.Builtin

/-- How many arguments a function takes, for messages. -/
def want (least most : Nat) : String :=
  if least = most then Nat.repr least else Nat.repr least ++ " or " ++ Nat.repr most

def wrongCount (b : Builtin) (args : List Value) (least most : Nat) : Eval Value :=
  Eval.fail (.wrongArgCount b.name args.length (want least most))

def unsupported (b : Builtin) (v : Value) : Eval Value := Eval.fail (.unsupportedArg b.name v.kind)

def ofSize (n : Nat) : Value := .int (Int64.ofNat n)

/-- The sum, if it is not too large. -/
def checkedAdd? (a b : UInt64) : Option UInt64 := if a + b < a then none else some (a + b)

/-- A number as a signed one, if it is not too large. -/
def toSigned? (n : UInt64) : Option Int64 :=
  if n ≤ Int64.maxValue.toUInt64 then some n.toInt64 else none

/-- The number of integers in a range. -/
def rangeSize? (a b : Int64) : Option Int64 := (checkedAdd? (distance a b) 1).bind toSigned?

/-- The size of a container; of a text, its bytes. -/
def length (v : Value) : Eval Value := do
  let s ← get
  match v with
  | .text r => return ofSize (s.text r).utf8ByteSize
  | .array r => return ofSize (s.array r).size
  | .dict r => return ofSize (s.dict r).size
  | .range a b =>
    match rangeSize? a b with
    | some n => return .int n
    | none => Eval.fail (.lengthOverflow (s.display v))
  | v => unsupported .len v

def lastOf (v : Value) : Eval Value := do
  match v with
  | .array r => return ((← get).array r).back?.getD .null
  | v => unsupported .last v

/-- An array without its first element. -/
def restOf (v : Value) : Eval Value := do
  match v with
  | .array r =>
    match ((← get).array r).toList with
    | [] => return .null
    | _ :: vs => Eval.newArray vs.toArray
  | v => unsupported .rest v

/-- A copy of an array with one more element. -/
def pushed (v x : Value) : Eval Value := do
  match v with
  | .array r => Eval.newArray (((← get).array r).push x)
  | v => unsupported .push v

def yoinkFrom (v : Value) : Option Value → Eval Value
  | none => Element.yoink v none
  | some (.int i) => Element.yoink v (some i)
  | some other => unsupported .yoink other

def swapIn (v i j : Value) : Eval Value := do
  match i, j with
  | .int i, .int j =>
    match v with
    | .array r =>
      Element.swap r i j
      return v
    | v => unsupported .swap v
  | .int _, j => unsupported .swap j
  | i, _ => unsupported .swap i

/-- The arguments as shown, with blanks between them. -/
def joined (s : Store) (args : List Value) : String :=
  String.intercalate " " (args.map s.display)

def say (change : String → String) (args : List Value) : Eval Value := do
  modify fun s => s.print (change (joined s args))
  return .null

def assertTrue (v : Value) (message : Option Value) : Eval Value := do
  let s ← get
  if s.truthy v then return .null
  else Eval.fail (.yassertFailed (message.map s.display))

def textOf (v : Value) : Eval Value := do Eval.newText ((← get).display v)

/-- The text of one character, by its code point. -/
def character (v : Value) : Eval Value := do
  match v with
  | .int n =>
    if 0 ≤ n ∧ n.toInt.toNat.isValidChar then
      Eval.newText (String.singleton (Char.ofNat n.toInt.toNat))
    else Eval.fail (.conversionFailed (Decimal.ofInt64 n) "character")
  | v => unsupported .chr v

/-- An integer: a number toward zero and within the range of integers, a text as it reads. -/
def toInteger (v : Value) : Eval Value := do
  match v with
  | .int n => return .int n
  | .num x => return .int x.toInt64
  | .bool b => return .int (if b then 1 else 0)
  | .text r =>
    let t := (← get).text r
    match Decimal.toInt64? (trimBlank t.toList) with
    | some n => return .int n
    | none => Eval.fail (.conversionFailed t "int")
  | v => unsupported .int v

def toNumber (v : Value) : Eval Value := do
  match v with
  | .int n => return .num n.toFloat
  | .num x => return .num x
  | .bool b => return .num (if b then 1.0 else 0.0)
  | .text r =>
    let t := (← get).text r
    match Decimal.toFloat? (trimBlank t.toList) with
    | some x => return .num x
    | none => Eval.fail (.conversionFailed t "float")
  | v => unsupported .float v

def apply (b : Builtin) (args : List Value) : Eval Value :=
  match b, args with
  | .len, [v] => length v
  | .last, [v] => lastOf v
  | .rest, [v] => restOf v
  | .push, [v, x] => pushed v x
  | .push, args => wrongCount b args 2 2
  | .yoink, [v] => yoinkFrom v none
  | .yoink, [v, i] => yoinkFrom v (some i)
  | .yoink, args => wrongCount b args 1 2
  | .swap, [v, i, j] => swapIn v i j
  | .swap, args => wrongCount b args 3 3
  | .yell, args => say Text.upper args
  | .yelp, args | .yap, args => say id args
  | .yassert, [v] => assertTrue v none
  | .yassert, [v, m] => assertTrue v (some m)
  | .yassert, args => wrongCount b args 1 2
  | .yarn, [v] => textOf v
  | .chr, [v] => character v
  | .int, [v] => toInteger v
  | .float, [v] => toNumber v
  | .len, args | .last, args | .rest, args | .yarn, args | .chr, args | .int, args
  | .float, args => wrongCount b args 1 1

end YeetYoink.Builtin
