import YeetYoink.Text.CharClass

/-!
# Integers in decimal

Writing puts a minus sign before the digits. Reading takes one sign of either kind and needs a
digit; what does not fit in 64 bits is no integer.
-/

namespace YeetYoink.Decimal

def digits (n : Nat) : List Char := Nat.toDigits 10 n

def ofInt (n : Int) : List Char :=
  if n < 0 then '-' :: digits n.natAbs else digits n.natAbs

def ofInt64 (n : Int64) : String := String.ofList (ofInt n.toInt)

/-- The value of a run of digits. -/
def value (cs : List Char) : Nat := cs.foldl (fun n c => 10 * n + (c.toNat - '0'.toNat)) 0

def toNat? (cs : List Char) : Option Nat :=
  if cs ≠ [] ∧ cs.all isDigit then some (value cs) else none

def toInt? : List Char → Option Int
  | '-' :: cs => (toNat? cs).map fun n => -(n : Int)
  | '+' :: cs => (toNat? cs).map Int.ofNat
  | cs => (toNat? cs).map Int.ofNat

/-- More digits than a 64-bit integer has, after the sign and leading zeros. -/
def isLong (cs : List Char) : Bool :=
  19 < (cs.dropWhile fun c => c = '-' || c = '+' || c = '0').length

def toInt64? (cs : List Char) : Option Int64 :=
  if isLong cs then none
  else
    (toInt? cs).bind fun n =>
      if Int64.minValue.toInt ≤ n ∧ n ≤ Int64.maxValue.toInt then some (Int64.ofInt n) else none

end YeetYoink.Decimal
