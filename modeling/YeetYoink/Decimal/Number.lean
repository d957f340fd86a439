import YeetYoink.Decimal.Nearest
import YeetYoink.Decimal.Shortest

/-!
# Floating-point numbers in decimal

An integral number is written with all its digits and `.0`; any other with the fewest digits that
read back. There is never an exponent. Reading takes a sign, digits with at most one point, an
exponent, and the names of the infinities and of what is no number.
-/

namespace YeetYoink.Decimal

/-- Writes a decimal without an exponent. -/
def positional (d : Scientific) : List Char :=
  let ds := digits d.digits
  let places := d.exponent.natAbs
  if 0 ≤ d.exponent then ds ++ List.replicate places '0'
  else if places < ds.length then
    ds.take (ds.length - places) ++ '.' :: ds.drop (ds.length - places)
  else '0' :: '.' :: List.replicate (places - ds.length) '0' ++ ds

def magnitudeText (b : Binary) : List Char :=
  if b.isIntegral then digits (Binary.scale b.mantissa b.exponent) ++ ['.', '0']
  else positional (shortest b.mantissa b.exponent)

def ofFloat (x : Float) : String :=
  match Binary.decode x with
  | some b => String.ofList (if b.negative then '-' :: magnitudeText b else magnitudeText b)
  | none => if x == x then if x < 0 then "-inf" else "inf" else "NaN"

/-- An exponent takes in digits as long as it is below this. -/
def exponentLimit : Nat := 65536

/-- The value of the digits of an exponent. Those that come after it has reached the limit do not
count. -/
def exponentValue (cs : List Char) : Nat :=
  cs.foldl (fun n c => if n < exponentLimit then 10 * n + (c.toNat - '0'.toNat) else n) 0

def exponentDigits? (cs : List Char) : Option Nat :=
  if cs ≠ [] ∧ cs.all isDigit then some (exponentValue cs) else none

def signedExponent? : List Char → Option Int
  | '-' :: cs => (exponentDigits? cs).map fun n => -(n : Int)
  | '+' :: cs => (exponentDigits? cs).map Int.ofNat
  | cs => (exponentDigits? cs).map Int.ofNat

/-- An exponent with its mark, or nothing. -/
def readExponent? : List Char → Option Int
  | [] => some 0
  | c :: cs => if c = 'e' ∨ c = 'E' then signedExponent? cs else none

/-- Digits with at most one point, at least one digit, and an exponent. -/
def readUnsigned? (cs : List Char) : Option Float :=
  let whole := cs.takeWhile isDigit
  let (fraction, rest) := match cs.dropWhile isDigit with
    | '.' :: cs => (cs.takeWhile isDigit, cs.dropWhile isDigit)
    | cs => ([], cs)
  if whole = [] ∧ fraction = [] then none
  else (readExponent? rest).map fun e => ofDigits (whole ++ fraction) (e - fraction.length)

def readName? (cs : List Char) : Option Float :=
  match String.ofList (cs.map Char.toLower) with
  | "inf" | "infinity" => some (1.0 / 0.0)
  | "nan" => some (0.0 / 0.0)
  | _ => none

def readMagnitude? (cs : List Char) : Option Float := readUnsigned? cs <|> readName? cs

def toFloat? : List Char → Option Float
  | '-' :: cs => (readMagnitude? cs).map (-·)
  | '+' :: cs => readMagnitude? cs
  | cs => readMagnitude? cs

end YeetYoink.Decimal
