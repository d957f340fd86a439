import YeetYoink.Decimal.Ratio

/-!
# The number nearest to a decimal

A fraction is measured in the unit in which its whole part has as many bits as a mantissa, or in the
least unit there is, and rounded to a whole number of units. A half goes to the even mantissa. What
is too large for the format is infinite.
-/

namespace YeetYoink.Decimal

namespace Binary

/-- The exponent of the largest numbers. -/
def maxExponent : Int := 971

/-- One more than the largest mantissa. -/
def mantissaLimit : Nat := 1 <<< 53

/-- The exponent of the unit in which a fraction is rounded. -/
def unit (r : Ratio) : Int :=
  let k := max minExponent ((Nat.log2 r.num : Int) - Nat.log2 r.den - 53)
  if (r.divTwo k).floor < mantissaLimit then k else k + 1

def nearest (r : Ratio) : Float :=
  let q := unit r
  let m := (r.divTwo q).round
  if maxExponent < q ∨ (maxExponent = q ∧ m = mantissaLimit) then 1.0 / 0.0
  else encode ⟨false, m, q⟩

end Binary

/-- How many digits of a decimal are looked at. Midway between two numbers there is no decimal with
more than 767. -/
def maxDigits : Nat := 800

/-- The digits that decide how a decimal is rounded: the first ones, and a last one that says
whether more follows. -/
def significant (ds : List Char) : List Char :=
  if ds.length ≤ maxDigits then ds
  else ds.take maxDigits ++ [if (ds.drop maxDigits).all (· = '0') then '0' else '1']

/-- The number nearest to the digits times a power of ten. What is far out of range is settled by
the number of digits alone. -/
def ofDigits (ds : List Char) (e : Int) : Float :=
  let ds := ds.dropWhile (· = '0')
  let size := ds.length + e
  if ds = [] ∨ size < -400 then 0.0
  else if 400 < size then 1.0 / 0.0
  else
    let kept := significant ds
    Binary.nearest ((Ratio.ofNat (value kept)).divTen (kept.length - size))

end YeetYoink.Decimal
