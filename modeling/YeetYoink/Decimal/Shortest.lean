import YeetYoink.Decimal.Ratio

/-!
# The fewest digits that read back

`shortest` finds, for a positive number, the decimal with the fewest digits that rounds to it, and
of those the nearest. It takes ever finer decimal grids, from the power of ten above the number on,
and looks at the number's two neighbours on the grid; the first grid on which one of them lies in
the interval of reals that round to the number wins.
-/

namespace YeetYoink.Decimal

/-- The decimal `digits * 10 ^ exponent`. -/
structure Scientific where
  digits : Nat
  exponent : Int

/-- The reals that round to a number; the ends belong to it if `closed`. -/
structure Interval where
  low : Ratio
  high : Ratio
  closed : Bool

namespace Interval

/-- The reals that round to `m * 2 ^ q`. Below a power of two the gap is half as wide. -/
def ofBinary (m : Nat) (q : Int) : Interval where
  low := .ofBinary (4 * m - if m = Binary.leadingBit then 1 else 2) (q - 2)
  high := .ofBinary (4 * m + 2) (q - 2)
  closed := m % 2 = 0

/-- `d * 10 ^ k` is in the interval. -/
def contains (i : Interval) (d : Nat) (k : Int) : Bool :=
  let lo := i.low.divTen k
  let hi := i.high.divTen k
  if i.closed then lo.num ≤ d * lo.den && d * hi.den ≤ hi.num
  else lo.num < d * lo.den && d * hi.den < hi.num

end Interval

/-- The nearer neighbour of `r` among the multiples of `10 ^ k` in the interval; the upper one if
both are as near. -/
def onGrid (r : Ratio) (i : Interval) (k : Int) : Option Scientific :=
  let s := r.divTen k
  let d := s.floor
  let below := i.contains d k
  let above := i.contains (d + 1) k
  if below && above then
    if 2 * (s.num % s.den) < s.den then some ⟨d, k⟩ else some ⟨d + 1, k⟩
  else if below then some ⟨d, k⟩
  else if above then some ⟨d + 1, k⟩
  else none

/-- The decimal with the fewest digits that rounds to `m * 2 ^ q`. -/
def shortest (m : Nat) (q : Int) : Scientific :=
  let r := Ratio.ofBinary m q
  let i := Interval.ofBinary m q
  let top := r.magnitude
  ((List.range 18).findSome? fun (n : Nat) => onGrid r i (top - n)).getD ⟨r.floor, 0⟩

end YeetYoink.Decimal
