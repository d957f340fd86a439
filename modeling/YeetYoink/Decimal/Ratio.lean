import YeetYoink.Decimal.Binary
import YeetYoink.Decimal.Integer

/-!
# Positive fractions

What reading and writing compare decimals and binary numbers by. Nothing is rounded but in `round`.
-/

namespace YeetYoink.Decimal

structure Ratio where
  num : Nat
  den : Nat

namespace Ratio

def ofNat (n : Nat) : Ratio := ⟨n, 1⟩

def ofBinary (m : Nat) (q : Int) : Ratio :=
  if q < 0 then ⟨m, 1 <<< q.natAbs⟩ else ⟨m <<< q.natAbs, 1⟩

/-- Divides by a power of two. -/
def divTwo (r : Ratio) (k : Int) : Ratio :=
  if k < 0 then ⟨r.num <<< k.natAbs, r.den⟩ else ⟨r.num, r.den <<< k.natAbs⟩

/-- Divides by a power of ten. -/
def divTen (r : Ratio) (k : Int) : Ratio :=
  if k < 0 then ⟨r.num * Nat.pow 10 k.natAbs, r.den⟩ else ⟨r.num, r.den * Nat.pow 10 k.natAbs⟩

def floor (r : Ratio) : Nat := r.num / r.den

/-- The nearest whole number; of two as near, the even one. -/
def round (r : Ratio) : Nat :=
  let twice := 2 * (r.num % r.den)
  if r.den < twice ∨ (twice = r.den ∧ r.floor % 2 = 1) then r.floor + 1 else r.floor

/-- The `k` with `10 ^ (k - 1) ≤ r < 10 ^ k`. -/
def magnitude (r : Ratio) : Int :=
  if r.den ≤ r.num then (digits r.floor).length
  else 1 - (digits ((r.den - 1) / r.num)).length

end Ratio

end YeetYoink.Decimal
