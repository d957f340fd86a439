/-!
# Floating-point numbers as mantissa and exponent

A finite number is `± mantissa * 2 ^ exponent` in exactly one way with the mantissa the format
stores (`decode`). `encode` goes back from any mantissa and exponent whose value the format holds.
-/

namespace YeetYoink.Decimal

structure Binary where
  negative : Bool
  mantissa : Nat
  exponent : Int

namespace Binary

/-- The exponent of the smallest numbers. -/
def minExponent : Int := -1074

/-- The leading bit of a mantissa, which the format leaves out. -/
def leadingBit : Nat := 1 <<< 52

def signBit : Nat := 1 <<< 63

/-- `none` for the infinities and for what is no number. -/
def decode (x : Float) : Option Binary :=
  let bits := x.toBits.toNat
  let negative := bits ≥ signBit
  let exponent : Nat := bits / leadingBit % 2048
  let fraction := bits % leadingBit
  if exponent = 2047 then none
  else if exponent = 0 then some ⟨negative, fraction, minExponent⟩
  else some ⟨negative, fraction + leadingBit, exponent - 1075⟩

/-- Multiplies by a power of two, dropping what falls below one. -/
def scale (m : Nat) (k : Int) : Nat := if k < 0 then m >>> k.natAbs else m <<< k.natAbs

def encode (b : Binary) : Float :=
  let sign := if b.negative then signBit else 0
  if b.mantissa = 0 then Float.ofBits (UInt64.ofNat sign)
  else
    let drop := max ((Nat.log2 b.mantissa : Int) - 52) (minExponent - b.exponent)
    let mantissa := scale b.mantissa (-drop)
    let stored := b.exponent + drop - minExponent
    let bits := if mantissa < leadingBit then mantissa else mantissa + stored.natAbs * leadingBit
    Float.ofBits (UInt64.ofNat (sign + bits))

def isIntegral (b : Binary) : Bool := 0 ≤ b.exponent || b.mantissa % (1 <<< b.exponent.natAbs) = 0

end Binary

/-- What is left of `x` when as many whole `y` as fit are taken away, with the sign of `x`. It is
exact. -/
def remainder (x y : Float) : Float :=
  match Binary.decode x, Binary.decode y with
  | some a, some b =>
    if b.mantissa = 0 then 0.0 / 0.0
    else
      let e := min a.exponent b.exponent
      let left := Binary.scale a.mantissa (a.exponent - e) %
        Binary.scale b.mantissa (b.exponent - e)
      Binary.encode ⟨a.negative, left, e⟩
  | some _, none => if y == y then x else y
  | none, _ => 0.0 / 0.0

end YeetYoink.Decimal
