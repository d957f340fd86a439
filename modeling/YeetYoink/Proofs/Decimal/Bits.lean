import Mathlib
import YeetYoink.Decimal.Binary

/-!
# The bits of floating-point numbers

Bits below those of infinity are the bits of a number (`toBits_ofBits`). With that `decode` and
`encode` are inverse on the mantissas and exponents that the format stores (`IsStored`).
-/

namespace YeetYoink.Decimal.Binary

open Float.Model (Format)
open Float.Model.UnpackedFloat (unpackExponent pack_unpack_of_valid)

/-- Bits below those of infinity are the bits of a positive number. -/
theorem toBits_ofBits {n : Nat} (h : n < 2047 * 2 ^ 52) :
    (Float.ofBits (UInt64.ofNat n)).toBits.toNat = n := by
  have hn : (BitVec.ofNat 64 n).toNat = n := by
    rw [BitVec.toNat_ofNat]
    omega
  have hv : Format.binary64.Valid (BitVec.ofNat 64 n) := by
    refine ⟨fun hexp => ?_⟩
    have := congrArg BitVec.toNat hexp
    simp only [unpackExponent, BitVec.toNat_cast, BitVec.extractLsb_toNat,
      Nat.shiftRight_eq_div_pow, hn] at this
    change n / 2 ^ 52 % 2 ^ 11 = 2047 at this
    omega
  change (Float.Model.UnpackedFloat.pack .binary64
    (Float.Model.UnpackedFloat.unpack .binary64 (BitVec.ofNat 64 n))).toNat = n
  rw [pack_unpack_of_valid hv, hn]

/-! ### Mantissas and exponents -/

/-- The format stores this mantissa with this exponent. -/
structure IsStored (m : Nat) (q : Int) : Prop where
  mantissa_lt : m < 2 ^ 53
  le_exponent : -1074 ≤ q
  exponent_le : q ≤ 971
  normal : q = -1074 ∨ 2 ^ 52 ≤ m

/-- The bits of a mantissa and an exponent. -/
def bitsOf (m : Nat) (q : Int) : Nat := if m < 2 ^ 52 then m else m + (q + 1074).natAbs * 2 ^ 52

theorem bitsOf_lt {m : Nat} {q : Int} (h : IsStored m q) : bitsOf m q < 2047 * 2 ^ 52 := by
  obtain ⟨hm, hq, hq', -⟩ := h
  unfold bitsOf
  split <;> omega

theorem leadingBit_eq : leadingBit = 2 ^ 52 := rfl

theorem signBit_eq : signBit = 2 ^ 63 := rfl

theorem minExponent_eq : minExponent = -1074 := rfl

theorem decode_ofBits {m : Nat} {q : Int} (h : IsStored m q) :
    decode (Float.ofBits (UInt64.ofNat (bitsOf m q))) = some ⟨false, m, q⟩ := by
  have hb := toBits_ofBits (bitsOf_lt h)
  have hlt := bitsOf_lt h
  obtain ⟨hm, hq, hq', hn⟩ := h
  have hneg : ¬ bitsOf m q ≥ 2 ^ 63 := by omega
  simp only [decode, hb, leadingBit_eq, signBit_eq, minExponent_eq, hneg, decide_false]
  unfold bitsOf at hlt ⊢
  by_cases hs : m < 2 ^ 52
  · obtain rfl : q = -1074 := hn.resolve_right (by omega)
    have h0 : m / 2 ^ 52 % 2048 = 0 := by omega
    simp only [hs, if_true, h0]
    rw [if_neg (by decide), Nat.mod_eq_of_lt hs]
  · simp only [hs, if_false] at hlt ⊢
    have he : (m + (q + 1074).natAbs * 2 ^ 52) / 2 ^ 52 % 2048 = (q + 1075).natAbs := by omega
    have hf : (m + (q + 1074).natAbs * 2 ^ 52) % 2 ^ 52 + 2 ^ 52 = m := by omega
    rw [he, hf, if_neg (by omega), if_neg (by omega)]
    congr 2
    omega

/-- A number that is not negative is stored, and its bits are those of its mantissa and exponent. -/
theorem stored_of_decode {x : Float} {b : Binary} (h : decode x = some b)
    (hb : b.negative = false) :
    IsStored b.mantissa b.exponent ∧
      x = Float.ofBits (UInt64.ofNat (bitsOf b.mantissa b.exponent)) := by
  have hx : Float.ofBits (UInt64.ofNat x.toBits.toNat) = x := by
    rw [UInt64.ofNat_toNat, Float.ofBits_toBits]
  have hlt : x.toBits.toNat < 2 ^ 64 := x.toBits.toNat_lt
  generalize hn : x.toBits.toNat = n at hx hlt
  simp only [decode, hn, leadingBit_eq, signBit_eq, minExponent_eq] at h
  split at h
  · exact absurd h (by simp)
  · rename_i hinf
    split at h
    · rename_i hexp
      obtain rfl := Option.some.inj h
      have hneg : n < 2 ^ 63 := by simpa using hb
      have hn : n % 2 ^ 52 = n := by omega
      refine ⟨⟨by simp only; omega, by simp, by simp, .inl rfl⟩, ?_⟩
      simp only [bitsOf, hn]
      rw [if_pos (by omega), hx]
    · rename_i hexp
      obtain rfl := Option.some.inj h
      have hneg : n < 2 ^ 63 := by simpa using hb
      refine ⟨⟨by simp only; omega, by simp only; omega, by simp only; omega, .inr (by simp)⟩, ?_⟩
      have hbits : bitsOf (n % 2 ^ 52 + 2 ^ 52) ((n / 2 ^ 52 % 2048 : Nat) - 1075) = n := by
        unfold bitsOf
        rw [if_neg (by omega)]
        omega
      simp only [hbits, hx]

/-- Encoding drops the bits of a mantissa that the format has no room for. -/
theorem encode_pos {m : Nat} (hm : m ≠ 0) (q : Int) :
    encode ⟨false, m, q⟩ =
      let drop := max ((m.log2 : Int) - 52) (-1074 - q)
      Float.ofBits (UInt64.ofNat (bitsOf (scale m (-drop)) (q + drop))) := by
  simp only [encode, leadingBit_eq, minExponent_eq, hm, if_false, Bool.false_eq_true,
    Nat.zero_add, bitsOf, Int.sub_neg]

theorem encode_stored {m : Nat} {q : Int} (h : IsStored m q) :
    encode ⟨false, m, q⟩ = Float.ofBits (UInt64.ofNat (bitsOf m q)) := by
  obtain ⟨hm, hq, hq', hn⟩ := h
  by_cases h0 : m = 0
  · simp [encode, bitsOf, h0]
  have hlog : m.log2 ≤ 52 := Nat.lt_succ_iff.1 ((Nat.log2_lt h0).2 hm)
  have hdrop : max ((m.log2 : Int) - 52) (-1074 - q) = 0 := by
    obtain rfl | hn := hn
    · omega
    · have := (Nat.le_log2 h0).2 hn
      omega
  rw [encode_pos h0]
  simp only [hdrop, Int.neg_zero, Int.add_zero]
  rfl

/-- A mantissa that was rounded up to the next power of two. -/
theorem encode_limit {q : Int} (h : IsStored (2 ^ 52) (q + 1)) :
    encode ⟨false, 2 ^ 53, q⟩ = encode ⟨false, 2 ^ 52, q + 1⟩ := by
  have hdrop : max (((2 ^ 53 : Nat).log2 : Int) - 52) (-1074 - q) = 1 := by
    have := h.le_exponent
    rw [Nat.log2_two_pow]
    omega
  rw [encode_stored h, encode_pos (by decide)]
  simp only [hdrop]
  rfl

theorem isInf_of_decode {x : Float} {b : Binary} (h : decode x = some b) : x.isInf = false := by
  obtain ⟨⟨⟨bits⟩, hv⟩⟩ := x
  change (Float.Model.UnpackedFloat.unpack .binary64 bits).isInf = false
  unfold Float.Model.UnpackedFloat.unpack
  simp only
  split
  · rename_i hinf
    have hexp := congrArg BitVec.toNat hinf
    simp only [unpackExponent, BitVec.toNat_cast, BitVec.extractLsb_toNat,
      Nat.shiftRight_eq_div_pow] at hexp
    change bits.toNat / 2 ^ 52 % 2 ^ 11 = 2047 at hexp
    have hdecode : decode ⟨⟨⟨bits⟩, hv⟩⟩ = none := if_pos hexp
    exact absurd (hdecode.symm.trans h) (by simp)
  · split
    · split <;> rfl
    · rfl

end YeetYoink.Decimal.Binary
