import Mathlib.Algebra.Order.Field.Power
import Mathlib.Tactic.FieldSimp
import Mathlib.Tactic.Linarith
import Mathlib.Tactic.Positivity
import Mathlib.Tactic.Ring
import YeetYoink.Decimal.Ratio

/-!
# The values of fractions

The rational that a `Ratio` stands for, and what its operations do to that rational. The other
modules on decimals reason about values only.
-/

namespace YeetYoink.Decimal.Ratio

def val (r : Ratio) : ℚ := r.num / r.den

/-- A power of two or ten, whichever side of the fraction it is on. -/
theorem natAbs_zpow (b : ℚ) (k : Int) :
    b ^ k = if k < 0 then (b ^ k.natAbs)⁻¹ else b ^ k.natAbs := by
  split
  · rename_i h
    rw [← zpow_natCast, ← zpow_neg]
    congr 1
    omega
  · rename_i h
    rw [← zpow_natCast]
    congr 1
    omega

theorem val_ofBinary (m : Nat) (q : Int) : (ofBinary m q).val = m * 2 ^ q := by
  rw [ofBinary, natAbs_zpow]
  split <;> simp [val, Nat.shiftLeft_eq, div_eq_mul_inv]

theorem val_divTwo (r : Ratio) (k : Int) : (r.divTwo k).val = r.val / 2 ^ k := by
  rw [divTwo, natAbs_zpow]
  split <;> simp [val, Nat.shiftLeft_eq, div_eq_mul_inv] <;> ring

theorem val_divTen (r : Ratio) (k : Int) : (r.divTen k).val = r.val / 10 ^ k := by
  rw [divTen, natAbs_zpow]
  split <;> simp [val, div_eq_mul_inv] <;> ring

theorem den_ofBinary_pos (m : Nat) (q : Int) : 0 < (ofBinary m q).den := by
  rw [ofBinary]
  split <;> simp [Nat.shiftLeft_eq]

theorem den_divTwo_pos {r : Ratio} (h : 0 < r.den) (k : Int) : 0 < (r.divTwo k).den := by
  rw [divTwo]
  split
  · exact h
  · simpa [Nat.shiftLeft_eq] using h

theorem den_divTen_pos {r : Ratio} (h : 0 < r.den) (k : Int) : 0 < (r.divTen k).den := by
  rw [divTen]
  split
  · exact h
  · exact Nat.mul_pos h (Nat.pow_pos (by decide))

theorem floor_le {r : Ratio} (h : 0 < r.den) : (r.floor : ℚ) ≤ r.val := by
  rw [val, le_div_iff₀ (by exact_mod_cast h)]
  exact_mod_cast Nat.div_mul_le_self r.num r.den

theorem lt_floor_add_one {r : Ratio} (h : 0 < r.den) : r.val < r.floor + 1 := by
  rw [val, div_lt_iff₀ (by exact_mod_cast h)]
  have := Nat.lt_div_mul_add (a := r.num) h
  have : r.num < (r.num / r.den + 1) * r.den := by rw [Nat.add_mul, Nat.one_mul]; exact this
  exact_mod_cast this

theorem val_eq_floor_add {r : Ratio} (h : 0 < r.den) :
    r.val = r.floor + (r.num % r.den : Nat) / (r.den : ℚ) := by
  have hd : (r.den : ℚ) ≠ 0 := by exact_mod_cast h.ne'
  have hn : (r.num : ℚ) = r.den * r.floor + (r.num % r.den : Nat) := by
    exact_mod_cast (Nat.div_add_mod r.num r.den).symm
  rw [val, hn]
  field_simp

/-- A value within a half of a whole number is rounded to it, at a half if the number is even. -/
theorem round_eq {r : Ratio} (h : 0 < r.den) {m : Nat} (hlo : (m : ℚ) - 1 / 2 ≤ r.val)
    (hhi : r.val ≤ m + 1 / 2)
    (hodd : m % 2 = 1 → (m : ℚ) - 1 / 2 < r.val ∧ r.val < m + 1 / 2) : r.round = m := by
  have hd : (0 : ℚ) < r.den := by exact_mod_cast h
  have hfm : r.floor ≤ m := by
    have : (r.floor : ℚ) < m + 1 := by linarith [floor_le h]
    exact Nat.lt_succ_iff.1 (by exact_mod_cast this)
  have hmf : m ≤ r.floor + 1 := by
    have : (m : ℚ) < r.floor + 2 := by linarith [lt_floor_add_one h]
    exact Nat.lt_succ_iff.1 (by exact_mod_cast this)
  have hval : r.val - r.floor = (r.num % r.den : Nat) / (r.den : ℚ) := by
    rw [val_eq_floor_add h, add_sub_cancel_left]
  have hlt : r.den < 2 * (r.num % r.den) ↔ 1 / 2 < r.val - r.floor := by
    rw [hval, lt_div_iff₀ hd, ← Nat.cast_lt (α := ℚ), Nat.cast_mul, Nat.cast_ofNat]
    constructor <;> intro <;> linarith
  have heq : 2 * (r.num % r.den) = r.den ↔ r.val - r.floor = 1 / 2 := by
    rw [hval, div_eq_iff hd.ne', ← Nat.cast_inj (R := ℚ), Nat.cast_mul, Nat.cast_ofNat]
    constructor <;> intro <;> linarith
  simp only [round, hlt, heq]
  obtain rfl | rfl : m = r.floor ∨ m = r.floor + 1 := by omega
  · rw [if_neg]
    rintro (hgt | ⟨htie, hf⟩)
    · linarith
    · linarith [(hodd hf).2]
  · push_cast at hlo hodd
    rw [if_pos]
    by_cases htie : r.val - r.floor = 1 / 2
    · refine .inr ⟨htie, ?_⟩
      by_contra hf
      linarith [(hodd (by omega)).1]
    · exact .inl (lt_of_le_of_ne (by linarith) (Ne.symm htie))

end YeetYoink.Decimal.Ratio
