import Mathlib.Algebra.Order.Field.Power
import YeetYoink.Decimal.Integer
import YeetYoink.Proofs.Text.Chars

/-!
# Digits and their value

`digits` and `value` are inverse, leading zeros do not count, and the value of a run of digits tells
its length.
-/

namespace YeetYoink.Decimal

theorem value_eq (cs : List Char) : value cs = Nat.ofDigitChars 10 cs 0 :=
  Nat.ofDigitChars_eq_foldl.symm

@[simp] theorem value_digits (n : Nat) : value (digits n) = n := by
  rw [value_eq, digits, Nat.ofDigitChars_ten_toDigits]

theorem value_append (cs ds : List Char) :
    value (cs ++ ds) = 10 ^ ds.length * value cs + value ds := by
  rw [value_eq, value_eq, value_eq, Nat.ofDigitChars_append, Nat.ofDigitChars_eq_ofDigitChars_zero]

theorem value_replicate_zero (n : Nat) : value (List.replicate n '0') = 0 := by
  rw [value_eq, Nat.ofDigitChars_replicate_zero, Nat.mul_zero]

theorem digits_ne_nil (n : Nat) : digits n ≠ [] := Nat.toDigits_ne_nil

theorem isDigit_of_mem_digits {n : Nat} {c : Char} (h : c ∈ digits n) : isDigit c = true := by
  have := Nat.isDigit_of_mem_toDigits (by decide) (by decide) h
  simpa [isDigit, Char.isDigit, Char.le_def] using this

theorem length_digits_le_iff {n k : Nat} (hk : 0 < k) : (digits n).length ≤ k ↔ n < 10 ^ k :=
  Nat.length_toDigits_le_iff (by decide) hk

theorem lt_pow_length_digits (n : Nat) : n < 10 ^ (digits n).length :=
  (length_digits_le_iff (List.length_pos_iff.2 (digits_ne_nil n))).1 (Nat.le_refl _)

theorem pow_length_digits_le {n : Nat} (hn : 0 < n) : 10 ^ ((digits n).length - 1) ≤ n := by
  by_cases h : (digits n).length - 1 = 0
  · rw [h]
    exact hn
  · rw [← Nat.not_lt, ← length_digits_le_iff (by omega)]
    omega

theorem value_cons (c : Char) (cs : List Char) :
    value (c :: cs) = 10 ^ cs.length * (c.toNat - '0'.toNat) + value cs := by
  have hc : value [c] = c.toNat - '0'.toNat := by simp [value]
  rw [← List.singleton_append, value_append, hc]

theorem value_lt {cs : List Char} (h : ∀ c ∈ cs, isDigit c = true) : value cs < 10 ^ cs.length := by
  induction cs with
  | nil => decide
  | cons c cs ih =>
    have hc := isDigit_iff.1 (h c (.head _))
    have ih := ih fun d hd => h d (.tail _ hd)
    have hle : 10 ^ cs.length * (c.toNat - '0'.toNat) ≤ 10 ^ cs.length * 9 :=
      Nat.mul_le_mul_left _ (by simp only [Char.reduceToNat]; omega)
    rw [value_cons, List.length_cons, Nat.pow_succ]
    omega

theorem value_dropWhile_zero (cs : List Char) : value (cs.dropWhile (· = '0')) = value cs := by
  induction cs with
  | nil => rfl
  | cons c cs ih =>
    by_cases hc : c = '0'
    · subst hc
      rw [List.dropWhile_cons_of_pos (by decide), ih, value_cons]
      simp
    · rw [List.dropWhile_cons_of_neg (by simpa using hc)]

/-- A run of digits that does not start with a zero is as long as its value has digits. -/
theorem pow_length_le_value {c : Char} {cs : List Char} (hc : isDigit c = true) (hz : c ≠ '0') :
    10 ^ cs.length ≤ value (c :: cs) := by
  have := isDigit_iff.1 hc
  have hpos : 1 ≤ c.toNat - '0'.toNat := by
    have : c.toNat ≠ '0'.toNat := fun h => hz (Char.toNat_inj.1 h)
    simp only [Char.reduceToNat] at this ⊢
    omega
  rw [value_cons]
  exact Nat.le_add_right_of_le (Nat.le_mul_of_pos_right _ hpos)

end YeetYoink.Decimal
