import YeetYoink.Decimal.Nearest
import YeetYoink.Proofs.Decimal.Bits
import YeetYoink.Proofs.Decimal.Value

/-!
# Rounding to the nearest number

The unit of a fraction is the only exponent in which the fraction has a mantissa of the right size
(`unit_eq`). So every fraction in the interval around a number is rounded to the number
(`nearest_eq`), and whatever a fraction is rounded to is infinite or a number that is not negative
(`nearest_nonneg`).
-/

namespace YeetYoink.Decimal.Binary

open Ratio (val)

/-- Two powers of two, the second in terms of the first. -/
theorem two_zpow_add (a : Int) (n : Nat) : (2 : ℚ) ^ (a + n) = 2 ^ n * 2 ^ a := by
  rw [zpow_add₀ two_ne_zero, zpow_natCast, mul_comm]

theorem two_zpow_pos (a : Int) : (0 : ℚ) < 2 ^ a := by positivity

/-- A fraction in terms of the bit lengths of its two sides. -/
theorem val_bounds {r : Ratio} (hn : 0 < r.num) (hd : 0 < r.den) :
    (2 : ℚ) ^ ((Nat.log2 r.num : Int) - Nat.log2 r.den - 1) < r.val ∧
      r.val < 2 ^ ((Nat.log2 r.num : Int) - Nat.log2 r.den + 1) := by
  have hd' : (0 : ℚ) < r.den := by exact_mod_cast hd
  have h1 : ((2 ^ Nat.log2 r.num : Nat) : ℚ) ≤ r.num := by exact_mod_cast Nat.log2_self_le hn.ne'
  have h2 : (r.num : ℚ) < (2 ^ (Nat.log2 r.num + 1) : Nat) := by exact_mod_cast Nat.lt_log2_self
  have h3 : ((2 ^ Nat.log2 r.den : Nat) : ℚ) ≤ r.den := by exact_mod_cast Nat.log2_self_le hd.ne'
  have h4 : (r.den : ℚ) < (2 ^ (Nat.log2 r.den + 1) : Nat) := by exact_mod_cast Nat.lt_log2_self
  push_cast at h1 h2 h3 h4
  have hsub : ∀ a b : Nat, (2 : ℚ) ^ ((a : Int) - b) = 2 ^ a / 2 ^ b := fun a b => by
    rw [zpow_sub₀ two_ne_zero, zpow_natCast, zpow_natCast]
  rw [val,
    show ((r.num.log2 : Int) - r.den.log2 - 1) = r.num.log2 - (r.den.log2 + 1 : Nat) by omega,
    show ((r.num.log2 : Int) - r.den.log2 + 1) = (r.num.log2 + 1 : Nat) - r.den.log2 by omega,
    hsub, hsub, div_lt_div_iff₀ (by positivity) hd', div_lt_div_iff₀ hd' (by positivity)]
  exact ⟨mul_lt_mul' h1 h4 hd'.le (by exact_mod_cast hn),
    mul_lt_mul h2 h3 (by positivity) (by positivity)⟩

theorem unit_spec {r : Ratio} (hn : 0 < r.num) (hd : 0 < r.den) :
    -1074 ≤ unit r ∧ r.val < 2 ^ 53 * 2 ^ unit r ∧
      (unit r = -1074 ∨ 2 ^ 52 * 2 ^ unit r ≤ r.val) := by
  obtain ⟨hlo, hhi⟩ := val_bounds hn hd
  generalize he : ((Nat.log2 r.num : Int) - Nat.log2 r.den) = e at hlo hhi
  have hk : unit r = if (r.divTwo (max (-1074) (e - 53))).floor < 2 ^ 53 then max (-1074) (e - 53)
      else max (-1074) (e - 53) + 1 := by rw [← he]; rfl
  generalize hm : max (-1074) (e - 53) = k at hk
  have hke : e - 53 ≤ k := by omega
  have hf := Ratio.floor_le (Ratio.den_divTwo_pos hd k)
  have hf' := Ratio.lt_floor_add_one (Ratio.den_divTwo_pos hd k)
  rw [Ratio.val_divTwo, le_div_iff₀ (two_zpow_pos k)] at hf
  rw [Ratio.val_divTwo, div_lt_iff₀ (two_zpow_pos k)] at hf'
  have hsucc : (2 : ℚ) ^ (k + 1) = 2 * 2 ^ k := by simpa using two_zpow_add k 1
  rw [hk]
  split
  · rename_i hsmall
    refine ⟨by omega, ?_, ?_⟩
    · refine hf'.trans_le (mul_le_mul_of_nonneg_right ?_ (two_zpow_pos k).le)
      exact_mod_cast hsmall
    · by_cases hmin : k = -1074
      · exact .inl hmin
      · have hke : e - 1 = k + (52 : Nat) := by omega
        rw [hke, two_zpow_add] at hlo
        exact .inr hlo.le
  · rename_i hlarge
    have hfl : (2 ^ 53 : ℚ) ≤ (r.divTwo k).floor := by exact_mod_cast Nat.not_lt.1 hlarge
    refine ⟨by omega, ?_, .inr ?_⟩
    · calc r.val < 2 ^ (e + 1) := hhi
        _ ≤ 2 ^ (k + (54 : Nat)) := zpow_le_zpow_right₀ (by norm_num) (by omega)
        _ = 2 ^ 53 * 2 ^ (k + 1) := by rw [two_zpow_add, hsucc]; ring
    · calc (2 : ℚ) ^ 52 * 2 ^ (k + 1) = (2 : ℚ) ^ 53 * 2 ^ k := by rw [hsucc]; ring
        _ ≤ (r.divTwo k).floor * (2 : ℚ) ^ k := mul_le_mul_of_nonneg_right hfl (two_zpow_pos k).le
        _ ≤ r.val := hf

/-- A fraction has a mantissa of the right size in no exponent but its unit. -/
theorem unit_eq {r : Ratio} (hn : 0 < r.num) (hd : 0 < r.den) {q : Int} (hq : -1074 ≤ q)
    (hlt : r.val < 2 ^ 53 * 2 ^ q) (hle : q = -1074 ∨ 2 ^ 52 * 2 ^ q ≤ r.val) : unit r = q := by
  obtain ⟨hu, hult, hule⟩ := unit_spec hn hd
  -- Of two such exponents the smaller one leaves no room for the mantissa of the larger.
  have key : ∀ {a b : Int}, a < b → -1074 ≤ a → r.val < 2 ^ 53 * 2 ^ a →
      ¬ (b = -1074 ∨ 2 ^ 52 * 2 ^ b ≤ r.val) := by
    rintro a b hab ha hlt (rfl | hle)
    · omega
    · have : (2 : ℚ) ^ (a + (1 : Nat)) ≤ 2 ^ b := zpow_le_zpow_right₀ (by norm_num) (by omega)
      rw [two_zpow_add] at this
      linarith
  rcases lt_trichotomy (unit r) q with h | h | h
  · exact absurd hle (key h hu hult)
  · exact h
  · exact absurd hule (key h hq hlt)

/-- The reals that are rounded to a mantissa and exponent: half a unit on both sides, without the
ends if the mantissa is odd, and half as much below a power of two. -/
structure Rounds (m : Nat) (q : Int) (x : ℚ) : Prop where
  low : ((m : ℚ) - 1 / 2) * 2 ^ q ≤ x
  high : x ≤ ((m : ℚ) + 1 / 2) * 2 ^ q
  odd : m % 2 = 1 → ((m : ℚ) - 1 / 2) * 2 ^ q < x ∧ x < ((m : ℚ) + 1 / 2) * 2 ^ q
  lead : m = 2 ^ 52 → ((m : ℚ) - 1 / 4) * 2 ^ q ≤ x

theorem Rounds.pos {m : Nat} {q : Int} {x : ℚ} (h : Rounds m q x) (hm : 0 < m) : 0 < x := by
  have hm' : (1 : ℚ) ≤ m := by exact_mod_cast hm
  have : 0 < ((m : ℚ) - 1 / 2) * 2 ^ q := mul_pos (by linarith) (two_zpow_pos q)
  exact this.trans_le h.low

theorem round_divTwo {r : Ratio} (hd : 0 < r.den) {m : Nat} {q : Int}
    (hlo : ((m : ℚ) - 1 / 2) * 2 ^ q ≤ r.val) (hhi : r.val ≤ ((m : ℚ) + 1 / 2) * 2 ^ q)
    (hodd : m % 2 = 1 → ((m : ℚ) - 1 / 2) * 2 ^ q < r.val ∧ r.val < ((m : ℚ) + 1 / 2) * 2 ^ q) :
    (r.divTwo q).round = m := by
  have hq := two_zpow_pos q
  apply Ratio.round_eq (Ratio.den_divTwo_pos hd q) <;> rw [Ratio.val_divTwo]
  · rwa [le_div_iff₀ hq]
  · rwa [div_le_iff₀ hq]
  · rwa [lt_div_iff₀ hq, div_lt_iff₀ hq]

theorem nearest_eq {r : Ratio} (hd : 0 < r.den) {m : Nat} {q : Int} (hs : IsStored m q) (hm : 0 < m)
    (h : Rounds m q r.val) : nearest r = encode ⟨false, m, q⟩ := by
  have hn : 0 < r.num := by
    rw [Nat.pos_iff_ne_zero]
    intro h0
    exact absurd (h.pos hm) (by simp [val, h0])
  have hq := two_zpow_pos q
  have hm' : (m : ℚ) + 1 ≤ 2 ^ 53 := by exact_mod_cast hs.mantissa_lt
  by_cases hunit : q = -1074 ∨ 2 ^ 52 * 2 ^ q ≤ r.val
  · have hlt : r.val < 2 ^ 53 * 2 ^ q :=
      h.high.trans_lt (mul_lt_mul_of_pos_right (by linarith) hq)
    have hu := unit_eq hn hd hs.le_exponent hlt hunit
    have hround := round_divTwo hd h.low h.high h.odd
    have hmax := hs.exponent_le
    have hlim := hs.mantissa_lt
    simp only [nearest, hu, hround]
    rw [if_neg]
    rintro (hc | ⟨-, rfl⟩)
    · exact absurd hmax (not_le.2 hc)
    · exact absurd hlim (by decide)
  · -- The fraction lies below a power of two, where the unit is half as large, and is rounded up
    -- to it.
    obtain ⟨hmin, hlow⟩ := not_or.1 hunit
    have hnormal := hs.normal.resolve_left hmin
    obtain rfl : m = 2 ^ 52 := by
      have : (m : ℚ) < 2 ^ 52 + 1 := by
        have := h.low.trans_lt (not_le.1 hlow)
        linarith [lt_of_mul_lt_mul_right this hq.le]
      have : m < 2 ^ 52 + 1 := by exact_mod_cast this
      omega
    have hlead := h.lead rfl
    push_cast at hlead
    have hhalf : (2 : ℚ) ^ q = 2 * 2 ^ (q - 1) := by simpa using two_zpow_add (q - 1) 1
    have hlow := not_le.1 hlow
    rw [hhalf] at hlead hlow
    have hu := unit_eq hn hd (q := q - 1) (by have := hs.le_exponent; omega) (by linarith)
      (.inr (by linarith [two_zpow_pos (q - 1)]))
    have hround : (r.divTwo (q - 1)).round = 2 ^ 53 := by
      refine round_divTwo hd ?_ ?_ fun hodd => absurd hodd (by decide)
      · push_cast
        linarith
      · push_cast
        linarith [two_zpow_pos (q - 1)]
    have hmax := hs.exponent_le
    simp only [nearest, hu, hround]
    rw [if_neg, encode_limit (by rwa [Int.sub_add_cancel]), Int.sub_add_cancel]
    rintro (hc | ⟨hc, -⟩)
    · simp only [maxExponent] at hc
      omega
    · simp only [maxExponent] at hc
      omega

theorem decode_encode {m : Nat} {q : Int} (h : IsStored m q) :
    decode (encode ⟨false, m, q⟩) = some ⟨false, m, q⟩ := by rw [encode_stored h, decode_ofBits h]

/-- The mantissa that a fraction is rounded to is the format's, or the power of two after the
largest. -/
theorem round_unit {r : Ratio} (hn : 0 < r.num) (hd : 0 < r.den) :
    (r.divTwo (unit r)).round ≤ 2 ^ 53 ∧ (unit r = -1074 ∨ 2 ^ 52 ≤ (r.divTwo (unit r)).round) := by
  obtain ⟨-, hlt, hle⟩ := unit_spec hn hd
  have hq := two_zpow_pos (unit r)
  have hpos := Ratio.den_divTwo_pos hd (unit r)
  have hfloor : (r.divTwo (unit r)).floor < 2 ^ 53 := by
    have := Ratio.floor_le hpos
    rw [Ratio.val_divTwo, le_div_iff₀ hq] at this
    exact_mod_cast lt_of_mul_lt_mul_right (this.trans_lt hlt) hq.le
  have hround : (r.divTwo (unit r)).floor ≤ (r.divTwo (unit r)).round ∧
      (r.divTwo (unit r)).round ≤ (r.divTwo (unit r)).floor + 1 := by
    unfold Ratio.round
    simp only
    split <;> omega
  refine ⟨by omega, hle.imp id fun hle => le_trans ?_ hround.1⟩
  have := Ratio.lt_floor_add_one hpos
  rw [Ratio.val_divTwo, div_lt_iff₀ hq] at this
  have : (2 ^ 52 : ℚ) < (r.divTwo (unit r)).floor + 1 :=
    lt_of_mul_lt_mul_right (hle.trans_lt this) hq.le
  exact Nat.lt_succ_iff.1 (by exact_mod_cast this)

/-- Rounding gives no negative number and nothing that is no number. -/
theorem nearest_nonneg {r : Ratio} (hd : 0 < r.den) :
    nearest r = 1.0 / 0.0 ∨ ∃ b, decode (nearest r) = some b ∧ b.negative = false := by
  by_cases hmax : maxExponent < unit r ∨
    (maxExponent = unit r ∧ (r.divTwo (unit r)).round = mantissaLimit)
  · left
    simp only [nearest, hmax, if_true]
  · right
    simp only [nearest, hmax, if_false]
    obtain ⟨hle, hlim⟩ := not_or.1 hmax
    simp only [maxExponent, not_lt] at hle hlim
    by_cases hn : r.num = 0
    · have hzero : (r.divTwo (unit r)).round = 0 := by
        unfold Ratio.divTwo
        split <;> simp [Ratio.round, Ratio.floor, hn]
      have hz : encode ⟨false, 0, unit r⟩ = encode ⟨false, 0, -1074⟩ := by simp [encode]
      rw [hzero, hz]
      exact ⟨_, decode_encode ⟨by decide, le_rfl, by decide, .inl rfl⟩, rfl⟩
    · obtain ⟨hround, hnormal⟩ := round_unit (Nat.pos_of_ne_zero hn) hd
      have hmin := (unit_spec (Nat.pos_of_ne_zero hn) hd).1
      by_cases hcarry : (r.divTwo (unit r)).round = 2 ^ 53
      · have hs : IsStored (2 ^ 52) (unit r + 1) := by
          refine ⟨by decide, by omega, ?_, .inr le_rfl⟩
          have : ¬ (971 = unit r) := fun h => hlim ⟨h, hcarry⟩
          omega
        rw [hcarry, encode_limit hs]
        exact ⟨_, decode_encode hs, rfl⟩
      · exact ⟨_, decode_encode ⟨by omega, hmin, hle, hnormal⟩, rfl⟩

end YeetYoink.Decimal.Binary
