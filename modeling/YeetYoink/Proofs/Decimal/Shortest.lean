import YeetYoink.Decimal.Shortest
import YeetYoink.Proofs.Decimal.Digits
import YeetYoink.Proofs.Decimal.Nearest

/-!
# The shortest decimal is in the interval

Among the grids that `shortest` tries there is one that is finer than the interval around the
number, so one of the number's two neighbours on it lies inside (`onGrid_isSome`). What `shortest`
gives therefore rounds to the number (`rounds_shortest`), and has few digits.
-/

namespace YeetYoink.Decimal

open Binary (IsStored Rounds two_zpow_pos)

theorem ten_zpow_pos (k : Int) : (0 : ℚ) < 10 ^ k := by positivity

/-- The magnitude of a fraction is the number of digits before its point. -/
theorem Ratio.magnitude_spec {r : Ratio} (hn : 0 < r.num) (hd : 0 < r.den) :
    (10 : ℚ) ^ (r.magnitude - 1) ≤ r.val ∧ r.val < 10 ^ r.magnitude := by
  have hd' : (0 : ℚ) < r.den := by exact_mod_cast hd
  have hn' : (0 : ℚ) < r.num := by exact_mod_cast hn
  rw [magnitude]
  split
  · rename_i hle
    have hpos : 0 < r.floor := Nat.div_pos hle hd
    have hlo := pow_length_digits_le hpos
    have hhi := lt_pow_length_digits r.floor
    have hlen := List.length_pos_iff.2 (digits_ne_nil r.floor)
    constructor
    · rw [show ((digits r.floor).length : Int) - 1 = ((digits r.floor).length - 1 : Nat) by omega,
        zpow_natCast]
      exact le_trans (by exact_mod_cast hlo) (floor_le hd)
    · rw [zpow_natCast]
      exact (lt_floor_add_one hd).trans_le (by exact_mod_cast hhi)
  · rename_i hlt
    have hpos : 0 < (r.den - 1) / r.num := Nat.div_pos (by omega) hn
    have hlo := Nat.mul_le_mul_right r.num (pow_length_digits_le hpos)
    have hhi := Nat.mul_le_mul_right r.num (lt_pow_length_digits ((r.den - 1) / r.num))
    have hlen := List.length_pos_iff.2 (digits_ne_nil ((r.den - 1) / r.num))
    have hle := Nat.div_mul_le_self (r.den - 1) r.num
    have hgt := Nat.lt_div_mul_add (a := r.den - 1) hn
    generalize (r.den - 1) / r.num = c at *
    generalize (digits c).length = l at *
    constructor
    · rw [show (1 - (l : Int) - 1) = -l by omega, zpow_neg, zpow_natCast, val, le_div_iff₀ hd',
        inv_mul_le_iff₀ (by positivity)]
      rw [Nat.succ_mul] at hhi
      exact_mod_cast (by omega : r.den ≤ 10 ^ l * r.num)
    · rw [show (1 - (l : Int)) = -(l - 1 : Nat) by omega, zpow_neg, zpow_natCast, val,
        div_lt_iff₀ hd', lt_inv_mul_iff₀ (by positivity)]
      exact_mod_cast (by omega : 10 ^ (l - 1) * r.num < r.den)

/-! ### The interval -/

namespace Interval

def Mem (i : Interval) (x : ℚ) : Prop :=
  if i.closed then i.low.val ≤ x ∧ x ≤ i.high.val else i.low.val < x ∧ x < i.high.val

theorem contains_iff {i : Interval} (hlo : 0 < i.low.den) (hhi : 0 < i.high.den) (d : Nat)
    (k : Int) :
    i.contains d k = true ↔ i.Mem (d * 10 ^ k) := by
  have hk := ten_zpow_pos k
  have hl : ∀ {r : Ratio}, 0 < r.den →
      ((r.divTen k).num ≤ d * (r.divTen k).den ↔ r.val ≤ d * 10 ^ k) := by
    intro r hr
    have hd : (0 : ℚ) < (r.divTen k).den := by exact_mod_cast Ratio.den_divTen_pos hr k
    rw [← div_le_iff₀ hk, ← Ratio.val_divTen, Ratio.val, div_le_iff₀ hd]
    norm_cast
  have hh : ∀ {r : Ratio}, 0 < r.den →
      (d * (r.divTen k).den ≤ (r.divTen k).num ↔ d * 10 ^ k ≤ r.val) := by
    intro r hr
    have hd : (0 : ℚ) < (r.divTen k).den := by exact_mod_cast Ratio.den_divTen_pos hr k
    rw [← le_div_iff₀ hk, ← Ratio.val_divTen, Ratio.val, le_div_iff₀ hd]
    norm_cast
  unfold contains Mem
  cases i.closed with
  | true => simp [hl hlo, hh hhi]
  | false => simp [← not_le, hl hhi, hh hlo]

/-- How far the interval around a mantissa goes down, in units. -/
def below (m : Nat) : ℚ := if m = 2 ^ 52 then 1 / 4 else 1 / 2

theorem val_low {m : Nat} (hm : 0 < m) (q : Int) :
    (ofBinary m q).low.val = ((m : ℚ) - below m) * 2 ^ q := by
  have hq : (2 : ℚ) ^ (q - 2) = 2 ^ q / 4 := by rw [zpow_sub₀ two_ne_zero]; norm_num
  simp only [ofBinary, below, Ratio.val_ofBinary, hq, Binary.leadingBit_eq]
  by_cases hlead : m = 2 ^ 52
  · simp only [hlead, if_true]
    rw [Nat.cast_sub (by decide)]
    push_cast
    ring
  · simp only [hlead, if_false]
    rw [Nat.cast_sub (by omega)]
    push_cast
    ring

theorem val_high (m : Nat) (q : Int) : (ofBinary m q).high.val = ((m : ℚ) + 1 / 2) * 2 ^ q := by
  have hq : (2 : ℚ) ^ (q - 2) = 2 ^ q / 4 := by rw [zpow_sub₀ two_ne_zero]; norm_num
  simp only [ofBinary, Ratio.val_ofBinary, hq]
  push_cast
  ring

theorem closed_ofBinary (m : Nat) (q : Int) : (ofBinary m q).closed = decide (m % 2 = 0) := rfl

theorem rounds_of_mem {m : Nat} (hm : 0 < m) {q : Int} {x : ℚ} (h : (ofBinary m q).Mem x) :
    Rounds m q x := by
  have hq := two_zpow_pos q
  have hbelow : below m ≤ 1 / 2 := by unfold below; split <;> norm_num
  have hlow : ((m : ℚ) - 1 / 2) * 2 ^ q ≤ (m - below m) * 2 ^ q :=
    mul_le_mul_of_nonneg_right (by linarith) hq.le
  rw [Mem, closed_ofBinary, val_low hm, val_high] at h
  by_cases heven : m % 2 = 0
  · simp only [heven, decide_true, if_true] at h
    refine ⟨hlow.trans h.1, h.2, fun hodd => by omega, ?_⟩
    rintro rfl
    simpa [below] using h.1
  · simp only [heven, decide_false, Bool.false_eq_true, if_false] at h
    refine ⟨hlow.trans h.1.le, h.2.le, fun _ => ⟨hlow.trans_lt h.1, h.2⟩, ?_⟩
    rintro rfl
    exact absurd heven (by decide)

end Interval

/-! ### The grids -/

theorem onGrid_eq_some {r : Ratio} {i : Interval} {k : Int} {s : Scientific}
    (h : onGrid r i k = some s) :
    s.exponent = k ∧ i.contains s.digits k = true ∧ s.digits ≤ (r.divTen k).floor + 1 := by
  unfold onGrid at h
  simp only at h
  split at h
  · rename_i hc
    rw [Bool.and_eq_true] at hc
    split at h <;> obtain rfl := Option.some.inj h
    · exact ⟨rfl, hc.1, Nat.le_succ _⟩
    · exact ⟨rfl, hc.2, Nat.le_refl _⟩
  · split at h
    · rename_i hc
      obtain rfl := Option.some.inj h
      exact ⟨rfl, hc, Nat.le_succ _⟩
    · split at h
      · rename_i hc
        obtain rfl := Option.some.inj h
        exact ⟨rfl, hc, Nat.le_refl _⟩
      · exact absurd h (by simp)

theorem onGrid_eq_none {r : Ratio} {i : Interval} {k : Int} (h : onGrid r i k = none) :
    i.contains (r.divTen k).floor k = false ∧ i.contains ((r.divTen k).floor + 1) k = false := by
  unfold onGrid at h
  simp only at h
  split at h
  · split at h <;> exact absurd h (by simp)
  · split at h
    · exact absurd h (by simp)
    · split at h
      · exact absurd h (by simp)
      · rename_i h1 h2
        exact ⟨by simpa using h1, by simpa using h2⟩

/-- A grid that is finer than the interval is wide has a point in it next to the number. -/
theorem onGrid_isSome {m : Nat} (hm : 0 < m) {q k : Int}
    (hk : (10 : ℚ) ^ k < (Interval.below m + 1 / 2) * 2 ^ q) :
    (onGrid (.ofBinary m q) (.ofBinary m q) k).isSome := by
  rw [Option.isSome_iff_ne_none]
  intro hnone
  obtain ⟨hlow, hhigh⟩ := onGrid_eq_none hnone
  have hq := two_zpow_pos q
  have hbelow : 0 < Interval.below m := by unfold Interval.below; split <;> norm_num
  have hpos := Ratio.den_divTen_pos (Ratio.den_ofBinary_pos m q) k
  have hle := Ratio.floor_le hpos
  have hlt := Ratio.lt_floor_add_one hpos
  rw [Ratio.val_divTen, Ratio.val_ofBinary, le_div_iff₀ (ten_zpow_pos k)] at hle
  rw [Ratio.val_divTen, Ratio.val_ofBinary, div_lt_iff₀ (ten_zpow_pos k)] at hlt
  generalize ((Ratio.ofBinary m q).divTen k).floor = d at *
  have hm1 : ((m : ℚ) - Interval.below m) * 2 ^ q < m * 2 ^ q :=
    mul_lt_mul_of_pos_right (by linarith) hq
  have hm2 : (m : ℚ) * 2 ^ q < (m + 1 / 2) * 2 ^ q := mul_lt_mul_of_pos_right (by linarith) hq
  rw [Bool.eq_false_iff, ne_eq, Interval.contains_iff (Ratio.den_ofBinary_pos ..)
    (Ratio.den_ofBinary_pos ..), Interval.Mem, Interval.val_low hm, Interval.val_high] at hlow hhigh
  push_cast at hhigh
  -- The lower neighbour is at or below the lower end and the upper one at or above the upper end.
  have hlow' : (d : ℚ) * 10 ^ k ≤ (m - Interval.below m) * 2 ^ q := by
    by_contra hc
    apply hlow
    split <;> constructor <;> linarith
  have hhigh' : ((m : ℚ) + 1 / 2) * 2 ^ q ≤ (d + 1) * 10 ^ k := by
    by_contra hc
    apply hhigh
    split <;> constructor <;> linarith
  linarith

/-! ### The decimal found -/

theorem num_ofBinary_pos {m : Nat} (hm : 0 < m) (q : Int) : 0 < (Ratio.ofBinary m q).num := by
  unfold Ratio.ofBinary
  split
  · exact hm
  · simpa [Nat.shiftLeft_eq] using hm

/-- The finest grid that is tried is fine enough: a mantissa has less than seventeen digits. -/
theorem finest_lt {m : Nat} {q : Int} (hs : IsStored m q) (hm : 0 < m) :
    (10 : ℚ) ^ ((Ratio.ofBinary m q).magnitude - 17) < (Interval.below m + 1 / 2) * 2 ^ q := by
  obtain ⟨hlo, -⟩ := Ratio.magnitude_spec (num_ofBinary_pos hm q) (Ratio.den_ofBinary_pos m q)
  generalize (Ratio.ofBinary m q).magnitude = top at hlo ⊢
  have hpow : (10 : ℚ) ^ (top - 1) = 10 ^ 16 * 10 ^ (top - 17) := by
    rw [← zpow_natCast, ← zpow_add₀ (by norm_num)]
    congr 1
    norm_num
    ring
  have hm' : (m : ℚ) < 10 ^ 16 * (Interval.below m + 1 / 2) := by
    unfold Interval.below
    split
    · rename_i h
      rw [h]
      norm_num
    · have : (m : ℚ) < 2 ^ 53 := by exact_mod_cast hs.mantissa_lt
      linarith
  have := mul_lt_mul_of_pos_right hm' (two_zpow_pos q)
  rw [Ratio.val_ofBinary, hpow] at hlo
  linarith

theorem shortest_spec {m : Nat} {q : Int} (hs : IsStored m q) (hm : 0 < m) :
    ∃ k, onGrid (.ofBinary m q) (.ofBinary m q) k = some (shortest m q) ∧
      (Ratio.ofBinary m q).magnitude - 17 ≤ k := by
  have hsome : ((List.range 18).findSome? fun (n : Nat) =>
      onGrid (.ofBinary m q) (.ofBinary m q) ((Ratio.ofBinary m q).magnitude - n)).isSome := by
    rw [List.isSome_findSome?, List.any_eq_true]
    exact ⟨17, by decide, onGrid_isSome hm (finest_lt hs hm)⟩
  obtain ⟨s, hfind⟩ := Option.isSome_iff_exists.1 hsome
  obtain ⟨n, hn, hgrid⟩ := List.exists_of_findSome?_eq_some hfind
  have hshort : shortest m q = s := by
    unfold shortest
    simp only [hfind, Option.getD_some]
  refine ⟨_, hshort ▸ hgrid, ?_⟩
  have := List.mem_range.1 hn
  omega

theorem rounds_shortest {m : Nat} {q : Int} (hs : IsStored m q) (hm : 0 < m) :
    Rounds m q ((shortest m q).digits * 10 ^ (shortest m q).exponent) := by
  obtain ⟨k, hgrid, -⟩ := shortest_spec hs hm
  obtain ⟨hexp, hc, -⟩ := onGrid_eq_some hgrid
  rw [hexp]
  exact Interval.rounds_of_mem hm
    ((Interval.contains_iff (Ratio.den_ofBinary_pos ..) (Ratio.den_ofBinary_pos ..) _ _).1 hc)

theorem digits_shortest_le {m : Nat} {q : Int} (hs : IsStored m q) (hm : 0 < m) :
    (shortest m q).digits ≤ 10 ^ 17 := by
  obtain ⟨k, hgrid, hk⟩ := shortest_spec hs hm
  obtain ⟨-, -, hle⟩ := onGrid_eq_some hgrid
  refine hle.trans ?_
  obtain ⟨-, hhi⟩ := Ratio.magnitude_spec (num_ofBinary_pos hm q) (Ratio.den_ofBinary_pos m q)
  have hfloor := Ratio.floor_le (Ratio.den_divTen_pos (Ratio.den_ofBinary_pos m q) k)
  rw [Ratio.val_divTen, le_div_iff₀ (ten_zpow_pos k)] at hfloor
  have : (((Ratio.ofBinary m q).divTen k).floor : ℚ) * 10 ^ k < 10 ^ 17 * 10 ^ k := by
    refine hfloor.trans_lt (hhi.trans_le ?_)
    rw [← zpow_natCast, ← zpow_add₀ (by norm_num)]
    exact zpow_le_zpow_right₀ (by norm_num) (by push_cast; omega)
  exact_mod_cast lt_of_mul_lt_mul_right this (ten_zpow_pos k).le

/-- What rounds to a number that is no integer is no integer. -/
theorem exponent_shortest_neg {m : Nat} {q : Int} (hs : IsStored m q) (hm : 0 < m) (hq : q < 0)
    (hfrac : m % 2 ^ q.natAbs ≠ 0) : (shortest m q).exponent < 0 := by
  by_contra hc
  obtain ⟨e, he⟩ := Int.eq_ofNat_of_zero_le (not_lt.1 hc)
  obtain ⟨hlow, hhigh, -, -⟩ := rounds_shortest hs hm
  rw [he, zpow_natCast, Ratio.natAbs_zpow 2 q, if_pos hq] at hlow hhigh
  have hp : (0 : ℚ) < 2 ^ q.natAbs := by positivity
  rw [← div_eq_mul_inv, div_le_iff₀ hp] at hlow
  rw [← div_eq_mul_inv, le_div_iff₀ hp] at hhigh
  generalize (shortest m q).digits = d at hlow hhigh
  -- Counted in units the integer is within a half of the mantissa, so it is the mantissa.
  have h1 : m < d * 10 ^ e * 2 ^ q.natAbs + 1 := by
    have : (m : ℚ) < d * 10 ^ e * 2 ^ q.natAbs + 1 := by linarith
    exact_mod_cast this
  have h2 : d * 10 ^ e * 2 ^ q.natAbs < m + 1 := by
    have : (d : ℚ) * 10 ^ e * 2 ^ q.natAbs < m + 1 := by linarith
    exact_mod_cast this
  apply hfrac
  rw [show m = d * 10 ^ e * 2 ^ q.natAbs by omega, Nat.mul_mod_left]

end YeetYoink.Decimal
