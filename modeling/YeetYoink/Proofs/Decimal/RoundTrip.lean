import Mathlib.Data.Nat.Cast.Field
import YeetYoink.Decimal.Number
import YeetYoink.Proofs.Decimal.Shortest

/-!
# Numbers read back

Reading what an integer is written as gives the integer again (`toInt64?_ofInt64`), and so it is for
the floating-point numbers that are not negative, which are written with digits
(`toFloat?_ofFloat`). What is read from digits is never negative.
-/

namespace YeetYoink.Decimal

open Binary (IsStored Rounds)

/-! ### Integers -/

theorem toNat?_digits {cs : List Char} (hd : ∀ c ∈ cs, isDigit c = true) (hne : cs ≠ []) :
    toNat? cs = some (value cs) := by
  rw [toNat?, if_pos ⟨hne, List.all_eq_true.2 hd⟩]

/-- Digits have no sign. -/
theorem toInt?_digits {cs : List Char} (hd : ∀ c ∈ cs, isDigit c = true) (hne : cs ≠ []) :
    toInt? cs = some (value cs : Int) := by
  unfold toInt?
  split
  · exact absurd (hd '-' (by simp)) (by decide)
  · exact absurd (hd '+' (by simp)) (by decide)
  · rw [toNat?_digits hd hne]
    rfl

theorem toInt64?_nonneg {cs : List Char} {n : Int64} (hd : ∀ c ∈ cs, isDigit c = true)
    (h : toInt64? cs = some n) : 0 ≤ n.toInt := by
  by_cases hne : cs = []
  · subst hne
    exact absurd h (by simp [toInt64?, isLong, toInt?, toNat?])
  · rw [toInt64?, toInt?_digits hd hne] at h
    split at h
    · exact absurd h (by simp)
    · simp only [Option.bind_some, Int64.toInt_minValue, Int64.toInt_maxValue] at h
      split at h
      · rename_i hb
        obtain rfl := Option.some.inj h
        rw [Int64.toInt_ofInt_of_le hb.1 (by omega)]
        omega
      · exact absurd h (by simp)

theorem ofInt64_digits {n : Int64} (h : 0 ≤ n.toInt) :
    (ofInt64 n).toList ≠ [] ∧ ∀ c ∈ (ofInt64 n).toList, isDigit c = true := by
  rw [ofInt64, String.toList_ofList, ofInt, if_neg (Int.not_lt.2 h)]
  exact ⟨digits_ne_nil _, fun c hc => isDigit_of_mem_digits hc⟩

theorem toInt?_ofInt (n : Int) : toInt? (ofInt n) = some n := by
  have hd : ∀ c ∈ digits n.natAbs, isDigit c = true := fun c hc => isDigit_of_mem_digits hc
  have hne := digits_ne_nil n.natAbs
  rw [ofInt]
  split
  · have hneg : -(n.natAbs : Int) = n := by omega
    rw [toInt?, toNat?_digits hd hne, value_digits]
    exact congrArg some hneg
  · rw [toInt?_digits hd hne, value_digits]
    exact congrArg some (by omega)

/-- A sign is not counted among the digits. -/
theorem isLong_ofInt {n : Int} (h : n.natAbs < 10 ^ 19) : isLong (ofInt n) = false := by
  have hlen : (digits n.natAbs).length ≤ 19 := (length_digits_le_iff (by decide)).2 h
  have hdrop := (List.dropWhile_sublist (fun c => c = '-' || c = '+' || c = '0')
    (l := digits n.natAbs)).length_le
  rw [isLong, decide_eq_false_iff_not, ofInt]
  split
  · rw [List.dropWhile_cons_of_pos (by decide)]
    omega
  · omega

theorem toInt64?_ofInt64 (n : Int64) : toInt64? (ofInt64 n).toList = some n := by
  have hmin := n.le_toInt
  have hmax := n.toInt_lt
  have hfits : Int64.minValue.toInt ≤ n.toInt ∧ n.toInt ≤ Int64.maxValue.toInt := by
    rw [Int64.toInt_minValue, Int64.toInt_maxValue]
    omega
  rw [ofInt64, String.toList_ofList, toInt64?, isLong_ofInt (by omega), toInt?_ofInt,
    Option.bind_some, if_pos hfits, Int64.ofInt_toInt]
  rfl

/-! ### Reading digits with a point -/

/-- The digits that decide are all of them, as long as there are not too many. -/
theorem ofDigits_nearest {ds : List Char} {e : Int} (hne : ds.dropWhile (· = '0') ≠ [])
    (hlen : (ds.dropWhile (· = '0')).length ≤ maxDigits)
    (hlo : -400 ≤ (ds.dropWhile (· = '0')).length + e)
    (hhi : (ds.dropWhile (· = '0')).length + e ≤ 400) :
    ofDigits ds e = Binary.nearest ((Ratio.ofNat (value ds)).divTen (-e)) := by
  rw [← value_dropWhile_zero ds]
  unfold ofDigits
  generalize ds.dropWhile (· = '0') = kept at *
  have hsig : significant kept = kept := if_pos hlen
  simp only [hne, false_or]
  rw [if_neg (by omega), if_neg (by omega), hsig]
  congr 2
  omega

theorem two_pow_lt_ten_pow : (2 : ℚ) ^ (1200 : Int) < 10 ^ (400 : Int) := by
  rw [show (1200 : Int) = 3 * 400 by rfl, zpow_mul]
  exact zpow_lt_zpow_left₀ (by norm_num) (by norm_num) (by norm_num)

theorem stored_lt_ten_pow {m : Nat} {q : Int} (hs : IsStored m q) :
    ((m : ℚ) + 1 / 2) * 2 ^ q < 10 ^ (400 : Int) := by
  have hm : (m : ℚ) + 1 ≤ 2 ^ 53 := by exact_mod_cast hs.mantissa_lt
  calc ((m : ℚ) + 1 / 2) * 2 ^ q ≤ 2 ^ 53 * 2 ^ (971 : Int) :=
        mul_le_mul (by linarith) (zpow_le_zpow_right₀ (by norm_num) hs.exponent_le) (by positivity)
          (by positivity)
    _ = 2 ^ (53 + 971 : Int) := by rw [zpow_add₀ two_ne_zero]; rfl
    _ ≤ 2 ^ (1200 : Int) := zpow_le_zpow_right₀ (by norm_num) (by norm_num)
    _ < 10 ^ (400 : Int) := two_pow_lt_ten_pow

/-- A decimal that rounds to a stored number is far from the ends of the range. -/
theorem size_bounds {m : Nat} {q : Int} (hs : IsStored m q) (hm : 0 < m) {v l : Nat} {e : Int}
    (hr : Rounds m q (v * 10 ^ e)) (hlt : v < 10 ^ (l + 1)) (hge : 10 ^ l ≤ v) :
    -400 ≤ (l + 1 : Int) + e ∧ (l + 1 : Int) + e ≤ 400 := by
  have he := ten_zpow_pos e
  have hm' : (1 : ℚ) ≤ m := by exact_mod_cast hm
  have hlt' : (v : ℚ) < 10 ^ (l + 1) := by exact_mod_cast hlt
  have hge' : (10 : ℚ) ^ l ≤ v := by exact_mod_cast hge
  constructor
  · have hsmall : (10 : ℚ) ^ (-400 : Int) < 10 ^ ((l + 1 : Nat) + e) := by
      calc (10 : ℚ) ^ (-400 : Int) < 2 ^ (-1200 : Int) := by
            rw [zpow_neg, zpow_neg]
            exact inv_strictAnti₀ (by positivity) two_pow_lt_ten_pow
        _ ≤ 2 ^ (-1 + -1074 : Int) := zpow_le_zpow_right₀ (by norm_num) (by norm_num)
        _ = 1 / 2 * 2 ^ (-1074 : Int) := by rw [zpow_add₀ two_ne_zero]; norm_num
        _ ≤ (m - 1 / 2) * 2 ^ q :=
          mul_le_mul (by linarith) (zpow_le_zpow_right₀ (by norm_num) hs.le_exponent)
            (by positivity)
            (by linarith)
        _ ≤ v * 10 ^ e := hr.low
        _ < 10 ^ (l + 1) * 10 ^ e := mul_lt_mul_of_pos_right hlt' he
        _ = 10 ^ ((l + 1 : Nat) + e) := by rw [zpow_add₀ (by norm_num), zpow_natCast]
    have := (zpow_lt_zpow_iff_right₀ (by norm_num)).1 hsmall
    push_cast at this
    omega
  · have hlarge : (10 : ℚ) ^ (l + e) < 10 ^ (400 : Int) := by
      calc (10 : ℚ) ^ (l + e) = 10 ^ l * 10 ^ e := by rw [zpow_add₀ (by norm_num), zpow_natCast]
        _ ≤ v * 10 ^ e := mul_le_mul_of_nonneg_right hge' he.le
        _ ≤ (m + 1 / 2) * 2 ^ q := hr.high
        _ < 10 ^ (400 : Int) := stored_lt_ten_pow hs
    have := (zpow_lt_zpow_iff_right₀ (by norm_num)).1 hlarge
    omega

/-- Digits that are rounded to a stored number are read as that number. -/
theorem ofDigits_eq {ds : List Char} (hd : ∀ c ∈ ds, isDigit c = true) {e : Int} {m : Nat} {q : Int}
    (hs : IsStored m q) (hm : 0 < m) (hr : Rounds m q (value ds * 10 ^ e))
    (hv : value ds < 10 ^ maxDigits) :
    ofDigits ds e = Binary.encode ⟨false, m, q⟩ := by
  have hkept := value_dropWhile_zero ds
  have hdigits : ∀ c ∈ ds.dropWhile (· = '0'), isDigit c = true :=
    fun c hc => hd c ((List.dropWhile_sublist _).subset hc)
  have hlt := value_lt hdigits
  rw [hkept] at hlt
  match hcs : ds.dropWhile (· = '0') with
  | [] =>
    have hpos := hr.pos hm
    rw [← hkept, hcs] at hpos
    simp [value] at hpos
  | c :: cs =>
    have hz : c ≠ '0' := by
      have := List.head_dropWhile_not (fun c => decide (c = '0')) (l := ds) (by simp [hcs])
      simpa [hcs] using this
    have hge : 10 ^ cs.length ≤ value (c :: cs) :=
      pow_length_le_value (hdigits c (by simp [hcs])) hz
    rw [← hcs, hkept] at hge
    rw [hcs] at hlt
    have hlen : cs.length < maxDigits := (Nat.pow_lt_pow_iff_right (by decide)).1 (hge.trans_lt hv)
    obtain ⟨hlo, hhi⟩ := size_bounds hs hm hr hlt hge
    rw [ofDigits_nearest (by simp [hcs]) (by simp [hcs]; omega) (by simp [hcs]; omega)
      (by simp [hcs]; omega)]
    refine Binary.nearest_eq (Ratio.den_divTen_pos (by simp [Ratio.ofNat]) _) hs hm ?_
    rw [Ratio.val_divTen, zpow_neg, div_inv_eq_mul]
    simpa [Ratio.val, Ratio.ofNat] using hr

theorem toFloat?_point {cs fs : List Char} (hne : cs ≠ []) (hcs : ∀ c ∈ cs, isDigit c = true)
    (hfs : ∀ c ∈ fs, isDigit c = true) :
    toFloat? (cs ++ '.' :: fs) = some (ofDigits (cs ++ fs) (-fs.length)) := by
  have hwhole := takeWhile_stop hcs
    (show ∀ c ∈ ('.' :: fs).head?, isDigit c = false by simp; decide)
  have hfrac := takeWhile_stop hfs (show ∀ c ∈ ([] : List Char).head?, isDigit c = false by simp)
  rw [List.append_nil] at hfrac
  have hu : readUnsigned? (cs ++ '.' :: fs) = some (ofDigits (cs ++ fs) (-fs.length)) := by
    simp only [readUnsigned?, hwhole.1, hwhole.2, hfrac.1, hfrac.2, hne, false_and, if_false,
      readExponent?, Option.map_some, Int.zero_sub]
  have hm : readMagnitude? (cs ++ '.' :: fs) = some (ofDigits (cs ++ fs) (-fs.length)) := by
    rw [readMagnitude?, hu]
    rfl
  obtain ⟨c, cs, rfl⟩ := List.exists_cons_of_ne_nil hne
  have hc := hcs c (.head _)
  unfold toFloat?
  split
  · rename_i h
    obtain ⟨rfl, -⟩ := List.cons.inj h
    exact absurd hc (by decide)
  · rename_i h
    obtain ⟨rfl, -⟩ := List.cons.inj h
    exact absurd hc (by decide)
  · exact hm

/-- What is read from digits with a point is infinite or a number that is not negative. -/
theorem toFloat?_nonneg {cs fs : List Char} {x : Float} (hne : cs ≠ [])
    (hcs : ∀ c ∈ cs, isDigit c = true)
    (hfs : ∀ c ∈ fs, isDigit c = true) (h : toFloat? (cs ++ '.' :: fs) = some x) :
    x = 1.0 / 0.0 ∨ ∃ b, Binary.decode x = some b ∧ b.negative = false := by
  rw [toFloat?_point hne hcs hfs] at h
  obtain rfl := Option.some.inj h
  unfold ofDigits
  simp only
  split
  · exact .inr ⟨_, rfl, rfl⟩
  · split
    · exact .inl rfl
    · exact Binary.nearest_nonneg (Ratio.den_divTen_pos (by simp [Ratio.ofNat]) _)

/-! ### Writing -/

/-- Digits around a point. -/
structure Pointed (text whole fraction : List Char) : Prop where
  text_eq : text = whole ++ '.' :: fraction
  whole_ne_nil : whole ≠ []
  whole_digits : ∀ c ∈ whole, isDigit c = true
  fraction_ne_nil : fraction ≠ []
  fraction_digits : ∀ c ∈ fraction, isDigit c = true

theorem positional_pointed {s : Scientific} (h : s.exponent < 0) :
    ∃ whole fraction, Pointed (positional s) whole fraction ∧ fraction.length = s.exponent.natAbs ∧
      value (whole ++ fraction) = s.digits := by
  have hd : ∀ c ∈ digits s.digits, isDigit c = true := fun c hc => isDigit_of_mem_digits hc
  have hlen := List.length_pos_iff.2 (digits_ne_nil s.digits)
  unfold positional
  simp only
  rw [if_neg (Int.not_le.2 h)]
  split
  · rename_i hinside
    refine ⟨_, _, ⟨rfl, ?_, fun c hc => hd c (List.mem_of_mem_take hc), ?_,
      fun c hc => hd c (List.mem_of_mem_drop hc)⟩, ?_, ?_⟩
    · rw [← List.length_pos_iff, List.length_take]
      omega
    · rw [← List.length_pos_iff, List.length_drop]
      omega
    · rw [List.length_drop]
      omega
    · rw [List.take_append_drop, value_digits]
  · refine ⟨['0'], List.replicate (s.exponent.natAbs - (digits s.digits).length) '0' ++
      digits s.digits,
      ⟨by simp, by simp, by simp; decide, by simp [digits_ne_nil], ?_⟩, ?_, ?_⟩
    · intro c hc
      rcases List.mem_append.1 hc with hc | hc
      · rw [List.eq_of_mem_replicate hc]
        decide
      · exact hd c hc
    · rw [List.length_append, List.length_replicate]
      omega
    · rw [value_append, value_append, value_replicate_zero, value_digits]
      simp [value]

theorem val_scale {m : Nat} {q : Int} (h : Binary.isIntegral ⟨false, m, q⟩ = true) :
    (Binary.scale m q : ℚ) = m * 2 ^ q := by
  rw [Ratio.natAbs_zpow, Binary.scale]
  split
  · rename_i hq
    have hdvd : 2 ^ q.natAbs ∣ m := by
      simpa [Binary.isIntegral, Int.not_le.2 hq, Nat.shiftLeft_eq, Nat.dvd_iff_mod_eq_zero] using h
    rw [Nat.shiftRight_eq_div_pow, Nat.cast_div hdvd (by positivity)]
    push_cast
    rw [div_eq_mul_inv]
  · rw [Nat.shiftLeft_eq]
    push_cast
    rfl

theorem rounds_self {m : Nat} (q : Int) : Rounds m q (m * 2 ^ q) := by
  have hq := Binary.two_zpow_pos q
  refine ⟨?_, ?_, fun _ => ⟨?_, ?_⟩, fun _ => ?_⟩ <;> linarith

theorem integral_pointed {m : Nat} {q : Int} (hs : IsStored m q)
    (hint : Binary.isIntegral ⟨false, m, q⟩ = true) :
    ofDigits (digits (Binary.scale m q) ++ ['0']) (-1) = Binary.encode ⟨false, m, q⟩ := by
  have hval := val_scale hint
  rcases Nat.eq_zero_or_pos m with rfl | hm
  · have h0 : Binary.scale 0 q = 0 := by unfold Binary.scale; split <;> simp
    have hread : ofDigits (digits 0 ++ ['0']) (-1) = 0.0 := by
      simp [ofDigits, digits, Nat.toDigits_zero]
    have hzero : Binary.encode ⟨false, 0, q⟩ = Float.ofBits 0 := by simp [Binary.encode]
    rw [h0, hread, hzero]
    rfl
  · have hv : value (digits (Binary.scale m q) ++ ['0']) = 10 * Binary.scale m q := by
      rw [value_append, value_digits]
      simp [value]
    refine ofDigits_eq (fun c hc => ?_) hs hm ?_ ?_
    · rcases List.mem_append.1 hc with hc | hc
      · exact isDigit_of_mem_digits hc
      · rw [List.mem_singleton.1 hc]
        decide
    · have hten : ((10 * Binary.scale m q : Nat) : ℚ) * 10 ^ (-1 : Int) = m * 2 ^ q := by
        push_cast
        rw [hval, zpow_neg_one]
        ring
      rw [hv, hten]
      exact rounds_self q
    · have hlt : (Binary.scale m q : ℚ) < 10 ^ (400 : Int) := by
        rw [hval]
        exact (rounds_self q).high.trans_lt (stored_lt_ten_pow hs)
      obtain ⟨n, hn, hlt⟩ : ∃ n, n + 1 ≤ maxDigits ∧ Binary.scale m q < 10 ^ n :=
        ⟨400, by decide, by exact_mod_cast hlt⟩
      calc value (digits (Binary.scale m q) ++ ['0'])
        _ = 10 * Binary.scale m q := hv
        _ < 10 * 10 ^ n := by omega
        _ = 10 ^ (n + 1) := Nat.pow_succ'.symm
        _ ≤ 10 ^ maxDigits := Nat.pow_le_pow_right (by decide) hn

theorem magnitudeText_pointed {m : Nat} {q : Int} (hs : IsStored m q) :
    ∃ whole fraction, Pointed (magnitudeText ⟨false, m, q⟩) whole fraction ∧
      ofDigits (whole ++ fraction) (-fraction.length) = Binary.encode ⟨false, m, q⟩ := by
  unfold magnitudeText
  split
  · rename_i hint
    have hd : ∀ c ∈ digits (Binary.scale m q), isDigit c = true :=
      fun c hc => isDigit_of_mem_digits hc
    exact ⟨_, ['0'], ⟨rfl, digits_ne_nil _, hd, by simp, by simp; decide⟩, integral_pointed hs hint⟩
  · rename_i hint
    simp only [Binary.isIntegral, Bool.or_eq_true, decide_eq_true_eq, not_or, Int.not_le,
      Nat.shiftLeft_eq, Nat.one_mul] at hint
    obtain ⟨hq, hfrac⟩ := hint
    have hm : 0 < m := Nat.pos_of_ne_zero (by rintro rfl; simp at hfrac)
    have hneg := exponent_shortest_neg hs hm hq hfrac
    obtain ⟨whole, fraction, hp, hlen, hval⟩ := positional_pointed hneg
    refine ⟨whole, fraction, hp, ofDigits_eq (fun c hc => ?_) hs hm ?_ ?_⟩
    · exact (List.mem_append.1 hc).elim (hp.whole_digits c) (hp.fraction_digits c)
    · have he : (-(fraction.length : Int)) = (shortest m q).exponent := by omega
      rw [hval, he]
      exact rounds_shortest hs hm
    · rw [hval]
      exact (digits_shortest_le hs hm).trans_lt (Nat.pow_lt_pow_right (by decide) (by decide))

theorem ofFloat_pointed {x : Float} {b : Binary} (h : Binary.decode x = some b)
    (hb : b.negative = false) :
    ∃ whole fraction, Pointed (ofFloat x).toList whole fraction ∧
      ofDigits (whole ++ fraction) (-fraction.length) = x := by
  obtain ⟨hs, hx⟩ := Binary.stored_of_decode h hb
  obtain ⟨negative, m, q⟩ := b
  obtain rfl : negative = false := hb
  obtain ⟨whole, fraction, hp, hd⟩ := magnitudeText_pointed hs
  refine ⟨whole, fraction, ?_, ?_⟩
  · simpa [ofFloat, h] using hp
  · rw [hd, Binary.encode_stored hs, ← hx]

theorem ofFloat_digits {x : Float} {b : Binary} (h : Binary.decode x = some b)
    (hb : b.negative = false) :
    ∃ cs ds, (ofFloat x).toList = cs ++ '.' :: ds ∧ cs ≠ [] ∧ (∀ c ∈ cs, isDigit c = true) ∧
      ds ≠ [] ∧ ∀ c ∈ ds, isDigit c = true := by
  obtain ⟨whole, fraction, hp, -⟩ := ofFloat_pointed h hb
  exact ⟨whole, fraction, hp.1, hp.2, hp.3, hp.4, hp.5⟩

/-- A number that is not negative reads back. -/
theorem toFloat?_ofFloat {x : Float} {b : Binary} (h : Binary.decode x = some b)
    (hb : b.negative = false) : toFloat? (ofFloat x).toList = some x := by
  obtain ⟨whole, fraction, hp, hx⟩ := ofFloat_pointed h hb
  rw [hp.text_eq, toFloat?_point hp.whole_ne_nil hp.whole_digits hp.fraction_digits, hx]

end YeetYoink.Decimal
