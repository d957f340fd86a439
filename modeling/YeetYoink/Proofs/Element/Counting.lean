import YeetYoink.Proofs.Eval.Calls
import YeetYoink.Proofs.Session.Runs

/-!
# Counting through ranges

A `yall` over a range makes a round for each integer between the two ends, both included. The loop
adds or subtracts one in 64 bits and counts its rounds by themselves, so that it needs no integer
past the last one; `Items.integers` says which integers it goes through, and `Items.between` that
they are those of the unbounded integers. The length of a range is worked out from its ends, and is
the number of rounds.
-/

namespace YeetYoink

/-- A 64-bit integer as its unsigned word. -/
theorem toInt_cases (a : Int64) :
    a.toInt = a.toUInt64.toNat ∧ a.toUInt64.toNat < 9223372036854775808 ∨
      a.toInt = a.toUInt64.toNat - 18446744073709551616 ∧
        9223372036854775808 ≤ a.toUInt64.toNat := by
  have h : a.toInt = a.toUInt64.toBitVec.toInt := rfl
  have hn : a.toUInt64.toBitVec.toNat = a.toUInt64.toNat := rfl
  have hlt := a.toUInt64.toBitVec.isLt
  rw [h, BitVec.toInt_eq_toNat_cond]
  split <;> omega

/-- The words differ by as much as the integers, whichever is the larger. -/
theorem toNat_distance (a b : Int64) : (distance a b).toNat = (b.toInt - a.toInt).natAbs := by
  have ha := toInt_cases a
  have hb := toInt_cases b
  have hla := a.toUInt64.toNat_lt
  have hlb := b.toUInt64.toNat_lt
  rw [distance]
  split
  next h =>
    rw [Int64.le_iff_toInt_le] at h
    rw [UInt64.toNat_sub]
    omega
  next h =>
    rw [Int64.le_iff_toInt_le] at h
    rw [UInt64.toNat_sub]
    omega

namespace Items

/-- The integers from one to another, both included, up or down. -/
def between (a b : Int) : List Int :=
  (List.range ((b - a).natAbs + 1)).map fun k : Nat => if a ≤ b then a + k else a - k

/-- The integers of a range, in order. -/
def integers (a b : Int64) : List Int64 := (between a.toInt b.toInt).map Int64.ofInt

theorem length_between (a b : Int) : (between a b).length = (b - a).natAbs + 1 := by
  simp [between]

theorem length_integers (a b : Int64) : (integers a b).length = (b.toInt - a.toInt).natAbs + 1 := by
  rw [integers, List.length_map, length_between]

theorem between_bounds {a b x : Int} (h : x ∈ between a b) : min a b ≤ x ∧ x ≤ max a b := by
  obtain ⟨k, hk, rfl⟩ := List.mem_map.1 h
  have hlt := List.mem_range.1 hk
  split <;> omega

/-- Counting back goes through the same integers in the opposite order. -/
theorem reverse_between (a b : Int) : (between a b).reverse = between b a := by
  have hsize : (b - a).natAbs = (a - b).natAbs := by omega
  apply List.ext_getElem
  · rw [List.length_reverse, length_between, length_between, hsize]
  · intro k h₁ h₂
    rw [length_between] at h₂
    simp only [between, List.getElem_reverse, List.getElem_map, List.getElem_range, List.length_map,
      List.length_range]
    split <;> split <;> omega

/-- What lies between two 64-bit integers is one. -/
theorem toInt_integers (a b : Int64) :
    (integers a b).map Int64.toInt = between a.toInt b.toInt := by
  rw [integers, List.map_map]
  refine (List.map_congr_left fun x hx => ?_).trans (List.map_id _)
  obtain ⟨hlo, hhi⟩ := between_bounds hx
  have ha := And.intro a.le_toInt a.toInt_lt
  have hb := And.intro b.le_toInt b.toInt_lt
  exact Int64.toInt_ofInt_of_le (by omega) (by omega)

/-! ### The loop -/

/-- So many steps from an integer. -/
theorem count_eq (first step : Int64) (n : Nat) :
    count first step n = (List.range n).map fun k : Nat =>
      first + Int64.ofInt (k * step.toInt) := by
  induction n generalizing first with
  | zero => rfl
  | succ n ih =>
    rw [count, ih, List.range_succ_eq_map, List.map_cons, List.map_map]
    congr 1
    · simp
    · refine List.map_congr_left fun k _ => ?_
      have hk : ((k + 1 : Nat) : Int) * step.toInt = step.toInt + k * step.toInt := by
        rw [Int.natCast_succ, Int.add_mul, Int.one_mul, Int.add_comm]
      rw [Function.comp_apply, hk, Int64.ofInt_add, Int64.ofInt_toInt, Int64.add_assoc]

theorem toList_ofRange (a b : Int64) : (ofRange a b).toList = (integers a b).map .int := by
  rw [ofRange, toList, count_eq, toNat_distance, integers, between]
  refine congrArg _ (Eq.trans (List.map_congr_left fun k _ => ?_) List.map_map.symm)
  have ha : Int64.ofInt a.toInt = a := a.ofInt_toInt
  by_cases h : a ≤ b
  · rw [Function.comp_apply, if_pos h, if_pos (Int64.le_iff_toInt_le.1 h), Int64.ofInt_add, ha]
    simp
  · have h' : ¬ a.toInt ≤ b.toInt := fun hab => h (Int64.le_iff_toInt_le.2 hab)
    rw [Function.comp_apply, if_neg h, if_neg h', Int.sub_eq_add_neg, Int64.ofInt_add, ha]
    simp

end Items

namespace Evaluator

theorem eachCounted_eq (ev : Evaluator) (scope : Ref .scope) (key : String) (body : Block)
    (step : Int64) (v : Value) (i : Int64) (n : Nat) :
    eachCounted ev scope key body step v i n =
      eachListed ev scope key body v ((Items.count i step n).map .int) := by
  induction n generalizing v i with
  | zero => rfl
  | succ n ih => simp only [eachCounted, ih, Items.count, List.map_cons, eachListed]

/-- A `yall` over the source makes a round for each of the items, one after the other, in a new
scope; `t` is the store that evaluating the source leaves. -/
def Visits (n : Nat) (source : Expr) (scope : Ref .scope) (s t : Store)
    (items : List Value) : Prop :=
  ∀ key body, evaluate (n + 1) (.yall key source body) scope s =
    eachListed (evaluate n) (t.enclose scope).1 key body .null items (t.enclose scope).2

variable {n : Nat} {source : Expr} {scope : Ref .scope} {s t : Store}

theorem visits_of_items {v : Value} {items : Items} (hv : evaluate n source scope s = .ok v t)
    (hi : ∀ t, Items.of v t = .ok items t) : Visits n source scope s t items.toList := by
  intro key body
  rw [evaluate_succ, node, iteration, Eval.bind_ok hv]
  change (Items.of v >>= _) (t.enclose scope).2 = _
  rw [Eval.bind_ok (hi _)]
  cases items with
  | listed vs => rfl
  | counted first step k => exact congrFun (eachCounted_eq _ _ _ _ _ _ _ _) _

theorem visits_range {a b : Int64} (h : evaluate n source scope s = .ok (.range a b) t) :
    Visits n source scope s t ((Items.integers a b).map .int) := by
  rw [← Items.toList_ofRange]
  exact visits_of_items h fun _ => rfl

theorem visits_int {a : Int64} (h : evaluate n source scope s = .ok (.int a) t) :
    Visits n source scope s t
      ((if 0 ≤ a then Items.integers 0 a else Items.integers a 0).map .int) := by
  have hi := visits_of_items h fun _ => rfl
  split
  next ha => rwa [if_pos ha, Items.toList_ofRange] at hi
  next ha => rwa [if_neg ha, Items.toList_ofRange] at hi

end Evaluator

/-! ### Lengths -/

namespace Builtin

theorem checkedAdd?_eq_some_iff {a b c : UInt64} :
    checkedAdd? a b = some c ↔ c.toNat = a.toNat + b.toNat := by
  have ha := a.toNat_lt
  have hb := b.toNat_lt
  have hc := c.toNat_lt
  rw [checkedAdd?]
  split
  next h =>
    rw [UInt64.lt_iff_toNat_lt, UInt64.toNat_add] at h
    refine iff_of_false nofun fun hsum => ?_
    omega
  next h =>
    rw [UInt64.lt_iff_toNat_lt, UInt64.toNat_add] at h
    rw [Option.some.injEq, ← UInt64.toNat_inj, UInt64.toNat_add]
    omega

theorem toSigned?_eq_some_iff {n : UInt64} {m : Int64} :
    toSigned? n = some m ↔ m.toInt = n.toNat := by
  have hm := toInt_cases m
  have hlt := m.toUInt64.toNat_lt
  have hmax : Int64.maxValue.toUInt64.toNat = 2 ^ 63 - 1 := by decide
  rw [toSigned?]
  split
  next h =>
    have hn := toInt_cases n.toInt64
    rw [show n.toInt64.toUInt64 = n from rfl] at hn
    rw [UInt64.le_iff_toNat_le, hmax] at h
    rw [Option.some.injEq, ← Int64.toInt_inj]
    omega
  next h =>
    rw [UInt64.le_iff_toNat_le, hmax] at h
    refine iff_of_false nofun fun heq => ?_
    omega

/-- The number of integers in a range, where it is an integer of 64 bits. -/
theorem rangeSize?_eq_some_iff {a b m : Int64} :
    rangeSize? a b = some m ↔ m.toInt = (b.toInt - a.toInt).natAbs + 1 := by
  have hadd : ∀ n, checkedAdd? (distance a b) 1 = some n ↔
      n.toNat = (b.toInt - a.toInt).natAbs + 1 := fun n => by
    rw [checkedAdd?_eq_some_iff, toNat_distance]
    rfl
  rw [rangeSize?, Option.bind_eq_some_iff]
  simp only [hadd, toSigned?_eq_some_iff]
  constructor
  · rintro ⟨n, hn, hm⟩
    omega
  · intro hm
    have hlt := m.toInt_lt
    refine ⟨UInt64.ofNat ((b.toInt - a.toInt).natAbs + 1), ?_, ?_⟩
    · rw [UInt64.toNat_ofNat']
      omega
    · rw [UInt64.toNat_ofNat']
      omega

theorem rangeSize?_eq_none_iff {a b : Int64} :
    rangeSize? a b = none ↔ ¬ ∃ m : Int64, m.toInt = (b.toInt - a.toInt).natAbs + 1 := by
  simp only [← rangeSize?_eq_some_iff]
  rw [← Option.isSome_iff_exists, Option.not_isSome_iff_eq_none]

theorem length_range_of_some {a b m : Int64} (h : rangeSize? a b = some m) (s : Store) :
    Builtin.len.apply [.range a b] s = .ok (.int m) s := by
  rw [apply, length, Eval.get_bind]
  simp only [h]
  rfl

theorem length_range_of_none {a b : Int64} (h : rangeSize? a b = none) (s : Store) :
    Builtin.len.apply [.range a b] s =
      .error (.failed (.lengthOverflow (Decimal.ofInt64 a ++ ".." ++ Decimal.ofInt64 b))) s := by
  rw [apply, length, Eval.get_bind]
  simp only [h]
  rfl

theorem length_range_eq_ok_iff {a b m : Int64} {s : Store} :
    Builtin.len.apply [.range a b] s = .ok (.int m) s ↔
      m.toInt = (b.toInt - a.toInt).natAbs + 1 := by
  rw [← rangeSize?_eq_some_iff]
  cases h : rangeSize? a b with
  | some k => simp [length_range_of_some h]
  | none => simp [length_range_of_none h]

theorem length_range_eq_error_iff {a b : Int64} {s : Store} :
    Builtin.len.apply [.range a b] s =
        .error (.failed (.lengthOverflow (Decimal.ofInt64 a ++ ".." ++ Decimal.ofInt64 b))) s ↔
      ¬ ∃ m : Int64, m.toInt = (b.toInt - a.toInt).natAbs + 1 := by
  rw [← rangeSize?_eq_none_iff]
  cases h : rangeSize? a b with
  | some k => simp [length_range_of_some h]
  | none => simp [length_range_of_none h]

end Builtin

/-- Over a range a `yall` visits the integers from one end to the other, up or down, one more than
the difference of the ends, and over the reversed range the same ones in the opposite order; none of
them leaves the 64-bit integers. An integer is the range between it and zero, the lesser end first.
The length of the range is the number of these integers, if that is a 64-bit integer itself, and an
error otherwise. -/
theorem range_visited (a b : Int64) :
    (Items.integers a b).map Int64.toInt = Items.between a.toInt b.toInt ∧
    (Items.integers a b).length = (b.toInt - a.toInt).natAbs + 1 ∧
    Items.integers b a = (Items.integers a b).reverse ∧
    (∀ n source scope s t, evaluate n source scope s = .ok (.range a b) t →
      Evaluator.Visits n source scope s t ((Items.integers a b).map .int)) ∧
    (∀ n source scope s t, evaluate n source scope s = .ok (.int a) t →
      Evaluator.Visits n source scope s t
        ((if 0 ≤ a then Items.integers 0 a else Items.integers a 0).map .int)) ∧
    ∀ s, (∀ m, Builtin.len.apply [.range a b] s = .ok (.int m) s ↔
      m.toInt = (Items.integers a b).length) ∧
      (Builtin.len.apply [.range a b] s =
          .error (.failed (.lengthOverflow (Decimal.ofInt64 a ++ ".." ++ Decimal.ofInt64 b))) s ↔
        ¬ ∃ m : Int64, m.toInt = (Items.integers a b).length) := by
  refine ⟨Items.toInt_integers a b, Items.length_integers a b, ?_, fun n source scope s t =>
    Evaluator.visits_range, fun n source scope s t => Evaluator.visits_int, fun s => ?_⟩
  · rw [Items.integers, ← Items.reverse_between, List.map_reverse, Items.integers]
  · rw [Items.length_integers]
    exact ⟨fun m => Builtin.length_range_eq_ok_iff, Builtin.length_range_eq_error_iff⟩

/-- Down from the largest integer, up from minus one, and the ranges just short of too long and
longest. -/
theorem range_visited_top :
    let down := Expr.range (.int 9223372036854775807) (.int 9223372036854775805)
    evaluate 2 down ⟨0⟩ {} = .ok (.range 9223372036854775807 9223372036854775805) {} ∧
    Evaluator.Visits 2 down ⟨0⟩ {} {}
      [.int 9223372036854775807, .int 9223372036854775806, .int 9223372036854775805] ∧
    evaluate 1 (.int (-1)) ⟨0⟩ {} = .ok (.int (-1)) {} ∧
    Evaluator.Visits 1 (.int (-1)) ⟨0⟩ {} {} [.int (-1), .int 0] ∧
    Builtin.len.apply [.range 1 9223372036854775807] {} = .ok (.int 9223372036854775807) {} ∧
    Builtin.len.apply [.range Int64.minValue 9223372036854775807] {} =
      .error (.failed (.lengthOverflow "-9223372036854775808..9223372036854775807")) {} := by
  intro down
  have hdown : evaluate 2 down ⟨0⟩ {} =
    .ok (.range 9223372036854775807 9223372036854775805) {} := rfl
  have hint : evaluate 1 (.int (-1)) ⟨0⟩ {} = .ok (.int (-1)) {} := rfl
  obtain ⟨-, -, -, hvisits, -, -⟩ := range_visited 9223372036854775807 9223372036854775805
  obtain ⟨-, -, -, -, hvisits', -⟩ := range_visited (-1) 0
  obtain ⟨-, hsize, -, -, -, hlen⟩ := range_visited 1 9223372036854775807
  obtain ⟨-, hsize', -, -, -, hlen'⟩ := range_visited Int64.minValue 9223372036854775807
  refine ⟨hdown, hvisits 2 down ⟨0⟩ {} {} hdown, hint, hvisits' 1 _ ⟨0⟩ {} {} hint, ?_, ?_⟩
  · refine ((hlen {}).1 _).2 ?_
    rw [hsize]
    decide
  · refine (hlen' {}).2.2 ?_
    rintro ⟨m, hm⟩
    have hlt := m.toInt_lt
    rw [hm, hsize'] at hlt
    exact absurd hlt (by decide)

end YeetYoink
