import YeetYoink.Proofs.Session.Runs
import YeetYoink.Proofs.Yolo.Bake

/-!
# Ranges and integers

In yolo an arithmetic operator on a range and an integer works on the two ends of the range. Each
end is what the operator makes of two integers, with one exception: an end has no quotient that does
not fit in 64 bits (`Overflows`), where integers wrap around. So the two agree on a range if and
only if no end overflows, or one is divided by zero and there is no range anyway
(`scaled_rangeOf_iff`).
-/

namespace YeetYoink.Yolo

open Operator

/-- The one quotient that does not fit in 64 bits. -/
def Overflows (op : BinaryOp) (a b : Int64) : Prop := op = .divide ∧ a = Int64.minValue ∧ b = -1

/-- What integers make of the two ends is the outcome: the range between them, or the abyss if one
of them is a division by zero. -/
structure Scaled (s : Store) (first last : Except EvalError (Option Value))
    (outcome : EStateM.Result Stop Store Value) : Prop where
  range : ∀ a b, outcome = .ok (.range a b) s ↔
    first = .ok (some (.int a)) ∧ last = .ok (some (.int b))
  abyss : outcome = newAbyss s ↔ first = .error .divisionByZero ∨ last = .error .divisionByZero

variable {op : BinaryOp} {a b c d : Int64} {s : Store}

/-! ### One end -/

/-- Arithmetic on two integers gives an integer, but for a division by zero. -/
theorem integers_cases (hop : isArithmetic op = true) (a b : Int64) :
    (∃ n, integers op a b = .ok (some (.int n)) ∧ (op = .divide → b ≠ 0)) ∨
      integers op a b = .error .divisionByZero ∧ op = .divide ∧ b = 0 := by
  cases op with
  | plus | minus | times => exact .inl ⟨_, rfl, nofun⟩
  | divide =>
    by_cases hb : b = 0
    · exact .inr ⟨by rw [integers, if_pos hb], rfl, hb⟩
    · exact .inl ⟨a / b, by rw [integers, if_neg hb], fun _ => hb⟩
  | _ => cases hop

theorem endpoint?_of_overflows (h : Overflows op a b) : endpoint? op a b = none := by
  obtain ⟨rfl, ha, hb⟩ := h
  rw [endpoint?, checkedDiv?, if_pos (.inr ⟨ha, hb⟩)]

/-- An end that does not overflow is what the operator makes of two integers. -/
theorem endpoint?_of_integers (hop : isArithmetic op = true) (ho : ¬ Overflows op a b) {n : Int64}
    (h : integers op a b = .ok (some (.int n))) : endpoint? op a b = some n := by
  cases op with
  | plus | minus | times => cases h; rfl
  | divide =>
    have hb : b ≠ 0 := by rintro rfl; cases h
    have hn : ¬ (b = 0 ∨ a = Int64.minValue ∧ b = -1) := fun h => h.elim hb fun h => ho ⟨rfl, h⟩
    rw [integers, if_neg hb] at h
    cases h
    rw [endpoint?, checkedDiv?, if_neg hn]
  | _ => cases hop

theorem endpoint?_of_divisionByZero (h : integers op a b = .error .divisionByZero)
    (hop : isArithmetic op = true) : endpoint? op a b = none := by
  obtain ⟨n, hn, -⟩ | ⟨-, rfl, rfl⟩ := integers_cases hop a b
  · rw [hn] at h
    cases h
  · rfl

/-! ### Both ends -/

theorem scaled_range {m n : Int64} :
    Scaled s (.ok (some (.int m))) (.ok (some (.int n))) (rangeOf (some m) (some n) s) where
  range a b := by
    refine ⟨fun h => ?_, fun h => ?_⟩
    · cases h
      exact ⟨rfl, rfl⟩
    · obtain ⟨h₁, h₂⟩ := h
      cases h₁
      cases h₂
      rfl
  abyss := ⟨nofun, nofun⟩

theorem scaled_abyss {first last : Except EvalError (Option Value)}
    (h : first = .error .divisionByZero ∨ last = .error .divisionByZero) :
    Scaled s first last (newAbyss s) where
  range a b := by
    refine ⟨nofun, fun hab => ?_⟩
    obtain ⟨h₁, h₂⟩ := hab
    obtain rfl | rfl := h
    · cases h₁
    · cases h₂
  abyss := iff_of_true rfl h

theorem rangeOf_none_left (last : Option Int64) : rangeOf none last = newAbyss := rfl

theorem rangeOf_none_right (first : Option Int64) : rangeOf first none = newAbyss := by
  cases first <;> rfl

/-- The ends are moved as integers are, unless one overflows and none is divided by zero. -/
theorem scaled_rangeOf_iff (hop : isArithmetic op = true) :
    Scaled s (integers op a b) (integers op c d) (rangeOf (endpoint? op a b) (endpoint? op c d) s) ↔
      (Overflows op a b ∨ Overflows op c d → b = 0 ∨ d = 0) := by
  obtain ⟨m, hm, hb⟩ | ⟨hz, rfl, rfl⟩ := integers_cases hop a b
  · obtain ⟨n, hn, hd⟩ | ⟨hz, rfl, rfl⟩ := integers_cases hop c d
    · by_cases ho : Overflows op a b ∨ Overflows op c d
      · -- Integers wrap around, while the range is lost.
        have hdiv : op = .divide := ho.elim And.left And.left
        have habyss : rangeOf (endpoint? op a b) (endpoint? op c d) = newAbyss := by
          obtain ho | ho := ho
          · rw [endpoint?_of_overflows ho, rangeOf_none_left]
          · rw [endpoint?_of_overflows ho, rangeOf_none_right]
        refine iff_of_false (fun h => ?_) fun h => (h ho).elim (hb hdiv) (hd hdiv)
        have hrange := (h.range m n).2 ⟨hm, hn⟩
        rw [habyss] at hrange
        cases hrange
      · have hends := not_or.1 ho
        rw [endpoint?_of_integers hop hends.1 hm, endpoint?_of_integers hop hends.2 hn, hm, hn]
        exact iff_of_true scaled_range fun h => absurd h ho
    · rw [endpoint?_of_divisionByZero hz hop, rangeOf_none_right]
      exact iff_of_true (scaled_abyss (.inr hz)) fun _ => .inr rfl
  · rw [endpoint?_of_divisionByZero hz hop, rangeOf_none_left]
    exact iff_of_true (scaled_abyss (.inl hz)) fun _ => .inl rfl

/-! ### The operators -/

variable {scope : Ref .scope} {v : Int64}

theorem applyBinary_range (hop : isArithmetic op = true) (hy : s.isYolo scope = true) :
    Evaluator.applyBinary scope op (.range a b) (.int v) s =
      rangeOf (endpoint? op a v) (endpoint? op b v) s := by
  rw [Evaluator.applyBinary, Eval.get_bind, if_pos hy]
  cases op with
  | plus | minus | times | divide => rfl
  | _ => cases hop

theorem applyBinary_toRange (hop : isArithmetic op = true) (hy : s.isYolo scope = true) :
    Evaluator.applyBinary scope op (.int v) (.range a b) s =
      rangeOf (endpoint? op v a) (endpoint? op v b) s := by
  rw [Evaluator.applyBinary, Eval.get_bind, if_pos hy]
  cases op with
  | plus | minus | times | divide => rfl
  | _ => cases hop

/-- In yolo, arithmetic on a range and an integer is arithmetic on the ends of the range, and the
abyss exactly where that is a division by zero. This fails only where an end is the smallest integer
divided by minus one. -/
theorem range_arithmetic_iff (hop : isArithmetic op = true) (hy : s.isYolo scope = true)
    (a b v : Int64) :
    (Scaled s (integers op a v) (integers op b v)
        (Evaluator.applyBinary scope op (.range a b) (.int v) s) ↔
      ¬ (Overflows op a v ∨ Overflows op b v)) ∧
    (Scaled s (integers op v a) (integers op v b)
        (Evaluator.applyBinary scope op (.int v) (.range a b) s) ↔
      (Overflows op v a ∨ Overflows op v b → a = 0 ∨ b = 0)) := by
  refine ⟨?_, ?_⟩
  · rw [applyBinary_range hop hy, scaled_rangeOf_iff hop]
    refine ⟨fun h ho => ?_, fun h ho => absurd ho h⟩
    -- Both ends have the same divisor, and it is minus one.
    have hv : v = -1 := ho.elim (·.2.2) (·.2.2)
    have hz : v = 0 := (h ho).elim id id
    rw [hv] at hz
    exact absurd hz (by decide)
  · rw [applyBinary_toRange hop hy, scaled_rangeOf_iff hop]

/-- Halving a range, dividing by one that starts at zero, and the smallest integer, which is lost.
-/
theorem range_arithmetic_yard :
    isArithmetic .divide = true ∧ yard.isYolo ⟨0⟩ = true ∧
    Evaluator.applyBinary ⟨0⟩ .divide (.range Int64.minValue 7) (.int (-2)) yard =
      .ok (.range 4611686018427387904 (-3)) yard ∧
    Evaluator.applyBinary ⟨0⟩ .divide (.int Int64.minValue) (.range 0 (-1)) yard = newAbyss yard ∧
    ¬ Scaled yard (integers .divide Int64.minValue (-1)) (integers .divide 0 (-1))
      (Evaluator.applyBinary ⟨0⟩ .divide (.range Int64.minValue 0) (.int (-1)) yard) := by
  have hop : isArithmetic .divide = true := rfl
  have hy : yard.isYolo ⟨0⟩ = true := by decide +kernel
  have halved := (range_arithmetic_iff hop hy Int64.minValue 7 (-2)).1.2 fun h =>
    h.elim (fun h => absurd h.2.2 (by decide)) fun h => absurd h.2.2 (by decide)
  have hzero := (range_arithmetic_iff hop hy 0 (-1) Int64.minValue).2.2 fun _ => .inl rfl
  have hlost := (range_arithmetic_iff hop hy Int64.minValue 0 (-1)).1
  exact ⟨hop, hy, (halved.range _ _).2 ⟨by rfl, by rfl⟩, hzero.abyss.2 (.inl rfl),
    fun h => hlost.1 h (.inl ⟨rfl, rfl, rfl⟩)⟩

end YeetYoink.Yolo

namespace YeetYoink.Session

/-- The smallest integer divided by minus one is itself again, but not as the end of a range. -/
theorem range_lost :
    answer? "yolo \x7b (0 - 9223372036854775807 - 1) / -1 \x7d" = some "-9223372036854775808" ∧
      answer? "yolo \x7b ((0 - 9223372036854775807 - 1)..0) / -1 \x7d" =
        some (Text.quoted Yolo.abyss) := by
  decide +kernel

end YeetYoink.Session
