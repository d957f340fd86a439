import YeetYoink.Proofs.Decimal.RoundTrip
import YeetYoink.Proofs.Yolo.Bake

/-!
# Integers as texts

`yarn` writes an integer as a text, and `int` reads the text as the integer. In yolo such a text is
that integer next to another one, on either side of every operator but those for equality, which
know what a text and an integer are (`integer_text_laws`).
-/

namespace YeetYoink

/-- A text without blanks is left as it is. -/
theorem trimBlank_eq_self {cs : List Char} (h : ∀ c ∈ cs, isBlank c = false) :
    trimBlank cs = cs := by
  have hdrop : ∀ ds : List Char, (∀ c ∈ ds, isBlank c = false) → ds.dropWhile isBlank = ds := by
    intro ds hds
    cases ds with
    | nil => rfl
    | cons d ds => rw [List.dropWhile_cons_of_neg (by simp [hds d (List.mem_cons_self ..)])]
  rw [trimBlank, hdrop cs h, hdrop cs.reverse (by simpa using h), List.reverse_reverse]

theorem Decimal.isBlank_of_mem_ofInt {n : Int} {c : Char} (h : c ∈ ofInt n) :
    isBlank c = false := by
  have hdigits : c ∈ digits n.natAbs → isBlank c = false :=
    fun hc => isBlank_of_isDigit (isDigit_of_mem_digits hc)
  rw [ofInt] at h
  split at h
  · obtain rfl | hc := List.mem_cons.1 h
    · decide
    · exact hdigits hc
  · exact hdigits h

namespace Yolo

variable {s : Store} {r : Ref .text} {n : Int64}

theorem toInteger_of_text (h : s.text r = Decimal.ofInt64 n) :
    Builtin.int.apply [.text r] s = .ok (.int n) s := by
  have htrim : trimBlank (Decimal.ofInt64 n).toList = (Decimal.ofInt64 n).toList := by
    refine trimBlank_eq_self fun c hc => ?_
    rw [Decimal.ofInt64, String.toList_ofList] at hc
    exact Decimal.isBlank_of_mem_ofInt hc
  simp only [Builtin.apply, Builtin.toInteger, Eval.get_bind, h, htrim, Decimal.toInt64?_ofInt64]
  rfl

/-- What an operator makes of two integers: a value or a division by zero. Pushing shows them side
by side. -/
def ofIntegers (op : BinaryOp) (a b : Int64) : Eval Value :=
  match Operator.integers op a b with
  | .ok (some v) => return v
  | .ok none => Eval.newText (Decimal.ofInt64 a ++ Decimal.ofInt64 b)
  | .error e => Eval.fail e

theorem combine_integers (op : BinaryOp) (a b : Int64) (k : Nat) :
    combine (k + 1) op (.int a) (.int b) = ofIntegers op a b := by
  cases op with
  | divide | modulo =>
    by_cases hb : b = 0
    · subst hb
      rfl
    · simp only [combine, Operator.binary, Operator.typed?, ofIntegers, Operator.integers,
        if_neg hb]
      rfl
  | _ => rfl

theorem textWithInt_of_text (h : s.text r = Decimal.ofInt64 n) (op : BinaryOp)
    (act : Value → Eval Value) (m : Int64)
    (first : Bool) (x y : Value) : textWithInt op act r m first x y s = act (.int n) s := by
  simp only [textWithInt, Eval.get_bind, h, Decimal.toInt64?_ofInt64]

variable {op : BinaryOp} {scope : Ref .scope}

/-- A text next to an integer is first tried as an integer, whatever else the operator does with
texts. -/
theorem combine_text (h : s.text r = Decimal.ofInt64 n) (heq : op ≠ .equal) (hne : op ≠ .notEqual)
    (m : Int64)
    (k : Nat) : combine (k + 1) op (.text r) (.int m) s = combine k op (.int n) (.int m) s ∧
      combine (k + 1) op (.int m) (.text r) s = combine k op (.int m) (.int n) s := by
  have hleft := textWithInt_of_text h op (combine k op · (.int m)) m false (.text r) (.int m)
  have hright := textWithInt_of_text h op (combine k op (.int m) ·) m true (.int m) (.text r)
  cases op with
  | equal => exact absurd rfl heq
  | notEqual => exact absurd rfl hne
  | _ => exact ⟨hleft, hright⟩

theorem applyBinary_integers (hy : s.isYolo scope = true) (op : BinaryOp) (a b : Int64) :
    Evaluator.applyBinary scope op (.int a) (.int b) s = ofIntegers op a b s := by
  rw [Evaluator.applyBinary, Eval.get_bind, if_pos hy, binary, Eval.get_bind, combine_integers]

theorem applyBinary_text (h : s.text r = Decimal.ofInt64 n) (hy : s.isYolo scope = true)
    (heq : op ≠ .equal) (hne : op ≠ .notEqual) (m : Int64) :
    Evaluator.applyBinary scope op (.text r) (.int m) s = ofIntegers op n m s ∧
      Evaluator.applyBinary scope op (.int m) (.text r) s = ofIntegers op m n s := by
  obtain ⟨hleft, hright⟩ := combine_text h heq hne m (s.nesting + 2)
  simp only [Evaluator.applyBinary, Eval.get_bind, if_pos hy, binary]
  rw [hleft, hright, combine_integers, combine_integers]
  exact ⟨rfl, rfl⟩

/-- The text that `yarn` makes of an integer is read by `int` as that integer. In yolo it gives with
any integer, on either side of every operator but `==` and `!=`, just what the integer itself gives:
a value or a division by zero. -/
theorem integer_text_laws (n : Int64) :
    (∀ s, ∃ r t, Builtin.yarn.apply [.int n] s = .ok (.text r) t ∧ t.text r = Decimal.ofInt64 n) ∧
    ∀ s r, s.text r = Decimal.ofInt64 n →
      Builtin.int.apply [.text r] s = .ok (.int n) s ∧
      ∀ scope op m, s.isYolo scope = true → op ≠ .equal → op ≠ .notEqual →
        (Evaluator.applyBinary scope op (.int n) (.int m) s = ofIntegers op n m s ∧
          Evaluator.applyBinary scope op (.text r) (.int m) s = ofIntegers op n m s) ∧
        Evaluator.applyBinary scope op (.int m) (.int n) s = ofIntegers op m n s ∧
          Evaluator.applyBinary scope op (.int m) (.text r) s = ofIntegers op m n s := by
  refine ⟨fun s => ⟨_, _, rfl, s.text_newText _⟩, fun s r h => ⟨toInteger_of_text h, ?_⟩⟩
  intro scope op m hy heq hne
  obtain ⟨hleft, hright⟩ := applyBinary_text h hy heq hne m
  exact ⟨⟨applyBinary_integers hy op n m, hleft⟩, applyBinary_integers hy op m n, hright⟩

/-- A yolo scope, and the smallest integer as a text. -/
def meadow : Store := { yard with texts := #["-9223372036854775808"] }

/-- The smallest integer read back, divided by minus one and by zero, multiplied, and compared. -/
theorem integer_text_meadow :
    meadow.text ⟨0⟩ = Decimal.ofInt64 Int64.minValue ∧ meadow.isYolo ⟨0⟩ = true ∧
    (∃ r t, Builtin.yarn.apply [.int Int64.minValue] yard = .ok (.text r) t ∧
      t.text r = "-9223372036854775808") ∧
    Builtin.int.apply [.text ⟨0⟩] meadow = .ok (.int Int64.minValue) meadow ∧
    Evaluator.applyBinary ⟨0⟩ .divide (.text ⟨0⟩) (.int (-1)) meadow =
      .ok (.int Int64.minValue) meadow ∧
    Evaluator.applyBinary ⟨0⟩ .modulo (.text ⟨0⟩) (.int 0) meadow =
      .error (.failed .divisionByZero) meadow ∧
    Evaluator.applyBinary ⟨0⟩ .times (.int 3) (.text ⟨0⟩) meadow =
      .ok (.int Int64.minValue) meadow ∧
    Evaluator.applyBinary ⟨0⟩ .less (.int 3) (.text ⟨0⟩) meadow = .ok (.bool false) meadow := by
  have hm : Decimal.ofInt64 Int64.minValue = "-9223372036854775808" := by decide +kernel
  have hy : meadow.isYolo ⟨0⟩ = true := by decide +kernel
  obtain ⟨hyarn, hlaws⟩ := integer_text_laws Int64.minValue
  obtain ⟨hint, hop⟩ := hlaws meadow ⟨0⟩ hm.symm
  exact ⟨hm.symm, hy, hm ▸ hyarn yard, hint, (hop ⟨0⟩ .divide (-1) hy nofun nofun).1.2,
    (hop ⟨0⟩ .modulo 0 hy nofun nofun).1.2, (hop ⟨0⟩ .times 3 hy nofun nofun).2.2,
    (hop ⟨0⟩ .less 3 hy nofun nofun).2.2⟩

end Yolo

end YeetYoink
