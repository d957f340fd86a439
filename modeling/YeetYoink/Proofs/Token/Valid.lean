import Mathlib.Data.List.TakeWhile
import YeetYoink.Proofs.Token.Kinds

/-!
# What tokens hold

The texts in the tokens of a source: names are words but no keywords, numbers are digits, and there
is no backtick in the text of a template.
-/

namespace YeetYoink

def Token.Kind.Valid : Token.Kind → Prop
  | .ident name => IsName name
  | .int text => ∀ c ∈ text.toList, isDigit c = true
  | .float text => ∃ cs ds, text.toList = cs ++ '.' :: ds ∧ cs ≠ [] ∧ (∀ c ∈ cs, isDigit c = true) ∧
      ∀ c ∈ ds, isDigit c = true
  | .template text | .templateHead text | .templateMiddle text | .templateTail text =>
    '\x60' ∉ text.toList
  | _ => True

namespace Lexer

theorem valid_scanName {c : Char} (hc : isNameStart c = true) (holes : List Nat) (cs : List Char) :
    (scanName holes (c :: cs)).kind.Valid := by
  unfold scanName
  simp only
  split
  · trivial
  · rename_i hk
    refine ⟨⟨c, cs.takeWhile isNameChar, ?_, hc, fun d hd => List.mem_takeWhile_imp hd⟩, hk⟩
    rw [String.toList_ofList, List.takeWhile_cons_of_pos (isNameChar_of_nameStart hc)]

theorem valid_scanNumber {c : Char} (hc : isDigit c = true) (holes : List Nat) (cs : List Char) :
    (scanNumber holes (c :: cs)).kind.Valid := by
  have hwhole : ∀ d ∈ (String.ofList ((c :: cs).takeWhile isDigit)).toList, isDigit d = true := by
    rw [String.toList_ofList]
    exact fun d hd => List.mem_takeWhile_imp hd
  unfold scanNumber
  simp only
  split
  · split
    · refine ⟨(c :: cs).takeWhile isDigit, _, String.toList_ofList, ?_,
        fun d hd => List.mem_takeWhile_imp hd,
        fun d hd => List.mem_takeWhile_imp hd⟩
      simp [hc]
    · exact hwhole
  · exact hwhole

theorem backtick_notMem_templateSegment (cs : List Char) : '\x60' ∉ (templateSegment cs).text := by
  fun_induction templateSegment cs with
  | case6 c cs hc _ _ _ ih => exact fun h => (List.mem_cons.1 h).elim (fun h => hc h.symm) ih
  | _ => simp_all [Segment.cons]

theorem valid_scanTemplate (resumed : Bool) (holes : List Nat) (c : Char) (cs : List Char) :
    (scanTemplate resumed holes c cs).kind.Valid := by
  have h := backtick_notMem_templateSegment cs
  unfold scanTemplate
  simp only
  split <;> first | trivial | simpa [Token.Kind.Valid] using h

theorem valid_scan (holes : List Nat) (c : Char) (cs : List Char) :
    (scan holes c cs).kind.Valid := by
  refine scan_cases (motive := fun f => (f cs).kind.Valid) holes c (fun _ => ?_)
    (fun _ => valid_scanTemplate ..) (fun hc => valid_scanName hc ..)
    (fun hc => valid_scanNumber hc ..)
    (fun _ _ => valid_scanTemplate ..) fun _ => ?_
  · unfold scanString
    simp only
    split <;> trivial
  · unfold scanSymbol
    split <;> trivial

theorem valid_next (l : Lexer) : (next l).1.kind.Valid := by
  unfold next
  simp only
  split
  · trivial
  · exact valid_scan ..

theorem valid_tokens (l : Lexer) : ∀ t ∈ l.tokens, t.kind.Valid := by
  fun_induction tokens l with
  | case1 l h => simp
  | case2 l h ih => exact List.forall_mem_cons.2 ⟨valid_next l, ih⟩

end Lexer

end YeetYoink
