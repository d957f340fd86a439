import Mathlib.Data.List.TakeWhile
import YeetYoink.Diagnostic
import YeetYoink.Proofs.Text.Bytes
import YeetYoink.Proofs.Text.Chars

/-!
# The line that a message is shown with

A message about an offset between two characters is shown with the line that holds the offset, under
the number of that line (`shows_render`).
-/

namespace YeetYoink.Diagnostic

open Text (byteSize)

theorem splitAtByte_byteSize (before after : List Char) :
    splitAtByte (byteSize before) (before ++ after) = some (before, after) := by
  induction before with
  | nil => rw [Text.byteSize_nil, splitAtByte]; rfl
  | cons c before ih =>
    obtain ⟨n, hn⟩ := Nat.exists_eq_add_one.2 c.utf8Size_pos
    have hsize : byteSize (c :: before) = n + byteSize before + 1 := by
      rw [byteSize, hn]
      omega
    rw [hsize, List.cons_append, splitAtByte, if_pos (by omega), hn]
    rw [show n + byteSize before + 1 - (n + 1) = byteSize before by omega, ih]
    rfl

/-! ### Lines -/

theorem head?_splitOn (cs : List Char) :
    (cs.splitOn '\n')[0]? = some (cs.takeWhile (· ≠ '\n')) := by
  induction cs with
  | nil => rfl
  | cons c cs ih =>
    rw [List.splitOn_cons_eq_if_modifyHead]
    by_cases hc : c = '\n'
    · simp [hc]
    · rw [if_neg (by simpa using hc), List.takeWhile_cons_of_pos (by simpa using hc)]
      simp [List.getElem?_modifyHead, ih]

theorem lastLine_newline (before : List Char) : lastLine ('\n' :: before) = lastLine before := by
  have hn : decide ('\n' ≠ '\n') = false := by decide
  rw [lastLine, lastLine, List.reverse_cons, takeWhile_append_stop hn]

theorem lastLine_of_not_mem {before : List Char} (h : '\n' ∉ before) :
    lastLine before = before := by
  have hall : before.reverse.takeWhile (· ≠ '\n') = before.reverse := by
    refine List.takeWhile_eq_self_iff.2 fun c hc => ?_
    rw [List.mem_reverse] at hc
    simpa using ne_of_mem_of_not_mem hc h
  rw [lastLine, hall, List.reverse_reverse]

theorem lastLine_cons_of_mem {before : List Char} (h : '\n' ∈ before) (c : Char) :
    lastLine (c :: before) = lastLine before := by
  obtain ⟨front, line, rfl⟩ := List.append_of_mem h
  have hn : decide ('\n' ≠ '\n') = false := by decide
  simp only [lastLine, List.reverse_cons, List.reverse_append, List.append_assoc,
    List.cons_append, List.nil_append]
  rw [takeWhile_append_stop hn, takeWhile_append_stop hn]

/-- The line that the character behind some text stands in. -/
theorem getElem?_splitOn (before after : List Char) :
    ((before ++ after).splitOn '\n')[before.count '\n']? =
      some (lastLine before ++ after.takeWhile (· ≠ '\n')) := by
  induction before with
  | nil => exact head?_splitOn after
  | cons c before ih =>
    rw [List.cons_append, List.splitOn_cons_eq_if_modifyHead]
    by_cases hc : c = '\n'
    · subst hc
      simp [ih, lastLine_newline]
    · -- The character lengthens the first line, which is the last one only without a line break.
      rw [if_neg (by simpa using hc), List.count_cons_of_ne hc, List.getElem?_modifyHead, ih]
      by_cases hn : '\n' ∈ before
      · rw [if_neg (List.count_pos_iff.2 hn).ne', lastLine_cons_of_mem hn]
      · have hcn : '\n' ∉ c :: before := by simp [Ne.symm hc, hn]
        rw [if_pos (List.count_eq_zero_of_not_mem hn), lastLine_of_not_mem hn,
          lastLine_of_not_mem hcn]
        rfl

theorem lastLine_suffix (before : List Char) : lastLine before <:+ before := by
  rw [← List.reverse_prefix, lastLine, List.reverse_reverse]
  exact List.takeWhile_prefix _

/-- How a message about an offset is shown: with the line of the source that holds the offset, under
the number of that line, and with a caret behind as many blanks as there are characters in the line
before the offset. -/
def Shows (source : String) (offset : Nat) (message shown : String) : Prop :=
  ∃ before after front back, source.toList = before ++ after ∧ byteSize before = offset ∧
    (source.toList.splitOn '\n')[before.count '\n']? = some (front ++ back) ∧ front <:+ before ∧
    back <+: after ∧
    shown = headline message ++ "\n"
      ++ String.ofList (lineNumber (before.count '\n' + 1)) ++ " | " ++
      String.ofList (front ++ back) ++ "\n"
      ++ "      " ++ String.ofList (List.replicate front.length ' ') ++ "^"

theorem shows_render {source : String} {offset : Nat} (h : Text.IsBoundary source offset)
    (message : String) :
    Shows source offset message (render source (some offset) message) := by
  obtain ⟨before, after, hs, rfl⟩ := h.exists_append
  refine ⟨before, after, lastLine before, _, hs, rfl, hs ▸ getElem?_splitOn before after,
    lastLine_suffix before,
    List.takeWhile_prefix _, ?_⟩
  simp only [render, Option.bind_some, hs, splitAtByte_byteSize]

end YeetYoink.Diagnostic
