import YeetYoink.Proofs.Decimal.Digits
import YeetYoink.Proofs.Diagnostic.Lines

/-!
# The caret under a message

A message is shown in three lines: the message, the line of the source that it is about, and a
caret. The line of the source has a margin with its number, which is as wide as the number needs,
and the caret has one of six blanks. So the caret stands under the place as long as the number has
at most three digits, and too far to the left behind that (`caret_aligned_iff`).
-/

namespace YeetYoink.Diagnostic

open Text (byteSize IsBoundary)

/-- The line of a source that an offset lies in: its number, counted from one, and its characters in
front of the offset and behind it. -/
inductive Line (source : String) : (offset number : Nat) → (front back : List Char) → Prop
  | mk (before front back after : List Char)
    (hs : source.toList = before ++ front ++ (back ++ after))
      (hbefore : ∀ c ∈ before.getLast?, c = '\n') (hfront : '\n' ∉ front) (hback : '\n' ∉ back)
      (hafter : ∀ c ∈ after.head?, c = '\n') :
      Line source (byteSize (before ++ front)) (before.count '\n' + 1) front back

/-- What stands in front of a line, with its number. -/
def margin (number : Nat) : List Char := lineNumber number ++ " | ".toList

/-- The line with the caret, behind so many characters. -/
def caret (column : Nat) : List Char := List.replicate (6 + column) ' ' ++ ['^']

variable {source message : String} {offset number : Nat} {before front back after : List Char}

/-! ### Lines -/

theorem takeWhile_line (hback : '\n' ∉ back) (hafter : ∀ c ∈ after.head?, c = '\n') :
    (back ++ after).takeWhile (· ≠ '\n') = back := by
  refine (takeWhile_stop (fun c hc => ?_) fun c hc => ?_).1
  · simpa using ne_of_mem_of_not_mem hc hback
  · simpa using hafter c hc

theorem lastLine_append (hbefore : ∀ c ∈ before.getLast?, c = '\n') (hfront : '\n' ∉ front) :
    lastLine (before ++ front) = front := by
  rw [lastLine, List.reverse_append, takeWhile_line (by simpa using hfront), List.reverse_reverse]
  simpa using hbefore

/-- A text goes on behind its first line with a line break, if it goes on. -/
theorem exists_first_line (cs : List Char) :
    ∃ line rest, cs = line ++ rest ∧ '\n' ∉ line ∧ ∀ c ∈ rest.head?, c = '\n' := by
  refine ⟨cs.takeWhile (· ≠ '\n'), cs.dropWhile (· ≠ '\n'), List.takeWhile_append_dropWhile.symm,
    fun h => ?_,
    fun c hc => ?_⟩
  · simpa using List.mem_takeWhile_imp h
  · have hstop := List.head?_dropWhile_not (· ≠ '\n') cs
    rw [Option.mem_def.1 hc] at hstop
    simpa using hstop

/-- Every place between two characters lies in a line. -/
theorem exists_line (h : IsBoundary source offset) :
    ∃ number front back, Line source offset number front back := by
  obtain ⟨cs, ds, hs, rfl⟩ := h.exists_append
  obtain ⟨back, after, rfl, hback, hafter⟩ := exists_first_line ds
  -- The line starts behind the last line break, which is the first one from the other end.
  obtain ⟨front, before, hcs, hfront, hbefore⟩ := exists_first_line cs.reverse
  obtain rfl : cs = before.reverse ++ front.reverse := by
    rw [← List.reverse_append, ← hcs, List.reverse_reverse]
  exact ⟨_, _, _, .mk _ _ _ _ hs (by simpa using hbefore) (by simpa using hfront) hback hafter⟩

theorem splitAtByte_of_le {cs : List Char} {n : Nat} (h : byteSize cs ≤ n) :
    splitAtByte n cs = some (cs, []) := by
  induction cs generalizing n with
  | nil => cases n <;> rfl
  | cons c cs ih =>
    obtain ⟨k, rfl⟩ : ∃ k, n = k + 1 := Nat.exists_eq_add_one.2 (by
      have := c.utf8Size_pos
      rw [byteSize] at h
      omega)
    rw [byteSize] at h
    rw [splitAtByte, if_pos (by omega), ih (by omega)]
    rfl

/-- Past the end is at the end. -/
theorem render_min (source : String) (offset : Nat) (message : String) :
    render source (some offset) message =
      render source (some (min offset source.utf8ByteSize)) message := by
  obtain h | h := Nat.le_total offset source.utf8ByteSize
  · rw [Nat.min_eq_left h]
  · rw [Nat.min_eq_right h, ← Text.byteSize_toList]
    rw [← Text.byteSize_toList] at h
    simp only [render, Option.bind_some, splitAtByte_of_le h, splitAtByte_of_le (Nat.le_refl _)]

theorem toList_render (h : Line source offset number front back) (message : String) :
    (render source (some offset) message).toList =
      ['\n'].intercalate [("error: " ++ message).toList, margin number ++ (front ++ back),
        caret front.length] := by
  cases h with
  | mk before _ _ after hs hbefore hfront hback hafter =>
    have hcount : (before ++ front).count '\n' = before.count '\n' := by
      rw [List.count_append, List.count_eq_zero_of_not_mem hfront, Nat.add_zero]
    simp only [render, Option.bind_some, hs, splitAtByte_byteSize,
      lastLine_append hbefore hfront, hcount, takeWhile_line hback hafter]
    simp [headline, margin, caret, List.replicate_add]

theorem Line.newline_notMem (h : Line source offset number front back) : '\n' ∉ front ++ back := by
  cases h with
  | mk _ _ _ _ _ _ hfront hback _ => exact List.not_mem_append hfront hback

theorem newline_notMem_margin (number : Nat) : '\n' ∉ margin number := by
  have hdigits : '\n' ∉ Nat.toDigits 10 number :=
    fun h => absurd (Decimal.isDigit_of_mem_digits h) (by decide)
  simp [margin, lineNumber, hdigits]

/-! ### Columns -/

theorem length_margin (number : Nat) :
    (margin number).length = 6 + ((Decimal.digits number).length - 3) := by
  simp [margin, lineNumber, Decimal.digits]
  omega

theorem idxOf_caret (column : Nat) : (caret column).idxOf '^' = 6 + column := by
  simp [caret, List.idxOf_append]

/-- The two margins are of one width up to three digits. -/
theorem idxOf_caret_eq_iff :
    (caret front.length).idxOf '^' = (margin number ++ front).length ↔ number < 1000 := by
  have hdigits : (Decimal.digits number).length ≤ 3 ↔ number < 1000 :=
    Decimal.length_digits_le_iff (by decide)
  rw [idxOf_caret, List.length_append, length_margin, ← hdigits]
  omega

/-- A message about an offset is shown with the number and the text of the line that the offset lies
in. The caret below stands where the character at the offset does, or the end of the line, if and
only if the number of the line has at most three digits. -/
theorem caret_aligned_iff (hm : '\n' ∉ message.toList)
    (hb : IsBoundary source (min offset source.utf8ByteSize)) :
    (∃ number front back, Line source (min offset source.utf8ByteSize) number front back) ∧
    ∀ number front back, Line source (min offset source.utf8ByteSize) number front back →
      (render source (some offset) message).toList.splitOn '\n' =
          [("error: " ++ message).toList, margin number ++ (front ++ back), caret front.length] ∧
        ((caret front.length).idxOf '^' = (margin number ++ front).length ↔ number < 1000) := by
  refine ⟨exists_line hb, fun number front back h => ⟨?_, idxOf_caret_eq_iff⟩⟩
  rw [render_min, toList_render h]
  refine List.splitOn_intercalate '\n' ?_ (by simp)
  have hcaret : '\n' ∉ caret front.length := by simp [caret]
  simpa [hm, hcaret] using ⟨newline_notMem_margin number, by simpa using h.newline_notMem⟩

/-- A text below so many empty lines. -/
def below (n : Nat) (text : String) : String := String.ofList (List.replicate n '\n' ++ text.toList)

theorem byteSize_newlines (n : Nat) (cs : List Char) :
    byteSize (List.replicate n '\n' ++ cs) = n + byteSize cs := by
  induction n with
  | zero => simp
  | succ n ih =>
    rw [List.replicate_succ, List.cons_append, byteSize, ih, Nat.add_right_comm, Nat.add_comm]
    rfl

theorem utf8ByteSize_below (n : Nat) (text : String) :
    (below n text).utf8ByteSize = n + text.utf8ByteSize := by
  rw [← Text.byteSize_toList, below, String.toList_ofList, byteSize_newlines, Text.byteSize_toList]

theorem line_below (n : Nat) {text : String} (h : '\n' ∉ text.toList) :
    Line (below n text) (n + text.utf8ByteSize) (n + 1) text.toList [] := by
  have hline : Line (below n text) (byteSize (List.replicate n '\n' ++ text.toList))
      ((List.replicate n '\n').count '\n' + 1) text.toList [] :=
    .mk _ _ [] [] (by simp [below]) (fun c hc => List.eq_of_mem_replicate (List.mem_of_getLast? hc))
      h (by simp)
      (by simp)
  rwa [byteSize_newlines, Text.byteSize_toList, List.count_replicate_self] at hline

/-- A place behind a character of two bytes, and an offset past the end of a source of 1000 lines.
-/
theorem caret_aligned_below :
    '\n' ∉ "oops".toList ∧ IsBoundary "a\nñ := ]" (min 8 "a\nñ := ]".utf8ByteSize) ∧
    (render "a\nñ := ]" (some 8) "oops").toList.splitOn '\n' =
      ["error: oops".toList, "  2 | ñ := ]".toList, "           ^".toList] ∧
    "           ^".toList.idxOf '^' = "  2 | ñ := ".toList.length ∧
    IsBoundary (below 999 "ñx") (min 5000 (below 999 "ñx").utf8ByteSize) ∧
    (render (below 999 "ñx") (some 5000) "oops").toList.splitOn '\n' =
      ["error: oops".toList, "1000 | ñx".toList, "        ^".toList] ∧
    "        ^".toList.idxOf '^' ≠ "1000 | ñx".toList.length := by
  have hm : '\n' ∉ "oops".toList := by decide
  have hline : Line "a\nñ := ]" 8 2 "ñ := ".toList "]".toList :=
    .mk "a\n".toList "ñ := ".toList "]".toList [] rfl (by simp) (by decide) (by decide) (by simp)
  have hb : IsBoundary "a\nñ := ]" (min 8 "a\nñ := ]".utf8ByteSize) :=
    Text.isBoundary_byteSize (s := "a\nñ := ]") (show _ = "a\nñ := ".toList ++ "]".toList from rfl)
  have hend : min 5000 (below 999 "ñx").utf8ByteSize = 999 + "ñx".utf8ByteSize := by
    rw [utf8ByteSize_below]
    rfl
  have hline' : Line (below 999 "ñx")
      (min 5000 (below 999 "ñx").utf8ByteSize) 1000 "ñx".toList [] := by
    rw [hend]
    exact line_below 999 (by decide)
  have hb' : IsBoundary (below 999 "ñx") (min 5000 (below 999 "ñx").utf8ByteSize) := by
    rw [hend, ← utf8ByteSize_below, ← Text.byteSize_toList]
    exact Text.isBoundary_byteSize (List.append_nil _).symm
  obtain ⟨hlines, hcaret⟩ := (caret_aligned_iff hm hb).2 2 _ _ hline
  obtain ⟨hlines', hcaret'⟩ := (caret_aligned_iff hm hb').2 1000 _ _ hline'
  exact ⟨hm, hb, hlines, hcaret.2 (by decide), hb', hlines',
    fun h => absurd (hcaret'.1 h) (by decide)⟩

end YeetYoink.Diagnostic
