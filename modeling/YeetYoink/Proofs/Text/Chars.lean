import YeetYoink.Text.CharClass

/-!
# Character classes by code point

The classes that tokens are made of, as ranges of code points, and what follows about which of them
exclude one another.
-/

namespace YeetYoink

theorem isDigit_iff {c : Char} : isDigit c = true ↔ 48 ≤ c.toNat ∧ c.toNat ≤ 57 := by
  simp [isDigit, Char.le_def, UInt32.le_iff_toNat_le]

theorem isNameStart_iff {c : Char} : isNameStart c = true ↔
    (97 ≤ c.toNat ∧ c.toNat ≤ 122) ∨ (65 ≤ c.toNat ∧ c.toNat ≤ 90) ∨ c.toNat = 95 := by
  have : c = '_' ↔ c.toNat = 95 := by rw [← Char.toNat_inj]; rfl
  simp [isNameStart, Char.le_def, UInt32.le_iff_toNat_le, or_assoc, this]

/-- Of the ASCII characters only control characters and the space are blank. -/
theorem isBlank_eq_false {c : Char} (h : 33 ≤ c.toNat) (h' : c.toNat ≤ 127) :
    isBlank c = false := by
  simp [isBlank, CharClass.contains, CharClass.blank]
  omega

theorem isBlank_of_isNameChar {c : Char} (h : isNameChar c = true) : isBlank c = false := by
  rw [isNameChar, Bool.or_eq_true, isNameStart_iff, isDigit_iff] at h
  exact isBlank_eq_false (by omega) (by omega)

theorem isBlank_of_isDigit {c : Char} (h : isDigit c = true) : isBlank c = false :=
  isBlank_of_isNameChar (by rw [isNameChar, h, Bool.or_true])

theorem isNameChar_of_isBlank {c : Char} (h : isBlank c = true) : isNameChar c = false := by
  rw [Bool.eq_false_iff]
  exact fun hn => absurd (isBlank_of_isNameChar hn) (by simp [h])

theorem isDigit_of_isBlank {c : Char} (h : isBlank c = true) : isDigit c = false := by
  rw [Bool.eq_false_iff]
  exact fun hd => absurd (isBlank_of_isDigit hd) (by simp [h])

theorem ne_of_isBlank {c b : Char} (hc : isBlank c = false) (hb : isBlank b = true) : c ≠ b := by
  rintro rfl
  exact absurd hb (by simp [hc])

theorem isNameStart_not_digit {c : Char} (h : isNameStart c = true) : isDigit c = false := by
  rw [Bool.eq_false_iff]
  intro hd
  rw [isNameStart_iff] at h
  rw [isDigit_iff] at hd
  omega

theorem isDigit_not_nameStart {c : Char} (h : isDigit c = true) : isNameStart c = false := by
  rw [Bool.eq_false_iff]
  intro hs
  rw [isNameStart_not_digit hs] at h
  cases h

theorem isNameChar_of_nameStart {c : Char} (h : isNameStart c = true) : isNameChar c = true := by
  rw [isNameChar, h, Bool.true_or]

/-- A class of characters stops at the first character outside of it. -/
theorem takeWhile_stop {p : Char → Bool} {cs rest : List Char} (h : ∀ c ∈ cs, p c = true)
    (hr : ∀ c ∈ rest.head?, p c = false) :
    (cs ++ rest).takeWhile p = cs ∧ (cs ++ rest).dropWhile p = rest := by
  induction cs with
  | nil =>
    cases rest with
    | nil => simp
    | cons c rest => simp [hr c rfl]
  | cons c cs ih =>
    have := ih fun x hx => h x (List.mem_cons_of_mem _ hx)
    simp [h c (List.mem_cons_self ..), this]

theorem takeWhile_append_stop {p : Char → Bool} {c : Char} (h : p c = false) (cs rest : List Char) :
    (cs ++ c :: rest).takeWhile p = cs.takeWhile p := by
  induction cs with
  | nil => simp [h]
  | cons d cs ih => simp only [List.cons_append, List.takeWhile_cons, ih]

theorem dropWhile_append_stop {p : Char → Bool} {c : Char} (h : p c = false) (cs rest : List Char) :
    (cs ++ c :: rest).dropWhile p = cs.dropWhile p ++ c :: rest := by
  induction cs with
  | nil => simp [h]
  | cons d cs ih =>
    simp only [List.cons_append, List.dropWhile_cons, ih]
    split <;> rfl

/-- A word without a character does not reach beyond that character. -/
theorem isPrefixOf_append_stop {c : Char} {cs : List Char} (h : c ∉ cs) (ds rest : List Char) :
    cs.isPrefixOf (ds ++ c :: rest) = cs.isPrefixOf ds := by
  induction cs generalizing ds with
  | nil => simp
  | cons a cs ih =>
    rw [List.mem_cons, not_or] at h
    cases ds with
    | nil => simp [List.isPrefixOf, Ne.symm h.1]
    | cons d ds => simp only [List.cons_append, List.isPrefixOf, ih h.2]

end YeetYoink
