import Mathlib.Data.String.Basic
import YeetYoink.Text.Digest

/-!
# Byte offsets in a text

A text that is split in front of a character has a valid offset there, and the slice between two
such offsets is what stands between them.
-/

namespace YeetYoink.Text

@[simp] theorem byteSize_nil : byteSize [] = 0 := rfl

@[simp] theorem byteSize_append (cs ds : List Char) :
    byteSize (cs ++ ds) = byteSize cs + byteSize ds := by
  induction cs with
  | nil => simp
  | cons c cs ih => simp only [List.cons_append, byteSize, ih, Nat.add_assoc]

theorem byteSize_eq_utf8Len (cs : List Char) : byteSize cs = String.utf8Len cs := by
  induction cs with
  | nil => rfl
  | cons c cs ih => rw [byteSize, String.utf8Len_cons, ih, Nat.add_comm]

theorem byteSize_toList (s : String) : byteSize s.toList = s.utf8ByteSize := by
  rw [byteSize_eq_utf8Len, String.utf8Len_toList]

theorem byteSize_pos {cs : List Char} (h : cs ≠ []) : 0 < byteSize cs := by
  cases cs with
  | nil => exact absurd rfl h
  | cons c cs =>
    have := c.utf8Size_pos
    simp only [byteSize]
    omega

/-- The offset lies between two characters of the text, or at one of its ends. -/
def IsBoundary (s : String) (offset : Nat) : Prop := (String.Pos.Raw.mk offset).IsValid s

/-- The text between two offsets. -/
def slice (s : String) (start stop : Nat) : String := String.Pos.Raw.extract s ⟨start⟩ ⟨stop⟩

variable {s : String} {before cs after : List Char}

theorem isBoundary_byteSize (h : s.toList = before ++ after) : IsBoundary s (byteSize before) := by
  have hs : s = String.ofList before ++ String.ofList after := by
    rw [← String.ofList_append, ← h, String.ofList_toList]
  refine String.Pos.Raw.isValid_iff_exists_append.2 ⟨_, _, hs, ?_⟩
  rw [String.Pos.Raw.ext_iff, String.byteIdx_rawEndPos, ← byteSize_toList, String.toList_ofList]

theorem IsBoundary.le {offset : Nat} (h : IsBoundary s offset) : offset ≤ s.utf8ByteSize :=
  h.le_utf8ByteSize

theorem IsBoundary.exists_append {offset : Nat} (h : IsBoundary s offset) :
    ∃ before after, s.toList = before ++ after ∧ byteSize before = offset := by
  obtain ⟨l, r, rfl, hl⟩ := String.Pos.Raw.isValid_iff_exists_append.1 h
  refine ⟨l.toList, r.toList, String.toList_append, ?_⟩
  rw [byteSize_toList]
  exact (congrArg String.Pos.Raw.byteIdx hl).symm

theorem slice_byteSize (h : s.toList = before ++ cs ++ after) :
    slice s (byteSize before) (byteSize before + byteSize cs) = String.ofList cs := by
  have hs : s = String.ofList (before ++ cs ++ after) := by rw [← h, String.ofList_toList]
  rw [hs, slice, byteSize_eq_utf8Len, byteSize_eq_utf8Len]
  exact String.extract_of_valid before cs after

end YeetYoink.Text
