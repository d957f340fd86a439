import YeetYoink.Template

/-!
# Template texts as segments

A template's text is a head and, after each hole, a tail. `encode` writes segments with the holes
between them, and `segments` finds them again in the pieces of any text (`segments_encode`): a
percent sign in a segment is doubled, so no segment holds a hole.
-/

namespace YeetYoink.Template

/-- The text before the first hole, and the texts after each hole. -/
def segments : List Piece → List Char × List (List Char)
  | [] => ([], [])
  | .char c :: ps => (c :: (segments ps).1, (segments ps).2)
  | .hole :: ps => ([], (segments ps).1 :: (segments ps).2)

/-- Segments with a hole before each tail. -/
def encode (head : List Char) (tails : List (List Char)) : List Char :=
  literal head ++ tails.flatMap fun t => hole ++ literal t

theorem literal_cons (c : Char) (cs : List Char) :
    literal (c :: cs) = (if c = '%' then ['%', '%'] else [c]) ++ literal cs := rfl

theorem pieces_cons {c : Char} (h : c ≠ '%') (cs : List Char) :
    pieces (c :: cs) = .char c :: pieces cs := by
  rw [pieces]
  · rintro _ rfl; exact absurd rfl h
  · rintro _ rfl; exact absurd rfl h

theorem pieces_literal_append (cs rest : List Char) :
    pieces (literal cs ++ rest) = cs.map .char ++ pieces rest := by
  induction cs with
  | nil => rfl
  | cons c cs ih =>
    rw [literal_cons]
    by_cases h : c = '%'
    · subst h
      simpa [pieces] using ih
    · simpa [h, pieces_cons h] using ih

theorem pieces_hole_append (cs : List Char) : pieces (hole ++ cs) = .hole :: pieces cs := by
  simp [hole, pieces]

theorem segments_append (cs : List Char) (ps : List Piece) :
    segments (cs.map .char ++ ps) = (cs ++ (segments ps).1, (segments ps).2) := by
  induction cs with
  | nil => rfl
  | cons c cs ih => simp [segments, ih]

theorem segments_tails (tails : List (List Char)) :
    segments (pieces (tails.flatMap fun t => hole ++ literal t)) = ([], tails) := by
  induction tails with
  | nil => rfl
  | cons t tails ih =>
    rw [List.flatMap_cons, List.append_assoc, pieces_hole_append, segments, pieces_literal_append,
      segments_append, ih, List.append_nil]

theorem segments_encode (head : List Char) (tails : List (List Char)) :
    segments (pieces (encode head tails)) = (head, tails) := by
  rw [encode, pieces_literal_append, segments_append, segments_tails, List.append_nil]

end YeetYoink.Template
