/-!
# Texts with holes

A template's text is kept with `%s` where a value goes and `%%` for a percent sign. `pieces` reads
it back; any other percent sign stands for itself.
-/

namespace YeetYoink.Template

/-- Where a value goes. -/
def hole : List Char := ['%', 's']

/-- Text that stands for itself. -/
def literal (cs : List Char) : List Char := cs.flatMap fun c => if c = '%' then ['%', '%'] else [c]

inductive Piece where
  | char (c : Char)
  | hole
  deriving DecidableEq, Repr

def pieces : List Char → List Piece
  | [] => []
  | '%' :: 's' :: cs => .hole :: pieces cs
  | '%' :: '%' :: cs => .char '%' :: pieces cs
  | c :: cs => .char c :: pieces cs

/-- Puts the values into the holes, in order. A hole without a value stays empty. -/
def fillPieces : List Piece → List String → List Char
  | [], _ => []
  | .char c :: ps, vs => c :: fillPieces ps vs
  | .hole :: ps, [] => fillPieces ps []
  | .hole :: ps, v :: vs => v.toList ++ fillPieces ps vs

def fill (text : String) (values : List String) : String :=
  String.ofList (fillPieces (pieces text.toList) values)

end YeetYoink.Template
