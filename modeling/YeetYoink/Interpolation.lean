import YeetYoink.EvalError
import YeetYoink.Scope
import YeetYoink.Text.CharClass
import YeetYoink.Value.Display

/-!
# Names in string literals

In a string literal `$name` stands for what the name shows, and `$$` for a dollar sign; a dollar
sign before anything else is one.
-/

namespace YeetYoink

namespace Interpolation

inductive Piece where
  | char (c : Char)
  | name (n : String)
  deriving DecidableEq, Repr

def pieces : List Char → List Piece
  | [] => []
  | '$' :: '$' :: cs => .char '$' :: pieces cs
  | '$' :: c :: cs =>
    if isNameStart c then
      .name (String.ofList (c :: cs.takeWhile isNameChar)) :: pieces (cs.dropWhile isNameChar)
    else .char '$' :: pieces (c :: cs)
  | c :: cs => .char c :: pieces cs
termination_by cs => cs.length
decreasing_by
  all_goals simp only [List.length_cons]
  all_goals first
    | omega
    | have := (List.dropWhile_suffix (l := cs) isNameChar).length_le
      omega

end Interpolation

namespace Store

/-- What a name means: the scopes first, then the builtin functions. -/
def resolve (s : Store) (scope : Ref .scope) (name : String) : Except EvalError Value :=
  match s.lookup? scope name with
  | some v => .ok v
  | none =>
    match Builtin.ofName? name with
    | some b => .ok (.builtin b)
    | none => .error (.unknownName name)

/-- The characters of the pieces, with names replaced by what they show. -/
def interpolatePieces (s : Store) (scope : Ref .scope) :
    List Interpolation.Piece → Except EvalError (List Char)
  | [] => .ok []
  | .char c :: ps => return c :: (← s.interpolatePieces scope ps)
  | .name n :: ps => do
    let v ← s.resolve scope n
    let cs ← s.interpolatePieces scope ps
    return (s.display v).toList ++ cs

def interpolate (s : Store) (scope : Ref .scope) (text : String) : Except EvalError String :=
  (s.interpolatePieces scope (Interpolation.pieces text.toList)).map String.ofList

end Store

end YeetYoink
