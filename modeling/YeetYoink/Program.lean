import YeetYoink.Diagnostic
import YeetYoink.Expr.Parse
import YeetYoink.Token.Lexer

/-!
# Reading a program

A program is read statement by statement. A statement that cannot be read becomes one bad node, and
reading goes on after the next semicolon or at the next token that only starts a statement. Until a
statement is read again, further errors are not told.
-/

namespace YeetYoink.Program

/-- A token at which reading starts again after an error. -/
def startsStatement : Token.Kind → Bool
  | .keyword .yeet | .keyword .yif | .keyword .yall | .keyword .yoyo | .keyword .yolo
  | .symbol .backslash | .symbol .atBackslash => true
  | _ => false

/-- The tokens from which reading goes on after an error. -/
def recover : List Token → List Token
  | [] => []
  | t :: ts =>
    if t.kind = .symbol .semicolon then ts
    else if startsStatement t.kind then t :: ts
    else recover ts

/-- A program and what could not be read of it. -/
structure Reading where
  program : Program
  errors : List ParseError

/-- Reads statements up to the end. While `recovering`, errors are not told. The number bounds the
statements; one for every token and one more is enough. -/
def statements : Nat → (recovering : Bool) → List Token → Reading
  | 0, _, _ => ⟨[], []⟩
  | n + 1, recovering, ts =>
    match ts.dropWhile (·.kind = .symbol .semicolon) with
    | [] => ⟨[], []⟩
    | t :: ts =>
      match Parser.expression (ts.length + 2) .lowest (t :: ts) with
      | .ok x rest =>
        let r := statements n false rest
        ⟨x :: r.program, r.errors⟩
      | .error (.failed e) rest =>
        let r := statements n true (recover rest)
        ⟨.bad t :: r.program, if recovering then r.errors else e :: r.errors⟩
      | .error .exhausted _ => ⟨[.bad t], []⟩

/-- Reads the whole source, bad statements included. -/
def read (source : String) : Reading :=
  let ts := Token.lex source
  statements (ts.length + 1) false ts

/-- The program of a source that has no errors. -/
def parse (source : String) : Except (List ParseError) Program :=
  let r := read source
  if r.errors.isEmpty then .ok r.program else .error r.errors

end YeetYoink.Program

namespace YeetYoink.ParseError

/-- The error as shown to whoever wrote the source. -/
def render (source : String) (e : ParseError) : String :=
  Diagnostic.render source (some (e.offset (Text.byteSize source.toList))) e.message

end YeetYoink.ParseError
