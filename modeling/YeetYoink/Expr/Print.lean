import YeetYoink.Decimal.Number
import YeetYoink.Expr
import YeetYoink.Template

/-!
# Expressions as text

Every operation is put in parentheses, so the text reads back the same whatever surrounds it.
-/

namespace YeetYoink

namespace Expr

/-- A character of a string literal. -/
def stringChar : Char → List Char
  | '"' => ['\\', '"']
  | '\\' => ['\\', '\\']
  | '\n' => ['\\', 'n']
  | '\t' => ['\\', 't']
  | '\r' => ['\\', 'r']
  | c => [c]

def stringLiteral (s : String) : String :=
  String.ofList ('"' :: s.toList.flatMap stringChar ++ ['"'])

/-- A character of a template's text: a brace is doubled. -/
def templateChar : Char → List Char
  | '\x7b' => ['\x7b', '\x7b']
  | '\x7d' => ['\x7d', '\x7d']
  | c => [c]

/-- The pieces of a template with the values between braces. -/
def templatePieces : List Template.Piece → List String → List Char
  | [], _ => []
  | .char c :: ps, vs => templateChar c ++ templatePieces ps vs
  | .hole :: ps, [] => '\x7b' :: "null".toList ++ '\x7d' :: templatePieces ps []
  | .hole :: ps, v :: vs => '\x7b' :: v.toList ++ '\x7d' :: templatePieces ps vs

def templateLiteral (text : String) (values : List String) : String :=
  String.ofList ('\x60' :: templatePieces (Template.pieces text.toList) values ++ ['\x60'])

def commas (items : List String) : String := String.intercalate ", " items

def blockText : List String → String
  | [] => "\x7b \x7d"
  | items => "\x7b " ++ String.intercalate "; " items ++ " \x7d"

def paramsText : List String → String
  | [] => " "
  | params => commas params ++ " "

mutual

def print : Expr → String
  | .ident name => name
  | .int n => Decimal.ofInt64 n
  | .num x => Decimal.ofFloat x
  | .bool b => if b then "true" else "false"
  | .null => "null"
  | .str text => stringLiteral text
  | .template text values => templateLiteral text (printAll values)
  | .array items => "[" ++ commas (printAll items) ++ "]"
  | .dict pairs => "%\x7b" ++ commas (printPairs pairs) ++ "\x7d"
  | .range first last => "(" ++ first.print ++ ".." ++ last.print ++ ")"
  | .unary op operand => "(" ++ op.text ++ operand.print ++ ")"
  | .binary op left right => "(" ++ left.print ++ " " ++ op.text ++ " " ++ right.print ++ ")"
  | .and left right => "(" ++ left.print ++ " && " ++ right.print ++ ")"
  | .or left right => "(" ++ left.print ++ " || " ++ right.print ++ ")"
  | .index container key => "(" ++ container.print ++ "[" ++ key.print ++ "])"
  | .call callee args => callee.print ++ "(" ++ commas (printAll args) ++ ")"
  | .assign kind target value =>
    "(" ++ target.print ++ " " ++ kind.text ++ " " ++ value.print ++ ")"
  | .block body => blockText (printAll body)
  | .yif condition body otherwise =>
    "yif " ++ condition.print ++ " " ++ blockText (printAll body) ++ match otherwise with
      | none => ""
      | some body => " yels " ++ blockText (printAll body)
  | .yoyo condition body => "yoyo " ++ condition.print ++ " " ++ blockText (printAll body)
  | .yall key source body =>
    "yall " ++ key ++ ": " ++ source.print ++ " " ++ blockText (printAll body)
  | .yeet value => "(yeet " ++ value.print ++ ")"
  | .yolo body => "yolo " ++ blockText (printAll body)
  | .lambda params body => "\\" ++ paramsText params ++ blockText (printAll body)
  | .macroLit params body => "@\\" ++ paramsText params ++ blockText (printAll body)
  | .bad token => "<bad " ++ token.kind.describe ++ ">"

def printAll : List Expr → List String
  | [] => []
  | x :: xs => x.print :: printAll xs

def printPairs : List (Expr × Expr) → List String
  | [] => []
  | (k, v) :: ps => (k.print ++ ": " ++ v.print) :: printPairs ps

end

end Expr

/-- One line for each expression. -/
def Program.print (p : Program) : String :=
  String.join (p.map fun x => x.print ++ ";\n")

end YeetYoink
