import YeetYoink.Text.Extending
import YeetYoink.Text.Hidden

/-!
# Quoted texts

How a text is shown where its ends must be seen: between double quotes, with every character that
would not show written as an escape.
-/

namespace YeetYoink.Text

/-- A character that shows as itself. -/
def isShown (c : Char) : Bool :=
  (' ' ≤ c && c ≤ '~') || !(CharClass.hidden.contains c || CharClass.extending.contains c)

/-- A character written by its code point in lower-case hexadecimal. -/
def codePoint (c : Char) : List Char :=
  ['\\', 'u', '\x7b'] ++ Nat.toDigits 16 c.toNat ++ ['\x7d']

def escape (c : Char) : List Char :=
  match c with
  | '\x00' => ['\\', '0']
  | '\t' => ['\\', 't']
  | '\n' => ['\\', 'n']
  | '\r' => ['\\', 'r']
  | '"' => ['\\', '"']
  | '\\' => ['\\', '\\']
  | c => if isShown c then [c] else codePoint c

def quoted (s : String) : String :=
  String.ofList ('"' :: s.toList.flatMap escape ++ ['"'])

end YeetYoink.Text
