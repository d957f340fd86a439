import YeetYoink.Text.Digest

/-!
# Messages that point into a source

A message is shown with the line it is about and a caret under the place. An offset past the end
means the end; an offset inside a character, or none, shows the message alone.
-/

namespace YeetYoink.Diagnostic

open Text (byteSize)

/-- Splits a text at a byte offset; `none` inside a character. -/
def splitAtByte : Nat → List Char → Option (List Char × List Char)
  | 0, cs => some ([], cs)
  | _ + 1, [] => some ([], [])
  | n + 1, c :: cs =>
    if c.utf8Size ≤ n + 1 then
      (splitAtByte (n + 1 - c.utf8Size) cs).map fun (before, after) => (c :: before, after)
    else none

/-- The part of a text after its last line break. -/
def lastLine (cs : List Char) : List Char := (cs.reverse.takeWhile (· ≠ '\n')).reverse

/-- The number of a line, at least three characters wide. -/
def lineNumber (n : Nat) : List Char :=
  let ds := Nat.toDigits 10 n
  List.replicate (3 - ds.length) ' ' ++ ds

def headline (message : String) : String := "error: " ++ message

def render (source : String) (offset : Option Nat) (message : String) : String :=
  match offset.bind (splitAtByte · source.toList) with
  | none => headline message
  | some (before, after) =>
    let start := lastLine before
    let line := start ++ after.takeWhile (· ≠ '\n')
    headline message ++ "\n"
      ++ String.ofList (lineNumber (before.count '\n' + 1)) ++ " | " ++ String.ofList line ++ "\n"
      ++ "      " ++ String.ofList (List.replicate start.length ' ') ++ "^"

end YeetYoink.Diagnostic
