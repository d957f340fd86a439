/-!
# Classes of characters

A class is a list of closed ranges of code points. `blank` is the White_Space property, by which
sources are cut into tokens and texts are trimmed.
-/

namespace YeetYoink

structure CharClass where
  ranges : List (Nat × Nat)

namespace CharClass

def contains (k : CharClass) (c : Char) : Bool :=
  k.ranges.any fun (lo, hi) => lo ≤ c.toNat && c.toNat ≤ hi

/-- The characters with the White_Space property. -/
def blank : CharClass where
  ranges := [
    (0x9, 0xd), (0x20, 0x20), (0x85, 0x85), (0xa0, 0xa0), (0x1680, 0x1680), (0x2000, 0x200a),
    (0x2028, 0x2029), (0x202f, 0x202f), (0x205f, 0x205f), (0x3000, 0x3000)]

end CharClass

def isBlank (c : Char) : Bool := CharClass.blank.contains c

/-- The text without the blanks at its two ends. -/
def trimBlank (cs : List Char) : List Char :=
  ((cs.dropWhile isBlank).reverse.dropWhile isBlank).reverse

def isDigit (c : Char) : Bool := '0' ≤ c && c ≤ '9'

/-- The characters a name starts with: the ASCII letters and the underscore. -/
def isNameStart (c : Char) : Bool :=
  ('a' ≤ c && c ≤ 'z') || ('A' ≤ c && c ≤ 'Z') || c = '_'

def isNameChar (c : Char) : Bool := isNameStart c || isDigit c

end YeetYoink
