import YeetYoink.ParseError

/-!
# Reading from a list of tokens

A parser takes tokens from the front of the list and gives a value or a failure; either way the
tokens it did not take are left. Loops count down a number that callers choose above the number of
tokens left; running out of it is a stop of its own, not a parse error.
-/

namespace YeetYoink

inductive Parser.Stop where
  | failed (e : ParseError)
  /-- The bound on nesting or repetition was too low. -/
  | exhausted

abbrev Parser := EStateM Parser.Stop (List Token)

namespace Parser

variable {α : Type}

def fail (e : ParseError) : Parser α := throw (.failed e)

def exhausted : Parser α := throw .exhausted

/-- The next token, left in place. -/
def peek? : Parser (Option Token) := do return (← get).head?

/-- Takes the next token, if there is one. -/
def next? : Parser (Option Token) := do
  let ts ← get
  set ts.tail
  return ts.head?

/-- Fails at a token, or at the end. -/
def unexpected (e : Expected) : Option Token → Parser α
  | some t => fail (.unexpected e t)
  | none => fail (.prematureEnd e)

def nextIs (k : Token.Kind) : Parser Bool := do
  return (← peek?).any (·.kind = k)

/-- Takes the next token if it is of this kind, and tells whether it was. -/
def accept (k : Token.Kind) : Parser Bool := do
  if ← nextIs k then
    let _ ← next?
    return true
  else return false

def expect (k : Token.Kind) : Parser Unit := do
  let t ← next?
  if t.any (·.kind = k) then return ()
  else unexpected (.token k) t

def ident : Parser String := do
  match ← next? with
  | some ⟨.ident name, _, _⟩ => return name
  | t => unexpected .identifier t

def skipSemicolons : Parser Unit := modify (·.dropWhile (·.kind = .symbol .semicolon))

/-- Elements with commas between them, up to the closing symbol, which is taken too. A comma may
follow the last element. -/
def sequence (element : Parser α) (close : Symbol) : Nat → Parser (List α)
  | 0 => exhausted
  | n + 1 => do
    match ← peek? with
    | none => unexpected (.token (.symbol close)) none
    | some t =>
      if t.kind = .symbol close then
        let _ ← next?
        return []
      else
        let x ← element
        let t ← next?
        if t.any (·.kind = .symbol .comma) then
          let xs ← sequence element close n
          return x :: xs
        else if t.any (·.kind = .symbol close) then return [x]
        else unexpected (.token (.symbol .comma)) t

/-- The expressions of a block and its closing brace, after the opening one. -/
def block (expression : Parser α) : Nat → Parser (List α)
  | 0 => exhausted
  | n + 1 => do
    skipSemicolons
    match ← peek? with
    | none => unexpected (.token (.symbol .rbrace)) none
    | some t =>
      if t.kind = .symbol .rbrace then
        let _ ← next?
        return []
      else
        let x ← expression
        let xs ← block expression n
        return x :: xs

def bracedBlock (expression : Parser α) (n : Nat) : Parser (List α) := do
  expect (.symbol .lbrace)
  block expression n

/-- Names up to the closing symbol, which is left. Commas may stand between them. -/
def names (close : Symbol) : Nat → (first : Bool) → Parser (List String)
  | 0, _ => exhausted
  | n + 1, first => do
    if ← nextIs (.symbol close) then return []
    else if ← (pure !first <&&> nextIs (.symbol .comma)) then
      let _ ← next?
      names close n first
    else
      let x ← ident
      let xs ← names close n false
      return x :: xs

end Parser

end YeetYoink
