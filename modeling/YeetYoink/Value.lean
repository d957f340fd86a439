import YeetYoink.Expr

/-!
# Values

Texts, arrays and dictionaries can change and be shared, so a value holds a reference to them;
scopes are shared by the functions made in them. Every other value is what it shows.
-/

namespace YeetYoink

/-- What a reference leads to. -/
inductive Pool where
  | text | array | dict | scope
  deriving DecidableEq, Repr

structure Ref (p : Pool) where
  index : Nat
  deriving DecidableEq, Repr

/-- A function or macro: parameters, body, and the scope it was made in. Two are the same only if
they come from the same act of making a body, which `identity` tells. -/
structure Closure where
  params : List String
  body : Block
  scope : Ref .scope
  identity : Nat

/-- The functions that every program can name. -/
inductive Builtin where
  | len | last | rest | push | yoink | swap | yell | yelp | yap | yassert | yarn | chr | int | float
  deriving DecidableEq, Repr

inductive Value where
  | int (n : Int64)
  | num (x : Float)
  | bool (b : Bool)
  | null
  | text (r : Ref .text)
  | array (r : Ref .array)
  | dict (r : Ref .dict)
  | range (first last : Int64)
  | function (f : Closure)
  | macroFn (f : Closure)
  | builtin (b : Builtin)
  | quote (node : Expr)

instance : Inhabited Value := ⟨.null⟩

inductive Kind where
  | int | num | bool | text | null | array | dict | range | function | macroFn | builtin | quote
  deriving DecidableEq, Repr

/-- How messages speak of a kind. -/
def Kind.name : Kind → String
  | int => "INTEGER"
  | num => "NUMBER"
  | bool => "BOOLEAN"
  | text => "STRING"
  | null => "NULL"
  | array => "ARRAY"
  | dict => "HASHMAP"
  | range => "RANGE"
  | function => "FUNCTION"
  | macroFn => "MACRO"
  | builtin => "BUILTIN"
  | quote => "QUOTE"

def Value.kind : Value → Kind
  | int _ => .int
  | num _ => .num
  | bool _ => .bool
  | text _ => .text
  | null => .null
  | array _ => .array
  | dict _ => .dict
  | range _ _ => .range
  | function _ => .function
  | macroFn _ => .macroFn
  | builtin _ => .builtin
  | quote _ => .quote

namespace Builtin

def name : Builtin → String
  | len => "len"
  | last => "last"
  | rest => "rest"
  | push => "push"
  | yoink => "yoink"
  | swap => "swap"
  | yell => "yell"
  | yelp => "yelp"
  | yap => "yap"
  | yassert => "yassert"
  | yarn => "yarn"
  | chr => "chr"
  | int => "int"
  | float => "float"

def all : List Builtin :=
  [len, last, rest, push, yoink, swap, yell, yelp, yap, yassert, yarn, chr, int, float]

def ofName? (s : String) : Option Builtin := all.find? (·.name = s)

end Builtin

end YeetYoink
