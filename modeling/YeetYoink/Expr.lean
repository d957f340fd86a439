import YeetYoink.Token

/-!
# Expressions

The syntax of the language. Everything is an expression; a block is a sequence of them, and so is a
program.
-/

namespace YeetYoink

inductive UnaryOp where
  | minus | bang
  deriving DecidableEq, Repr

inductive BinaryOp where
  | plus | minus | times | divide | modulo
  | less | lessEqual | greater | greaterEqual | equal | notEqual | push
  deriving DecidableEq, Repr

/-- `declare` binds a name in the current scope, `update` changes what is there. -/
inductive AssignKind where
  | declare | update
  deriving DecidableEq, Repr

inductive Expr where
  | ident (name : String)
  | int (n : Int64)
  | num (x : Float)
  | bool (b : Bool)
  | null
  | str (text : String)
  /-- A text with holes (`Template`) and the values for the holes. -/
  | template (text : String) (values : List Expr)
  | array (items : List Expr)
  | dict (pairs : List (Expr × Expr))
  | range (first last : Expr)
  | unary (op : UnaryOp) (operand : Expr)
  | binary (op : BinaryOp) (left right : Expr)
  | and (left right : Expr)
  | or (left right : Expr)
  | index (container key : Expr)
  | call (callee : Expr) (args : List Expr)
  | assign (kind : AssignKind) (target value : Expr)
  | block (body : List Expr)
  | yif (condition : Expr) (body : List Expr) (otherwise : Option (List Expr))
  | yoyo (condition : Expr) (body : List Expr)
  | yall (key : String) (source : Expr) (body : List Expr)
  | yeet (value : Expr)
  | yolo (body : List Expr)
  | lambda (params : List String) (body : List Expr)
  | macroLit (params : List String) (body : List Expr)
  /-- What stands for a statement that could not be read; the token it started with. -/
  | bad (token : Token)

instance : Inhabited Expr := ⟨.null⟩

abbrev Block := List Expr

abbrev Program := List Expr

def UnaryOp.text : UnaryOp → String
  | minus => "-"
  | bang => "!"

def BinaryOp.text : BinaryOp → String
  | plus => "+"
  | minus => "-"
  | times => "*"
  | divide => "/"
  | modulo => "%"
  | less => "<"
  | lessEqual => "<="
  | greater => ">"
  | greaterEqual => ">="
  | equal => "=="
  | notEqual => "!="
  | push => "<<"

def AssignKind.text : AssignKind → String
  | declare => ":="
  | update => "="

end YeetYoink
