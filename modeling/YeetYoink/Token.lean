import YeetYoink.Text.Quoted

/-!
# Tokens

A token is a kind and the span of bytes it was read from. Kinds with a payload carry the text they
stand for; symbols and keywords have one spelling each.
-/

namespace YeetYoink

/-- Operators and delimiters. -/
inductive Symbol where
  | assign | walrus | plusAssign | minusAssign | timesAssign | slashAssign | percentAssign
  | plus | minus | bang | times | slash | percent
  | equal | notEqual | greater | greaterEqual | less | lessEqual | shiftLeft
  | dot | dotDot | amp | ampAmp | pipe | pipePipe | atSign | atBackslash | backslash
  | comma | colon | semicolon | lparen | rparen | lbrace | rbrace | lbracket | rbracket
  | percentBrace
  deriving DecidableEq, Repr

namespace Symbol

def text : Symbol → String
  | assign => "="
  | walrus => ":="
  | plusAssign => "+="
  | minusAssign => "-="
  | timesAssign => "*="
  | slashAssign => "/="
  | percentAssign => "%="
  | plus => "+"
  | minus => "-"
  | bang => "!"
  | times => "*"
  | slash => "/"
  | percent => "%"
  | equal => "=="
  | notEqual => "!="
  | greater => ">"
  | greaterEqual => ">="
  | less => "<"
  | lessEqual => "<="
  | shiftLeft => "<<"
  | dot => "."
  | dotDot => ".."
  | amp => "&"
  | ampAmp => "&&"
  | pipe => "|"
  | pipePipe => "||"
  | atSign => "@"
  | atBackslash => "@\\"
  | backslash => "\\"
  | comma => ","
  | colon => ":"
  | semicolon => ";"
  | lparen => "("
  | rparen => ")"
  | lbrace => "\x7b"
  | rbrace => "\x7d"
  | lbracket => "["
  | rbracket => "]"
  | percentBrace => "%\x7b"

/-- The name a token listing shows. -/
def name : Symbol → String
  | assign => "Assign"
  | walrus => "Walrus"
  | plusAssign => "PlusAssign"
  | minusAssign => "MinusAssign"
  | timesAssign => "AsteriskAssign"
  | slashAssign => "SlashAssign"
  | percentAssign => "PercentAssign"
  | plus => "Plus"
  | minus => "Minus"
  | bang => "Bang"
  | times => "Asterisk"
  | slash => "Slash"
  | percent => "Percent"
  | equal => "Equal"
  | notEqual => "NotEqual"
  | greater => "GreaterThan"
  | greaterEqual => "GreaterEqual"
  | less => "LessThan"
  | lessEqual => "LessEqual"
  | shiftLeft => "ShiftLeft"
  | dot => "Dot"
  | dotDot => "Range"
  | amp => "Ampersand"
  | ampAmp => "And"
  | pipe => "Pipe"
  | pipePipe => "Or"
  | atSign => "At"
  | atBackslash => "MacroIntro"
  | backslash => "Backslash"
  | comma => "Comma"
  | colon => "Colon"
  | semicolon => "SemiColon"
  | lparen => "LParen"
  | rparen => "RParen"
  | lbrace => "LBrace"
  | rbrace => "RBrace"
  | lbracket => "LBracket"
  | rbracket => "RBracket"
  | percentBrace => "Hashmap"

/-- Every symbol, those of two characters first: the first that a text starts with is the longest.
-/
def all : List Symbol := [
  walrus, plusAssign, minusAssign, timesAssign, slashAssign, percentAssign, equal, notEqual,
  greaterEqual, lessEqual, shiftLeft, dotDot, ampAmp, pipePipe, atBackslash, percentBrace,
  assign, plus, minus, bang, times, slash, percent, greater, less, dot, amp, pipe, atSign,
  backslash, comma, colon, semicolon, lparen, rparen, lbrace, rbrace, lbracket, rbracket]

end Symbol

inductive Keyword where
  | yif | yels | yeet | yoyo | yall | yolo | true | false | null
  deriving DecidableEq, Repr

namespace Keyword

def text : Keyword → String
  | yif => "yif"
  | yels => "yels"
  | yeet => "yeet"
  | yoyo => "yoyo"
  | yall => "yall"
  | yolo => "yolo"
  | true => "true"
  | false => "false"
  | null => "null"

/-- The name a token listing shows. -/
def name : Keyword → String
  | yif => "Yif"
  | yels => "Yels"
  | yeet => "Yeet"
  | yoyo => "Yoyo"
  | yall => "Yall"
  | yolo => "Yolo"
  | true => "True"
  | false => "False"
  | null => "Null"

def all : List Keyword := [yif, yels, yeet, yoyo, yall, yolo, true, false, null]

def ofText? (s : String) : Option Keyword := all.find? (·.text = s)

end Keyword

inductive Token.Kind where
  /-- Text that is no token, with the reason. -/
  | illegal (message : String)
  | ident (name : String)
  | int (digits : String)
  | float (digits : String)
  | string (text : String)
  /-- A template without holes. -/
  | template (text : String)
  /-- The text of a template before its first hole. -/
  | templateHead (text : String)
  /-- The text between two holes. -/
  | templateMiddle (text : String)
  /-- The text after the last hole. -/
  | templateTail (text : String)
  | symbol (s : Symbol)
  | keyword (k : Keyword)
  | eof
  deriving DecidableEq, Repr

structure Token where
  kind : Token.Kind
  start : Nat
  stop : Nat
  deriving DecidableEq, Repr

namespace Token.Kind

/-- The payload, or the one spelling. -/
def literal : Kind → String
  | illegal s | ident s | int s | float s | string s
  | template s | templateHead s | templateMiddle s | templateTail s => s
  | symbol s => s.text
  | keyword k => k.text
  | eof => ""

/-- How messages speak of a token. -/
def describe : Kind → String
  | illegal message => "illegal token (" ++ message ++ ")"
  | ident name => "identifier '" ++ name ++ "'"
  | int digits | float digits => "number '" ++ digits ++ "'"
  | string _ => "string"
  | template _ | templateHead _ => "template string"
  | templateMiddle _ | templateTail _ => "end of template interpolation"
  | symbol s => "'" ++ s.text ++ "'"
  | keyword k => "'" ++ k.text ++ "'"
  | eof => "end of input"

/-- The name a token listing shows. -/
def name : Kind → String
  | illegal _ => "Illegal"
  | ident _ => "Ident"
  | int _ => "Int"
  | float _ => "Float"
  | string _ => "String"
  | template _ => "TemplateString"
  | templateHead _ => "TemplateHead"
  | templateMiddle _ => "TemplateMiddle"
  | templateTail _ => "TemplateTail"
  | symbol s => s.name
  | keyword k => k.name
  | eof => "Eof"

/-- The name, with the payload quoted where there is one. -/
def listing : Kind → String
  | k@(illegal s) | k@(ident s) | k@(int s) | k@(float s) | k@(string s)
  | k@(template s) | k@(templateHead s) | k@(templateMiddle s) | k@(templateTail s) =>
    k.name ++ "(" ++ Text.quoted s ++ ")"
  | k => k.name

end Token.Kind

/-- The line a token listing shows for a token. -/
def Token.listing (t : Token) : String :=
  "Token \x7b kind: " ++ t.kind.listing ++ ", start: " ++ Nat.repr t.start ++ ", end: "
    ++ Nat.repr t.stop ++ " \x7d"

end YeetYoink
