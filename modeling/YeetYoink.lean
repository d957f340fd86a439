import YeetYoink.Builtin
import YeetYoink.CommandLine
import YeetYoink.Decimal.Binary
import YeetYoink.Decimal.Integer
import YeetYoink.Decimal.Nearest
import YeetYoink.Decimal.Number
import YeetYoink.Decimal.Ratio
import YeetYoink.Decimal.Shortest
import YeetYoink.Diagnostic
import YeetYoink.Dict
import YeetYoink.Element
import YeetYoink.Eval
import YeetYoink.EvalError
import YeetYoink.Evaluate
import YeetYoink.Expansion
import YeetYoink.Expr
import YeetYoink.Expr.Level
import YeetYoink.Expr.Parse
import YeetYoink.Expr.Parser
import YeetYoink.Expr.Print
import YeetYoink.Expr.Same
import YeetYoink.Expr.Transform
import YeetYoink.Interpolation
import YeetYoink.Main
import YeetYoink.Operator
import YeetYoink.ParseError
import YeetYoink.Program
import YeetYoink.Scope
import YeetYoink.Session
import YeetYoink.Store
import YeetYoink.Template
import YeetYoink.Text.CharClass
import YeetYoink.Text.Digest
import YeetYoink.Text.Extending
import YeetYoink.Text.Hidden
import YeetYoink.Text.Quoted
import YeetYoink.Text.Upper
import YeetYoink.Token
import YeetYoink.Token.Lexer
import YeetYoink.Value
import YeetYoink.Value.Display
import YeetYoink.Value.Equality
import YeetYoink.Value.Literal
import YeetYoink.Yolo.Combine
import YeetYoink.Yolo.Negate
import YeetYoink.Yolo.Noun
import YeetYoink.Proofs.Expr.Nodes
import YeetYoink.Proofs.Text.Chars
import YeetYoink.Proofs.Token.Kinds
import YeetYoink.Proofs.Template.Segments
import YeetYoink.Proofs.Expr.Spelling
import YeetYoink.Proofs.Decimal.RoundTrip
import YeetYoink.Proofs.Expr.Lexing
import YeetYoink.Proofs.Parser.Yields
import YeetYoink.Proofs.Expr.Parsing
import YeetYoink.Proofs.Program.Reparse
import YeetYoink.Proofs.Expr.Written
import YeetYoink.Proofs.Parser.Meets
import YeetYoink.Proofs.Parser.Grammar
import YeetYoink.Proofs.Decimal.Bits
import YeetYoink.Proofs.Decimal.Nearest
import YeetYoink.Proofs.Decimal.Digits
import YeetYoink.Proofs.Decimal.Shortest
import YeetYoink.Proofs.Token.Valid
import YeetYoink.Proofs.Expr.Readable
import YeetYoink.Proofs.Program.Reading
import YeetYoink.Proofs.Expr.Settled
import YeetYoink.Proofs.Expr.Letters
import YeetYoink.Proofs.Expr.Loops
import YeetYoink.Proofs.Program.RoundTrip
import YeetYoink.Proofs.Eval.Discipline
import YeetYoink.Proofs.Eval.Changes
import YeetYoink.Proofs.Eval.Elements
import YeetYoink.Proofs.Eval.Operators
import YeetYoink.Proofs.Eval.Nodes
import YeetYoink.Proofs.Eval.Watched
import YeetYoink.Proofs.Eval.Programs
import YeetYoink.Proofs.Store.Updates
import YeetYoink.Proofs.Store.Frame
import YeetYoink.Proofs.Eval.Framed
import YeetYoink.Proofs.Eval.Lawful
import YeetYoink.Proofs.Yolo.Conservative
import YeetYoink.Proofs.Yolo.Lexical
import YeetYoink.Proofs.Session.Runs
import YeetYoink.Proofs.Session.Lawful
import YeetYoink.Proofs.Dict.Cautious
import YeetYoink.Proofs.Token.Holes
import YeetYoink.Proofs.Expr.Balanced
import YeetYoink.Proofs.Parser.Extends
import YeetYoink.Proofs.Program.Pieces
import YeetYoink.Proofs.Session.Pieces
import YeetYoink.Proofs.Text.Bytes
import YeetYoink.Proofs.Token.Spans
import YeetYoink.Proofs.Token.Nesting
import YeetYoink.Proofs.Program.Statements
import YeetYoink.Proofs.Diagnostic.Lines
import YeetYoink.Proofs.Program.Errors
import YeetYoink.Proofs.Token.Openers
import YeetYoink.Proofs.Parser.Breaks
import YeetYoink.Proofs.Program.Recovery
import YeetYoink.Proofs.Expr.Terse
import YeetYoink.Proofs.Program.Ladder
import YeetYoink.Proofs.Program.Leaves
import YeetYoink.Proofs.Expr.Traversal
import YeetYoink.Proofs.Session.Substitution
import YeetYoink.Proofs.Session.Leftovers
import YeetYoink.Proofs.Dict.History
import YeetYoink.Proofs.Expr.Same
import YeetYoink.Proofs.Store.Forest
import YeetYoink.Proofs.Value.Nesting
import YeetYoink.Proofs.Value.Equality
import YeetYoink.Proofs.Value.Literal
import YeetYoink.Proofs.Yolo.Total
import YeetYoink.Proofs.Eval.Calls
import YeetYoink.Proofs.Yolo.Compose
import YeetYoink.Proofs.Yolo.Coercion
import YeetYoink.Proofs.Eval.Guarded
import YeetYoink.Proofs.Yolo.Bake
import YeetYoink.Proofs.Yolo.Ranges
import YeetYoink.Proofs.Value.Display
import YeetYoink.Proofs.Template.Filling
import YeetYoink.Proofs.Template.Names
import YeetYoink.Proofs.Element.Counting
import YeetYoink.Proofs.Element.Assign
import YeetYoink.Proofs.Element.Yoink
import YeetYoink.Proofs.Yolo.Involution
import YeetYoink.Proofs.Token.Spacing
import YeetYoink.Proofs.Yolo.Numerals
import YeetYoink.Proofs.Element.Slice
import YeetYoink.Proofs.Diagnostic.Caret
import YeetYoink.Proofs.Parser.Advances
import YeetYoink.Proofs.Program.Progress
import YeetYoink.Proofs.Expr.Postorder
