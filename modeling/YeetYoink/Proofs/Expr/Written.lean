import YeetYoink.Expr.Parse
import YeetYoink.Proofs.Expr.Spelling

/-!
# The grammar

`Written ts e` says that the tokens `ts` are a way to write the expression `e`, whatever binds more
tightly. The parser takes only such tokens, so what holds of every written expression is proved by
induction over the grammar and not over the parser. A brace after `yoyo` is always its body.

The three shapes that hold a list of parts are relations of their own: `Listed` for parts with
commas between them, `Lined` for the statements of a block, and `Named` for parameters.
-/

namespace YeetYoink

/-- The tokens of the parts, with commas between them and the closing symbol at the end. A comma may
follow the last part. -/
inductive Listed (close : Symbol) : List (List Token) → List Token → Prop
  | nil {c : Token} (hc : c.kind = .symbol close) : Listed close [] [c]
  | last {c : Token} {us : List Token} (hc : c.kind = .symbol close) : Listed close [us] (us ++ [c])
  | cons {c : Token} {us ts : List Token} {parts : List (List Token)} (hc : c.kind = .symbol .comma)
      (h : Listed close parts ts) : Listed close (us :: parts) (us ++ c :: ts)

/-- The tokens of the parts, with any number of semicolons before each of them, and a closing brace.
-/
inductive Lined : List (List Token) → List Token → Prop
  | nil {c : Token} (hc : c.kind = .symbol .rbrace) : Lined [] [c]
  | semicolon {c : Token} {ts : List Token} {parts : List (List Token)}
      (hc : c.kind = .symbol .semicolon) (h : Lined parts ts) : Lined parts (c :: ts)
  | cons {us ts : List Token} {parts : List (List Token)} (h : Lined parts ts) :
      Lined (us :: parts) (us ++ ts)

inductive Braced : List (List Token) → List Token → Prop
  | mk {l : Token} {ts : List Token} {parts : List (List Token)} (hl : l.kind = .symbol .lbrace)
      (h : Lined parts ts) : Braced parts (l :: ts)

/-- Names, with any number of commas between them. -/
inductive Named : List String → List Token → Prop
  | nil : Named [] []
  | comma {c : Token} {ts : List Token} {xs : List String} (hc : c.kind = .symbol .comma)
      (h : Named xs ts) : Named xs (c :: ts)
  | cons {t : Token} {x : String} {ts : List Token} {xs : List String} (ht : t.kind = .ident x)
      (h : Named xs ts) : Named (x :: xs) (t :: ts)

/-- Parameters, in parentheses or not. -/
inductive Params : List String → List Token → Prop
  | plain {xs : List String} {ts : List Token} (h : Named xs ts) : Params xs ts
  | paren {l r : Token} {xs : List String} {ts : List Token} (hl : l.kind = .symbol .lparen)
      (h : Named xs ts) (hr : r.kind = .symbol .rparen) : Params xs (l :: ts ++ [r])

/-- A value in a template, the tokens it is written with, and the token of the text after it. -/
structure Hole where
  tokens : List Token
  value : Expr
  closer : Token
  text : String

def Hole.IsClosed (h : Hole) : Prop :=
  h.closer.kind = .templateMiddle h.text ∨ h.closer.kind = .templateTail h.text

/-- The holes of a template. The text after the last one ends it. -/
inductive Holed : List Hole → Prop
  | last {h : Hole} (hc : h.closer.kind = .templateTail h.text) : Holed [h]
  | cons {h : Hole} {holes : List Hole} (hc : h.closer.kind = .templateMiddle h.text)
      (hs : Holed holes) : Holed (h :: holes)

theorem Holed.isClosed {holes : List Hole} (hs : Holed holes) : ∀ h ∈ holes, h.IsClosed := by
  induction hs with
  | last hc => exact List.forall_mem_singleton.2 (.inr hc)
  | cons hc _ ih => exact List.forall_mem_cons.2 ⟨.inl hc, ih⟩

/-- A pair of a dictionary and the tokens it is written with. -/
structure WrittenPair where
  keyTokens : List Token
  key : Expr
  colon : Token
  valueTokens : List Token
  value : Expr

def WrittenPair.tokens (p : WrittenPair) : List Token := p.keyTokens ++ p.colon :: p.valueTokens

inductive Written : List Token → Expr → Prop
  | ident {t : Token} {name : String} (ht : t.kind = .ident name) : Written [t] (.ident name)
  | int {t : Token} {text : String} {n : Int64} (ht : t.kind = .int text)
      (hn : Decimal.toInt64? text.toList = some n) : Written [t] (.int n)
  | num {t : Token} {text : String} {x : Float} (ht : t.kind = .float text)
      (hx : Decimal.toFloat? text.toList = some x) : Written [t] (.num x)
  | true {t : Token} (ht : t.kind = .keyword .true) : Written [t] (.bool .true)
  | false {t : Token} (ht : t.kind = .keyword .false) : Written [t] (.bool .false)
  | null {t : Token} (ht : t.kind = .keyword .null) : Written [t] .null
  | str {t : Token} {text : String} (ht : t.kind = .string text) : Written [t] (.str text)
  | template {t : Token} {text : String} (ht : t.kind = .template text) :
      Written [t] (.template (String.ofList (Template.literal text.toList)) [])
  | templateHoles {t : Token} {head : String} {holes : List Hole} (ht : t.kind = .templateHead head)
      (hv : ∀ h ∈ holes, Written h.tokens h.value) (hc : Holed holes) :
      Written (t :: holes.flatMap fun h => h.tokens ++ [h.closer])
        (.template (String.ofList (Template.encode head.toList (holes.map (·.text.toList))))
          (holes.map (·.value)))
  | array {t : Token} {ts : List Token} {items : List (List Token × Expr)}
      (ht : t.kind = .symbol .lbracket) (hx : ∀ p ∈ items, Written p.1 p.2)
      (hl : Listed .rbracket (items.map (·.1)) ts) : Written (t :: ts) (.array (items.map (·.2)))
  | dict {t : Token} {ts : List Token} {pairs : List WrittenPair}
      (ht : t.kind = .symbol .percentBrace) (hk : ∀ p ∈ pairs, Written p.keyTokens p.key)
      (hc : ∀ p ∈ pairs, p.colon.kind = .symbol .colon)
      (hv : ∀ p ∈ pairs, Written p.valueTokens p.value)
      (hl : Listed .rbrace (pairs.map (·.tokens)) ts) :
      Written (t :: ts) (.dict (pairs.map fun p => (p.key, p.value)))
  | paren {l r : Token} {ts : List Token} {x : Expr} (hl : l.kind = .symbol .lparen)
      (h : Written ts x) (hr : r.kind = .symbol .rparen) : Written (l :: ts ++ [r]) x
  | unary {t : Token} {ts : List Token} {op : UnaryOp} {x : Expr} (ht : t.kind = .symbol op.symbol)
      (h : Written ts x) : Written (t :: ts) (.unary op x)
  | binary {t : Token} {us vs : List Token} {op : BinaryOp} {x y : Expr} (hx : Written us x)
      (ht : t.kind = .symbol op.symbol) (hy : Written vs y) :
      Written (us ++ t :: vs) (.binary op x y)
  | range {t : Token} {us vs : List Token} {x y : Expr} (hx : Written us x)
      (ht : t.kind = .symbol .dotDot) (hy : Written vs y) : Written (us ++ t :: vs) (.range x y)
  | and {t : Token} {us vs : List Token} {x y : Expr} (hx : Written us x)
      (ht : t.kind = .symbol .ampAmp) (hy : Written vs y) : Written (us ++ t :: vs) (.and x y)
  | or {t : Token} {us vs : List Token} {x y : Expr} (hx : Written us x)
      (ht : t.kind = .symbol .pipePipe) (hy : Written vs y) : Written (us ++ t :: vs) (.or x y)
  | index {l r : Token} {us vs : List Token} {x y : Expr} (hx : Written us x)
      (hl : l.kind = .symbol .lbracket) (hy : Written vs y) (hr : r.kind = .symbol .rbracket) :
      Written (us ++ l :: (vs ++ [r])) (.index x y)
  | call {l : Token} {us ts : List Token} {x : Expr} {args : List (List Token × Expr)}
      (hx : Written us x) (hl : l.kind = .symbol .lparen) (ha : ∀ p ∈ args, Written p.1 p.2)
      (hs : Listed .rparen (args.map (·.1)) ts) : Written (us ++ l :: ts) (.call x (args.map (·.2)))
  | assign {t : Token} {us vs : List Token} {kind : AssignKind} {x y : Expr} (hx : Written us x)
      (hk : Expr.IsTarget kind x) (ht : t.kind = .symbol kind.symbol) (hy : Written vs y) :
      Written (us ++ t :: vs) (.assign kind x y)
  | compound {t : Token} {s : Symbol} {us vs : List Token} {op : BinaryOp} {x y : Expr}
      (hx : Written us x) (hk : Expr.IsTarget .update x) (ht : t.kind = .symbol s)
      (ho : BinaryOp.ofCompound? s = some op) (hy : Written vs y) :
      Written (us ++ t :: vs) (.assign .update x (.binary op x y))
  | block {ts : List Token} {body : List (List Token × Expr)} (hb : ∀ p ∈ body, Written p.1 p.2)
      (hs : Braced (body.map (·.1)) ts) : Written ts (.block (body.map (·.2)))
  | yif {t : Token} {us ts : List Token} {x : Expr} {body : List (List Token × Expr)}
      (ht : t.kind = .keyword .yif) (hx : Written us x) (hb : ∀ p ∈ body, Written p.1 p.2)
      (hs : Braced (body.map (·.1)) ts) : Written (t :: us ++ ts) (.yif x (body.map (·.2)) none)
  | yels {t e : Token} {us ts vs : List Token} {x : Expr}
      {body otherwise : List (List Token × Expr)}
      (ht : t.kind = .keyword .yif) (hx : Written us x) (hb : ∀ p ∈ body, Written p.1 p.2)
      (hs : Braced (body.map (·.1)) ts) (he : e.kind = .keyword .yels)
      (ho : ∀ p ∈ otherwise, Written p.1 p.2) (hs' : Braced (otherwise.map (·.1)) vs) :
      Written (t :: us ++ ts ++ e :: vs) (.yif x (body.map (·.2)) (some (otherwise.map (·.2))))
  | yelsYif {t e : Token} {us ts vs : List Token} {x y : Expr} {body : List (List Token × Expr)}
      (ht : t.kind = .keyword .yif) (hx : Written us x) (hb : ∀ p ∈ body, Written p.1 p.2)
      (hs : Braced (body.map (·.1)) ts) (he : e.kind = .keyword .yels) (hy : Written vs y) :
      Written (t :: us ++ ts ++ e :: vs) (.yif x (body.map (·.2)) (some [y]))
  | forever {t : Token} {ts : List Token} {body : List (List Token × Expr)}
      (ht : t.kind = .keyword .yoyo) (hb : ∀ p ∈ body, Written p.1 p.2)
      (hs : Braced (body.map (·.1)) ts) : Written (t :: ts) (.yoyo (.bool .true) (body.map (·.2)))
  | yoyo {t : Token} {us ts : List Token} {x : Expr} {body : List (List Token × Expr)}
      (ht : t.kind = .keyword .yoyo) (hx : Written us x)
      (hl : ∀ u ∈ us.head?, u.kind ≠ .symbol .lbrace) (hb : ∀ p ∈ body, Written p.1 p.2)
      (hs : Braced (body.map (·.1)) ts) : Written (t :: us ++ ts) (.yoyo x (body.map (·.2)))
  | yall {t : Token} {us ts : List Token} {x : Expr} {body : List (List Token × Expr)}
      (ht : t.kind = .keyword .yall) (hx : Written us x) (hb : ∀ p ∈ body, Written p.1 p.2)
      (hs : Braced (body.map (·.1)) ts) :
      Written (t :: us ++ ts) (.yall Parser.defaultKey x (body.map (·.2)))
  | yallKey {t c : Token} {us vs ts : List Token} {key : String} {x : Expr}
      {body : List (List Token × Expr)} (ht : t.kind = .keyword .yall)
      (hk : Written us (.ident key))
      (hc : c.kind = .symbol .colon) (hx : Written vs x) (hb : ∀ p ∈ body, Written p.1 p.2)
      (hs : Braced (body.map (·.1)) ts) :
      Written (t :: us ++ c :: vs ++ ts) (.yall key x (body.map (·.2)))
  | yeetNull {t : Token} (ht : t.kind = .keyword .yeet) : Written [t] (.yeet .null)
  | yeet {t : Token} {us : List Token} {x : Expr} (ht : t.kind = .keyword .yeet)
      (hx : Written us x) :
      Written (t :: us) (.yeet x)
  | yolo {t : Token} {ts : List Token} {body : List (List Token × Expr)}
      (ht : t.kind = .keyword .yolo) (hb : ∀ p ∈ body, Written p.1 p.2)
      (hs : Braced (body.map (·.1)) ts) : Written (t :: ts) (.yolo (body.map (·.2)))
  | lambda {t : Token} {us ts : List Token} {xs : List String} {body : List (List Token × Expr)}
      (ht : t.kind = .symbol .backslash) (hx : Params xs us) (hb : ∀ p ∈ body, Written p.1 p.2)
      (hs : Braced (body.map (·.1)) ts) : Written (t :: us ++ ts) (.lambda xs (body.map (·.2)))
  | macroLit {t : Token} {us ts : List Token} {xs : List String} {body : List (List Token × Expr)}
      (ht : t.kind = .symbol .atBackslash) (hx : Params xs us) (hb : ∀ p ∈ body, Written p.1 p.2)
      (hs : Braced (body.map (·.1)) ts) : Written (t :: us ++ ts) (.macroLit xs (body.map (·.2)))

theorem Lined.semicolons {us ts : List Token} {parts : List (List Token)}
    (hu : ∀ t ∈ us, t.kind = .symbol .semicolon) (h : Lined parts ts) : Lined parts (us ++ ts) := by
  induction us with
  | nil => exact h
  | cons u us ih => exact .semicolon (hu u (.head _)) (ih fun t ht => hu t (.tail _ ht))

theorem Braced.ne_nil {parts : List (List Token)} {ts : List Token} (h : Braced parts ts) :
    ts ≠ [] := by
  cases h
  simp

theorem Written.ne_nil {ts : List Token} {e : Expr} (h : Written ts e) : ts ≠ [] := by
  cases h with
  | block _ hs => exact hs.ne_nil
  | _ => simp

end YeetYoink
