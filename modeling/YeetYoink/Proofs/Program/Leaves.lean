import YeetYoink.Proofs.Program.Reading

/-!
# The leaves of a program

The names and literals of a source are those of the syntax tree it is read as, each of them once and
in the same order (`leaves_of_parse`). Two constructs are exceptions and are kept out: a compound
assignment writes its target twice into the tree, and a `yall` without a key gets a name that the
source does not have.

The proof goes over the grammar. The tokens of a part are an unbroken piece of the tokens of the
source, so what the source as a whole is free of, every part of it is free of.
-/

namespace YeetYoink

/-- What a syntax tree has at its ends. A literal is told by its value. -/
inductive Leaf where
  | name (text : String)
  | int (n : Int64)
  | num (x : Float)
  | str (text : String)

namespace Expr

mutual

/-- The names and literals, from left to right. -/
def leaves : Expr → List Leaf
  | .ident name => [.name name]
  | .int n => [.int n]
  | .num x => [.num x]
  | .str text => [.str text]
  | .template _ values => leavesAll values
  | .array items => leavesAll items
  | .dict pairs => leavesPairs pairs
  | .range first last => first.leaves ++ last.leaves
  | .unary _ operand => operand.leaves
  | .binary _ left right => left.leaves ++ right.leaves
  | .and left right => left.leaves ++ right.leaves
  | .or left right => left.leaves ++ right.leaves
  | .index container key => container.leaves ++ key.leaves
  | .call callee args => callee.leaves ++ leavesAll args
  | .assign _ target value => target.leaves ++ value.leaves
  | .block body => leavesAll body
  | .yif condition body none => condition.leaves ++ leavesAll body
  | .yif condition body (some otherwise) =>
    condition.leaves ++ leavesAll body ++ leavesAll otherwise
  | .yoyo condition body => condition.leaves ++ leavesAll body
  | .yall key source body => .name key :: source.leaves ++ leavesAll body
  | .yeet value => value.leaves
  | .yolo body => leavesAll body
  | .lambda params body => params.map .name ++ leavesAll body
  | .macroLit params body => params.map .name ++ leavesAll body
  | .bool _ | .null | .bad _ => []

def leavesAll : List Expr → List Leaf
  | [] => []
  | x :: xs => x.leaves ++ leavesAll xs

def leavesPairs : List (Expr × Expr) → List Leaf
  | [] => []
  | (k, v) :: ps => k.leaves ++ v.leaves ++ leavesPairs ps

end

end Expr

namespace Token

def Kind.isLeaf : Kind → Bool
  | .ident _ | .int _ | .float _ | .string _ => true
  | _ => false

/-- The leaf that a token is read as, if its number has a value. -/
def Kind.leaf? : Kind → Option Leaf
  | .ident name => some (.name name)
  | .int text => (Decimal.toInt64? text.toList).map .int
  | .float text => (Decimal.toFloat? text.toList).map .num
  | .string text => some (.str text)
  | _ => none

/-- The names and literals among some tokens. -/
def leaves (ts : List Token) : List (Option Leaf) :=
  (ts.filter (·.kind.isLeaf)).map (·.kind.leaf?)

def Kind.isCompound : Kind → Bool
  | .symbol s => (BinaryOp.ofCompound? s).isSome
  | _ => false

/-- Closing parentheses and then a colon. -/
def closesKey : List Kind → Bool
  | .symbol .rparen :: ks => closesKey ks
  | .symbol .colon :: _ => true
  | _ => false

/-- A name and a colon, where the name may be in parentheses. -/
def namesKey : List Kind → Bool
  | .symbol .lparen :: ks => namesKey ks
  | .ident _ :: ks => closesKey ks
  | _ => false

/-- After every `yall` there is a key. -/
def keysNamed : List Kind → Bool
  | [] => true
  | .keyword .yall :: ks => namesKey ks && keysNamed ks
  | _ :: ks => keysNamed ks

theorem namesKey_of_keysNamed (ks ls : List Kind) (h : keysNamed (ks ++ .keyword .yall :: ls)) :
    namesKey ls := by
  induction ks with
  | nil => exact (Bool.and_eq_true_iff.1 h).1
  | cons k ks ih =>
    rw [List.cons_append] at h
    unfold keysNamed at h
    split at h
    · simp at *
    · rename_i heq
      cases heq
      exact ih (Bool.and_eq_true_iff.1 h).2
    · rename_i heq
      cases heq
      exact ih h

@[simp] theorem leaves_nil : leaves [] = [] := rfl

@[simp] theorem leaves_append (us ts : List Token) :
    leaves (us ++ ts) = leaves us ++ leaves ts := by
  simp [leaves]

theorem leaves_of_leaf {t : Token} {ts : List Token} (h : t.kind.isLeaf) :
    leaves (t :: ts) = t.kind.leaf? :: leaves ts := by
  simp [leaves, h]

theorem leaves_cons {t : Token} {ts : List Token} (h : t.kind.isLeaf = false) :
    leaves (t :: ts) = leaves ts := by
  simp [leaves, h]

theorem leaves_symbol {t : Token} {s : Symbol} {ts : List Token} (h : t.kind = .symbol s) :
    leaves (t :: ts) = leaves ts := leaves_cons (by rw [h]; rfl)

theorem leaves_keyword {t : Token} {k : Keyword} {ts : List Token} (h : t.kind = .keyword k) :
    leaves (t :: ts) = leaves ts := leaves_cons (by rw [h]; rfl)

end Token

open Token (leaves leaves_symbol leaves_keyword)

/-! ### Lists of parts -/

theorem Listed.leaves_eq {close : Symbol} {parts : List (List Token)} {ts : List Token}
    (h : Listed close parts ts) : leaves ts = parts.flatMap leaves := by
  induction h with
  | nil hc => simp [leaves_symbol hc]
  | last hc => simp [leaves_symbol hc]
  | cons hc _ ih => simp [leaves_symbol hc, ih]

theorem Lined.leaves_eq {parts : List (List Token)} {ts : List Token} (h : Lined parts ts) :
    leaves ts = parts.flatMap leaves := by
  induction h with
  | nil hc => simp [leaves_symbol hc]
  | semicolon hc _ ih => rw [leaves_symbol hc, ih]
  | cons _ ih => simp [ih]

theorem Braced.leaves_eq {parts : List (List Token)} {ts : List Token} (h : Braced parts ts) :
    leaves ts = parts.flatMap leaves := by
  obtain ⟨hl, h⟩ := h
  rw [leaves_symbol hl, h.leaves_eq]

theorem Named.leaves_eq {xs : List String} {ts : List Token} (h : Named xs ts) :
    leaves ts = (xs.map Leaf.name).map some := by
  induction h with
  | nil => rfl
  | comma hc _ ih => rw [leaves_symbol hc, ih]
  | cons ht _ ih => rw [Token.leaves_of_leaf (by rw [ht]; rfl), ih, ht]; rfl

theorem Params.leaves_eq {xs : List String} {ts : List Token} (h : Params xs ts) :
    leaves ts = (xs.map Leaf.name).map some := by
  cases h with
  | plain h => exact h.leaves_eq
  | paren hl h hr => simp [leaves_symbol hl, leaves_symbol hr, h.leaves_eq]

theorem Listed.within {close : Symbol} {parts : List (List Token)} {ts : List Token}
    (h : Listed close parts ts) : ∀ us ∈ parts, us <:+: ts := by
  induction h with
  | nil => nofun
  | @last c us hc => exact List.forall_mem_singleton.2 (List.prefix_append us [c]).isInfix
  | @cons c us ts _ hc _ ih =>
    refine List.forall_mem_cons.2 ⟨(List.prefix_append us _).isInfix, fun vs hvs => ?_⟩
    exact (ih vs hvs).trans ((List.suffix_cons c ts).trans (List.suffix_append us _)).isInfix

theorem Lined.within {parts : List (List Token)} {ts : List Token} (h : Lined parts ts) :
    ∀ us ∈ parts, us <:+: ts := by
  induction h with
  | nil => nofun
  | @semicolon c ts _ hc _ ih =>
    exact fun us hus => (ih us hus).trans (List.suffix_cons c ts).isInfix
  | @cons us ts _ _ ih =>
    refine List.forall_mem_cons.2 ⟨(List.prefix_append us ts).isInfix, fun vs hvs => ?_⟩
    exact (ih vs hvs).trans (List.suffix_append us ts).isInfix

theorem Braced.within {parts : List (List Token)} {ts : List Token} (h : Braced parts ts) :
    ∀ us ∈ parts, us <:+: ts := by
  obtain ⟨hl, h⟩ := h
  exact fun us hus => (h.within us hus).trans (List.suffix_cons _ _).isInfix

/-! ### Keys -/

namespace Written

open Token (closesKey namesKey)

/-- An expression is not the key of a `yall` unless a colon follows. -/
theorem not_namesKey {us : List Token} {x : Expr} (h : Written us x) {rest : List Token.Kind}
    (hr : ¬ closesKey rest) : ¬ namesKey (us.map (·.kind) ++ rest) := by
  -- Only the first operand can be a name, and what follows it is an operator or an opening bracket.
  induction h generalizing rest with
  | ident ht => simpa [ht, namesKey] using hr
  | paren hl _ hr' ih => simpa [hl, hr', namesKey] using ih (by simpa [closesKey] using hr)
  | @binary _ _ _ op _ _ _ ht _ ihx _ =>
    simpa [ht] using ihx (by cases op <;> simp [closesKey, BinaryOp.symbol])
  | range _ ht _ ihx _ | and _ ht _ ihx _ | or _ ht _ ihx _ | index _ ht _ _ ihx _
  | call _ ht _ _ ihx _ =>
    simpa [ht] using ihx (by simp [closesKey])
  | @assign _ _ _ kind _ _ _ _ ht _ ihx _ =>
    simpa [ht] using ihx (by cases kind <;> simp [closesKey, AssignKind.symbol])
  | @compound _ s _ _ _ _ _ _ _ ht ho _ ihx _ =>
    simpa [ht] using ihx (by cases s <;> simp_all [closesKey, BinaryOp.ofCompound?])
  | block _ hs =>
    obtain ⟨hl, -⟩ := hs
    simp [hl, namesKey]
  | @unary _ _ op _ ht => cases op <;> simp [ht, namesKey, UnaryOp.symbol]
  | _ => simp_all [namesKey]

end Written

/-! ### Expressions -/

section

variable {ws us vs : List Token} {t : Token}

theorem within_left (h : us ++ vs <:+: ws) : us <:+: ws :=
  (List.prefix_append us vs).isInfix.trans h

theorem within_right (h : us ++ vs <:+: ws) : vs <:+: ws :=
  (List.suffix_append us vs).isInfix.trans h

theorem within_tail (h : t :: us <:+: ws) : us <:+: ws := (List.suffix_cons t us).isInfix.trans h

namespace Written

/-- The items of a list, from the induction hypothesis for their tokens. -/
theorem leaves_items {items : List (List Token × Expr)}
    (ih : ∀ p ∈ items, p.1 <:+: ws → leaves p.1 = p.2.leaves.map some)
    (hw : ∀ us ∈ items.map (·.1), us <:+: ws) :
    (items.map (·.1)).flatMap leaves = (Expr.leavesAll (items.map (·.2))).map some := by
  induction items with
  | nil => rfl
  | cons p items hi =>
    rw [List.map_cons, List.forall_mem_cons] at hw
    rw [List.forall_mem_cons] at ih
    simp [Expr.leavesAll, ih.1 hw.1, hi ih.2 hw.2]

theorem leaves_list {close : Symbol} {items : List (List Token × Expr)} {ts : List Token}
    (ih : ∀ p ∈ items, p.1 <:+: ws → leaves p.1 = p.2.leaves.map some)
    (hl : Listed close (items.map (·.1)) ts) (hw : ts <:+: ws) :
    leaves ts = (Expr.leavesAll (items.map (·.2))).map some :=
  hl.leaves_eq.trans (leaves_items ih fun vs hvs => (hl.within vs hvs).trans hw)

theorem leaves_body {body : List (List Token × Expr)} {ts : List Token}
    (ih : ∀ p ∈ body, p.1 <:+: ws → leaves p.1 = p.2.leaves.map some)
    (hs : Braced (body.map (·.1)) ts) (hw : ts <:+: ws) :
    leaves ts = (Expr.leavesAll (body.map (·.2))).map some :=
  hs.leaves_eq.trans (leaves_items ih fun vs hvs => (hs.within vs hvs).trans hw)

theorem leaves_holes {holes : List Hole} (hc : ∀ h ∈ holes, h.IsClosed)
    (ih : ∀ h ∈ holes, h.tokens <:+: ws → leaves h.tokens = h.value.leaves.map some)
    (hw : (holes.flatMap fun h => h.tokens ++ [h.closer]) <:+: ws) :
    leaves (holes.flatMap fun h => h.tokens ++ [h.closer]) =
      (Expr.leavesAll (holes.map (·.value))).map some := by
  induction holes with
  | nil => rfl
  | cons h holes hi =>
    rw [List.forall_mem_cons] at hc ih
    rw [List.flatMap_cons] at hw ⊢
    have hcl : h.closer.kind.isLeaf = .false := by
      rcases hc.1 with hk | hk <;> rw [hk] <;> rfl
    have hx := ih.1 (within_left (within_left hw))
    simp [Expr.leavesAll, hx, Token.leaves_cons hcl, hi hc.2 ih.2 (within_right hw)]

theorem leaves_pairs {pairs : List WrittenPair} (hc : ∀ p ∈ pairs, p.colon.kind = .symbol .colon)
    (ihk : ∀ p ∈ pairs, p.keyTokens <:+: ws → leaves p.keyTokens = p.key.leaves.map some)
    (ihv : ∀ p ∈ pairs, p.valueTokens <:+: ws → leaves p.valueTokens = p.value.leaves.map some)
    (hw : ∀ us ∈ pairs.map (·.tokens), us <:+: ws) :
    (pairs.map (·.tokens)).flatMap leaves =
      (Expr.leavesPairs (pairs.map fun p => (p.key, p.value))).map some := by
  induction pairs with
  | nil => rfl
  | cons p pairs hi =>
    rw [List.map_cons, List.forall_mem_cons] at hw
    rw [List.forall_mem_cons] at hc ihk ihv
    have hp : leaves p.tokens = (p.key.leaves ++ p.value.leaves).map some := by
      rw [WrittenPair.tokens, Token.leaves_append, leaves_symbol hc.1, ihk.1 (within_left hw.1),
        ihv.1 (within_tail (within_right hw.1)), List.map_append]
    simp [Expr.leavesPairs, hp, hi hc.2 ihk.2 ihv.2 hw.2]

/-- After a `yall` without a key comes an expression and then a block. -/
theorem yall_unnamed {ts : List Token} {x : Expr} {parts : List (List Token)}
    (ht : t.kind = .keyword .yall) (hx : Written us x) (hs : Braced parts ts)
    (hw : t :: us ++ ts <:+: ws) : ¬ Token.keysNamed (ws.map (·.kind)) := by
  obtain ⟨pre, post, rfl⟩ := hw
  intro hk
  have hn := Token.namesKey_of_keysNamed (pre.map (·.kind))
    (us.map (·.kind) ++ (ts ++ post).map (·.kind)) (by simpa [ht] using hk)
  refine hx.not_namesKey ?_ hn
  obtain ⟨hl, -⟩ := hs
  simp [hl, Token.closesKey]

theorem leaves_eq (hc : ∀ t ∈ ws, ¬ t.kind.isCompound) (hk : Token.keysNamed (ws.map (·.kind)))
    {x : Expr} (h : Written us x) (hw : us <:+: ws) : leaves us = x.leaves.map some := by
  induction h with
  | ident ht | str ht => simp [leaves, ht, Token.Kind.isLeaf, Token.Kind.leaf?, Expr.leaves]
  | int ht hn => simp [leaves, ht, Token.Kind.isLeaf, Token.Kind.leaf?, Expr.leaves, hn]
  | num ht hx => simp [leaves, ht, Token.Kind.isLeaf, Token.Kind.leaf?, Expr.leaves, hx]
  | true ht | false ht | null ht | yeetNull ht => simp [leaves_keyword ht, Expr.leaves]
  | template ht => simp [leaves, ht, Token.Kind.isLeaf, Expr.leaves, Expr.leavesAll]
  | templateHoles ht _ hs ih =>
    rw [Token.leaves_cons (by rw [ht]; rfl), Expr.leaves,
      leaves_holes hs.isClosed ih (within_tail hw)]
  | array ht _ hl ih => rw [leaves_symbol ht, leaves_list ih hl (within_tail hw), Expr.leaves]
  | dict ht _ hc _ hl ihk ihv =>
    rw [leaves_symbol ht, hl.leaves_eq, Expr.leaves, leaves_pairs hc ihk ihv]
    exact fun vs hvs => (hl.within vs hvs).trans (within_tail hw)
  | paren hl _ hr ih =>
    simp [leaves_symbol hl, leaves_symbol hr, ih (within_left (within_tail hw))]
  | unary ht _ ih => rw [leaves_symbol ht, ih (within_tail hw), Expr.leaves]
  | binary _ ht _ ihx ihy | range _ ht _ ihx ihy | and _ ht _ ihx ihy | or _ ht _ ihx ihy
  | assign _ _ ht _ ihx ihy =>
    rw [Token.leaves_append, leaves_symbol ht, ihx (within_left hw),
      ihy (within_tail (within_right hw)), Expr.leaves, List.map_append]
  | index _ hl _ hr ihx ihy =>
    have hy := ihy (within_left (within_tail (within_right hw)))
    simp [leaves_symbol hl, leaves_symbol hr, ihx (within_left hw), hy, Expr.leaves]
  | call _ hl _ hs ihx iha =>
    rw [Token.leaves_append, leaves_symbol hl, ihx (within_left hw),
      leaves_list iha hs (within_tail (within_right hw)), Expr.leaves, List.map_append]
  | @compound t _ us vs _ _ _ _ _ ht ho _ _ _ =>
    have hm : t ∈ ws := hw.subset (by simp)
    exact absurd (by simp [ht, Token.Kind.isCompound, ho]) (hc t hm)
  | block _ hs ih => rw [leaves_body ih hs hw, Expr.leaves]
  | yif ht _ _ hs ihx ihb | yoyo ht _ _ _ hs ihx ihb =>
    have hx := ihx (within_tail (within_left hw))
    simp [leaves_keyword ht, hx, leaves_body ihb hs (within_right hw), Expr.leaves]
  | yels ht _ _ hs he _ hs' ihx ihb iho =>
    have hx := ihx (within_tail (within_left (within_left hw)))
    have hb := leaves_body ihb hs (within_right (within_left hw))
    have ho := leaves_body iho hs' (within_tail (within_right hw))
    simp [leaves_keyword ht, leaves_keyword he, hx, hb, ho, Expr.leaves]
  | yelsYif ht _ _ hs he _ ihx ihb ihy =>
    have hx := ihx (within_tail (within_left (within_left hw)))
    have hb := leaves_body ihb hs (within_right (within_left hw))
    have hy := ihy (within_tail (within_right hw))
    simp [leaves_keyword ht, leaves_keyword he, hx, hb, hy, Expr.leaves, Expr.leavesAll]
  | forever ht _ hs ih =>
    rw [leaves_keyword ht, leaves_body ih hs (within_tail hw), Expr.leaves, Expr.leaves,
      List.nil_append]
  | yall ht hx _ hs => exact absurd hk (yall_unnamed ht hx hs hw)
  | yallKey ht _ hc _ _ hs ihk ihx ihb =>
    have hkey := ihk (within_tail (within_left (within_left hw)))
    have hx := ihx (within_tail (within_right (within_left hw)))
    have hb := leaves_body ihb hs (within_right hw)
    simp [leaves_keyword ht, leaves_symbol hc, hkey, hx, hb, Expr.leaves]
  | yeet ht _ ih => rw [leaves_keyword ht, ih (within_tail hw), Expr.leaves]
  | yolo ht _ hs ih => rw [leaves_keyword ht, leaves_body ih hs (within_tail hw), Expr.leaves]
  | lambda ht hx _ hs ih | macroLit ht hx _ hs ih =>
    simp [leaves_symbol ht, hx.leaves_eq, leaves_body ih hs (within_right hw), Expr.leaves]

end Written

end

namespace Program

theorem IsWritten.leaves_eq {ws : List Token} (hc : ∀ t ∈ ws, ¬ t.kind.isCompound)
    (hk : Token.keysNamed (ws.map (·.kind))) {ts : List Token} {p : Program} (h : IsWritten ts p)
    (hw : ts <:+: ws) : leaves ts = (p.flatMap Expr.leaves).map some := by
  induction h with
  | nil => rfl
  | semicolon hs _ ih => rw [leaves_symbol hs, ih (within_tail hw)]
  | cons he _ ih =>
    simp [he.leaves_eq hc hk (within_left hw), ih (within_right hw)]

theorem leaves_of_parse {source : String} {p : Program} (h : parse source = .ok p)
    (hc : ∀ t ∈ Token.lex source, ¬ t.kind.isCompound)
    (hk : Token.keysNamed ((Token.lex source).map (·.kind))) :
    Token.leaves (Token.lex source) = (p.flatMap Expr.leaves).map some :=
  (written_of_parse h).leaves_eq hc hk List.infix_rfl

/-- Parameters, a key in parentheses, a hole of a template, and numbers with and without a point. -/
theorem leaves_of_parse_yall :
    Token.leaves (Token.lex <|
        "show := \\a, b \x7b `\x7ba\x7d: \x7bb + 1.5\x7d` \x7d; " ++
          "yall (k): %\x7b\"x\": 01\x7d \x7b show(k, -2) \x7d") =
      [.name "show", .name "a", .name "b", .name "a", .name "b", .num 1.5, .name "k",
        .str "x", .int 1, .name "show", .name "k", .int 2].map some :=
  leaves_of_parse
    (p := [.assign .declare (.ident "show") (.lambda ["a", "b"] [.template "%s: %s"
        [.ident "a", .binary .plus (.ident "b") (.num 1.5)]]),
      .yall "k" (.dict [(.str "x", .int 1)])
        [.call (.ident "show") [.ident "k", .unary .minus (.int 2)]]])
    (by with_unfolding_all rfl) (by with_unfolding_all decide) (by with_unfolding_all rfl)

end Program

end YeetYoink
