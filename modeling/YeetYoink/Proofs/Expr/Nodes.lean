import YeetYoink.Expr

/-!
# The nodes of an expression

`Expr.nodes` lists an expression and everything inside it, children before parents and from left to
right. What is said of a whole syntax tree is said of every member of this list (`Throughout`), and
splits into the root and the children (`throughout_iff`). `Expr.induct` is induction over the tree
with one case for each construct.
-/

namespace YeetYoink.Expr

/-- The expressions directly inside one, as they come in the source. -/
def children : Expr → List Expr
  | .template _ values => values
  | .array items => items
  | .dict pairs => pairs.flatMap fun p => [p.1, p.2]
  | .range first last => [first, last]
  | .unary _ operand => [operand]
  | .binary _ left right => [left, right]
  | .and left right => [left, right]
  | .or left right => [left, right]
  | .index container key => [container, key]
  | .call callee args => callee :: args
  | .assign _ target value => [target, value]
  | .block body => body
  | .yif condition body none => condition :: body
  | .yif condition body (some otherwise) => condition :: (body ++ otherwise)
  | .yoyo condition body => condition :: body
  | .yall _ source body => source :: body
  | .yeet value => [value]
  | .yolo body => body
  | .lambda _ body => body
  | .macroLit _ body => body
  | .ident _ | .int _ | .num _ | .bool _ | .null | .str _ | .bad _ => []

mutual

def nodes : Expr → List Expr
  | .template text values => nodesAll values ++ [.template text values]
  | .array items => nodesAll items ++ [.array items]
  | .dict pairs => nodesPairs pairs ++ [.dict pairs]
  | .range first last => first.nodes ++ last.nodes ++ [.range first last]
  | .unary op operand => operand.nodes ++ [.unary op operand]
  | .binary op left right => left.nodes ++ right.nodes ++ [.binary op left right]
  | .and left right => left.nodes ++ right.nodes ++ [.and left right]
  | .or left right => left.nodes ++ right.nodes ++ [.or left right]
  | .index container key => container.nodes ++ key.nodes ++ [.index container key]
  | .call callee args => callee.nodes ++ nodesAll args ++ [.call callee args]
  | .assign kind target value => target.nodes ++ value.nodes ++ [.assign kind target value]
  | .block body => nodesAll body ++ [.block body]
  | .yif condition body none => condition.nodes ++ nodesAll body ++ [.yif condition body none]
  | .yif condition body (some otherwise) =>
    condition.nodes ++ nodesAll body ++ nodesAll otherwise ++ [.yif condition body (some otherwise)]
  | .yoyo condition body => condition.nodes ++ nodesAll body ++ [.yoyo condition body]
  | .yall key source body => source.nodes ++ nodesAll body ++ [.yall key source body]
  | .yeet value => value.nodes ++ [.yeet value]
  | .yolo body => nodesAll body ++ [.yolo body]
  | .lambda params body => nodesAll body ++ [.lambda params body]
  | .macroLit params body => nodesAll body ++ [.macroLit params body]
  | .ident name => [.ident name]
  | .int n => [.int n]
  | .num x => [.num x]
  | .bool b => [.bool b]
  | .null => [.null]
  | .str text => [.str text]
  | .bad token => [.bad token]

def nodesAll : List Expr → List Expr
  | [] => []
  | x :: xs => x.nodes ++ nodesAll xs

def nodesPairs : List (Expr × Expr) → List Expr
  | [] => []
  | (k, v) :: ps => k.nodes ++ v.nodes ++ nodesPairs ps

end

theorem nodesAll_eq (xs : List Expr) : nodesAll xs = xs.flatMap nodes := by
  induction xs with
  | nil => rfl
  | cons x xs ih => rw [nodesAll, ih, List.flatMap_cons]

theorem nodesPairs_eq (ps : List (Expr × Expr)) :
    nodesPairs ps = (ps.flatMap fun p => [p.1, p.2]).flatMap nodes := by
  induction ps with
  | nil => rfl
  | cons p ps ih =>
    obtain ⟨k, v⟩ := p
    rw [nodesPairs, ih]
    simp

/-- The nodes are those of the children, and then the expression itself. -/
theorem nodes_eq (e : Expr) : e.nodes = e.children.flatMap nodes ++ [e] := by
  cases e with
  | yif condition body otherwise =>
    cases otherwise <;> simp [nodes, children, nodesAll_eq]
  | _ => simp [nodes, children, nodesAll_eq, nodesPairs_eq]

/-- Every node of the expression satisfies the property. -/
def Throughout (p : Expr → Prop) (e : Expr) : Prop := ∀ x ∈ e.nodes, p x

theorem throughout_iff {p : Expr → Prop} {e : Expr} :
    e.Throughout p ↔ (∀ c ∈ e.children, c.Throughout p) ∧ p e := by
  simp only [Throughout]
  rw [nodes_eq]
  simp only [List.mem_append, List.mem_flatMap, List.mem_singleton]
  constructor
  · intro h
    exact ⟨fun c hc x hx => h x (.inl ⟨c, hc, hx⟩), h e (.inr rfl)⟩
  · rintro ⟨h, he⟩ x (⟨c, hc, hx⟩ | rfl)
    · exact h c hc x hx
    · exact he

theorem Throughout.here {p : Expr → Prop} {e : Expr} (h : e.Throughout p) : p e :=
  (throughout_iff.1 h).2

theorem Throughout.mono {p q : Expr → Prop} {e : Expr} (h : e.Throughout p)
    (hpq : ∀ x, p x → q x) : e.Throughout q := fun x hx => hpq x (h x hx)

theorem Throughout.child {p : Expr → Prop} {e c : Expr} (h : e.Throughout p)
    (hc : c ∈ e.children) : c.Throughout p :=
  (throughout_iff.1 h).1 c hc

/-- Induction over syntax trees. Elements of lists come with their membership. -/
theorem induct {motive : Expr → Prop}
    (ident : ∀ name, motive (.ident name))
    (int : ∀ n, motive (.int n))
    (num : ∀ x, motive (.num x))
    (bool : ∀ b, motive (.bool b))
    (null : motive .null)
    (str : ∀ text, motive (.str text))
    (template : ∀ text values, (∀ v ∈ values, motive v) → motive (.template text values))
    (array : ∀ items, (∀ x ∈ items, motive x) → motive (.array items))
    (dict : ∀ pairs, (∀ p ∈ pairs, motive p.1 ∧ motive p.2) → motive (.dict pairs))
    (range : ∀ first last, motive first → motive last → motive (.range first last))
    (unary : ∀ op operand, motive operand → motive (.unary op operand))
    (binary : ∀ op left right, motive left → motive right → motive (.binary op left right))
    (and : ∀ left right, motive left → motive right → motive (.and left right))
    (or : ∀ left right, motive left → motive right → motive (.or left right))
    (index : ∀ container key, motive container → motive key → motive (.index container key))
    (call : ∀ callee args, motive callee → (∀ x ∈ args, motive x) → motive (.call callee args))
    (assign : ∀ kind target value, motive target → motive value →
      motive (.assign kind target value))
    (block : ∀ body, (∀ x ∈ body, motive x) → motive (.block body))
    (yif : ∀ condition body, motive condition → (∀ x ∈ body, motive x) →
      motive (.yif condition body none))
    (yifElse : ∀ condition body otherwise, motive condition → (∀ x ∈ body, motive x) →
      (∀ x ∈ otherwise, motive x) → motive (.yif condition body (some otherwise)))
    (yoyo : ∀ condition body, motive condition → (∀ x ∈ body, motive x) →
      motive (.yoyo condition body))
    (yall : ∀ key source body, motive source → (∀ x ∈ body, motive x) →
      motive (.yall key source body))
    (yeet : ∀ value, motive value → motive (.yeet value))
    (yolo : ∀ body, (∀ x ∈ body, motive x) → motive (.yolo body))
    (lambda : ∀ params body, (∀ x ∈ body, motive x) → motive (.lambda params body))
    (macroLit : ∀ params body, (∀ x ∈ body, motive x) → motive (.macroLit params body))
    (bad : ∀ token, motive (.bad token)) (e : Expr) : motive e := by
  refine @Expr.rec motive (fun xs => ∀ x ∈ xs, motive x)
    (fun ps => ∀ p ∈ ps, motive p.1 ∧ motive p.2)
    (fun o => ∀ xs, o = some xs → ∀ x ∈ xs, motive x)
    (fun p => motive p.1 ∧ motive p.2)
    ident int num bool null str template array dict range unary binary and or index call
      assign block
    ?_ yoyo yall yeet yolo lambda macroLit bad ?_ ?_ ?_ ?_ ?_ ?_ ?_ e
  · intro condition body otherwise hc hb ho
    cases otherwise with
    | none => exact yif condition body hc hb
    | some xs => exact yifElse condition body xs hc hb (ho xs rfl)
  · simp
  · exact fun x xs hx hxs => List.forall_mem_cons.2 ⟨hx, hxs⟩
  · simp
  · exact fun p ps hp hps => List.forall_mem_cons.2 ⟨hp, hps⟩
  · simp
  · rintro xs h _ ⟨⟩
    exact h
  · exact fun k v hk hv => ⟨hk, hv⟩

/-- Induction with one hypothesis for all children. -/
theorem inductChildren {motive : Expr → Prop}
    (step : ∀ e, (∀ c ∈ e.children, motive c) → motive e) (e : Expr) : motive e := by
  induction e using induct with
  | template text values ih => exact step _ ih
  | array items ih => exact step _ ih
  | dict pairs ih =>
    refine step _ fun c hc => ?_
    obtain ⟨p, hp, hc⟩ := List.mem_flatMap.1 hc
    obtain rfl | rfl : c = p.1 ∨ c = p.2 := by simpa using hc
    · exact (ih p hp).1
    · exact (ih p hp).2
  | unary op operand ih => exact step _ (by simpa [children] using ih)
  | range first last ihf ihl => exact step _ (by simpa [children] using ⟨ihf, ihl⟩)
  | binary op left right ihl ihr => exact step _ (by simpa [children] using ⟨ihl, ihr⟩)
  | and left right ihl ihr => exact step _ (by simpa [children] using ⟨ihl, ihr⟩)
  | or left right ihl ihr => exact step _ (by simpa [children] using ⟨ihl, ihr⟩)
  | index container key ihc ihk => exact step _ (by simpa [children] using ⟨ihc, ihk⟩)
  | assign kind target value iht ihv => exact step _ (by simpa [children] using ⟨iht, ihv⟩)
  | call callee args ihc iha => exact step _ (List.forall_mem_cons.2 ⟨ihc, iha⟩)
  | block body ih => exact step _ ih
  | yif condition body ihc ihb => exact step _ (List.forall_mem_cons.2 ⟨ihc, ihb⟩)
  | yifElse condition body otherwise ihc ihb iho =>
    exact step _ (List.forall_mem_cons.2 ⟨ihc, List.forall_mem_append.2 ⟨ihb, iho⟩⟩)
  | yoyo condition body ihc ihb => exact step _ (List.forall_mem_cons.2 ⟨ihc, ihb⟩)
  | yall key source body ihs ihb => exact step _ (List.forall_mem_cons.2 ⟨ihs, ihb⟩)
  | yeet value ih => exact step _ (by simpa [children] using ih)
  | yolo body ih => exact step _ ih
  | lambda params body ih => exact step _ ih
  | macroLit params body ih => exact step _ ih
  | _ => exact step _ nofun

/-- What holds throughout an expression holds throughout every node. -/
theorem Throughout.deep {p : Expr → Prop} {e : Expr} (h : e.Throughout p) :
    e.Throughout (Throughout p) := by
  induction e using inductChildren with
  | step e ih => exact throughout_iff.2 ⟨fun c hc => ih c hc (h.child hc), h⟩

end YeetYoink.Expr
