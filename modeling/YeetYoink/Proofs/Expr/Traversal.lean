import YeetYoink.Expr.Transform
import YeetYoink.Proofs.Expr.Nodes

/-!
# Rebuilding an expression from its children

`withChildren` puts other expressions in the place of a node's children. Transforming with effects
is, at every node, transforming the children from left to right and then the node made of the
results (`transformM_eq_bind`). `rebuild` is the same traversal without effects, where each step
also sees the node as it was; `transformM_eq_rebuild` compares the two node by node, along an
invariant of the state.
-/

namespace YeetYoink.Expr

/-- Keys and values, out of one list of both. -/
def pairUp : List Expr → List (Expr × Expr)
  | k :: v :: xs => (k, v) :: pairUp xs
  | _ => []

/-- The node with other expressions in the place of its children. -/
def withChildren : Expr → List Expr → Expr
  | .template text _, ys => .template text ys
  | .array _, ys => .array ys
  | .dict _, ys => .dict (pairUp ys)
  | .range _ _, [x, y] => .range x y
  | .unary op _, [x] => .unary op x
  | .binary op _ _, [x, y] => .binary op x y
  | .and _ _, [x, y] => .and x y
  | .or _ _, [x, y] => .or x y
  | .index _ _, [x, y] => .index x y
  | .call _ _, x :: ys => .call x ys
  | .assign kind _ _, [x, y] => .assign kind x y
  | .block _, ys => .block ys
  | .yif _ _ none, x :: ys => .yif x ys none
  | .yif _ body (some _), x :: ys => .yif x (ys.take body.length) (some (ys.drop body.length))
  | .yoyo _ _, x :: ys => .yoyo x ys
  | .yall key _ _, x :: ys => .yall key x ys
  | .yeet _, [x] => .yeet x
  | .yolo _, ys => .yolo ys
  | .lambda params _, ys => .lambda params ys
  | .macroLit params _, ys => .macroLit params ys
  | e, _ => e

theorem pairUp_flatMap (ps : List (Expr × Expr)) :
    pairUp (ps.flatMap fun p => [p.1, p.2]) = ps := by
  induction ps with
  | nil => rfl
  | cons p ps ih => simp [pairUp, ih]

theorem withChildren_children (e : Expr) : e.withChildren e.children = e := by
  cases e with
  | dict pairs => exact congrArg Expr.dict (pairUp_flatMap pairs)
  | yif condition body otherwise => cases otherwise <;> simp [children, withChildren]
  | _ => rfl

section

variable {m : Type → Type} [Monad m] [LawfulMonad m] {f : Expr → m Expr}

/-- Two lists of expressions are told apart by the length of the first one, which does not change.
-/
theorem transformAllM_append_bind {β : Type} (xs xs' : List Expr)
    (k : List Expr → List Expr → m β) :
    (transformAllM f (xs ++ xs') >>= fun ys => k (ys.take xs.length) (ys.drop xs.length)) =
      transformAllM f xs >>= fun ys => transformAllM f xs' >>= fun zs => k ys zs := by
  induction xs generalizing k with
  | nil => simp [transformAllM]
  | cons x xs ih =>
    simp only [List.cons_append, transformAllM, bind_assoc, pure_bind, List.length_cons,
      List.take_succ_cons, List.drop_succ_cons]
    congr 1
    funext y
    exact ih fun ys zs => k (y :: ys) zs

theorem transformPairsM_eq_bind (ps : List (Expr × Expr)) :
    transformPairsM f ps =
      transformAllM f (ps.flatMap fun p => [p.1, p.2]) >>= fun ys => pure (pairUp ys) := by
  induction ps with
  | nil => simp [transformPairsM, transformAllM, pairUp]
  | cons p ps ih => simp [transformPairsM, transformAllM, pairUp, ih]

/-- A node is transformed after its children. -/
theorem transformM_eq_bind (e : Expr) :
    e.transformM f = transformAllM f e.children >>= fun ys => f (e.withChildren ys) := by
  cases e with
  | dict pairs =>
    simp only [transformM, children, withChildren, transformPairsM_eq_bind, bind_assoc, pure_bind]
  | yif condition body otherwise =>
    cases otherwise with
    | none => simp only [transformM, children, withChildren, transformAllM, bind_assoc, pure_bind]
    | some otherwise =>
      simp only [transformM, children, withChildren, transformAllM, bind_assoc, pure_bind]
      congr 1
      funext x
      exact (transformAllM_append_bind body otherwise fun ys zs => f (.yif x ys (some zs))).symm
  | _ => simp only [transformM, children, withChildren, transformAllM, bind_assoc, pure_bind]

end

section

variable {α β ε σ : Type} {f : Expr → EStateM ε σ Expr} {s t : σ}

theorem bind_eq_ok {x : EStateM ε σ α} {g : α → EStateM ε σ β} {b : β} :
    (x >>= g) s = .ok b t ↔ ∃ a u, x s = .ok a u ∧ g a u = .ok b t := by
  simp only [bind, EStateM.bind]
  cases x s with
  | ok a u =>
    constructor
    · exact fun h => ⟨a, u, rfl, h⟩
    · rintro ⟨_, _, ⟨⟩, h⟩
      exact h
  | error e u => simp

theorem transformAllM_nil_eq_ok {ys : List Expr} :
    transformAllM f [] s = .ok ys t ↔ ys = [] ∧ t = s := by
  simp [transformAllM, pure, EStateM.pure, eq_comm]

theorem transformAllM_cons_eq_ok {x : Expr} {xs ys : List Expr} :
    transformAllM f (x :: xs) s = .ok ys t ↔
      ∃ y u zs, x.transformM f s = .ok y u ∧ transformAllM f xs u = .ok zs t ∧ ys = y :: zs := by
  simp only [transformAllM, bind_eq_ok, pure, EStateM.pure, EStateM.Result.ok.injEq]
  constructor
  · rintro ⟨y, u, hy, zs, v, hzs, rfl, rfl⟩
    exact ⟨y, u, zs, hy, hzs, rfl⟩
  · rintro ⟨y, u, zs, hy, hzs, rfl⟩
    exact ⟨y, u, hy, zs, t, hzs, rfl, rfl⟩

theorem transformM_eq_ok {e y : Expr} :
    e.transformM f s = .ok y t ↔
      ∃ ys u, transformAllM f e.children s = .ok ys u ∧ f (e.withChildren ys) u = .ok y t := by
  rw [transformM_eq_bind, bind_eq_ok]

end

theorem flatMap_pairUp {ps : List (Expr × Expr)} {ys : List Expr}
    (h : ys.length = (ps.flatMap fun p => [p.1, p.2]).length) :
    (pairUp ys).flatMap (fun p => [p.1, p.2]) = ys := by
  induction ps generalizing ys with
  | nil =>
    obtain rfl := List.length_eq_zero_iff.1 h
    rfl
  | cons p ps ih =>
    match ys, h with
    | k :: v :: ys, h => simp [pairUp, ih (by simpa using h)]

theorem children_withChildren {e : Expr} {ys : List Expr} (h : ys.length = e.children.length) :
    (e.withChildren ys).children = ys := by
  cases e with
  | template | array | block | yolo | lambda | macroLit => rfl
  | dict pairs => exact flatMap_pairUp h
  | range | binary | and | or | index | assign =>
    match ys, h with
    | [x, y], _ => rfl
  | unary | yeet =>
    obtain ⟨x, rfl⟩ := List.length_eq_one_iff.1 h
    rfl
  | call | yoyo | yall =>
    obtain ⟨x, xs, rfl⟩ := List.exists_cons_of_length_eq_add_one h
    rfl
  | yif condition body otherwise =>
    cases otherwise with
    | none =>
      obtain ⟨x, xs, rfl⟩ := List.exists_cons_of_length_eq_add_one h
      rfl
    | some otherwise =>
      obtain ⟨x, xs, rfl⟩ := List.exists_cons_of_length_eq_add_one h
      simp [withChildren, children]
  | _ =>
    obtain rfl := List.length_eq_zero_iff.1 h
    rfl

/-! ### Without effects -/

theorem wellFounded_children : WellFounded fun c e : Expr => c ∈ e.children :=
  ⟨fun e => inductChildren (fun _ ih => ⟨_, ih⟩) e⟩

/-- Rebuilds an expression from its leaves. A step is given the node as it was and its new children.
-/
def rebuild (step : Expr → List Expr → Expr) (e : Expr) : Expr :=
  step e (e.children.attach.map fun c => rebuild step c.1)
termination_by wellFounded_children.wrap e
decreasing_by exact c.2

theorem rebuild_eq (step : Expr → List Expr → Expr) (e : Expr) :
    e.rebuild step = step e (e.children.map (rebuild step)) := by
  rw [rebuild]
  simp

section

variable {ε σ : Type} {f : Expr → EStateM ε σ Expr} {step : Expr → List Expr → Expr}
    {I : σ → Prop} {s : σ}

/-- What the function has to do at a node so that transforming is rebuilding. -/
def Rebuilds (f : Expr → EStateM ε σ Expr) (step : Expr → List Expr → Expr) (I : σ → Prop)
    (x : Expr) :
    Prop :=
  ∀ s, I s → ∃ t, f (x.withChildren (x.children.map (rebuild step))) s =
    .ok (step x (x.children.map (rebuild step))) t ∧ I t

theorem transformAllM_eq_map {g : Expr → Expr} {xs : List Expr}
    (h : ∀ x ∈ xs, ∀ s, I s → ∃ t, x.transformM f s = .ok (g x) t ∧ I t) (hs : I s) :
    ∃ t, transformAllM f xs s = .ok (xs.map g) t ∧ I t := by
  induction xs generalizing s with
  | nil => exact ⟨s, rfl, hs⟩
  | cons x xs ih =>
    rw [List.forall_mem_cons] at h
    obtain ⟨u, hx, hu⟩ := h.1 s hs
    obtain ⟨t, hxs, ht⟩ := ih h.2 hu
    exact ⟨t, transformAllM_cons_eq_ok.2 ⟨_, u, _, hx, hxs, rfl⟩, ht⟩

theorem transformM_eq_rebuild {e : Expr} (h : e.Throughout (Rebuilds f step I)) (hs : I s) :
    ∃ t, e.transformM f s = .ok (e.rebuild step) t ∧ I t := by
  induction e using Expr.inductChildren generalizing s with
  | step e ih =>
    obtain ⟨u, hu, hI⟩ := transformAllM_eq_map (fun c hc s hs => ih c hc (h.child hc) hs) hs
    obtain ⟨t, ht, hI⟩ := h.here u hI
    rw [rebuild_eq]
    exact ⟨t, transformM_eq_ok.2 ⟨_, u, hu, ht⟩, hI⟩

end

end YeetYoink.Expr
