import YeetYoink.Expr.Transform
import YeetYoink.Proofs.Eval.Discipline

/-!
# Rewriting expressions under a discipline

Quoting replaces the calls of `unquote` inside an expression and expansion the calls of macros, from
the leaves to the root. A function that changes calls only, and gives well-formed nodes for them,
gives a well-formed expression when it is applied all over one: targets of assignments are no calls,
so they stay targets, and names among them stay the names they are.
-/

namespace YeetYoink

theorem Expr.not_call_of_isTarget {kind : AssignKind} {x : Expr} (h : IsTarget kind x) :
    ∀ c args, x ≠ .call c args := by
  rintro c args rfl
  cases kind <;> exact h

namespace Discipline

variable (D : Discipline)

/-- Both runs have one expression, of well-formed nodes. -/
def SameExpr (_ : D.World) (x y : Expr) : Prop := x.Throughout D.Node ∧ y = x

/-- A target became a target, and if it is a name, the same one. -/
def StaysTarget (x y : Expr) : Prop :=
  ∀ kind, Expr.IsTarget kind x →
    Expr.IsTarget kind y ∧ ∀ name, y = .ident name → x = .ident name

def Rewritten (x : Expr) (w : D.World) (y z : Expr) : Prop :=
  D.SameExpr w y z ∧ StaysTarget x y

/-- Functions that change calls only. -/
structure Rewrites (f g : Expr → Eval Expr) (w : D.World) : Prop where
  other : ∀ x, (∀ c args, x ≠ .call c args) → f x = pure x ∧ g x = pure x
  relates : ∀ w', D.Le w w' → ∀ x, x.Throughout D.Node → D.Relates w' (f x) (g x) D.SameExpr

variable {D}

/-- What is no place of an assignment is no target. -/
theorem staysTarget_of_not {x y : Expr} (h : ∀ kind, ¬ Expr.IsTarget kind x) : StaysTarget x y :=
  fun kind hk => absurd hk (h kind)

theorem staysTarget_refl (x : Expr) : StaysTarget x x := fun _ hk => ⟨hk, fun _ => id⟩

theorem Rewrites.mono (hD : D.Steady) {f g : Expr → Eval Expr} {w w' : D.World}
    (h : D.Rewrites f g w) (hle : D.Le w w') : D.Rewrites f g w' where
  other := h.other
  relates w'' hle' := h.relates w'' (hD.trans hle hle')

namespace Steady

variable (hD : D.Steady) {f g : Expr → Eval Expr} {w : D.World}
include hD

/-- The last step at a node, whose children have been rewritten. -/
theorem relates_rewriteNode {x y : Expr} (h : D.Rewrites f g w)
    (hy : ∀ c ∈ y.children, c.Throughout D.Node) (hn : D.Node y) (ht : StaysTarget x y) :
    D.Relates w (f y) (g y) (D.Rewritten x) := by
  have hy : y.Throughout D.Node := Expr.throughout_iff.2 ⟨hy, hn⟩
  by_cases hx : ∃ kind, Expr.IsTarget kind x
  · obtain ⟨kind, hx⟩ := hx
    obtain ⟨hf, hg⟩ := h.other y (Expr.not_call_of_isTarget (ht kind hx).1)
    rw [hf, hg]
    exact hD.relates_pure ⟨⟨hy, rfl⟩, ht⟩
  · exact (h.relates w (hD.refl w) y hy).mono fun w' a b _ hab =>
      ⟨hab, staysTarget_of_not fun kind hk => hx ⟨kind, hk⟩⟩

theorem relates_rewriteAll {xs : List Expr}
    (hx : ∀ w', D.Le w w' → ∀ x ∈ xs, D.Relates w' (x.transformM f) (x.transformM g)
      (D.Rewritten x)) :
    D.Relates w (Expr.transformAllM f xs) (Expr.transformAllM g xs) fun _ ys zs =>
      (∀ y ∈ ys, y.Throughout D.Node) ∧ zs = ys := by
  induction xs generalizing w with
  | nil => exact hD.relates_pure ⟨by simp, rfl⟩
  | cons x xs ih =>
    refine hD.relates_bind (hx w (hD.refl w) x List.mem_cons_self) fun w₁ y z h₁ hy => ?_
    refine hD.relates_bind (ih fun w' hle x hm => ?_) fun w₂ ys zs h₂ hys => ?_
    · exact hx w' (hD.trans h₁ hle) x (List.mem_cons_of_mem _ hm)
    · obtain ⟨⟨hy, rfl⟩, -⟩ := hy
      obtain ⟨hys, rfl⟩ := hys
      exact hD.relates_pure ⟨List.forall_mem_cons.2 ⟨hy, hys⟩, rfl⟩

theorem relates_rewritePairs {ps : List (Expr × Expr)}
    (hp : ∀ w', D.Le w w' → ∀ p ∈ ps, ∀ x ∈ [p.1, p.2],
      D.Relates w' (x.transformM f) (x.transformM g) (D.Rewritten x)) :
    D.Relates w (Expr.transformPairsM f ps) (Expr.transformPairsM g ps) fun _ ys zs =>
      (∀ y ∈ ys.flatMap fun p => [p.1, p.2], y.Throughout D.Node) ∧ zs = ys := by
  induction ps generalizing w with
  | nil => exact hD.relates_pure ⟨by simp, rfl⟩
  | cons p ps ih =>
    have hhere := fun w' hle => hp w' hle p List.mem_cons_self
    refine hD.relates_bind (hhere w (hD.refl w) p.1 (by simp)) fun w₁ y z h₁ hy => ?_
    refine hD.relates_bind (hhere w₁ h₁ p.2 (by simp)) fun w₂ y' z' h₂ hy' => ?_
    have hle := hD.trans h₁ h₂
    refine hD.relates_bind (ih fun w' hle' p hm => ?_) fun w₃ ys zs h₃ hys => ?_
    · exact hp w' (hD.trans hle hle') p (List.mem_cons_of_mem _ hm)
    · obtain ⟨⟨hy, rfl⟩, -⟩ := hy
      obtain ⟨⟨hy', rfl⟩, -⟩ := hy'
      obtain ⟨hys, rfl⟩ := hys
      refine hD.relates_pure ⟨?_, rfl⟩
      simp only [List.flatMap_cons, List.cons_append, List.nil_append, List.forall_mem_cons]
      exact ⟨hy, hy', hys⟩

/-- The only child of a node. -/
theorem relates_rewriteOne {x₁ : Expr} {m : Expr → Expr} {x : Expr} (h : D.Rewrites f g w)
    (hx : ∀ w', D.Le w w' → ∀ c ∈ [x₁],
      D.Relates w' (c.transformM f) (c.transformM g) (D.Rewritten c))
    (hc : ∀ y, (m y).children = [y]) (hn : ∀ y, D.Node (m y))
    (ht : ∀ kind, ¬ Expr.IsTarget kind x) :
    D.Relates w (do f (m (← x₁.transformM f))) (do g (m (← x₁.transformM g))) (D.Rewritten x) := by
  refine hD.relates_bind (hx w (hD.refl w) x₁ List.mem_cons_self) fun w₁ y z h₁ hy => ?_
  obtain ⟨⟨hy, rfl⟩, -⟩ := hy
  refine hD.relates_rewriteNode (h.mono hD h₁) ?_ (hn _) (staysTarget_of_not ht)
  rw [hc]
  exact List.forall_mem_singleton.2 hy

/-- Two children of a node. -/
theorem relates_rewriteTwo {x₁ x₂ : Expr} {m : Expr → Expr → Expr} {x : Expr} (h : D.Rewrites f g w)
    (hx : ∀ w', D.Le w w' → ∀ c ∈ [x₁, x₂],
      D.Relates w' (c.transformM f) (c.transformM g) (D.Rewritten c))
    (hc : ∀ y₁ y₂, (m y₁ y₂).children = [y₁, y₂])
    (hn : ∀ y₁ y₂, y₁.Throughout D.Node → StaysTarget x₁ y₁ → D.Node (m y₁ y₂))
    (ht : ∀ y₁ y₂, StaysTarget x (m y₁ y₂)) :
    D.Relates w (do f (m (← x₁.transformM f) (← x₂.transformM f)))
      (do g (m (← x₁.transformM g) (← x₂.transformM g))) (D.Rewritten x) := by
  refine hD.relates_bind (hx w (hD.refl w) x₁ (by simp)) fun w₁ y₁ z₁ h₁ hy₁ => ?_
  refine hD.relates_bind (hx w₁ h₁ x₂ (by simp)) fun w₂ y₂ z₂ h₂ hy₂ => ?_
  obtain ⟨⟨hy₁, rfl⟩, hk⟩ := hy₁
  obtain ⟨⟨hy₂, rfl⟩, -⟩ := hy₂
  refine hD.relates_rewriteNode (h.mono hD (hD.trans h₁ h₂)) ?_ (hn _ _ hy₁ hk) (ht _ _)
  rw [hc]
  simp only [List.forall_mem_cons]
  exact ⟨hy₁, hy₂, by simp⟩

/-- A list of children of a node. -/
theorem relates_rewriteList {xs : List Expr} {m : List Expr → Expr} {x : Expr}
    (h : D.Rewrites f g w) (hx : ∀ w', D.Le w w' → ∀ c ∈ xs,
      D.Relates w' (c.transformM f) (c.transformM g) (D.Rewritten c))
    (hc : ∀ ys, (m ys).children = ys) (hn : ∀ ys, D.Node (m ys))
    (ht : ∀ kind, ¬ Expr.IsTarget kind x) :
    D.Relates w (do f (m (← Expr.transformAllM f xs))) (do g (m (← Expr.transformAllM g xs)))
      (D.Rewritten x) := by
  refine hD.relates_bind (hD.relates_rewriteAll hx) fun w₁ ys zs h₁ hys => ?_
  obtain ⟨hys, rfl⟩ := hys
  exact hD.relates_rewriteNode (h.mono hD h₁) (by rwa [hc]) (hn _) (staysTarget_of_not ht)

/-- A child of a node and then a list of them. -/
theorem relates_rewriteCons {x₁ : Expr} {xs : List Expr} {m : Expr → List Expr → Expr} {x : Expr}
    (h : D.Rewrites f g w)
    (hx : ∀ w', D.Le w w' → ∀ c ∈ x₁ :: xs,
      D.Relates w' (c.transformM f) (c.transformM g) (D.Rewritten c))
    (hc : ∀ y ys, (m y ys).children = y :: ys) (hn : ∀ y ys, D.Node (m y ys))
    (ht : ∀ kind, ¬ Expr.IsTarget kind x) :
    D.Relates w (do f (m (← x₁.transformM f) (← Expr.transformAllM f xs)))
      (do g (m (← x₁.transformM g) (← Expr.transformAllM g xs))) (D.Rewritten x) := by
  refine hD.relates_bind (hx w (hD.refl w) x₁ List.mem_cons_self) fun w₁ y z h₁ hy => ?_
  refine hD.relates_bind (hD.relates_rewriteAll fun w' hle c hm => ?_) fun w₂ ys zs h₂ hys => ?_
  · exact hx w' (hD.trans h₁ hle) c (List.mem_cons_of_mem _ hm)
  · obtain ⟨⟨hy, rfl⟩, -⟩ := hy
    obtain ⟨hys, rfl⟩ := hys
    refine hD.relates_rewriteNode (h.mono hD (hD.trans h₁ h₂)) ?_ (hn _ _) (staysTarget_of_not ht)
    rw [hc]
    exact List.forall_mem_cons.2 ⟨hy, hys⟩

theorem relates_transformM {x : Expr} (h : D.Rewrites f g w) (hx : x.Throughout D.Node) :
    D.Relates w (x.transformM f) (x.transformM g) (D.Rewritten x) := by
  induction x using Expr.inductChildren generalizing w with
  | step x ih =>
    have hn := hx.here
    -- The children relate in every later world.
    replace ih : ∀ w', D.Le w w' → ∀ c ∈ x.children,
        D.Relates w' (c.transformM f) (c.transformM g) (D.Rewritten c) :=
      fun w' hle c hc => ih c hc (h.mono hD hle) (hx.child hc)
    cases x with
    | template text values =>
      exact hD.relates_rewriteList (m := .template text) h ih (fun _ => rfl) (fun _ => trivial)
        (by rintro ⟨⟩ ⟨⟩)
    | array items =>
      exact hD.relates_rewriteList h ih (fun _ => rfl) (fun _ => trivial) (by rintro ⟨⟩ ⟨⟩)
    | dict pairs =>
      refine hD.relates_bind (hD.relates_rewritePairs fun w' hle p hp c hc => ?_)
        fun w₁ ys zs h₁ hys => ?_
      · exact ih w' hle c (List.mem_flatMap.2 ⟨p, hp, hc⟩)
      · obtain ⟨hys, rfl⟩ := hys
        exact hD.relates_rewriteNode (h.mono hD h₁) hys trivial
          (staysTarget_of_not (by rintro ⟨⟩ ⟨⟩))
    | range first last =>
      exact hD.relates_rewriteTwo h ih (fun _ _ => rfl) (fun _ _ _ _ => trivial)
        (fun _ _ => staysTarget_of_not (by rintro ⟨⟩ ⟨⟩))
    | unary op operand =>
      exact hD.relates_rewriteOne (m := .unary op) h ih (fun _ => rfl) (fun _ => trivial)
        (by rintro ⟨⟩ ⟨⟩)
    | binary op left right =>
      exact hD.relates_rewriteTwo (m := .binary op) h ih (fun _ _ => rfl) (fun _ _ _ _ => trivial)
        (fun _ _ => staysTarget_of_not (by rintro ⟨⟩ ⟨⟩))
    | and left right =>
      exact hD.relates_rewriteTwo h ih (fun _ _ => rfl) (fun _ _ _ _ => trivial)
        (fun _ _ => staysTarget_of_not (by rintro ⟨⟩ ⟨⟩))
    | or left right =>
      exact hD.relates_rewriteTwo h ih (fun _ _ => rfl) (fun _ _ _ _ => trivial)
        (fun _ _ => staysTarget_of_not (by rintro ⟨⟩ ⟨⟩))
    | index container key =>
      refine hD.relates_rewriteTwo h ih (fun _ _ => rfl) (fun _ _ _ _ => trivial)
        fun _ _ kind ht => ?_
      refine ⟨by cases kind <;> exact ht, fun _ hname => ?_⟩
      cases hname
    | call callee args =>
      exact hD.relates_rewriteCons h ih (fun _ _ => rfl) (fun _ _ => trivial) (by rintro ⟨⟩ ⟨⟩)
    | assign kind target value =>
      refine hD.relates_rewriteTwo h ih (fun _ _ => rfl) (fun y₁ y₂ hy₁ ht => ⟨?_, ?_⟩)
        (fun _ _ => staysTarget_of_not (by rintro ⟨⟩ ⟨⟩))
      · exact hn.1.imp (fun hk => (ht kind hk).1) id
      · rintro name rfl
        obtain hk | hm := hn.1
        · exact hn.2 name ((ht kind hk).2 name rfl)
        · exact ⟨hy₁.here, .inl (D.parts_of_malformed hm)⟩
    | block body =>
      exact hD.relates_rewriteList h ih (fun _ => rfl) (fun _ => trivial) (by rintro ⟨⟩ ⟨⟩)
    | yif condition body otherwise =>
      cases otherwise with
      | none =>
        exact hD.relates_rewriteCons h ih (fun _ _ => rfl) (fun _ _ => trivial) (by rintro ⟨⟩ ⟨⟩)
      | some otherwise =>
        simp only [Expr.children, List.mem_cons, List.mem_append] at ih
        refine hD.relates_bind (ih w (hD.refl w) condition (.inl rfl)) fun w₁ y z h₁ hy => ?_
        refine hD.relates_bind (hD.relates_rewriteAll fun w' hle c hc => ?_)
          fun w₂ ys zs h₂ hys => ?_
        · exact ih w' (hD.trans h₁ hle) c (.inr (.inl hc))
        have hle := hD.trans h₁ h₂
        refine hD.relates_bind (hD.relates_rewriteAll fun w' hle' c hc => ?_)
          fun w₃ us vs h₃ hus => ?_
        · exact ih w' (hD.trans hle hle') c (.inr (.inr hc))
        · obtain ⟨⟨hy, rfl⟩, -⟩ := hy
          obtain ⟨hys, rfl⟩ := hys
          obtain ⟨hus, rfl⟩ := hus
          refine hD.relates_rewriteNode (h.mono hD (hD.trans hle h₃)) ?_ trivial
            (staysTarget_of_not (by rintro ⟨⟩ ⟨⟩))
          exact List.forall_mem_cons.2 ⟨hy, List.forall_mem_append.2 ⟨hys, hus⟩⟩
    | yoyo condition body =>
      exact hD.relates_rewriteCons h ih (fun _ _ => rfl) (fun _ _ => trivial) (by rintro ⟨⟩ ⟨⟩)
    | yall key source body =>
      exact hD.relates_rewriteCons (m := .yall key) h ih (fun _ _ => rfl) (fun _ _ => hn)
        (by rintro ⟨⟩ ⟨⟩)
    | yeet value =>
      exact hD.relates_rewriteOne h ih (fun _ => rfl) (fun _ => trivial) (by rintro ⟨⟩ ⟨⟩)
    | yolo body =>
      exact hD.relates_rewriteList h ih (fun _ => rfl) (fun _ => trivial) (by rintro ⟨⟩ ⟨⟩)
    | lambda params body =>
      exact hD.relates_rewriteList (m := .lambda params) h ih (fun _ => rfl) (fun _ => hn)
        (by rintro ⟨⟩ ⟨⟩)
    | macroLit params body =>
      exact hD.relates_rewriteList (m := .macroLit params) h ih (fun _ => rfl) (fun _ => hn)
        (by rintro ⟨⟩ ⟨⟩)
    | _ =>
      simp only [Expr.transformM]
      exact hD.relates_rewriteNode h (by simp [Expr.children]) hn (staysTarget_refl _)

end Steady

end Discipline

end YeetYoink
