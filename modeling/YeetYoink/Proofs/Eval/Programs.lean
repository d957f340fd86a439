import YeetYoink.Expansion
import YeetYoink.Proofs.Eval.Nodes

/-!
# Macros under a discipline

What defining and replacing do at one expression (`define_cons`, `expandCall_cases`). Binding the
macros of a program and replacing their calls relate to themselves, so a whole source does.
-/

namespace YeetYoink

theorem Eval.get_bind {α : Type} (f : Store → Eval α) (s : Store) : (get >>= f) s = f s s := rfl

theorem Program.define_cons {r : Ref .scope} {x : Expr} {xs : Program}
    (h : ¬ ∃ name params body, x = .assign .declare (.ident name) (.macroLit params body)) :
    define r (x :: xs) = do
      let xs ← define r xs
      return x :: xs := by
  rw [define]
  rintro name params body rfl
  exact h ⟨name, params, body, rfl⟩

/-- A program without definitions of macros stays as it is. -/
theorem Program.define_of_ne {r : Ref .scope} {p : Program}
    (h : ∀ x ∈ p, ∀ name params body, x ≠ .assign .declare (.ident name) (.macroLit params body)) :
    define r p = pure p := by
  induction p with
  | nil => rfl
  | cons x xs ih =>
    obtain ⟨hx, hxs⟩ := List.forall_mem_cons.1 h
    rw [define_cons (by simpa using hx), ih hxs]
    rfl

theorem Evaluator.expandCall_of_not_named {ev : Evaluator} {r : Ref .scope} {x : Expr}
    (h : ∀ name args, x ≠ .call (.ident name) args) : expandCall ev r x = pure x := by
  unfold expandCall
  split
  · exact absurd rfl (h _ _)
  · rfl

theorem Evaluator.expandCall_of_named {ev : Evaluator} {s : Store} {r : Ref .scope} {name : String}
    {f : Closure} (h : s.macroNamed? r name = some f) (args : List Expr) :
    expandCall ev r (.call (.ident name) args) s = expansion ev name f args s := by
  rw [expandCall, Eval.get_bind, h]

theorem Evaluator.expandCall_of_none {ev : Evaluator} {s : Store} {r : Ref .scope} {x : Expr}
    (h : ∀ name args, x = .call (.ident name) args → s.macroNamed? r name = none) :
    expandCall ev r x s = .ok x s := by
  by_cases hc : ∃ name args, x = .call (.ident name) args
  · obtain ⟨name, args, rfl⟩ := hc
    rw [expandCall, Eval.get_bind, h name args rfl]
    rfl
  · simp only [not_exists] at hc
    rw [expandCall_of_not_named hc]
    rfl

/-- A node stays unless it is a call of a macro. -/
theorem Evaluator.expandCall_cases {ev : Evaluator} {s t : Store} {r : Ref .scope} {x y : Expr}
    (h : expandCall ev r x s = .ok y t) :
    (y = x ∧ t = s ∧ ∀ name args, x = .call (.ident name) args → s.macroNamed? r name = none) ∨
      ∃ name args f, x = .call (.ident name) args ∧ s.macroNamed? r name = some f ∧
        expansion ev name f args s = .ok y t := by
  by_cases hm : ∃ name args f, x = .call (.ident name) args ∧ s.macroNamed? r name = some f
  · obtain ⟨name, args, f, rfl, hf⟩ := hm
    rw [expandCall_of_named hf] at h
    exact .inr ⟨name, args, f, rfl, hf, h⟩
  · have hn : ∀ name args, x = .call (.ident name) args → s.macroNamed? r name = none :=
      fun name args hx => Option.eq_none_iff_forall_ne_some.2 fun f hf => hm ⟨name, args, f, hx, hf⟩
    rw [expandCall_of_none hn] at h
    cases h
    exact .inl ⟨rfl, rfl, hn⟩

namespace Discipline.Steady

variable {D : Discipline} (hD : D.Steady) {ev ev' : Evaluator} {w : D.World} {r q : Ref .scope}
include hD

theorem relates_define {p : Program} (hr : D.SameScope w r q) (hp : ∀ x ∈ p, x.Throughout D.Node) :
    D.Relates w (Program.define r p) (Program.define q p)
      fun _ a b => (∀ x ∈ a, x.Throughout D.Node) ∧ b = a := by
  induction p generalizing w with
  | nil => exact hD.relates_pure ⟨by simp, rfl⟩
  | cons x xs ih =>
    obtain ⟨hx, hxs⟩ := List.forall_mem_cons.1 hp
    by_cases hm : ∃ name params body, x = .assign .declare (.ident name) (.macroLit params body)
    · obtain ⟨name, params, body, rfl⟩ := hm
      have hc := (Expr.throughout_iff.1 hx).1
      simp only [Expr.children, List.forall_mem_cons] at hc
      obtain ⟨-, hlit, -⟩ := hc
      obtain ⟨ho, rfl⟩ := hr
      refine hD.relates_bind (hD.relates_newMacro hlit.here.1 (hD.known_of_open ho) hlit.here.2
        (Expr.throughout_iff.1 hlit).1) fun w₁ v u h₁ hv => ?_
      have hr₁ : D.SameScope w₁ r (D.rename r) := ⟨hD.open_mono h₁ ho, rfl⟩
      refine hD.relates_bind (hD.relates_declare hr₁ (hx.here.2 name rfl) hv) fun w₂ _ _ h₂ _ => ?_
      exact ih (hD.scope_mono h₂ hr₁) hxs
    · rw [Program.define_cons hm, Program.define_cons hm]
      refine hD.relates_bind (ih hr hxs) fun w₁ ys zs _ hys => ?_
      obtain ⟨hys, rfl⟩ := hys
      exact hD.relates_pure ⟨List.forall_mem_cons.2 ⟨hx, hys⟩, rfl⟩

/-- A name means a macro in both runs or in neither. -/
theorem macroNamed?_rename (hr : D.SameScope w r q) {name : String} (hn : D.Name name) :
    (∃ f, (D.left w).macroNamed? r name = some f ∧ D.ValidClosure w f ∧
      (D.right w).macroNamed? q name = some (f.rename D.rename)) ∨
    (D.left w).macroNamed? r name = none ∧ (D.right w).macroNamed? q name = none := by
  obtain ⟨ho, rfl⟩ := hr
  have hk := hD.known_of_open ho
  unfold Store.macroNamed?
  cases hl : (D.left w).lookup? r name with
  | none =>
    obtain h | ⟨-, h, -⟩ := hD.lookup_none hk hn hl
    · exact .inr ⟨rfl, by rw [h]⟩
    · exact .inr ⟨rfl, by rw [h]⟩
  | some v =>
    rw [hD.lookup_some hk hn hl]
    have hv := hD.valid_of_lookup? hl
    cases v with
    | macroFn f => exact .inl ⟨f, rfl, hv.2, rfl⟩
    | _ => exact .inr ⟨rfl, rfl⟩

theorem relates_expansion (hev : D.Follows ev ev') (name : String) {f : Closure} {args : List Expr}
    (hf : D.ValidClosure w f) (ha : ∀ x ∈ args, x.Throughout D.Node) :
    D.Relates w (Evaluator.expansion ev name f args)
      (Evaluator.expansion ev' name (f.rename D.rename) args) D.SameExpr := by
  have hq : D.SameAll w (args.map .quote) (args.map .quote) := by
    refine ⟨?_, by simp⟩
    simpa [Valid] using ha
  refine hD.relates_bind (hD.relates_enter hev (.ident name) hf hq) fun w₁ v u _ hv => ?_
  obtain ⟨hv, rfl⟩ := hv
  cases v with
  | quote x => exact hD.relates_pure ⟨hv, rfl⟩
  | _ => exact hD.relates_fail id

theorem relates_expandCall (hev : D.Follows ev ev') {x : Expr} (hr : D.SameScope w r q)
    (hx : x.Throughout D.Node) :
    D.Relates w (Evaluator.expandCall ev r x) (Evaluator.expandCall ev' q x) D.SameExpr := by
  by_cases hc : ∃ name args, x = .call (.ident name) args
  · obtain ⟨name, args, rfl⟩ := hc
    have hname : D.Name name := (hx.child (c := .ident name) List.mem_cons_self).here
    refine relates_get ?_
    obtain ⟨f, hl, hf, hq⟩ | ⟨hl, hq⟩ := hD.macroNamed?_rename hr hname
    · rw [hl, hq]
      exact hD.relates_expansion hev name hf fun a ha => hx.child (List.mem_cons_of_mem _ ha)
    · rw [hl, hq]
      exact hD.relates_pure ⟨hx, rfl⟩
  · simp only [not_exists] at hc
    rw [Evaluator.expandCall_of_not_named hc, Evaluator.expandCall_of_not_named hc]
    exact hD.relates_pure ⟨hx, rfl⟩

theorem relates_expand (hev : D.Follows ev ev') {p : Program} (hr : D.SameScope w r q)
    (hp : ∀ x ∈ p, x.Throughout D.Node) :
    D.Relates w (do Expr.transformAllM (Evaluator.expandCall ev r) (← Program.define r p))
      (do Expr.transformAllM (Evaluator.expandCall ev' q) (← Program.define q p)) fun _ a b =>
        (∀ x ∈ a, x.Throughout D.Node) ∧ b = a := by
  refine hD.relates_bind (hD.relates_define hr hp) fun w₁ xs ys h₁ hxs => ?_
  obtain ⟨hxs, rfl⟩ := hxs
  have hc : D.Rewrites (Evaluator.expandCall ev r) (Evaluator.expandCall ev' q) w₁ :=
    { other x hx := ⟨Evaluator.expandCall_of_not_named fun _ => hx _,
        Evaluator.expandCall_of_not_named fun _ => hx _⟩
      relates w' hle x hx := hD.relates_expandCall hev (hD.scope_mono (hD.trans h₁ hle) hr) hx }
  exact hD.relates_rewriteAll fun w' hle x hm => hD.relates_transformM (hc.mono hD hle) (hxs x hm)

end Discipline.Steady

end YeetYoink
