import YeetYoink.Expr.Print
import YeetYoink.Proofs.Expr.Traversal

/-!
# Transforming, one level at a time

Transforming an expression is transforming its children and then the node made of the results
(`transform_eq`). What `mapChildren` keeps is therefore kept by every transformation whose function
keeps it. A function with effects that changes neither nodes nor the state changes no expression
(`transformM_of_fixed`).
-/

namespace YeetYoink.Expr

def mapChildren (f : Expr → Expr) : Expr → Expr
  | .template text values => .template text (values.map f)
  | .array items => .array (items.map f)
  | .dict pairs => .dict (pairs.map fun p => (f p.1, f p.2))
  | .range first last => .range (f first) (f last)
  | .unary op operand => .unary op (f operand)
  | .binary op left right => .binary op (f left) (f right)
  | .and left right => .and (f left) (f right)
  | .or left right => .or (f left) (f right)
  | .index container key => .index (f container) (f key)
  | .call callee args => .call (f callee) (args.map f)
  | .assign kind target value => .assign kind (f target) (f value)
  | .block body => .block (body.map f)
  | .yif condition body otherwise => .yif (f condition) (body.map f) (otherwise.map (·.map f))
  | .yoyo condition body => .yoyo (f condition) (body.map f)
  | .yall key source body => .yall key (f source) (body.map f)
  | .yeet value => .yeet (f value)
  | .yolo body => .yolo (body.map f)
  | .lambda params body => .lambda params (body.map f)
  | .macroLit params body => .macroLit params (body.map f)
  | .ident name => .ident name
  | .int n => .int n
  | .num x => .num x
  | .bool b => .bool b
  | .null => .null
  | .str text => .str text
  | .bad token => .bad token

theorem children_mapChildren (f : Expr → Expr) (e : Expr) :
    (e.mapChildren f).children = e.children.map f := by
  cases e with
  | dict pairs => simp [mapChildren, children, List.flatMap_map, List.map_flatMap]
  | yif condition body otherwise => cases otherwise <;> simp [mapChildren, children]
  | _ => simp [mapChildren, children]

theorem transformAllM_eq (f : Expr → Expr) (xs : List Expr) :
    Id.run (transformAllM (fun y => pure (f y)) xs) = xs.map (transform f) := by
  induction xs with
  | nil => rfl
  | cons x xs ih => rw [List.map_cons, ← ih]; rfl

theorem transformPairsM_eq (f : Expr → Expr) (ps : List (Expr × Expr)) :
    Id.run (transformPairsM (fun y => pure (f y)) ps) =
      ps.map fun p => (transform f p.1, transform f p.2) := by
  induction ps with
  | nil => rfl
  | cons p ps ih => rw [List.map_cons, ← ih]; rfl

theorem transform_eq (f : Expr → Expr) (e : Expr) :
    e.transform f = f (e.mapChildren (transform f)) := by
  cases e with
  | yif condition body otherwise =>
    cases otherwise <;> simp only [mapChildren, Option.map, ← transformAllM_eq] <;> rfl
  | dict pairs => simp only [mapChildren, ← transformPairsM_eq]; rfl
  | _ => simp only [mapChildren, ← transformAllM_eq]; rfl

theorem print_mapChildren {f : Expr → Expr} {e : Expr}
    (h : ∀ c ∈ e.children, (f c).print = c.print) :
    (e.mapChildren f).print = e.print := by
  have hall : ∀ xs : List Expr, (∀ x ∈ xs, (f x).print = x.print) →
      printAll (xs.map f) = printAll xs := by
    intro xs hx
    induction xs with
    | nil => rfl
    | cons x xs ih =>
      rw [List.forall_mem_cons] at hx
      rw [List.map_cons, printAll, printAll, hx.1, ih hx.2]
  cases e with
  | dict pairs =>
    have hpairs : printPairs (pairs.map fun p => (f p.1, f p.2)) = printPairs pairs := by
      clear hall
      induction pairs with
      | nil => rfl
      | cons p ps ih =>
        simp only [children, List.flatMap_cons, List.forall_mem_append,
          List.forall_mem_cons] at h ih
        rw [List.map_cons, printPairs, printPairs, h.1.1, h.1.2.1, ih h.2]
    rw [mapChildren, print, print, hpairs]
  | yif condition body otherwise =>
    cases otherwise with
    | none =>
      simp only [children, List.forall_mem_cons] at h
      simp only [mapChildren, Option.map, print, h.1, hall body h.2]
    | some otherwise =>
      simp only [children, List.forall_mem_cons, List.forall_mem_append] at h
      simp only [mapChildren, Option.map, print, h.1, hall body h.2.1, hall otherwise h.2.2]
  | _ => simp_all [mapChildren, children, print]

section

variable {ε σ : Type} {f : Expr → EStateM ε σ Expr} {s : σ}

theorem transformAllM_of_fixed {xs : List Expr} (h : ∀ x ∈ xs, x.transformM f s = .ok x s) :
    transformAllM f xs s = .ok xs s := by
  induction xs with
  | nil => rfl
  | cons x xs ih =>
    obtain ⟨hx, hxs⟩ := List.forall_mem_cons.1 h
    simp only [transformAllM, bind, EStateM.bind, hx, ih hxs, pure, EStateM.pure]

/-- A function that changes neither a node nor the store changes no expression. -/
theorem transformM_of_fixed (h : ∀ x, f x s = .ok x s) (e : Expr) : e.transformM f s = .ok e s := by
  induction e using Expr.inductChildren with
  | step e ih =>
    refine transformM_eq_ok.2 ⟨e.children, s, transformAllM_of_fixed ih, ?_⟩
    rw [withChildren_children, h]

end

end YeetYoink.Expr
