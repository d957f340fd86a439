import YeetYoink.Proofs.Eval.Programs
import YeetYoink.Proofs.Expr.Traversal
import YeetYoink.Proofs.Store.Updates
import YeetYoink.Session

/-!
# Expansion is substitution

A macro whose body only quotes an expression gives back that expression with its arguments in the
place of the unquoted parameters (`expansion_quote`). So a program that calls one such macro expands
to the program in which every call is replaced by the filled-in expression (`expand_quoted`).

Both replacements are stated of the program as it is written: `Expr.fill` and `Expr.expandCalls`
decide at each node by what the node was, not by what has become of it. That evaluation decides
alike needs the arguments not to bring in a callee, which is where the name `unquote` and the name
of the macro matter.
-/

namespace YeetYoink

namespace Expr

/-- Puts the arguments in the place of the unquoted names. -/
def fillStep (args : List (String × Expr)) (e : Expr) (ys : List Expr) : Expr :=
  match e with
  | .call (.ident "unquote") [.ident name] => (args.lookup name).getD (e.withChildren ys)
  | _ => e.withChildren ys

def fill (args : List (String × Expr)) (e : Expr) : Expr := e.rebuild (fillStep args)

/-- Puts the body, filled with the arguments, in the place of a call of the macro. -/
def expandStep (m : String) (params : List String) (body : Expr) (e : Expr)
    (ys : List Expr) : Expr :=
  match e with
  | .call (.ident name) _ => if name = m then body.fill (params.zip ys.tail) else e.withChildren ys
  | _ => e.withChildren ys

def expandCalls (m : String) (params : List String) (body : Expr) (e : Expr) : Expr :=
  e.rebuild (expandStep m params body)

/-- A call of `unquote` has one of the parameters as its only argument. -/
def Unquotes (params : List String) : Expr → Prop
  | .call (.ident "unquote") args => ∃ p ∈ params, args = [.ident p]
  | _ => True

/-- A call of the macro has `n` arguments. Neither `unquote` nor the macro itself is one of them, as
when the name of the macro is used for nothing but its calls. -/
def CallsMacro (m : String) (n : Nat) : Expr → Prop
  | .call (.ident name) args =>
    name = m → args.length = n ∧ .ident "unquote" ∉ args ∧ .ident m ∉ args
  | _ => True

theorem fill_eq (args : List (String × Expr)) (e : Expr) :
    e.fill args = fillStep args e (e.children.map (fill args)) := rebuild_eq _ e

theorem expandCalls_eq (m : String) (params : List String) (body e : Expr) :
    expandCalls m params body e =
      expandStep m params body e (e.children.map (expandCalls m params body)) :=
  rebuild_eq _ e

theorem withChildren_eq_ident {e : Expr} {ys : List Expr} {name : String}
    (h : e.withChildren ys = .ident name) : e = .ident name := by
  unfold withChildren at h
  split at h <;> first | exact h | cases h

theorem withChildren_eq_call {e c : Expr} {ys args : List Expr}
    (h : e.withChildren ys = .call c args) :
    ∃ c' args', e = .call c' args' := by
  unfold withChildren at h
  split at h <;> first | exact ⟨_, _, rfl⟩ | exact ⟨_, _, h⟩ | cases h

theorem fillStep_of_ne {args : List (String × Expr)} {e : Expr} {ys : List Expr}
    (h : ∀ as, e ≠ .call (.ident "unquote") as) : fillStep args e ys = e.withChildren ys := by
  unfold fillStep
  split
  · exact absurd rfl (h _)
  · rfl

theorem fill_ident (args : List (String × Expr)) (name : String) :
    (ident name).fill args = .ident name := by
  rw [fill_eq]
  rfl

/-- What is filled in to a name was one, or is one of the arguments. -/
theorem fill_eq_ident {args : List (String × Expr)} {e : Expr} {name : String}
    (h : e.fill args = .ident name) :
    e = .ident name ∨ ∃ p, args.lookup p = some (.ident name) := by
  rw [fill_eq] at h
  unfold fillStep at h
  split at h
  next p =>
    cases hp : args.lookup p with
    | none =>
      rw [hp, Option.getD_none] at h
      exact .inl (withChildren_eq_ident h)
    | some a =>
      rw [hp, Option.getD_some] at h
      exact .inr ⟨p, hp.trans (congrArg some h)⟩
  next => exact .inl (withChildren_eq_ident h)

theorem mem_of_lookup_zip {params : List String} {args : List Expr} {p : String} {a : Expr}
    (h : (params.zip args).lookup p = some a) : a ∈ args := by
  obtain ⟨l₁, l₂, hl, -⟩ := List.lookup_eq_some_iff.1 h
  exact (List.of_mem_zip (hl ▸ List.mem_append_right l₁ List.mem_cons_self)).2

/-- An expression that expands to `unquote` or to the macro's name was that name, unless the macro
makes it. -/
theorem expandCalls_eq_ident {m : String} {params : List String} {body e : Expr}
    {name : String} {n : Nat}
    (hname : name = "unquote" ∨ name = m) (hb : body ≠ .ident name)
    (he : e.Throughout (CallsMacro m n))
    (h : expandCalls m params body e = .ident name) : e = .ident name := by
  induction e using inductChildren with
  | step e ih =>
    rw [expandCalls_eq] at h
    unfold expandStep at h
    split at h
    next f args =>
      split at h
      next hf =>
        -- The name is an argument, of which the same is known.
        obtain hbody | ⟨p, hp⟩ := fill_eq_ident h
        · exact absurd hbody hb
        · obtain ⟨c, hc, hcn⟩ := List.mem_map.1 (mem_of_lookup_zip hp)
          have hc' : c ∈ (Expr.call (.ident f) args).children := List.mem_cons_of_mem _ hc
          obtain rfl := ih c hc' (he.child hc') hcn
          obtain ⟨-, hunquote, hself⟩ := he.here hf
          rcases hname with rfl | rfl
          · exact absurd hc hunquote
          · exact absurd hc hself
      next => exact withChildren_eq_ident h
    next => exact withChildren_eq_ident h

end Expr

/-! ### One call -/

section

variable {s : Store} {r : Ref .scope}

theorem Evaluator.unquote_of_ne {ev : Evaluator} {e : Expr}
    (h : ∀ x, e ≠ .call (.ident "unquote") [x]) :
    unquote ev r e = pure e := by
  unfold unquote
  split
  · exact absurd rfl (h _)
  · rfl

theorem Evaluator.unquote_param {n : Nat} {p : String} {a : Expr}
    (h : s.lookup? r p = some (.quote a)) :
    unquote (evaluate (n + 1)) r (.call (.ident "unquote") [.ident p]) s = .ok a s := by
  have hev : evaluate (n + 1) (.ident p) r s = .ok (.quote a) s := by
    rw [evaluate_succ, node, Eval.get_bind, Store.resolve, h]
    rfl
  simp only [unquote, bind, EStateM.bind, hev]
  rfl

open YeetYoink.Expr in
/-- Evaluation fills a quoted expression in, if no argument is the name `unquote`. -/
theorem Expr.rebuilds_fill {n : Nat} {params : List String} {args : List (String × Expr)} {e : Expr}
    (hl : ∀ p ∈ params, ∃ a, args.lookup p = some a ∧ s.lookup? r p = some (.quote a))
    (ha : ∀ p, args.lookup p ≠ some (.ident "unquote")) (he : e.Unquotes params) :
    Rebuilds (Evaluator.unquote (evaluate (n + 1)) r) (fillStep args) (· = s) e := by
  rintro _ rfl
  refine ⟨_, ?_, rfl⟩
  by_cases hc : ∃ as, e = .call (.ident "unquote") as
  · obtain ⟨as, rfl⟩ := hc
    obtain ⟨p, hp, rfl⟩ := he
    obtain ⟨a, hargs, hlook⟩ := hl p hp
    have hys : (Expr.call (.ident "unquote") [.ident p]).children.map (rebuild (fillStep args)) =
        [.ident "unquote", .ident p] := by
      show [fill args (.ident "unquote"), fill args (.ident p)] = _
      rw [fill_ident, fill_ident]
    rw [hys]
    simp only [fillStep, hargs, Option.getD_some, withChildren]
    exact Evaluator.unquote_param hlook
  · simp only [not_exists] at hc
    rw [fillStep_of_ne hc, Evaluator.unquote_of_ne]
    · rfl
    · -- The callee is no call of `unquote` that an argument could turn into the name.
      intro x hx
      obtain ⟨c, as, rfl⟩ := withChildren_eq_call hx
      have hcallee : c.fill args = .ident "unquote" := (Expr.call.inj hx).1
      obtain rfl | ⟨p, hp⟩ := fill_eq_ident hcallee
      · exact hc as rfl
      · exact ha p hp

theorem lookup_zip_quote (params : List String) (args : List Expr) (p : String) :
    (params.zip (args.map Value.quote)).lookup p = ((params.zip args).lookup p).map .quote := by
  induction params generalizing args with
  | nil => rfl
  | cons q params ih =>
    cases args with
    | nil => rfl
    | cons a args =>
      simp only [List.map_cons, List.zip_cons_cons, List.lookup_cons, ih]
      cases p == q <;> rfl

theorem exists_lookup_zip {params : List String} {args : List Expr}
    (hn : params.length = args.length)
    {p : String} (hp : p ∈ params) : ∃ a, (params.zip args).lookup p = some a := by
  have hfst : (params.zip args).map Prod.fst = params := List.map_fst_zip (Nat.le_of_eq hn)
  obtain ⟨b, hb, rfl⟩ := List.mem_map.1 (hfst ▸ hp)
  exact Option.isSome_iff_exists.1 (List.lookup_isSome_iff.2 ⟨b, hb, by simp⟩)

/-- The store in which the body of a macro is evaluated. -/
def Store.bindQuotes (s : Store) (f : Closure) (args : List Expr) : Store :=
  (s.enclose f.scope).2.bindAll (s.enclose f.scope).1 (f.params.zip (args.map .quote))

theorem Store.lookup?_bindQuotes {f : Closure} {args : List Expr} (hp : f.params.Nodup)
    (hn : f.params.length = args.length) {p : String} {a : Expr}
    (h : (f.params.zip args).lookup p = some a) :
    (s.bindQuotes f args).lookup? (s.enclose f.scope).1 p = some (.quote a) := by
  have hkeys : ((f.params.zip (args.map Value.quote)).map Prod.fst).Nodup := by
    rw [List.map_fst_zip (by simp [hn])]
    exact hp
  rw [lookup?_eq, bindQuotes, get?_bindAll _ (by simp [enclose, newScope]) hkeys,
    lookup_zip_quote, h]
  rfl

/-- A macro whose body quotes an expression returns the expression with its arguments filled in. -/
theorem Evaluator.expansion_quote {n : Nat} {name : String} {f : Closure} {body : Expr}
    {args : List Expr} (hf : f.body = [.call (.ident "quote") [body]]) (hp : f.params.Nodup)
    (hn : f.params.length = args.length) (hu : body.Throughout (Expr.Unquotes f.params))
    (ha : .ident "unquote" ∉ args ∨ body = .ident "unquote") :
    expansion (evaluate (n + 2)) name f args s =
      .ok (body.fill (f.params.zip args)) (s.bindQuotes f args) := by
  have hbody : body.transformM (unquote (evaluate (n + 1)) (s.enclose f.scope).1)
    (s.bindQuotes f args) =
      .ok (body.fill (f.params.zip args)) (s.bindQuotes f args) := by
    rcases ha with ha | rfl
    · have hl : ∀ p ∈ f.params, ∃ a, (f.params.zip args).lookup p = some a ∧
          (s.bindQuotes f args).lookup? (s.enclose f.scope).1 p = some (.quote a) := by
        intro p hmem
        obtain ⟨a, hl⟩ := exists_lookup_zip hn hmem
        exact ⟨a, hl, Store.lookup?_bindQuotes hp hn hl⟩
      have hr : body.Throughout (Expr.Rebuilds (unquote (evaluate (n + 1)) (s.enclose f.scope).1)
          (Expr.fillStep (f.params.zip args)) (· = s.bindQuotes f args)) :=
        hu.mono fun x hx => Expr.rebuilds_fill hl (fun p h => ha (Expr.mem_of_lookup_zip h)) hx
      obtain ⟨_, h, rfl⟩ := Expr.transformM_eq_rebuild hr rfl
      exact h
    · rw [Expr.fill_ident]
      rfl
  have hquote : evaluate (n + 2) (.call (.ident "quote") [body]) (s.enclose f.scope).1
      (s.bindQuotes f args) =
      .ok (.quote (body.fill (f.params.zip args))) (s.bindQuotes f args) := by
    simp only [evaluate_succ, node, call, quote, bind, EStateM.bind, hbody, pure, EStateM.pure]
  have henter : enter (evaluate (n + 2)) (.ident name) f (args.map .quote) s =
      .ok (.quote (body.fill (f.params.zip args))) (s.bindQuotes f args) := by
    rw [enter, if_pos (by simpa using hn)]
    show Eval.catchYeet (block (evaluate (n + 2)) (s.enclose f.scope).1 f.body)
      (s.bindQuotes f args) = _
    simp only [hf, Eval.catchYeet, block, sequence, bind, EStateM.bind, hquote, pure, EStateM.pure]
  simp only [expansion, bind, EStateM.bind, henter, pure, EStateM.pure]

end

/-! ### All calls -/

/-- A scope that binds one macro and nothing else, and lies in no other. -/
structure Store.OnlyMacro (r : Ref .scope) (m : String) (f : Closure) (s : Store) : Prop where
  made : r.index < s.scopes.size
  scope : s.scope r = { bindings := [(m, .macroFn f)] }

namespace Store.OnlyMacro

variable {s : Store} {r : Ref .scope} {m : String} {f : Closure} (h : s.OnlyMacro r m f)
include h

theorem macroNamed? (name : String) : s.macroNamed? r name = if name = m then some f else none := by
  have hl : s.lookup? r name = if name = m then some (.macroFn f) else none := by
    rw [lookup?_eq, next?, h.scope]
    by_cases hn : name = m
    · simp [Scope.get?, hn]
    · simp [Scope.get?, hn, List.lookup_cons, beq_false_of_ne hn]
  rw [Store.macroNamed?, hl]
  split_ifs <;> rfl

theorem bindQuotes (g : Closure) (args : List Expr) : (s.bindQuotes g args).OnlyMacro r m f where
  made := by simpa [Store.bindQuotes, enclose, newScope] using Nat.lt_succ_of_lt h.made
  scope := by
    have hne : r ≠ (s.enclose g.scope).1 := by
      rintro rfl
      exact Nat.lt_irrefl _ h.made
    rw [Store.bindQuotes, scope_bindAll_of_ne _ (by simp [enclose, newScope]) hne, enclose,
      scope_newScope_of_lt s _ h.made, h.scope]

end Store.OnlyMacro

section

open YeetYoink.Expr

variable {m : String} {r : Ref .scope} {f : Closure} {body : Expr} {n : Nat}

theorem Expr.expandCalls_ident (params : List String) (name : String) :
    expandCalls m params body (.ident name) = .ident name := by
  rw [expandCalls_eq]
  rfl

theorem Expr.expandStep_of_ne {params : List String} {x : Expr} {ys : List Expr}
    (h : ∀ args, x ≠ .call (.ident m) args) :
    expandStep m params body x ys = x.withChildren ys := by
  unfold expandStep
  split
  · rw [if_neg]
    rintro rfl
    exact h _ rfl
  · rfl

theorem Expr.rebuilds_expandCalls (hf : f.body = [.call (.ident "quote") [body]])
    (hp : f.params.Nodup)
    (hu : body.Throughout (Unquotes f.params)) (hm : body ≠ .ident m) {x : Expr}
    (hx : x.Throughout (CallsMacro m f.params.length)) :
    Rebuilds (Evaluator.expandCall (evaluate (n + 2)) r) (expandStep m f.params body)
      (Store.OnlyMacro r m f) x := by
  intro s hs
  by_cases hc : ∃ args, x = .call (.ident m) args
  · obtain ⟨args, rfl⟩ := hc
    obtain ⟨hn, hargs, -⟩ := hx.here rfl
    have hys : (Expr.call (.ident m) args).children.map (rebuild (expandStep m f.params body)) =
        .ident m :: args.map (expandCalls m f.params body) := by
      show expandCalls m f.params body (.ident m) :: _ = _
      rw [expandCalls_ident]
      rfl
    have hfill : .ident "unquote" ∉ args.map (expandCalls m f.params body) ∨
        body = .ident "unquote" := by
      by_cases hb : body = .ident "unquote"
      · exact .inr hb
      · refine .inl fun hmem => ?_
        obtain ⟨c, hcm, hce⟩ := List.mem_map.1 hmem
        have hchild := hx.child (List.mem_cons_of_mem (.ident m) hcm)
        exact hargs (expandCalls_eq_ident (.inl rfl) hb hchild hce ▸ hcm)
    have hmacro : s.macroNamed? r m = some f := by simp [hs.macroNamed?]
    refine ⟨s.bindQuotes f (args.map (expandCalls m f.params body)), ?_, hs.bindQuotes _ _⟩
    rw [hys, expandStep, if_pos rfl, withChildren, Evaluator.expandCall_of_named hmacro]
    exact Evaluator.expansion_quote hf hp (by simp [hn]) hu hfill
  · simp only [not_exists] at hc
    refine ⟨s, ?_, hs⟩
    rw [expandStep_of_ne hc]
    refine Evaluator.expandCall_of_none fun name args hcall => ?_
    rw [hs.macroNamed?, if_neg]
    rintro rfl
    -- A callee that has become the name of the macro was a call of it, and the macro makes no such
    -- name.
    obtain ⟨c, as, rfl⟩ := withChildren_eq_call hcall
    have hcallee : expandCalls name f.params body c = .ident name := (Expr.call.inj hcall).1
    have hchild := hx.child (c := c) List.mem_cons_self
    exact hc as (expandCalls_eq_ident (.inr rfl) hm hchild hcallee ▸ rfl)

end

namespace Session

/-- A program that calls a macro, and defines no other one, expands to the program with the calls
replaced. -/
theorem expand_quoted {m : String} {params : List String} {body : Expr} {p : Program}
    (hp : params.Nodup) (hu : body.Throughout (Expr.Unquotes params)) (hm : body ≠ .ident m)
    (hd : ∀ x ∈ p, ∀ name params body, x ≠ .assign .declare (.ident name) (.macroLit params body))
    (hc : ∀ x ∈ p, x.Throughout (Expr.CallsMacro m params.length)) :
    (Session.new.expand
        (.assign .declare (.ident m) (.macroLit params [.call (.ident "quote") [body]]) :: p)).1 =
      .ok (p.map (Expr.expandCalls m params body)) := by
  let f : Closure :=
    { params, body := [.call (.ident "quote") [body]], scope := new.root, identity := 0 }
  let s : Store := { new.store with bodies := 1 }.bind new.root m (.macroFn f)
  have hs : s.OnlyMacro new.root m f := ⟨Nat.zero_lt_one, rfl⟩
  have hdepth : depth = (depth - 2) + 2 := rfl
  have hx : ∀ x ∈ p, ∀ t, t.OnlyMacro new.root m f → ∃ u,
      x.transformM (Evaluator.expandCall (YeetYoink.evaluate depth) new.root) t =
        .ok (Expr.expandCalls m params body x) u ∧ u.OnlyMacro new.root m f := by
    intro x hx t ht
    rw [hdepth]
    exact Expr.transformM_eq_rebuild ((hc x hx).deep.mono fun y hy =>
      Expr.rebuilds_expandCalls (f := f) rfl hp hu hm hy) ht
  obtain ⟨t, ht, -⟩ := Expr.transformAllM_eq_map hx hs
  have hexpand : Program.expand depth new.root
      (.assign .declare (.ident m) (.macroLit params [.call (.ident "quote") [body]]) :: p)
      new.store =
        .ok (p.map (Expr.expandCalls m params body)) t := by
    show (Program.define new.root p >>= _) s = _
    rw [Program.define_of_ne hd, pure_bind, ht]
  rw [expand, perform, hexpand]

/-- A macro that branches, with a call of it among its arguments. -/
theorem expand_quoted_unless :
    (Session.new.expand
      [.assign .declare (.ident "unless") (.macroLit ["c", "a", "b"] [.call (.ident "quote")
        [.yif (.unary .bang (.call (.ident "unquote") [.ident "c"]))
          [.call (.ident "unquote") [.ident "a"]]
          (some [.call (.ident "unquote") [.ident "b"]])]]),
      .call (.ident "say") [.call (.ident "unless")
        [.ident "x", .int 1, .call (.ident "unless") [.bool true, .ident "y", .int 2]]]]).1 =
      .ok [.call (.ident "say") [.yif (.unary .bang (.ident "x")) [.int 1]
        (some [.yif (.unary .bang (.bool true)) [.ident "y"] (some [.int 2])])]] := by
  refine Eq.trans (expand_quoted ?nodup ?unquotes ?body ?defines ?calls) ?result
  case nodup => decide
  case unquotes => simp [Expr.Throughout, Expr.nodes, Expr.nodesAll, Expr.Unquotes]
  case body => simp
  case defines => simp
  case calls => simp [Expr.Throughout, Expr.nodes, Expr.nodesAll, Expr.CallsMacro]
  case result =>
    simp [Expr.expandCalls_eq, Expr.expandStep, Expr.fill_eq, Expr.fillStep, Expr.children,
      List.lookup_cons, Expr.withChildren]

end Session

end YeetYoink
