import YeetYoink.Proofs.Eval.Programs
import YeetYoink.Proofs.Expr.Traversal
import YeetYoink.Session

/-!
# Calls of macros that expansion leaves

Expansion goes over a program once, from the leaves to the root. `Expands` is this pass as a
relation: a node is rebuilt from what its children became, and then it stays or a macro is run in
its place. A macro's result is not looked into again, and a macro may change what names mean, so
calls of macros can be left (`prepare_leaves_calls`). They have no other source: each call of a
macro in a prepared program was put there by the result of a run, or a run made its name a macro
after it was passed (`prepare_leftover`).
-/

namespace YeetYoink

/-- A macro that is run in the place of a call. -/
structure MacroRun (ev : Evaluator) (root : Ref .scope) where
  name : String
  closure : Closure
  args : List Expr
  result : Expr
  before : Store
  after : Store
  named : before.macroNamed? root name = some closure
  returns : ev.expansion name closure args before = .ok result after

section

variable {ev : Evaluator} {root : Ref .scope}

/-- One pass over expressions, with the macros it runs. -/
inductive Expands : Store → List Expr → List (MacroRun ev root) → List Expr → Store → Prop
  | nil {s : Store} : Expands s [] [] [] s
  | keep {s u t : Store} {e : Expr} {es ys zs : List Expr} {runs runs' : List (MacroRun ev root)}
      (hc : Expands s e.children runs ys u)
      (hn : ∀ name args, e.withChildren ys = .call (.ident name) args →
        u.macroNamed? root name = none)
      (h : Expands u es runs' zs t) :
      Expands s (e :: es) (runs ++ runs') (e.withChildren ys :: zs) t
  | replace {s t : Store} {e : Expr} {es ys zs : List Expr} {runs runs' : List (MacroRun ev root)}
      (run : MacroRun ev root) (hc : Expands s e.children runs ys run.before)
      (hn : e.withChildren ys = .call (.ident run.name) run.args)
      (h : Expands run.after es runs' zs t) :
      Expands s (e :: es) (runs ++ run :: runs') (run.result :: zs) t

variable {s t : Store} {es zs : List Expr} {runs : List (MacroRun ev root)}

theorem exists_expandsAll {xs ys : List Expr}
    (h : ∀ x ∈ xs, ∀ s y u, x.transformM (ev.expandCall root) s = .ok y u →
      ∀ es (runs' : List (MacroRun ev root)) zs t, Expands u es runs' zs t →
        ∃ runs : List (MacroRun ev root), Expands s (x :: es) runs (y :: zs) t)
    (hxs : Expr.transformAllM (ev.expandCall root) xs s = .ok ys t) :
    ∃ runs : List (MacroRun ev root), Expands s xs runs ys t := by
  induction xs generalizing s ys with
  | nil =>
    obtain ⟨rfl, rfl⟩ := Expr.transformAllM_nil_eq_ok.1 hxs
    exact ⟨[], .nil⟩
  | cons x xs ih =>
    rw [List.forall_mem_cons] at h
    obtain ⟨y, u, zs, hx, hzs, rfl⟩ := Expr.transformAllM_cons_eq_ok.1 hxs
    obtain ⟨runs', hr⟩ := ih h.2 hzs
    exact h.1 s y u hx xs runs' zs t hr

theorem exists_expands {e y : Expr} {u : Store} (he : e.transformM (ev.expandCall root) s = .ok y u)
    {runs' : List (MacroRun ev root)} (h : Expands u es runs' zs t) :
    ∃ runs : List (MacroRun ev root), Expands s (e :: es) runs (y :: zs) t := by
  induction e using Expr.inductChildren generalizing s y u es runs' zs t with
  | step e ih =>
    obtain ⟨ys, w, hys, hy⟩ := Expr.transformM_eq_ok.1 he
    obtain ⟨runs, hr⟩ := exists_expandsAll (fun x hx s y u hxy es runs' zs t h => ih x hx hxy h) hys
    obtain ⟨rfl, rfl, hn⟩ | ⟨name, args, f, hcall, hf, hret⟩ := Evaluator.expandCall_cases hy
    · exact ⟨_, .keep hr hn h⟩
    · exact ⟨_, .replace ⟨name, f, args, y, w, u, hf, hret⟩ hr hcall h⟩

theorem expands_of_transformAllM {xs ys : List Expr}
    (h : Expr.transformAllM (ev.expandCall root) xs s = .ok ys t) :
    ∃ runs : List (MacroRun ev root), Expands s xs runs ys t :=
  exists_expandsAll (fun _ _ _ _ _ hx _ _ _ _ h => exists_expands hx h) h

/-- Why a call of a macro was not replaced: a run has put it into its result, where it is not from
an argument, or a run made its name a macro. -/
def Leftover (runs : List (MacroRun ev root)) (x : Expr) (name : String) : Prop :=
  (∃ run ∈ runs, x ∈ run.result.nodes ∧ ∀ a ∈ run.args, x ∉ a.nodes) ∨
    ∃ run ∈ runs, run.before.macroNamed? root name = none ∧ (run.after.macroNamed? root name).isSome

theorem Leftover.mono {runs' : List (MacroRun ev root)} {x : Expr} {name : String}
    (hsub : runs ⊆ runs') (h : Leftover runs x name) : Leftover runs' x name := by
  rcases h with ⟨run, hr, h⟩ | ⟨run, hr, h⟩
  · exact .inl ⟨run, hsub hr, h⟩
  · exact .inr ⟨run, hsub hr, h⟩

namespace Expands

theorem length_eq (h : Expands s es runs zs t) : zs.length = es.length := by
  induction h with
  | nil => rfl
  | keep _ _ _ _ ih | replace _ _ _ _ _ ih => simp [ih]

/-- Only a run makes a name a macro. -/
theorem exists_run_of_macroNamed? {name : String} (h : Expands s es runs zs t)
    (hs : s.macroNamed? root name = none) (ht : (t.macroNamed? root name).isSome) :
    ∃ run ∈ runs, run.before.macroNamed? root name = none ∧
      (run.after.macroNamed? root name).isSome := by
  induction h with
  | nil => simp [hs] at ht
  | @keep s u t _ _ _ _ _ _ hc _ h ihc ih =>
    cases hu : u.macroNamed? root name with
    | none =>
      obtain ⟨run, hr, hrun⟩ := ih hu ht
      exact ⟨run, List.mem_append_right _ hr, hrun⟩
    | some f =>
      obtain ⟨run, hr, hrun⟩ := ihc hs (by simp [hu])
      exact ⟨run, List.mem_append_left _ hr, hrun⟩
  | @replace s t _ _ _ _ _ _ run hc _ h ihc ih =>
    cases hb : run.before.macroNamed? root name with
    | some f =>
      obtain ⟨run, hr, hrun⟩ := ihc hs (by simp [hb])
      exact ⟨run, List.mem_append_left _ hr, hrun⟩
    | none =>
      cases ha : run.after.macroNamed? root name with
      | none =>
        obtain ⟨run, hr, hrun⟩ := ih ha ht
        exact ⟨run, List.mem_append_right _ (List.mem_cons_of_mem _ hr), hrun⟩
      | some f =>
        exact ⟨run, List.mem_append_right _ List.mem_cons_self, hb, by simp [ha]⟩

/-- Every call of a macro that is there in the end is left over. -/
theorem leftover (h : Expands s es runs zs t) :
    ∀ z ∈ zs, z.Throughout fun x => ∀ name args, x = .call (.ident name) args →
      (t.macroNamed? root name).isSome → Leftover runs x name := by
  induction h with
  | nil => nofun
  | @keep s u t e es ys zs runs runs' hc hn h ihc ih =>
    -- What is said of the children holds of the store before the rest of the pass.
    have hrest : ∀ x name, u.macroNamed? root name = none → (t.macroNamed? root name).isSome →
        Leftover (runs ++ runs') x name := fun x name hu ht =>
      .mono (List.subset_append_right ..) (.inr (h.exists_run_of_macroNamed? hu ht))
    refine List.forall_mem_cons.2 ⟨Expr.throughout_iff.2 ⟨?_, ?_⟩, ?_⟩
    · rw [Expr.children_withChildren hc.length_eq]
      refine fun c hmem => (ihc c hmem).mono fun x hx name args hcall ht => ?_
      cases hu : u.macroNamed? root name with
      | none => exact hrest x name hu ht
      | some f => exact .mono (List.subset_append_left ..) (hx name args hcall (by simp [hu]))
    · exact fun name args hcall ht => hrest _ name (hn name args hcall) ht
    · exact fun z hz => (ih z hz).mono fun x hx name args hcall ht =>
        .mono (List.subset_append_right ..) (hx name args hcall ht)
  | @replace s t e es ys zs runs runs' run hc hn h ihc ih =>
    have hsub : runs' ⊆ runs ++ run :: runs' :=
      List.Subset.trans (List.subset_cons_self run runs') (List.subset_append_right ..)
    have hys : ys = .ident run.name :: run.args := by
      rw [← Expr.children_withChildren hc.length_eq, hn, Expr.children]
    refine List.forall_mem_cons.2 ⟨fun x hx name args hcall ht => ?_, ?_⟩
    · by_cases ha : ∃ a ∈ run.args, x ∈ a.nodes
      · -- A call from an argument was passed before the run.
        obtain ⟨a, hmem, hxa⟩ := ha
        cases hb : run.before.macroNamed? root name with
        | some f =>
          have hchild := ihc a (hys ▸ List.mem_cons_of_mem _ hmem) x hxa name args hcall
          exact .mono (List.subset_append_left ..) (hchild (by simp [hb]))
        | none =>
          cases hafter : run.after.macroNamed? root name with
          | some f =>
            exact .inr ⟨run, List.mem_append_right _ List.mem_cons_self, hb, by simp [hafter]⟩
          | none => exact .mono hsub (.inr (h.exists_run_of_macroNamed? hafter ht))
      · simp only [not_exists, not_and] at ha
        exact .inl ⟨run, List.mem_append_right _ List.mem_cons_self, hx, ha⟩
    · exact fun z hz => (ih z hz).mono fun x hx name args hcall ht =>
        .mono hsub (hx name args hcall ht)

end Expands

end

/-- A call of a macro has no value: it fails as soon as its arguments have theirs. -/
theorem evaluate_macro_call {n : Nat} {s u : Store} {r : Ref .scope} {name : String}
    {args : List Expr} {vs : List Value} (hm : (s.macroNamed? r name).isSome) (hq : name ≠ "quote")
    (hv : Evaluator.values (evaluate (n + 1)) r args s = .ok vs u) :
    evaluate (n + 2) (.call (.ident name) args) r s =
      .error (.failed (.notFunction .macroFn)) u := by
  obtain ⟨f, hf⟩ : ∃ f, s.lookup? r name = some (.macroFn f) := by
    unfold Store.macroNamed? at hm
    split at hm
    · exact ⟨_, by assumption⟩
    · simp at hm
  have hcallee : evaluate (n + 1) (.ident name) r s = .ok (.macroFn f) s := by
    rw [evaluate_succ, Evaluator.node, Eval.get_bind, Store.resolve, hf]
    rfl
  rw [evaluate_succ, Evaluator.node, Evaluator.call]
  · simp only [bind, EStateM.bind, hcallee, hv]
    rfl
  · exact fun hname => hq (Expr.ident.inj hname)

namespace Session

/-- One macro returns a call of the other. -/
def nesting : String :=
  "a := @\\x \x7b quote(unquote(x)) \x7d; b := @\\ \x7b quote(a(1)) \x7d; b()"

/-- A name is a macro before and after its call, but not when its call is passed. -/
def rebinding : String :=
  "x := @\\ \x7b quote(1) \x7d; y := @\\ \x7b x = 5; quote(2) \x7d; " ++
    "z := @\\ \x7b x = @\\ \x7b quote(1) \x7d; quote(3) \x7d; y(); x(); z()"

theorem nesting_leaves_call : (match new.prepare nesting with
    | (.ok [.call (.ident "a") args], s) => (s.store.macroNamed? s.root "a").isSome &&
      match (s.evaluate [.call (.ident "a") args]).1 with
      | .error (.runtime (.notFunction .macroFn)) => true
      | _ => false
    | _ => false) = true := by
  decide +kernel

theorem rebinding_leaves_call : (match new.prepare rebinding with
    | (.ok [.int 2, .call (.ident "x") _, .int 3], s) => (s.store.macroNamed? s.root "x").isSome
    | _ => false) = true := by
  decide +kernel

theorem prepare_nesting : ∃ args s, new.prepare nesting = (.ok [.call (.ident "a") args], s) ∧
    (s.store.macroNamed? s.root "a").isSome ∧
    (s.evaluate [.call (.ident "a") args]).1 = .error (.runtime (.notFunction .macroFn)) := by
  have hcheck := nesting_leaves_call
  split at hcheck
  · rename_i args s hp
    rw [Bool.and_eq_true_iff] at hcheck
    refine ⟨args, s, hp, hcheck.1, ?_⟩
    have he := hcheck.2
    split at he
    · assumption
    · cases he
  · cases hcheck

/-- Expansion does not replace all calls of macros: the first source leaves one that fails when it
is evaluated. -/
theorem prepare_leaves_calls :
    (∃ args s, new.prepare nesting = (.ok [.call (.ident "a") args], s) ∧
      (s.store.macroNamed? s.root "a").isSome ∧
      (s.evaluate [.call (.ident "a") args]).1 = .error (.runtime (.notFunction .macroFn))) ∧
    ∃ args s, new.prepare rebinding = (.ok [.int 2, .call (.ident "x") args, .int 3], s) ∧
      (s.store.macroNamed? s.root "x").isSome := by
  refine ⟨prepare_nesting, ?_⟩
  have hcheck := rebinding_leaves_call
  split at hcheck
  · rename_i args s hp
    exact ⟨args, s, hp, hcheck⟩
  · cases hcheck

/-- A call of a macro in a prepared program is left over from the runs of macros. Evaluating it
fails. -/
theorem prepare_leftover {s s' : Session} {source : String} {p : Program}
    (h : s.prepare source = (.ok p, s')) :
    ∃ q kept defined, Program.parse source = .ok q ∧ q.define s.root s.store = .ok kept defined ∧
      ∃ runs : List (MacroRun (YeetYoink.evaluate depth) s'.root),
        Expands defined kept runs p s'.store ∧
        ∀ x ∈ p, x.Throughout fun y => ∀ name args, y = .call (.ident name) args →
          (s'.store.macroNamed? s'.root name).isSome →
            Leftover runs y name ∧
            (name ≠ "quote" → ∀ n vs u,
              Evaluator.values (YeetYoink.evaluate (n + 1)) s'.root args s'.store = .ok vs u →
              YeetYoink.evaluate (n + 2) y s'.root s'.store =
              .error (.failed (.notFunction .macroFn)) u) := by
  unfold prepare at h
  split at h
  · rename_i q hparse
    unfold expand perform at h
    split at h
    · rename_i p' store hx
      obtain ⟨hp, rfl⟩ := Prod.mk.inj h
      cases hp
      obtain ⟨kept, defined, hdefine, hpass⟩ := Expr.bind_eq_ok.1 hx
      obtain ⟨runs, hruns⟩ := expands_of_transformAllM hpass
      refine ⟨q, kept, defined, hparse, hdefine, runs, hruns, fun x hxp => ?_⟩
      refine (hruns.leftover x hxp).mono fun y hy name args hcall hm => ⟨hy name args hcall hm, ?_⟩
      rintro hq n vs u hv
      subst hcall
      exact evaluate_macro_call hm hq hv
    · cases (Prod.mk.inj h).1
  · cases (Prod.mk.inj h).1

/-- The call that the second macro of `nesting` returns. -/
theorem prepare_leftover_nesting :
    ∃ args s, new.prepare nesting = (.ok [.call (.ident "a") args], s) ∧
    ∃ kept defined, ∃ runs : List (MacroRun (YeetYoink.evaluate depth) s.root),
      Expands defined kept runs [.call (.ident "a") args] s.store ∧
        Leftover runs (.call (.ident "a") args) "a" := by
  obtain ⟨args, s, hp, hm, -⟩ := prepare_nesting
  obtain ⟨-, kept, defined, -, -, runs, hruns, hleft⟩ := prepare_leftover hp
  have hcall := (hleft _ List.mem_cons_self).here "a" args rfl hm
  exact ⟨args, s, hp, kept, defined, runs, hruns, hcall.1⟩

end Session

end YeetYoink
