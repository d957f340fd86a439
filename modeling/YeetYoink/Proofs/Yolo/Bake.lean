import YeetYoink.Proofs.Eval.Calls
import YeetYoink.Proofs.Eval.Guarded
import YeetYoink.Proofs.Session.Runs

/-!
# Functions with a value for their first parameter

In yolo a function plus a value is the function with its first parameter bound, in one new scope
around the frames of all its calls. A call of the function itself binds the parameter in the frame.
Names mean the same in both frames, so both calls do the same, as long as the parameter is given no
other value in the scope that the calls share (`Guarded.evaluate`); the scope then stays as it is
for the calls that follow.
-/

namespace YeetYoink

namespace Yolo

open Evaluator Guarded

/-- Names that are bound in a scope around the frames of a function. -/
structure Prebound (s : Store) (scope outer : Ref .scope) (bs : List (String × Value)) : Prop where
  bindings : s.scope scope = { bindings := bs, outer := some outer }
  lt : outer.index < scope.index
  made : scope.index < s.scopes.size

namespace Prebound

variable {s s' : Store} {scope outer : Ref .scope} {bs : List (String × Value)}
  (h : Prebound s scope outer bs)
include h

theorem next? : s.next? scope.index = some outer :=
  s.next?_eq_some (congrArg Scope.outer h.bindings) h.lt

theorem lookup? (name : String) :
    s.lookup? scope name = (bs.lookup name).or (s.lookup? outer name) := by
  have heq := s.lookup?_eq scope.index name
  rw [h.next?] at heq
  exact heq.trans (congrArg (fun x : Scope => (x.get? name).or _) h.bindings)

theorem holder? (name : String) :
    s.holder? scope name =
      if (bs.lookup name).isSome then some scope else s.holder? outer name := by
  have heq := s.holder?_eq scope.index name
  rw [h.next?] at heq
  exact heq.trans (congrArg (fun x : Scope => if x.binds name then _ else _) h.bindings)

theorem congr (hs : s'.scopes = s.scopes) : Prebound s' scope outer bs where
  bindings := by rw [Store.scope, hs]; exact h.bindings
  lt := h.lt
  made := by rw [hs]; exact h.made

theorem enclose (r : Ref .scope) : Prebound (s.enclose r).2 scope outer bs where
  bindings := (s.scope_newScope_of_lt _ h.made).trans h.bindings
  lt := h.lt
  made := by rw [Store.size_enclose]; exact Nat.lt_succ_of_lt h.made

theorem bind {r : Ref .scope} (hr : r ≠ scope) (name : String) (v : Value) :
    Prebound (s.bind r name v) scope outer bs where
  bindings := (s.scope_bind_of_ne hr.symm name v).trans h.bindings
  lt := h.lt
  made := by rw [Store.size_bind]; exact h.made

end Prebound

/-- Two stores with a frame each: names that are bound around the frame in the left one are bound in
the frame in the right one. -/
structure Baked (scope outer frame : Ref .scope) (bs : List (String × Value)) (s t : Store) :
    Prop where
  prebound : Prebound s scope outer bs
  rest : t = { s with scopes := t.scopes }
  size : t.scopes.size = s.scopes.size
  lt : scope.index < frame.index
  made : frame.index < s.scopes.size
  left : (s.scope frame).outer = some scope
  right : (t.scope frame).outer = some outer
  get? : ∀ k, (t.scope frame).get? k = ((s.scope frame).get? k).or (bs.lookup k)
  others : ∀ q, q ≠ frame → t.scope q = s.scope q

namespace Baked

variable {scope outer frame : Ref .scope} {bs : List (String × Value)} {s t : Store}

section

variable (h : Baked scope outer frame bs s t)
include h

theorem next?_left : s.next? frame.index = some scope := s.next?_eq_some h.left h.lt

theorem outer_lt : outer.index < frame.index := Nat.lt_trans h.prebound.lt h.lt

theorem next?_right : t.next? frame.index = some outer := t.next?_eq_some h.right h.outer_lt

theorem scope_others {i : Nat} (hi : i ≠ frame.index) : t.scope ⟨i⟩ = s.scope ⟨i⟩ :=
  h.others ⟨i⟩ fun he => hi (congrArg Ref.index he)

theorem next?_others {i : Nat} (hi : i ≠ frame.index) : t.next? i = s.next? i := by
  rw [Store.next?, Store.next?, h.scope_others hi]

/-- A name means the same on both sides: the frame and the scope around it are searched one after
the other on the left, and both at once on the right. -/
theorem lookup? (r : Ref .scope) (name : String) : t.lookup? r name = s.lookup? r name := by
  obtain ⟨i⟩ := r
  induction i using Nat.strongRecOn with
  | ind i ih =>
    rw [Store.lookup?_eq, Store.lookup?_eq s]
    by_cases hi : i = frame.index
    · subst hi
      have houter : t.lookup? outer name = s.lookup? outer name := ih outer.index h.outer_lt
      rw [h.next?_left, h.next?_right, h.get?, Option.or_assoc, Option.bind_some,
        Option.bind_some, houter, h.prebound.lookup?]
    · rw [h.next?_others hi, h.scope_others hi]
      cases hn : s.next? i with
      | none => rfl
      | some q =>
        have hlt : q.index < i := Store.lt_of_next? hn
        rw [Option.bind_some, Option.bind_some, ih q.index hlt]

/-- A name that is not bound in the scope around the frame is bound in the same scope on both sides.
-/
theorem holder? (r : Ref .scope) (name : String) (hr : s.holder? r name ≠ some scope) :
    t.holder? r name = s.holder? r name := by
  obtain ⟨i⟩ := r
  induction i using Nat.strongRecOn with
  | ind i ih =>
    rw [Store.holder?_eq] at hr
    rw [Store.holder?_eq, Store.holder?_eq s]
    by_cases hi : i = frame.index
    · subst hi
      rw [h.next?_left, Option.bind_some, h.prebound.holder?] at hr ⊢
      rw [h.next?_right, Option.bind_some, Scope.binds, h.get?, Option.isSome_or]
      -- The name is bound in the left frame, or in the scope around it, or outside of both.
      cases hl : (s.scope ⟨frame.index⟩).binds name with
      | true => simp [show ((s.scope frame).get? name).isSome = true from hl]
      | false =>
        rw [hl] at hr
        rw [show ((s.scope frame).get? name).isSome = false from hl]
        cases hb : (bs.lookup name).isSome with
        | true => exact absurd (by rw [hb]; rfl) hr
        | false =>
          rw [hb] at hr
          exact ih outer.index h.outer_lt hr
    · rw [h.next?_others hi, h.scope_others hi]
      split
      · rfl
      next hb =>
        rw [if_neg hb] at hr
        cases hn : s.next? i with
        | none => rfl
        | some q =>
          have hlt : q.index < i := Store.lt_of_next? hn
          rw [hn] at hr
          exact ih q.index hlt hr

/-- What leaves the scopes alone. -/
theorem congr {s' t' : Store} (ht : t' = { s' with scopes := t'.scopes })
    (hs' : s'.scopes = s.scopes)
    (ht' : t'.scopes = t.scopes) : Baked scope outer frame bs s' t' := by
  have hs : ∀ q, s'.scope q = s.scope q := fun q => by rw [Store.scope, Store.scope, hs']
  have ht₁ : ∀ q, t'.scope q = t.scope q := fun q => by rw [Store.scope, Store.scope, ht']
  exact {
    prebound := h.prebound.congr hs'
    rest := ht
    size := by rw [hs', ht', h.size]
    lt := h.lt
    made := by rw [hs']; exact h.made
    left := by rw [hs, h.left]
    right := by rw [ht₁, h.right]
    get? k := by rw [hs, ht₁, h.get?]
    others q hq := by rw [hs, ht₁, h.others q hq] }

theorem enclose (r : Ref .scope) : Baked scope outer frame bs (s.enclose r).2 (t.enclose r).2 := by
  have hs : (s.enclose r).2.scope frame = s.scope frame := s.scope_newScope_of_lt _ h.made
  have ht : (t.enclose r).2.scope frame = t.scope frame :=
    t.scope_newScope_of_lt _ (h.size ▸ h.made)
  exact {
    prebound := h.prebound.enclose r
    rest := congrArg (fun u => (Store.enclose u r).2) h.rest
    size := by rw [Store.size_enclose, Store.size_enclose, h.size]
    lt := h.lt
    made := by rw [Store.size_enclose]; exact Nat.lt_succ_of_lt h.made
    left := by rw [hs, h.left]
    right := by rw [ht, h.right]
    get? k := by rw [hs, ht, h.get?]
    others q hq := by
      rw [Store.enclose, Store.enclose, Store.scope_newScope_eq, Store.scope_newScope_eq, h.size,
        h.others q hq] }

theorem bind {r : Ref .scope} (hr : r ≠ scope) (name : String) (v : Value) :
    Baked scope outer frame bs (s.bind r name v) (t.bind r name v) where
  prebound := h.prebound.bind hr name v
  rest := congrArg (fun u => Store.bind u r name v) h.rest
  size := by rw [Store.size_bind, Store.size_bind, h.size]
  lt := h.lt
  made := by rw [Store.size_bind]; exact h.made
  left := by rw [Store.outer_bind, h.left]
  right := by rw [Store.outer_bind, h.right]
  get? k := by
    by_cases hf : frame = r
    · subst hf
      rw [Store.scope_bind _ (h.size ▸ h.made), Store.scope_bind _ h.made, if_pos rfl, if_pos rfl,
        Scope.get?_set, Scope.get?_set, h.get?]
      split <;> rfl
    · rw [Store.scope_bind_of_ne _ hf, Store.scope_bind_of_ne _ hf, h.get?]
  others q hq := by
    by_cases hm : r.index < s.scopes.size
    · rw [Store.scope_bind _ (h.size ▸ hm), Store.scope_bind _ hm, h.others q hq]
      split
      next he => rw [← he, h.others q hq]
      next => rfl
    · have hle := Nat.le_of_not_lt hm
      rw [Store.bind_of_le _ (h.size ▸ hle), Store.bind_of_le _ hle, h.others q hq]

end

theorem twin : Twin scope (Baked scope outer frame bs) where
  rest := rest
  size := size
  made h := h.prebound.made
  lookup? := lookup?
  holder? := holder?
  congr h := h.congr
  enclose h := h.enclose
  bind h _ name v hr := h.bind hr name v

end Baked

/-! ### Calls -/

section

variable {s t : Store} {f : Closure} {p : String} {ps : List String} {v : Value}
    {scope : Ref .scope}

/-- The frames of a call with the first argument bound before, and of a call with all arguments. -/
theorem Prebound.framed (hs : Prebound s scope f.scope [(p, v)]) (hf : f.params = p :: ps)
    (args : List Value) :
    Baked scope f.scope (s.frame f) [(p, v)] (s.framed { f with params := ps, scope } args)
      (s.framed f (v :: args)) := by
  have hleft := s.scope_framed { f with params := ps, scope } args
  have hright := s.scope_framed f (v :: args)
  exact {
    prebound :=
      { bindings := by rw [Store.scope_framed_of_lt _ _ _ hs.made, hs.bindings]
        lt := hs.lt
        made := by rw [Store.size_framed]; exact Nat.lt_succ_of_lt hs.made }
    rest := by rw [Store.framed_eq, Store.framed_eq]; rfl
    size := by rw [Store.size_framed, Store.size_framed]
    lt := hs.made
    made := by rw [Store.size_framed]; exact Nat.lt_succ_self _
    left := congrArg Scope.outer hleft
    right := congrArg Scope.outer hright
    get? k := by
      have hzip : f.params.zip (v :: args) = (p, v) :: ps.zip args := by rw [hf, List.zip_cons_cons]
      rw [hright, hzip]
      refine Eq.trans ?_ (congrArg (fun x : Scope => (x.get? k).or _) hleft.symm)
      rw [Scope.get?, Scope.get?, Scope.lookup_insertAll, Scope.lookup_insertAll, List.reverse_cons,
        List.lookup_append, List.lookup_nil, Option.or_none, Option.or_none]
    others q hq := by
      rw [Store.framed_eq, Store.framed_eq, Store.scope_newScope_eq, Store.scope_newScope_eq]
      have hi : q.index ≠ s.scopes.size := fun hi => hq (Store.ref_eq hi)
      rw [if_neg hi, if_neg hi] }

/-- A call with the first argument bound before does what a call with all arguments does. -/
theorem Prebound.ends_enter (hs : Prebound s scope f.scope [(p, v)]) (hf : f.params = p :: ps)
    {args : List Value} (ha : args.length = ps.length) {alarm : EvalError} {n : Nat} {callee : Expr}
    (hg : stopped alarm (enter (Guarded.evaluate scope alarm n) callee
      { f with params := ps, scope } args s) = false) :
    Ends (Baked scope f.scope (s.frame f) [(p, v)])
      (enter (evaluate n) callee { f with params := ps, scope } args s)
      (enter (evaluate n) callee f (v :: args) s) := by
  have hself := eq_of_ends ((twin_kept scope _).ends_enter ⟨rfl, hs.made, rfl⟩ hg)
  have hall : f.params.length = (v :: args).length := by
    rw [hf, List.length_cons, List.length_cons, ha]
  rw [hself, enter_eq _ _ hall]
  rw [enter_eq _ _ ha.symm] at hg ⊢
  refine Baked.twin.ends_body (hs.framed hf args) (fun he => ?_) hg
  exact Nat.ne_of_gt hs.made (congrArg Ref.index he)

/-- Runs that are not stopped leave the names as they are. -/
theorem Prebound.ended {outer : Ref .scope} {bs : List (String × Value)}
    (hs : Prebound s scope outer bs)
    {a b : EStateM.Result Stop Store Value} (h : Ends (Kept scope (s.scope scope)) a b) :
    Prebound (ended b) scope outer bs := by
  have hk := kept_ended h
  rw [hk.same]
  exact ⟨hk.scope.trans hs.bindings, hs.lt, hk.made⟩

/-- The stores that are reached by calls of a function and other code, with no name in the scope
around the function given another value. -/
inductive Spared (g : Closure) (s : Store) : Store → Prop where
  | start : Spared g s s
  | call {t : Store} (alarm : EvalError) (n : Nat) (callee : Expr) (args : List Value)
      (ht : Spared g s t)
      (h : stopped alarm (enter (Guarded.evaluate g.scope alarm n) callee g args t) = false) :
      Spared g s (Guarded.ended (enter (evaluate n) callee g args t))
  | code {t : Store} (alarm : EvalError) (n : Nat) (x : Expr) {r : Ref .scope} (hr : r ≠ g.scope)
      (ht : Spared g s t) (h : stopped alarm (Guarded.evaluate g.scope alarm n x r t) = false) :
      Spared g s (Guarded.ended (evaluate n x r t))

theorem Spared.prebound {g : Closure} {outer : Ref .scope} {bs : List (String × Value)}
    (hs : Prebound s g.scope outer bs) (ht : Spared g s t) : Prebound t g.scope outer bs := by
  induction ht with
  | start => exact hs
  | call alarm n callee args _ h ih =>
    exact ih.ended ((twin_kept _ _).ends_enter ⟨rfl, ih.made, rfl⟩ h)
  | code alarm n x hr _ h ih =>
    exact ih.ended ((twin_kept _ _).ends_evaluate ⟨rfl, ih.made, rfl⟩ hr h)

theorem binary_plus (hv : v.kind ∉ [.null, .array, .dict, .function]) :
    Yolo.binary .plus (.function f) v = bake f v := by
  cases v with
  | null | array | dict | function => simp [Value.kind] at hv
  | _ => rfl

theorem fillParams_eq (hv : v.kind ∉ [.null, .array, .dict, .function]) (hf : f.params = p :: ps) :
    fillParams s f.params v = ([(p, v)], ps) := by
  rw [hf]
  cases v with
  | null | array | dict | function => simp [Value.kind] at hv
  | _ => rfl

/-- A function plus a value has its first parameter bound in a scope of its own. -/
theorem exists_prebound (hf : f.params = p :: ps) (hm : f.scope.index < s.scopes.size)
    (hv : v.kind ∉ [.null, .array, .dict, .function]) :
    ∃ scope t, Yolo.binary .plus (.function f) v s =
      .ok (.function { f with params := ps, scope }) t ∧
      Prebound t scope f.scope [(p, v)] := by
  have hnull : v ≠ .null := by
    rintro rfl
    exact hv (by decide)
  have hbake : bake f v s = .ok (.function { f with params := ps, scope := (s.enclose f.scope).1 })
      ((s.enclose f.scope).2.bindAll (s.enclose f.scope).1 [(p, v)]) := by
    have hfill := fillParams_eq (s := (s.enclose f.scope).2) hv hf
    rw [bake_eq hnull]
    change EStateM.Result.ok (Value.function { f with
        params := (fillParams (s.enclose f.scope).2 f.params v).2, scope := (s.enclose f.scope).1 })
      ((s.enclose f.scope).2.bindAll (s.enclose f.scope).1
        (fillParams (s.enclose f.scope).2 f.params v).1) = _
    rw [hfill]
  have hmade : (s.enclose f.scope).2.bindAll (s.enclose f.scope).1 [(p, v)] =
      (s.newScope { bindings := [(p, v)], outer := some f.scope }).2 :=
    s.bindAll_newScope { outer := some f.scope } [(p, v)]
  refine ⟨_, _, (congrFun (binary_plus hv) s).trans hbake, ?_⟩
  rw [hmade]
  exact ⟨s.scope_newScope _, hm, by simp [Store.enclose, Store.newScope]⟩

/-- A function plus a value takes the arguments that are left. As long as its first parameter is
given no other value by the calls of it, each call gives the value, the error and the output that a
call of the function with the value in front would give, or reaches the bound on depth with it,
however many calls there were before. -/
theorem partial_application (hf : f.params = p :: ps) (hm : f.scope.index < s.scopes.size)
    (hv : v.kind ∉ [.null, .array, .dict, .function]) :
    ∃ g s₁, Yolo.binary .plus (.function f) v s = .ok (.function g) s₁ ∧
      ∀ t, Spared g s₁ t → ∀ n callee args,
        (∀ alarm, args.length = ps.length →
          stopped alarm (enter (Guarded.evaluate g.scope alarm n) callee g args t) = false →
          Ends (Baked g.scope f.scope (t.frame f) [(p, v)]) (enter (evaluate n) callee g args t)
            (enter (evaluate n) callee f (v :: args) t)) ∧
        (args.length ≠ ps.length → ∃ e e',
          enter (evaluate n) callee g args t = .error (.failed e) t ∧
          enter (evaluate n) callee f (v :: args) t = .error (.failed e') t) := by
  obtain ⟨scope, s₁, hbinary, hs⟩ := exists_prebound hf hm hv
  refine ⟨_, s₁, hbinary, fun t ht n callee args => ⟨fun alarm ha hg => ?_, fun ha => ?_⟩⟩
  · exact (ht.prebound hs).ends_enter hf ha hg
  · have hall : f.params.length ≠ (v :: args).length := by
      rw [hf, List.length_cons, List.length_cons]
      exact fun h => ha (Nat.succ.inj h).symm
    rw [enter, enter, if_neg (Ne.symm ha), if_neg hall]
    exact ⟨_, _, rfl, rfl⟩

end

/-- A function that declares its first parameter anew. -/
def tally : Closure where
  params := ["x", "y"]
  body := [.assign .declare (.ident "x") (.binary .plus (.ident "x") (.ident "y")), .ident "x"]
  scope := ⟨0⟩
  identity := 0

/-- A yolo scope. -/
def yard : Store where
  scopes := #[{ bindings := [(Store.yoloMark, .bool true)] }]

/-- The second of two calls. -/
theorem partial_application_tally :
    ∃ g s₁, Yolo.binary .plus (.function tally) (.int 1) yard = .ok (.function g) s₁ ∧
      ∃ t, t = Guarded.ended (enter (evaluate 5) (.ident "g") g [.int 2] s₁) ∧ Spared g s₁ t ∧
        Ends (Baked g.scope tally.scope (t.frame tally) [("x", .int 1)])
          (enter (evaluate 5) (.ident "g") g [.int 4] t)
          (enter (evaluate 5) (.ident "g") tally [.int 1, .int 4] t) ∧
        ∃ u, enter (evaluate 5) (.ident "g") g [.int 4] t = .ok (.int 5) u := by
  have hparams : tally.params = "x" :: ["y"] := rfl
  obtain ⟨g, s₁, hplus, hcalls⟩ := partial_application (s := yard) (v := .int 1) hparams (by decide)
    (by decide)
  have ht : Spared g s₁ (Guarded.ended (enter (evaluate 5) (.ident "g") g [.int 2] s₁)) := by
    refine .call .badExpression 5 (.ident "g") [.int 2] .start ?_
    cases hplus
    decide +kernel
  refine ⟨g, s₁, hplus, _, rfl, ht, ?_, Eval.exists_of_gives ?_⟩
  · refine (hcalls _ ht 5 (.ident "g") [.int 4]).1 .badExpression rfl ?_
    cases hplus
    decide +kernel
  · cases hplus
    decide +kernel

end Yolo

namespace Session

/-- The second call finds what the first one made of the parameter. -/
theorem bake_shares :
    answer? "yolo \x7b f := \\x, y \x7b x = x + 1; x + y \x7d; g := f + 1; g(0); g(0) \x7d" =
      some "3" ∧
      answer? "yolo \x7b f := \\x, y \x7b x = x + 1; x + y \x7d; g := f + 1; g(0); f(1, 0) \x7d" =
        some "2" := by
  decide +kernel

end Session

end YeetYoink
