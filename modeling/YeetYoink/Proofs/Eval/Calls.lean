import YeetYoink.Proofs.Eval.Programs
import YeetYoink.Proofs.Store.Updates

/-!
# Entering functions

A call evaluates the body of a function in a new scope, its frame, that binds the arguments and lies
in the scope of the function. `Store.framed` is the store with which the body begins.
-/

namespace YeetYoink

namespace Eval

variable {α β : Type} {x : Eval α} {f : α → Eval β} {s t : Store}

theorem bind_ok {a : α} (h : x s = .ok a t) : (x >>= f) s = f a t := by
  simp only [bind, EStateM.bind, h]

theorem bind_error {e : Stop} (h : x s = .error e t) : (x >>= f) s = .error e t := by
  simp only [bind, EStateM.bind, h]

theorem bind_congr {y : Eval α} (h : x s = y s) : (x >>= f) s = (y >>= f) s := by
  simp only [bind, EStateM.bind, h]

theorem bind_ne_yeet {f : α → Eval Value} {v : Value} (hx : ∀ t, x s ≠ .error (.yeet v) t)
    (hf : ∀ a t u, f a t ≠ .error (.yeet v) u) : (x >>= f) s ≠ .error (.yeet v) t := by
  cases h : x s with
  | ok a u =>
    rw [bind_ok h]
    exact hf a u t
  | error e u =>
    rw [bind_error h]
    rintro ⟨⟩
    exact hx _ h

/-- What comes out of a function is no longer on its way out. -/
theorem catchYeet_ne_yeet (x : Eval Value) (s t : Store) (v : Value) :
    catchYeet x s ≠ .error (.yeet v) t := by
  unfold catchYeet
  split
  · exact fun h => by cases h
  next h => exact h v t

theorem catchYeet_congr {x y : Eval Value} (h : x s = y t) : catchYeet x s = catchYeet y t := by
  rw [catchYeet, catchYeet, h]

theorem catchYeet_bind_ok {f : α → Eval Value} {a : α} (h : x s = .ok a t) :
    catchYeet (x >>= f) s = catchYeet (f a) t :=
  catchYeet_congr (bind_ok h)

theorem catchYeet_eq {x : Eval Value} (h : ∀ v t, x s ≠ .error (.yeet v) t) :
    catchYeet x s = x s := by
  unfold catchYeet
  split
  next v t hx => exact absurd hx (h v t)
  next => rfl

/-- A computation that ended with this integer. -/
def gives (n : Int64) : EStateM.Result Stop Store Value → Bool
  | .ok (.int m) _ => m = n
  | _ => false

theorem exists_of_gives {n : Int64} {r : EStateM.Result Stop Store Value} (h : gives n r = true) :
    ∃ t, r = .ok (.int n) t := by
  unfold gives at h
  split at h
  · rw [of_decide_eq_true h]
    exact ⟨_, rfl⟩
  · cases h

end Eval

namespace Scope

/-- Gives names their values one after the other. -/
def insertAll : List (String × Value) → List (String × Value) → List (String × Value)
  | bs, [] => bs
  | bs, (name, v) :: cs => insertAll (insert name v bs) cs

/-- A name has the last value it was given. -/
theorem lookup_insertAll (bs cs : List (String × Value)) (k : String) :
    (insertAll bs cs).lookup k = (cs.reverse.lookup k).or (bs.lookup k) := by
  induction cs generalizing bs with
  | nil => rfl
  | cons c cs ih =>
    obtain ⟨name, v⟩ := c
    rw [insertAll, ih, lookup_insert, List.reverse_cons, List.lookup_append, Option.or_assoc]
    by_cases hk : k = name
    · simp [hk]
    · simp [hk, List.lookup_cons, beq_false_of_ne hk]

theorem lookup_insertAll_zip {params : List String} {name : String} (h : name ∉ params)
    (args : List Value) : (insertAll [] (params.zip args)).lookup name = none := by
  have hz : (params.zip args).reverse.lookup name = none := by
    refine List.lookup_eq_none_iff.2 fun b hb => bne_iff_ne.2 ?_
    rintro rfl
    exact h (List.of_mem_zip (List.mem_reverse.1 hb)).1
  rw [lookup_insertAll, hz]
  rfl

end Scope

namespace Store

/-- The scope in which the body of a function is evaluated. -/
def frame (s : Store) (f : Closure) : Ref .scope := (s.enclose f.scope).1

/-- The store with the arguments of a function in its frame. -/
def framed (s : Store) (f : Closure) (args : List Value) : Store :=
  (s.enclose f.scope).2.bindAll (s.frame f) (f.params.zip args)

variable (s : Store)

theorem bind_newScope (x : Scope) (name : String) (v : Value) :
    (s.newScope x).2.bind (s.newScope x).1 name v = (s.newScope (x.set name v)).2 := by
  have h : (s.scopes.push x).modify s.scopes.size (·.set name v) =
      s.scopes.push (x.set name v) := by
    apply Array.ext_getElem?
    intro i
    rw [Array.getElem?_modify, Array.getElem?_push, Array.getElem?_push]
    by_cases hi : i = s.scopes.size
    · simp [hi]
    · simp [hi, Ne.symm hi]
  exact congrArg (fun scopes => { s with scopes }) h

theorem bindAll_newScope (x : Scope) (cs : List (String × Value)) :
    (s.newScope x).2.bindAll (s.newScope x).1 cs =
      (s.newScope { x with bindings := Scope.insertAll x.bindings cs }).2 := by
  induction cs generalizing x with
  | nil => rfl
  | cons c cs ih =>
    rw [bindAll, bind_newScope]
    exact ih (x.set c.1 c.2)

variable (f : Closure) (args : List Value)

/-- A frame binds the parameters of its function and nothing else. -/
theorem framed_eq :
    s.framed f args =
      (s.newScope
        { bindings := Scope.insertAll [] (f.params.zip args), outer := some f.scope }).2 :=
  s.bindAll_newScope { outer := some f.scope } (f.params.zip args)

theorem size_framed : (s.framed f args).scopes.size = s.scopes.size + 1 := by
  rw [framed, size_bindAll, size_enclose]

theorem scope_framed : (s.framed f args).scope (s.frame f) =
    { bindings := Scope.insertAll [] (f.params.zip args), outer := some f.scope } := by
  rw [framed_eq]
  exact s.scope_newScope _

theorem scope_framed_of_lt {q : Ref .scope} (hq : q.index < s.scopes.size) :
    (s.framed f args).scope q = s.scope q := by
  rw [framed_eq, scope_newScope_of_lt s _ hq]

/-- A name that is not bound in the frame means what it means around the function. -/
theorem lookup?_framed (hf : f.scope.index < s.scopes.size) (name : String) :
    (s.framed f args).lookup? (s.frame f) name =
      ((Scope.insertAll [] (f.params.zip args)).lookup name).or
        ((s.framed f args).lookup? f.scope name) := by
  have hnext : (s.framed f args).next? (s.frame f).index = some f.scope :=
    next?_eq_some _ (by rw [scope_framed]) hf
  have h := (s.framed f args).lookup?_eq (s.frame f).index name
  rwa [hnext, show (⟨(s.frame f).index⟩ : Ref .scope) = s.frame f from rfl, scope_framed] at h

end Store

theorem evaluate_ident {n : Nat} {s : Store} {r : Ref .scope} {name : String} {v : Value}
    (h : s.lookup? r name = some v) : evaluate (n + 1) (.ident name) r s = .ok v s := by
  rw [evaluate_succ, Evaluator.node, Eval.get_bind, Store.resolve, h]
  rfl

namespace Evaluator

variable (ev : Evaluator)

theorem enter_eq (callee : Expr) {f : Closure} {args : List Value}
    (h : f.params.length = args.length) (s : Store) :
    enter ev callee f args s = Eval.catchYeet (block ev (s.frame f) f.body) (s.framed f args) := by
  rw [enter, if_pos h]
  rfl

theorem enter_ne_yeet (callee : Expr) (f : Closure) (args : List Value) (s t : Store) (v : Value) :
    enter ev callee f args s ≠ .error (.yeet v) t := by
  by_cases h : f.params.length = args.length
  · rw [enter_eq ev callee h]
    exact Eval.catchYeet_ne_yeet _ _ _ _
  · rw [enter, if_neg h]
    exact fun h => by cases h

theorem block_singleton (scope : Ref .scope) (x : Expr) : block ev scope [x] = ev x scope :=
  bind_pure (ev x scope)

theorem values_singleton (scope : Ref .scope) (x : Expr) :
    values ev scope [x] = (do return [← ev x scope]) := by
  simp [values]

theorem call_ident {name : String} (h : name ≠ "quote") (scope : Ref .scope) (args : List Expr) :
    call ev scope (.ident name) args = (do
      let f ← ev (.ident name) scope
      let vs ← values ev scope args
      apply ev (.ident name) f vs) := by
  rw [call]
  exact fun hname => h (Expr.ident.inj hname)

/-- A function like another, with an expression for its body. -/
theorem enter_expr (callee : Expr) {f : Closure} {args : List Value}
    (h : f.params.length = args.length) (x : Expr) (identity : Nat) (s : Store) :
    enter ev callee { f with body := [x], identity } args s =
      Eval.catchYeet (ev x (s.frame f)) (s.framed f args) := by
  rw [← block_singleton ev (s.frame f) x]
  exact enter_eq ev callee (f := { f with body := [x], identity }) h s

theorem evaluate_block (n : Nat) (body : Block) (scope : Ref .scope) :
    evaluate (n + 1) (.block body) scope = block (evaluate n) scope body :=
  evaluate_succ n (.block body) scope

end Evaluator

end YeetYoink
