import YeetYoink.Proofs.Eval.Nodes
import YeetYoink.Proofs.Store.Updates

/-!
# Guarded runs

`Guarded.evaluate guard alarm` evaluates like `evaluate`, but stops before a name that is bound in
the guarded scope is given another value there. It stops with the alarm, an error of one's choice;
if the run ends in another way for any one alarm, the guard did not stop it. Beside it another run
may start from a store with scopes of its own, if names mean the same in both stores and stay bound
in the same scopes, the guarded one apart (`Guarded.Twin`). As long as the guarded run is not
stopped, the two runs end the same way, also if that is the end of the bound on depth.
-/

namespace YeetYoink

namespace Guarded

/-- Stops if the name is bound in the guarded scope. -/
def update (guard : Ref .scope) (alarm : EvalError) (ev : Evaluator) (scope : Ref .scope)
    (name : String) (x : Expr) : Eval Value := do
  let v ← ev x scope
  if (← get).holder? scope name = some guard then Eval.fail alarm
  else Evaluator.rebind scope name v

def node (guard : Ref .scope) (alarm : EvalError) (ev : Evaluator) (n : Nat) (x : Expr)
    (scope : Ref .scope) : Eval Value :=
  match x with
  | .assign .update (.ident name) y => update guard alarm ev scope name y
  | x => Evaluator.node ev n x scope

def evaluate (guard : Ref .scope) (alarm : EvalError) : Nat → Evaluator
  | 0, _, _ => Eval.exhausted
  | n + 1, x, scope => node guard alarm (evaluate guard alarm n) n x scope

theorem node_of_not_update {guard : Ref .scope} {alarm : EvalError} {ev : Evaluator} {n : Nat}
    {x : Expr} {r : Ref .scope} (h : ∀ name y, x ≠ .assign .update (.ident name) y) :
    node guard alarm ev n x r = Evaluator.node ev n x r := by
  unfold node
  split
  · exact absurd rfl (h _ _)
  · rfl

/-- What two stores must keep to that differ in their scopes. -/
structure Twin (guard : Ref .scope) (R : Store → Store → Prop) : Prop where
  rest {s t} : R s t → t = { s with scopes := t.scopes }
  size {s t} : R s t → t.scopes.size = s.scopes.size
  made {s t} : R s t → guard.index < s.scopes.size
  lookup? {s t} : R s t → ∀ r name, t.lookup? r name = s.lookup? r name
  holder? {s t} : R s t → ∀ r name, s.holder? r name ≠ some guard →
    t.holder? r name = s.holder? r name
  -- What a run does to the scopes.
  congr {s t s' t'} : R s t → t' = { s' with scopes := t'.scopes } → s'.scopes = s.scopes →
    t'.scopes = t.scopes → R s' t'
  enclose {s t} : R s t → ∀ r, R (s.enclose r).2 (t.enclose r).2
  bind {s t} : R s t → ∀ r name v, r ≠ guard → R (s.bind r name v) (t.bind r name v)

end Guarded

/-- Two stores that are twins. Names are declared in any scope but the guarded one. -/
def Discipline.guarded (guard : Ref .scope) (alarm : EvalError) (R : Store → Store → Prop) :
    Discipline where
  World := { w : Store × Store // R w.1 w.2 }
  left w := w.1.1
  right w := w.1.2
  Le _ _ := True
  rename := id
  ValidText _ _ := True
  ValidDict _ _ := True
  Known _ _ := True
  Open _ r := r ≠ guard
  Name _ := True
  malformed := True
  macros := True
  parts := True
  parts_of_malformed _ := trivial
  Ignored e := e = .failed alarm

theorem Discipline.relates_get_left {D : Discipline} {w : D.World} {α β : Type} {f : Store → Eval α}
    {y : Eval β} {Q : D.World → α → β → Prop} (h : D.Relates w (f (D.left w)) y Q) :
    D.Relates w (get >>= f) y Q := h

namespace Guarded

variable {guard : Ref .scope} {alarm : EvalError} {R : Store → Store → Prop}

theorem throughout (x : Expr) : x.Throughout (Discipline.guarded guard alarm R).Node := by
  intro y _
  cases y <;> simp [Rules.Node, Rules.Binds, Discipline.guarded]

theorem valid (w : { w : Store × Store // R w.1 w.2 }) (v : Value) :
    (Discipline.guarded guard alarm R).Valid w v := by
  cases v with
  | function f => exact ⟨trivial, fun _ _ => ⟨trivial, .inl trivial⟩, fun x _ => throughout x⟩
  | macroFn f =>
    exact ⟨trivial, trivial, fun _ _ => ⟨trivial, .inl trivial⟩, fun x _ => throughout x⟩
  | quote x => exact throughout x
  | _ => trivial

theorem rename_eq : (Discipline.guarded guard alarm R).rename = id := rfl

theorem same (w : { w : Store × Store // R w.1 w.2 }) (v : Value) :
    (Discipline.guarded guard alarm R).Same w v v :=
  ⟨valid w v, by rw [rename_eq, Value.rename_id]; rfl⟩

theorem eq_of_same {w : { w : Store × Store // R w.1 w.2 }} {v u : Value}
    (h : (Discipline.guarded guard alarm R).Same w v u) : u = v := by
  rw [h.2, rename_eq, Value.rename_id]
  rfl

theorem reaches (w : { w : Store × Store // R w.1 w.2 }) {s t : Store}
    {P : { w : Store × Store // R w.1 w.2 } → Prop} (h : R s t) (hp : ∀ w, P w) :
    (Discipline.guarded guard alarm R).Reaches w s t P :=
  ⟨⟨(s, t), h⟩, rfl, rfl, trivial, hp _⟩

section

variable (hR : Twin guard R)
include hR

theorem Twin.fst_enclose {s t : Store} (h : R s t) (r : Ref .scope) :
    (t.enclose r).1 = (s.enclose r).1 :=
  congrArg Ref.mk (hR.size h)

theorem Twin.fst_enclose_ne {s t : Store} (h : R s t) (r : Ref .scope) :
    (s.enclose r).1 ≠ guard := by
  rintro rfl
  exact Nat.lt_irrefl _ (hR.made h)

/-- A change of what is no scope. -/
theorem Twin.reaches_change {w : { w : Store × Store // R w.1 w.2 }} (F : Store → Store)
    (hF : ∀ s scopes, F { s with scopes } = { F s with scopes })
    {P : { w : Store × Store // R w.1 w.2 } → Prop} (hp : ∀ w, P w) :
    (Discipline.guarded guard alarm R).Reaches w (F w.1.1) (F w.1.2) P := by
  have hscopes : ∀ s, (F s).scopes = s.scopes := by
    intro s
    have h := congrArg Store.scopes (hF s s.scopes)
    exact h
  refine reaches w (hR.congr w.2 ?_ (hscopes _) (hscopes _)) hp
  rw [hscopes]
  exact (congrArg F (hR.rest w.2)).trans (hF _ _)

theorem Twin.steady : (Discipline.guarded guard alarm R).Steady where
  refl _ := trivial
  trans _ _ := trivial
  renamed w := by
    change Store.Renamed id w.1.1 w.1.2
    rw [hR.rest w.2]
    exact ⟨rfl, by simp, by simp, rfl, rfl⟩
  injective := Function.injective_id
  yeet_counts _ h := by cases h
  text_mono _ _ := trivial
  dict_mono _ _ := trivial
  known_mono _ _ := trivial
  open_mono _ h := h
  known_of_open _ := trivial
  word _ := trivial
  firstName := trivial
  secondName := trivial
  array _ := valid _ _
  dict _ := trivial
  binding _ := valid _ _
  entry _ _ := ⟨valid _ _, .inr (valid _ _)⟩
  lookup_some {w r name v} _ _ h := by
    rw [rename_eq, Value.rename_id]
    exact (hR.lookup? w.2 r name).trans h
  lookup_none {w r name} _ _ h := .inl ((hR.lookup? w.2 r name).trans h)
  isYolo {w r} _ := .inl (congrArg Option.isSome (hR.lookup? w.2 r Store.yoloMark))
  newText t := hR.reaches_change (fun s => (s.newText t).2) (fun _ _ => rfl) fun _ => trivial
  newArray {w a} _ := by
    rw [rename_eq, Value.rename_id, Array.map_id]
    exact hR.reaches_change (fun s => (s.newArray a).2) (fun _ _ => rfl) fun _ => trivial
  newDict {w d} _ := by
    rw [rename_eq, Dict.rename_id]
    exact hR.reaches_change (fun s => (s.newDict d).2) (fun _ _ => rfl) fun _ => trivial
  newBody := hR.reaches_change (fun s => { s with bodies := s.bodies + 1 }) (fun _ _ => rfl)
    fun _ => trivial
  enclose {w r} _ := reaches w (hR.enclose w.2 r)
    fun _ => ⟨hR.fst_enclose_ne w.2 r, hR.fst_enclose w.2 r⟩
  declare {w r name v} hr _ _ _ := by
    rw [rename_eq, Value.rename_id]
    exact reaches w (hR.bind w.2 r name v hr) fun _ => trivial
  modifyText {w r} f _ := hR.reaches_change (fun s => s.modifyText r f) (fun _ _ => rfl)
    fun _ => trivial
  setArray {w a} r _ := by
    rw [rename_eq, Value.rename_id, Array.map_id]
    exact hR.reaches_change (fun s => s.modifyArray r fun _ => a) (fun _ _ => rfl) fun _ => trivial
  setDict {w d} r _ := by
    rw [rename_eq, Dict.rename_id]
    exact hR.reaches_change (fun s => s.modifyDict r fun _ => d) (fun _ _ => rfl) fun _ => trivial
  print line := hR.reaches_change (fun s => s.print line) (fun _ _ => rfl) fun _ => trivial
  emptyDict := trivial
  setValue _ _ := trivial
  addEntry _ _ _ _ _ := trivial
  addText {w _ _ r _} _ _ _ _ _ :=
    hR.reaches_change (fun s => (s.newText (w.1.1.text r)).2) (fun _ _ => rfl) fun _ => trivial

theorem Twin.opensYolo : (Discipline.guarded guard alarm R).OpensYolo (.bool true) := by
  intro w r _
  have hne := hR.fst_enclose_ne w.2 r
  have hq : (w.1.2.enclose r).1 = (w.1.1.enclose r).1 := hR.fst_enclose w.2 r
  refine ⟨⟨((w.1.1.enclose r).2.markYolo (w.1.1.enclose r).1,
    (w.1.2.enclose r).2.bind (w.1.2.enclose r).1 Store.yoloMark (.bool true)), ?_⟩, rfl, rfl,
    trivial, hne, hq⟩
  rw [hq]
  exact hR.bind (hR.enclose w.2 r) _ _ _ hne

/-- The rest of an update, once its value is there and the guard lets it pass. -/
theorem Twin.relates_rebind {w : (Discipline.guarded guard alarm R).World} {r : Ref .scope}
    {name : String} (hr : r ≠ guard)
    (hg : ((Discipline.guarded guard alarm R).left w).holder? r name ≠ some guard) (v : Value) :
    (Discipline.guarded guard alarm R).Relates w (Evaluator.rebind r name v)
      (Evaluator.rebind r name v) (Discipline.guarded guard alarm R).Same := by
  have hD : (Discipline.guarded guard alarm R).Steady := hR.steady
  have hh : ((Discipline.guarded guard alarm R).right w).holder? r name =
      ((Discipline.guarded guard alarm R).left w).holder? r name := hR.holder? w.2 r name hg
  have hy : ((Discipline.guarded guard alarm R).right w).isYolo r =
      ((Discipline.guarded guard alarm R).left w).isYolo r :=
    congrArg Option.isSome (hR.lookup? w.2 r Store.yoloMark)
  cases hl : ((Discipline.guarded guard alarm R).left w).holder? r name with
  | some q =>
    have hq : q ≠ guard := fun hq => hg (hq ▸ hl)
    refine .of_ok (Evaluator.rebind_of_holder? hl v)
      (Evaluator.rebind_of_holder? (hh.trans hl) v) ?_
    exact reaches w (hR.bind w.2 q name v hq) fun w' => same w' v
  | none =>
    refine .congr ?_ (Evaluator.rebind_of_none hl v)
      (Evaluator.rebind_of_none (hh.trans hl) v)
    rw [hy]
    split
    · refine hD.relates_bind (hD.relates_declare ⟨hr, rfl⟩ ⟨trivial, .inl trivial⟩ (same w v))
        fun w' _ _ _ _ => ?_
      exact hD.relates_pure (same w' v)
    · exact hD.relates_fail id

theorem Twin.relates_update {ev ev' : Evaluator}
    (hev : (Discipline.guarded guard alarm R).Follows ev ev')
    {w : (Discipline.guarded guard alarm R).World} {r : Ref .scope} (hr : r ≠ guard) (name : String)
    (y : Expr) :
    (Discipline.guarded guard alarm R).Relates w (update guard alarm ev r name y)
      (Evaluator.update ev' r name y) (Discipline.guarded guard alarm R).Same := by
  refine hR.steady.relates_bind (hev (throughout y) ⟨hr, rfl⟩) fun w₁ v u _ hv => ?_
  obtain rfl := eq_of_same hv
  refine Discipline.relates_get_left ?_
  split
  · exact Discipline.Outcome.ignored rfl
  next hg => exact hR.relates_rebind hr hg u

/-- As long as the guard stops nothing, a guarded run ends as the run beside it does. -/
theorem Twin.follows (n : Nat) :
    (Discipline.guarded guard alarm R).Follows (evaluate guard alarm n) (YeetYoink.evaluate n) := by
  have hD : (Discipline.guarded guard alarm R).Steady := hR.steady
  induction n with
  | zero => exact fun w x r q _ _ => hD.relates_exhausted
  | succ n ih =>
    rintro w x r q hx ⟨hr, rfl⟩
    rw [evaluate_succ, evaluate]
    by_cases h : ∃ name y, x = .assign .update (.ident name) y
    · obtain ⟨name, y, rfl⟩ := h
      exact hR.relates_update ih hr name y
    · simp only [not_exists] at h
      rw [node_of_not_update h]
      refine hD.relates_node ih n ⟨hr, rfl⟩ hx ?_ ?_ fun name y hu => absurd hu (h name y)
      · rintro y rfl
        refine hD.relates_bind (ih (throughout y) ⟨hr, rfl⟩) fun w₁ v u h₁ hv => ?_
        exact hD.relates_applyMinus (fun _ _ _ _ => valid _ _) ⟨hr, rfl⟩ hv
      · rintro body rfl
        exact hD.relates_yolo ih hR.opensYolo n trivial fun x _ => throughout x

end

/-! ### Runs that are not stopped -/

/-- The same value or error, in stores that are related. -/
inductive Ends (R : Store → Store → Prop) :
    EStateM.Result Stop Store Value → EStateM.Result Stop Store Value → Prop where
  | ok {v : Value} {s t : Store} (h : R s t) : Ends R (.ok v s) (.ok v t)
  | error {e : Stop} {s t : Store} (h : R s t) : Ends R (.error e s) (.error e t)

/-- Stopped with the alarm. -/
def stopped (alarm : EvalError) : EStateM.Result Stop Store Value → Bool
  | .error (.failed e) _ => e = alarm
  | _ => false

/-- The store in which a run ends. -/
def ended : EStateM.Result Stop Store Value → Store
  | .ok _ s | .error _ s => s

theorem ends_of_outcome {w : (Discipline.guarded guard alarm R).World}
    {p q : EStateM.Result Stop Store Value}
    (h : (Discipline.guarded guard alarm R).Outcome w (Discipline.guarded guard alarm R).Same p q)
    (hp : stopped alarm p = false) : Ends R p q := by
  cases h with
  | @ok w' v u _ h =>
    obtain rfl := eq_of_same h
    exact .ok w'.2
  | @yeet w' v u _ h =>
    obtain rfl := eq_of_same h
    exact .error w'.2
  | @failed w' => exact .error w'.2
  | @exhausted w' => exact .error w'.2
  | ignored h =>
    subst h
    simp [stopped] at hp

section

variable (hR : Twin guard R) {s t : Store} (h : R s t) {n : Nat} {r : Ref .scope} (hr : r ≠ guard)
include hR h hr

theorem Twin.ends_evaluate {x : Expr} (hx : stopped alarm (evaluate guard alarm n x r s) = false) :
    Ends R (evaluate guard alarm n x r s) (YeetYoink.evaluate n x r t) :=
  ends_of_outcome (hR.follows n (w := ⟨(s, t), h⟩) (throughout x) ⟨hr, rfl⟩) hx

omit hr in
theorem Twin.ends_enter {callee : Expr} {f : Closure} {args : List Value}
    (hx : stopped alarm (Evaluator.enter (evaluate guard alarm n) callee f args s) = false) :
    Ends R (Evaluator.enter (evaluate guard alarm n) callee f args s)
      (Evaluator.enter (YeetYoink.evaluate n) callee f args t) := by
  have hargs : (Discipline.guarded guard alarm R).SameAll ⟨(s, t), h⟩ args args :=
    ⟨fun a _ => valid _ a, by rw [rename_eq, Value.rename_id, List.map_id]⟩
  exact ends_of_outcome (hR.steady.relates_apply (hR.follows n) callee
    (same _ (.function f)) hargs) hx

/-- The body of a function. -/
theorem Twin.ends_body {body : Block}
    (hx : stopped alarm (Eval.catchYeet (Evaluator.block (evaluate guard alarm n) r body) s) =
      false) :
    Ends R (Eval.catchYeet (Evaluator.block (evaluate guard alarm n) r body) s)
      (Eval.catchYeet (Evaluator.block (YeetYoink.evaluate n) r body) t) :=
  ends_of_outcome (hR.steady.relates_catchYeet
    (hR.steady.relates_block (hR.follows n) (w := ⟨(s, t), h⟩)
    ⟨hr, rfl⟩ fun x _ => throughout x)) hx

end

/-- A store beside itself, with a guarded scope that stays as it is. -/
structure Kept (guard : Ref .scope) (x : Scope) (s t : Store) : Prop where
  same : t = s
  made : guard.index < s.scopes.size
  scope : s.scope guard = x

theorem kept_ended {x : Scope} {p q : EStateM.Result Stop Store Value}
    (h : Ends (Kept guard x) p q) :
    Kept guard x (ended p) (ended q) := by
  cases h with
  | ok h | error h => exact h

theorem eq_of_ends {x : Scope} {p q : EStateM.Result Stop Store Value}
    (h : Ends (Kept guard x) p q) :
    q = p := by
  cases h with
  | ok h => rw [h.same]
  | error h => rw [h.same]

theorem twin_kept (guard : Ref .scope) (x : Scope) : Twin guard (Kept guard x) where
  rest h := by rw [h.same]
  size h := by rw [h.same]
  made h := h.made
  lookup? h _ _ := by rw [h.same]
  holder? h _ _ _ := by rw [h.same]
  congr h ht hs' ht' := by
    obtain ⟨rfl, hm, hx⟩ := h
    refine ⟨?_, by rwa [hs'], by rwa [Store.scope, hs']⟩
    rw [ht, ht', ← hs']
  enclose h r := by
    obtain ⟨rfl, hm, hx⟩ := h
    refine ⟨rfl, by rw [Store.size_enclose]; exact Nat.lt_succ_of_lt hm, ?_⟩
    rw [Store.enclose, Store.scope_newScope_of_lt _ _ hm, hx]
  bind h r name v hr := by
    obtain ⟨rfl, hm, hx⟩ := h
    refine ⟨rfl, by rwa [Store.size_bind], ?_⟩
    rw [Store.scope_bind_of_ne _ hr.symm, hx]

end Guarded

end YeetYoink
