import YeetYoink.Proofs.Eval.Calls
import YeetYoink.Proofs.Yolo.Parts

/-!
# Composition

The sum of two functions calls the first on the arguments and the second on what the first gives. It
does so by names that its own scope binds, so its parameters are read from its frame and passed on.
A parameter that is named twice has its last value, and passing that on in both places leaves the
frame of the first function as it would be (`Scope.insertAll_lookup`). A run keeps the two names in
that scope (`Proofs.Yolo.Parts`), so the law holds wherever the sum is called.
-/

namespace YeetYoink

/-! ### Names that are given twice -/

namespace Scope

variable {name k : String} {v : Value} {bs cs : List (String × Value)}

theorem map_fst_insert (name : String) (v : Value) (bs : List (String × Value)) :
    (insert name v bs).map Prod.fst =
      if name ∈ bs.map Prod.fst then bs.map Prod.fst else bs.map Prod.fst ++ [name] := by
  induction bs with
  | nil => rfl
  | cons b bs ih =>
    obtain ⟨k, w⟩ := b
    by_cases hk : k = name
    · simp [insert, hk]
    · have hk' : name ≠ k := fun h => hk h.symm
      simp only [insert, if_neg hk, List.map_cons, ih, List.mem_cons, hk', false_or]
      split <;> rfl

theorem nodup_insert (h : (bs.map Prod.fst).Nodup) : ((insert name v bs).map Prod.fst).Nodup := by
  rw [map_fst_insert]
  split
  next => exact h
  next hn =>
    refine List.nodup_append.2 ⟨h, List.nodup_singleton _, fun a ha b hb => ?_⟩
    rintro rfl
    exact hn (List.mem_singleton.1 hb ▸ ha)

theorem nodup_insertAll (h : (bs.map Prod.fst).Nodup) : ((insertAll bs cs).map Prod.fst).Nodup := by
  induction cs generalizing bs with
  | nil => exact h
  | cons c cs ih => exact ih (nodup_insert h)

/-- If names have values of a function, a new one has its value of it too. -/
theorem insert_map (F : String → Value) (name : String) (v : Value) (bs : List (String × Value)) :
    insert name (F name) (bs.map fun b => (b.1, F b.1)) = (insert name v bs).map fun b =>
      (b.1, F b.1) := by
  induction bs with
  | nil => rfl
  | cons b bs ih =>
    by_cases hk : b.1 = name
    · simp [insert, hk]
    · simp [insert, hk, ih]

theorem insertAll_map (F : String → Value) (bs cs : List (String × Value)) :
    insertAll (bs.map fun b => (b.1, F b.1)) (cs.map fun c => (c.1, F c.1)) =
      (insertAll bs cs).map fun b => (b.1, F b.1) := by
  induction cs generalizing bs with
  | nil => rfl
  | cons c cs ih =>
    rw [List.map_cons, insertAll, insert_map F c.1 c.2, ih, insertAll]

theorem map_lookup (h : (bs.map Prod.fst).Nodup) :
    (bs.map fun b => (b.1, (bs.lookup b.1).getD .null)) = bs := by
  induction bs with
  | nil => rfl
  | cons b bs ih =>
    obtain ⟨k, w⟩ := b
    obtain ⟨hk, h⟩ := List.nodup_cons.1 h
    rw [List.map_cons]
    refine congrArg₂ List.cons (by simp) (Eq.trans (List.map_congr_left fun c hc => ?_) (ih h))
    have hne : c.1 ≠ k := fun h => hk (List.mem_map.2 ⟨c, hc, h⟩)
    rw [List.lookup_cons, beq_false_of_ne hne]

/-- Names that are given the values they come to have in the end come to have them. -/
theorem insertAll_lookup (cs : List (String × Value)) :
    insertAll [] (cs.map fun c => (c.1, ((insertAll [] cs).lookup c.1).getD .null)) =
      insertAll [] cs :=
  (insertAll_map (fun k => ((insertAll [] cs).lookup k).getD .null) [] cs).trans
    (map_lookup (nodup_insertAll List.nodup_nil))

end Scope

namespace Evaluator

variable {ev : Evaluator}

/-- Arguments that make the same frame. -/
theorem enter_congr (callee : Expr) {f : Closure} {args args' : List Value}
    (ha : f.params.length = args.length) (ha' : f.params.length = args'.length)
    (h : Scope.insertAll [] (f.params.zip args) = Scope.insertAll [] (f.params.zip args')) :
    enter ev callee f args = enter ev callee f args' := by
  funext s
  rw [enter_eq ev callee ha, enter_eq ev callee ha', Store.framed_eq, Store.framed_eq, h]

theorem values_ident {n : Nat} {s : Store} {r : Ref .scope} {F : String → Value}
    {names : List String} (h : ∀ p ∈ names, s.lookup? r p = some (F p)) :
    values (evaluate (n + 1)) r (names.map .ident) s = .ok (names.map F) s := by
  induction names with
  | nil => rfl
  | cons p names ih =>
    obtain ⟨hp, h⟩ := List.forall_mem_cons.1 h
    rw [values, List.map_cons, List.mapM_cons, Eval.bind_ok (evaluate_ident hp)]
    exact Eval.bind_ok (ih h)

end Evaluator

namespace Yolo

open Evaluator

/-- A function that is the composition of two others. -/
structure Composed (t : Store) (h f g : Closure) : Prop where
  params : h.params = f.params
  body : h.body = [.call (.ident secondName) [.call (.ident firstName) (f.params.map .ident)]]
  made : h.scope.index < t.scopes.size
  first : (t.scope h.scope).get? firstName = some (.function f)
  second : (t.scope h.scope).get? secondName = some (.function g)

/-- No run takes its functions away from a composition. -/
theorem Composed.of_keepsParts {s t : Store} {h f g : Closure} (hc : Composed s h f g)
    (hk : s.KeepsParts t) : Composed t h f g where
  params := hc.params
  body := hc.body
  made := Nat.lt_of_lt_of_le hc.made hk.size
  first := hk.get _ _ _ (.inl rfl) hc.first
  second := hk.get _ _ _ (.inr rfl) hc.second

/-- Once a function is this composition it stays so. -/
def KeepsComposed (h f g : Closure) (s t : Store) : Prop := Composed s h f g → Composed t h f g

theorem exists_composed (f g : Closure) (s : Store) :
    ∃ h t, Yolo.binary .plus (.function f) (.function g) s = .ok (.function h) t ∧
      Composed t h f g := by
  let names : List (String × Value) := [(firstName, .function f), (secondName, .function g)]
  let made : Store := (s.enclose f.scope).2.bindAll (s.enclose f.scope).1 names
  have hscope : made.scope (s.enclose f.scope).1 =
      { bindings := names, outer := some f.scope } := by
    rw [show made = (s.newScope { bindings := names, outer := some f.scope }).2 from
      s.bindAll_newScope { outer := some f.scope } names]
    exact s.scope_newScope _
  refine ⟨_, { made with bodies := made.bodies + 1 }, rfl, rfl, rfl, ?_, ?_, ?_⟩
  · change (s.enclose f.scope).1.index < made.scopes.size
    simp [made, Store.enclose, Store.newScope]
  · exact congrArg (Scope.get? · firstName) hscope
  · exact congrArg (Scope.get? · secondName) hscope

section

variable {t : Store} {h f g : Closure} {args : List Value}

/-- The frame of a composition has its two functions around it. -/
theorem Composed.lookup? (hc : Composed t h f g) {name : String} {k : Closure}
    (hn : name ∉ f.params)
    (args : List Value) (hk : (t.scope h.scope).get? name = some (.function k)) :
    (t.framed h args).lookup? (t.frame h) name = some (.function k) := by
  have houter := (t.framed h args).lookup?_eq h.scope.index name
  rw [show (⟨h.scope.index⟩ : Ref .scope) = h.scope from rfl,
    Store.scope_framed_of_lt _ _ _ hc.made, hk]
    at houter
  rw [Store.lookup?_framed _ _ _ hc.made, hc.params, Scope.lookup_insertAll_zip hn, houter]
  rfl

/-- The value that a parameter has in the frame. -/
def lastOf (params : List String) (args : List Value) (p : String) : Value :=
  ((Scope.insertAll [] (params.zip args)).lookup p).getD .null

theorem lookup?_param (hc : Composed t h f g) (ha : f.params.length = args.length) {p : String}
    (hp : p ∈ f.params) :
    (t.framed h args).lookup? (t.frame h) p = some (lastOf f.params args p) := by
  have hfst : (f.params.zip args).map Prod.fst = f.params := List.map_fst_zip (Nat.le_of_eq ha)
  obtain ⟨b, hb, rfl⟩ := List.mem_map.1 (hfst.symm ▸ hp)
  have hsome : ((f.params.zip args).reverse.lookup b.1).isSome :=
    List.lookup_isSome_iff.2 ⟨b, List.mem_reverse.2 hb, by simp⟩
  obtain ⟨v, hv⟩ := Option.isSome_iff_exists.1 hsome
  rw [Store.lookup?_framed _ _ _ hc.made, hc.params, lastOf, Scope.lookup_insertAll, hv]
  rfl

theorem enter_lastOf (ev : Evaluator) (callee : Expr) (ha : f.params.length = args.length) :
    enter ev callee f (f.params.map (lastOf f.params args)) = enter ev callee f args := by
  refine enter_congr callee (by simp) ha ?_
  have hzip : f.params.zip (f.params.map (lastOf f.params args)) =
      (f.params.zip args).map fun c => (c.1, lastOf f.params args c.1) := by
    have hfst : (f.params.zip args).map Prod.fst = f.params := List.map_fst_zip (Nat.le_of_eq ha)
    calc f.params.zip (f.params.map (lastOf f.params args))
      _ = f.params.map fun p => (p, lastOf f.params args p) := List.map_prod_left_eq_zip.symm
      _ = ((f.params.zip args).map Prod.fst).map fun p =>
        (p, lastOf f.params args p) := by rw [hfst]
      _ = _ := List.map_map
  rw [hzip]
  exact Scope.insertAll_lookup _

theorem Composed.enter_eq (hc : Composed t h f g) (hf : firstName ∉ f.params)
    (hg : secondName ∉ f.params) (ha : f.params.length = args.length) (n : Nat) (callee : Expr) :
    enter (evaluate (n + 3)) callee h args t = (do
      let r ← enter (evaluate (n + 1)) (.ident firstName) f args
      enter (evaluate (n + 2)) (.ident secondName) g [r]) (t.framed h args) := by
  have hfirst := evaluate_ident (n := n) (hc.lookup? hf args hc.first)
  have hsecond := evaluate_ident (n := n + 1) (hc.lookup? hg args hc.second)
  have hvalues := values_ident (n := n) fun p hp => lookup?_param hc ha hp
  have hinner : evaluate (n + 2) (.call (.ident firstName) (f.params.map .ident)) (t.frame h)
      (t.framed h args) = enter (evaluate (n + 1)) (.ident firstName) f args (t.framed h args) := by
    rw [evaluate_succ, node, call_ident _ (by decide), Eval.bind_ok hfirst,
      Eval.bind_ok hvalues, apply, enter_lastOf _ _ ha]
  have hbody : block (evaluate (n + 3)) (t.frame h) h.body (t.framed h args) = (do
      let r ← enter (evaluate (n + 1)) (.ident firstName) f args
      enter (evaluate (n + 2)) (.ident secondName) g [r]) (t.framed h args) := by
    rw [hc.body, block_singleton, evaluate_succ, node, call_ident _ (by decide),
      Eval.bind_ok hsecond, values_singleton]
    simp only [bind_assoc, pure_bind]
    exact Eval.bind_congr hinner
  rw [Evaluator.enter_eq _ _ (by rw [hc.params, ha]), Eval.catchYeet_eq, hbody]
  intro v u
  rw [hbody]
  exact Eval.bind_ne_yeet (fun _ => enter_ne_yeet _ _ _ _ _ _ _)
    fun _ _ _ => enter_ne_yeet _ _ _ _ _ _ _

end

/-- The sum of two functions is a function. Wherever it is called, with as many arguments as the
first takes, its call is that of the first on the arguments and then that of the second on the
result, with the frame of the sum in the store. It is the sum of the two as long as a session runs:
a watch for that never gives its alarm. -/
theorem compose_law {f g : Closure} (hf : firstName ∉ f.params) (hg : secondName ∉ f.params)
    (s : Store) :
    ∃ h t, Yolo.binary .plus (.function f) (.function g) s = .ok (.function h) t ∧
      Composed t h f g ∧
      (∀ u args, Composed u h f g → f.params.length = args.length → ∀ n callee,
        enter (evaluate (n + 3)) callee h args u = (do
          let r ← enter (evaluate (n + 1)) (.ident firstName) f args
          enter (evaluate (n + 2)) (.ident secondName) g [r]) (u.framed h args)) ∧
      ∀ sources,
        (∀ alarm, Session.new.runAllWith
          (Watched.evaluate (KeepsComposed h f g) alarm Session.depth) sources =
            Session.new.runAll sources) ∧
        ∀ more, KeepsComposed h f g (Session.new.runAll sources).2.store
          (Session.new.runAll (sources ++ more)).2.store := by
  obtain ⟨h, t, hsum, ht⟩ := exists_composed f g s
  refine ⟨h, t, hsum, ht, fun u args hu ha n callee => hu.enter_eq hf hg ha n callee, ?_⟩
  exact Session.runAll_keepsParts fun _ _ hk hc => hc.of_keepsParts hk

/-- Doubles the last of two arguments that have the same name. -/
def doubler : Closure where
  params := ["x", "x"]
  body := [.binary .times (.ident "x") (.int 2)]
  scope := ⟨0⟩
  identity := 0

/-- Adds ten. -/
def adder : Closure where
  params := ["x"]
  body := [.binary .plus (.ident "x") (.int 10)]
  scope := ⟨0⟩
  identity := 1

/-- The sum of a sum and a function. -/
theorem compose_law_adder :
    firstName ∉ doubler.params ∧ secondName ∉ doubler.params ∧
    ∃ h t k u, Yolo.binary .plus (.function doubler) (.function adder)
      { scopes := #[{}], bodies := 2 } =
        .ok (.function h) t ∧ firstName ∉ h.params ∧ secondName ∉ h.params ∧
      Yolo.binary .plus (.function h) (.function adder) t = .ok (.function k) u ∧
      ∃ u', enter (evaluate 8) (.ident "k") k [.int 1, .int 4] u = .ok (.int 28) u' := by
  have hf : firstName ∉ doubler.params ∧ secondName ∉ doubler.params := by decide
  obtain ⟨h, t, hsum, hc, -⟩ := compose_law (g := adder) hf.1 hf.2 { scopes := #[{}], bodies := 2 }
  have hp : firstName ∉ h.params ∧ secondName ∉ h.params := by rwa [hc.params]
  obtain ⟨k, u, hsum', hc', hlaw', -⟩ := compose_law (g := adder) hp.1 hp.2 t
  refine ⟨hf.1, hf.2, h, t, k, u, hsum, hp.1, hp.2, hsum', ?_⟩
  rw [hlaw' u _ hc' (by rw [hc.params]; rfl)]
  cases hsum
  cases hsum'
  apply Eval.exists_of_gives
  decide +kernel

end Yolo

end YeetYoink
