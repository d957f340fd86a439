import Mathlib.Data.List.Forall2
import YeetYoink.Proofs.Eval.Changes
import YeetYoink.Yolo.Combine

/-!
# Operators under a discipline

The operators relate to themselves, outside of yolo and in it. A strict operator also relates to its
yolo form where the errors of the left run do not count: whatever it gives, the yolo form gives. The
minus sign on a dictionary is left to a hypothesis, since it hands out the keys.
-/

namespace YeetYoink

variable {ρ : Ref .scope → Ref .scope}

namespace Value

/-- A value that is what it shows. -/
def IsPlain : Value → Prop
  | .int _ | .num _ | .bool _ | .null | .range _ _ => True
  | _ => False

@[simp] theorem rename_eq_int {v : Value} {n : Int64} : v.rename ρ = .int n ↔ v = .int n := by
  cases v <;> simp

@[simp] theorem rename_eq_text {v : Value} {r : Ref .text} :
    v.rename ρ = .text r ↔ v = .text r := by
  cases v <;> simp

@[simp] theorem rename_eq_array {v : Value} {r : Ref .array} :
    v.rename ρ = .array r ↔ v = .array r := by
  cases v <;> simp

end Value

namespace Operator

/-- The operands as numbers, if both are. -/
def asNumbers (op : BinaryOp) (l r : Value) : Option Value :=
  (toNumber? l).bind fun x => (toNumber? r).bind fun y => numbers op x y

@[simp] theorem asNumbers_rename (op : BinaryOp) (l r : Value) :
    asNumbers op (l.rename ρ) (r.rename ρ) = asNumbers op l r := by
  have h : ∀ v : Value, toNumber? (v.rename ρ) = toNumber? v := fun v => by cases v <;> rfl
  rw [asNumbers, h, h, asNumbers]

theorem isPlain_of_integers {op : BinaryOp} {a b : Int64} {v : Value}
    (h : integers op a b = .ok (some v)) : v.IsPlain := by
  unfold integers at h
  split at h <;> try split at h
  all_goals cases h
  all_goals trivial

theorem isPlain_of_asNumbers {op : BinaryOp} {l r v : Value} (h : asNumbers op l r = some v) :
    v.IsPlain := by
  obtain ⟨x, -, h⟩ := Option.bind_eq_some_iff.1 h
  obtain ⟨y, -, h⟩ := Option.bind_eq_some_iff.1 h
  unfold numbers at h
  split at h <;> cases h <;> trivial

/-- Operands that are not two integers, two texts, an array, or two arrays are taken as numbers. -/
theorem typed?_eq {op : BinaryOp} {l r : Value} (hi : ∀ a b, l = .int a → r = .int b → False)
    (ht : ∀ a b, op = .plus → l = .text a → r = .text b → False)
    (hp : ∀ a, op = .push → l = .array a → False)
    (ha : ∀ a b, op = .plus → l = .array a → r = .array b → False) :
    typed? op l r = pure (asNumbers op l r) := by
  unfold typed? asNumbers
  split
  next => exact (hi _ _ rfl rfl).elim
  next => exact (ht _ _ rfl rfl rfl).elim
  next => exact (hp _ rfl rfl).elim
  next => exact (ha _ _ rfl rfl rfl).elim
  next =>
    cases toNumber? l with
    | none => rfl
    | some x => cases toNumber? r <;> rfl

end Operator

theorem exists_of_bind_eq_ok {α β ε : Type} {x : Except ε α} {f : α → Except ε β} {b : β}
    (h : (x >>= f) = .ok b) : ∃ a, x = .ok a ∧ f a = .ok b := by
  cases x with
  | error e => cases h
  | ok a => exact ⟨a, rfl, h⟩

/-- A computation on a list succeeds on every member, or fails at the first on which it does. -/
theorem mapM_cases {α β ε : Type} (f : α → Except ε β) (xs : List α) :
    (∃ ys, xs.mapM f = .ok ys ∧ List.Forall₂ (fun x y => f x = .ok y) xs ys) ∨
      ∃ before x after e, xs = before ++ x :: after ∧ (∀ y ∈ before, ∃ b, f y = .ok b) ∧
        f x = .error e ∧ xs.mapM f = .error e := by
  induction xs with
  | nil => exact .inl ⟨[], rfl, .nil⟩
  | cons x xs ih =>
    rw [List.mapM_cons]
    cases hx : f x with
    | error e => exact .inr ⟨[], x, xs, e, rfl, nofun, hx, rfl⟩
    | ok y =>
      obtain ⟨ys, hys, hall⟩ | ⟨before, z, after, e, rfl, hbefore, hz, he⟩ := ih
      · exact .inl ⟨y :: ys, by rw [hys]; rfl, .cons hx hall⟩
      · refine .inr ⟨x :: before, z, after, e, rfl, ?_, hz, by rw [he]; rfl⟩
        exact List.forall_mem_cons.2 ⟨⟨y, hx⟩, hbefore⟩

theorem exists_mem_left {α γ : Type} {R : γ → α → Prop} {ds : List γ} {xs : List α}
    (h : List.Forall₂ R ds xs) {x : α} (hx : x ∈ xs) : ∃ d ∈ ds, R d x := by
  induction h with
  | nil => cases hx
  | @cons d x ds xs hd _ ih =>
    obtain rfl | hx := List.mem_cons.1 hx
    · exact ⟨d, List.mem_cons_self, hd⟩
    · obtain ⟨d', hd', hR⟩ := ih hx
      exact ⟨d', List.mem_cons_of_mem _ hd', hR⟩

theorem exists_of_mapM_eq_ok {α β ε : Type} {f : α → Except ε β} {xs : List α} {ys : List β}
    (h : xs.mapM f = .ok ys) : ∀ y ∈ ys, ∃ x ∈ xs, f x = .ok y := by
  obtain ⟨zs, hzs, hall⟩ | ⟨_, _, _, e, _, _, _, he⟩ := mapM_cases f xs
  · cases hzs.symm.trans h
    exact fun _ => exists_mem_left hall
  · cases he.symm.trans h

/-- Only null fills no parameter. -/
theorem Yolo.bake_eq {f : Closure} {v : Value} (h : v ≠ .null) : bake f v = do
    let scope ← Eval.enclose f.scope
    let s ← get
    modify (·.bindAll scope (fillParams s f.params v).1)
    return .function { f with params := (fillParams s f.params v).2, scope } := by
  cases v with
  | null => exact absurd rfl h
  | _ => rfl

namespace Discipline

/-- An operator that may have no meaning for its operands gives the same in both runs. -/
def SameOption (D : Discipline) (w : D.World) (a b : Option Value) : Prop :=
  (∀ v ∈ a, D.Valid w v) ∧ b = a.map (Value.rename D.rename)

namespace Steady

variable {D : Discipline} (hD : D.Steady) {w : D.World}

theorem same_of_isPlain {v : Value} (h : v.IsPlain) : D.Same w v v := by
  cases v with
  | int _ | num _ | bool _ | null | range _ _ => exact ⟨trivial, rfl⟩
  | _ => exact h.elim

include hD

/-! ### Literals -/

omit hD in
theorem throughout_leaf {x : Expr} (hx : x.children = []) (h : D.Node x) : x.Throughout D.Node :=
  Expr.throughout_iff.2 ⟨by simp [hx], h⟩

omit hD in
/-- The literal of a value without elements. -/
theorem throughout_simpleLiteral {n : Nat} {v : Value} {x : Expr}
    (hq : ∀ y, v = .quote y → y.Throughout D.Node) (ha : ∀ r, v ≠ .array r) (hd : ∀ r, v ≠ .dict r)
    (h : (D.left w).literalIn n v = .ok x) : x.Throughout D.Node := by
  cases v with
  | array r => exact absurd rfl (ha r)
  | dict r => exact absurd rfl (hd r)
  | quote y =>
    cases n <;> cases h
    all_goals exact hq _ rfl
  | range a b =>
    cases n <;> cases h
    all_goals
      refine Expr.throughout_iff.2 ⟨?_, trivial⟩
      simp only [Expr.children, List.forall_mem_cons]
      exact ⟨throughout_leaf rfl trivial, throughout_leaf rfl trivial, by simp⟩
  | function _ | macroFn _ | builtin _ => cases n <;> cases h
  | _ =>
    cases n <;> cases h
    all_goals exact throughout_leaf rfl trivial

theorem throughout_literalIn {n : Nat} {v : Value} {x : Expr} (hv : D.Valid w v)
    (h : (D.left w).literalIn n v = .ok x) : x.Throughout D.Node := by
  induction n generalizing v x with
  | zero =>
    refine throughout_simpleLiteral ?_ ?_ ?_ h
    · rintro y rfl
      exact hv
    · rintro r rfl
      cases h
    · rintro r rfl
      cases h
  | succ n ih =>
    cases v with
    | array r =>
      obtain ⟨xs, hxs, h⟩ := exists_of_bind_eq_ok h
      cases h
      refine Expr.throughout_iff.2 ⟨fun x hx => ?_, trivial⟩
      obtain ⟨v, hv, hx⟩ := exists_of_mapM_eq_ok hxs x hx
      exact ih (hD.array (Array.mem_def.2 hv)) hx
    | dict r =>
      obtain ⟨ps, hps, h⟩ := exists_of_bind_eq_ok h
      cases h
      refine Expr.throughout_iff.2 ⟨fun x hx => ?_, trivial⟩
      obtain ⟨p, hp, hx⟩ := List.mem_flatMap.1 hx
      obtain ⟨e, he, hp⟩ := exists_of_mapM_eq_ok hps p hp
      obtain ⟨hval, hkey⟩ := hD.entry (hD.dict r) he
      obtain ⟨k, hk, hp⟩ := exists_of_bind_eq_ok hp
      obtain ⟨y, hy, hp⟩ := exists_of_bind_eq_ok hp
      cases hp
      simp only [List.mem_cons, List.not_mem_nil, or_false] at hx
      obtain rfl | rfl := hx
      · obtain hkey | hkey := hkey
        · refine throughout_simpleLiteral ?_ ?_ ?_ hk
          all_goals
            intro _ hv
            rw [hv] at hkey
            exact hkey.elim
        · exact ih hkey hk
      · exact ih hval hy
    | _ =>
      refine throughout_simpleLiteral ?_ (by simp) (by simp) h
      intro y hy
      cases hy <;> exact hv

theorem throughout_literal {v : Value} {x : Expr} (hv : D.Valid w v)
    (h : (D.left w).literal v = .ok x) : x.Throughout D.Node :=
  hD.throughout_literalIn hv h

/-! ### Operands of the right kinds -/

theorem relates_integers (op : BinaryOp) (a b : Int64) :
    D.Relates w (Operator.typed? op (.int a) (.int b)) (Operator.typed? op (.int a) (.int b))
      D.SameOption := by
  simp only [Operator.typed?]
  cases h : Operator.integers op a b with
  | error e =>
    have he : ¬ e.IsMalformed := by
      unfold Operator.integers at h
      split at h <;> try split at h
      all_goals cases h
      all_goals exact id
    exact hD.relates_fail he
  | ok v =>
    cases v with
    | none => exact hD.relates_pure ⟨by simp, rfl⟩
    | some v =>
      have hv := same_of_isPlain (w := w) (Operator.isPlain_of_integers h)
      refine hD.relates_pure ⟨by simpa using hv.1, ?_⟩
      rw [Option.map_some, ← hv.2]

theorem relates_asNumbers (op : BinaryOp) (l r : Value) :
    D.Relates w (pure (Operator.asNumbers op l r)) (pure (Operator.asNumbers op l r))
      D.SameOption := by
  cases h : Operator.asNumbers op l r with
  | none => exact hD.relates_pure ⟨by simp, rfl⟩
  | some v =>
    have hv := same_of_isPlain (w := w) (Operator.isPlain_of_asNumbers h)
    refine hD.relates_pure ⟨by simpa using hv.1, ?_⟩
    rw [Option.map_some, ← hv.2]

theorem relates_some {x y : Eval Value} (h : D.Relates w x y D.Same) :
    D.Relates w (do return some (← x)) (do return some (← y)) D.SameOption := by
  refine hD.relates_bind h fun w' v u _ hv => hD.relates_pure ⟨by simpa using hv.1, ?_⟩
  rw [hv.2, Option.map_some]

theorem relates_typed? (op : BinaryOp) {l l' r r' : Value} (hl : D.Same w l l')
    (hr : D.Same w r r') :
    D.Relates w (Operator.typed? op l r) (Operator.typed? op l' r') D.SameOption := by
  obtain ⟨-, rfl⟩ := hl
  obtain ⟨hv, rfl⟩ := hr
  have h := hD.renamed w
  by_cases hi : ∃ a b, l = .int a ∧ r = .int b
  · obtain ⟨a, b, rfl, rfl⟩ := hi
    exact hD.relates_integers op a b
  by_cases ht : ∃ a b, op = .plus ∧ l = .text a ∧ r = .text b
  · obtain ⟨a, b, rfl, rfl, rfl⟩ := ht
    refine relates_get ?_
    rw [h.text, h.text]
    exact hD.relates_some (hD.relates_newText _)
  by_cases hp : ∃ a, op = .push ∧ l = .array a
  · obtain ⟨a, rfl, rfl⟩ := hp
    refine relates_get (hD.relates_some (hD.relates_newArray (fun v hm => ?_) ?_))
    · obtain hm | rfl := Array.mem_push.1 hm
      · exact hD.array hm
      · exact hv
    · rw [h.array, Array.map_push]
  by_cases ha : ∃ a b, op = .plus ∧ l = .array a ∧ r = .array b
  · obtain ⟨a, b, rfl, rfl, rfl⟩ := ha
    refine relates_get (hD.relates_some (hD.relates_newArray (fun v hm => ?_) ?_))
    · obtain hm | hm := Array.mem_append.1 hm
      · exact hD.array hm
      · exact hD.array hm
    · rw [h.array, h.array, Array.map_append]
  simp only [not_exists, not_and] at hi ht hp ha
  rw [Operator.typed?_eq hi ht hp ha,
    Operator.typed?_eq (by simpa) (by simpa) (by simpa) (by simpa), Operator.asNumbers_rename]
  exact hD.relates_asNumbers op l r

theorem relates_equal {l l' r r' : Value} (hl : D.Same w l l') (hr : D.Same w r r') :
    D.Relates w (Eval.equal l r) (Eval.equal l' r') fun _ a b => b = a := by
  obtain ⟨-, rfl⟩ := hl
  obtain ⟨-, rfl⟩ := hr
  refine relates_get ?_
  rw [(hD.renamed w).equal? hD.injective]
  split
  · exact hD.relates_pure rfl
  · exact hD.relates_exhausted

/-- An operator relates if what is left to the fallbacks does. -/
theorem relates_binary {f g : BinaryOp → Value → Value → Eval Value} (op : BinaryOp)
    {l l' r r' : Value} (hl : D.Same w l l') (hr : D.Same w r r')
    (hf : ∀ w', D.Le w w' → D.Relates w' (f op l r) (g op l' r') D.Same) :
    D.Relates w (Operator.binary f op l r) (Operator.binary g op l' r') D.Same := by
  refine hD.relates_bind (hD.relates_typed? op hl hr) fun w₁ a b h₁ hab => ?_
  obtain ⟨ha, rfl⟩ := hab
  have hl₁ := hD.same_mono h₁ hl
  have hr₁ := hD.same_mono h₁ hr
  cases a with
  | some v => exact hD.relates_pure ⟨ha v rfl, rfl⟩
  | none =>
    cases op with
    | equal | notEqual =>
      refine hD.relates_bind (hD.relates_equal hl₁ hr₁) fun w₂ a b _ hab => ?_
      subst hab
      exact hD.relates_pure ⟨trivial, rfl⟩
    | _ => exact hf w₁ h₁

theorem relates_mismatch (op : BinaryOp) (l r : Value) :
    D.Relates w (Operator.mismatch op l r)
      (Operator.mismatch op (l.rename D.rename) (r.rename D.rename)) D.Same := by
  unfold Operator.mismatch
  simp only [Value.kind_rename]
  split
  · exact hD.relates_fail id
  · exact hD.relates_fail id

theorem relates_strictBinary (op : BinaryOp) {l l' r r' : Value} (hl : D.Same w l l')
    (hr : D.Same w r r') :
    D.Relates w (Operator.strictBinary op l r) (Operator.strictBinary op l' r') D.Same := by
  refine hD.relates_binary op hl hr fun w' _ => ?_
  rw [hl.2, hr.2]
  exact hD.relates_mismatch op l r

theorem relates_unary {f g : Value → Eval Value} (op : UnaryOp) {v v' : Value} (hv : D.Same w v v')
    (hf : op = .minus → D.Relates w (f v) (g v') D.Same) :
    D.Relates w (Operator.unary f op v) (Operator.unary g op v') D.Same := by
  have hr := hD.renamed w
  cases op with
  | bang =>
    refine relates_get ?_
    rw [hv.2, hr.truthy]
    exact hD.relates_pure ⟨trivial, rfl⟩
  | minus =>
    have hf := hf rfl
    obtain ⟨hv, rfl⟩ := hv
    cases v with
    | int n | num x => exact hD.relates_pure ⟨trivial, rfl⟩
    | _ => exact hf

theorem relates_strictUnary (op : UnaryOp) {v v' : Value} (hv : D.Same w v v') :
    D.Relates w (Operator.strictUnary op v) (Operator.strictUnary op v') D.Same :=
  hD.relates_unary op hv fun _ => hD.relates_fails (by rw [hv.2, Value.kind_rename]) id

/-! ### The minus sign on anything -/

theorem relates_withBody {f : Closure} (hf : D.ValidClosure w f) {body : Block}
    (hb : ∀ x ∈ body, x.Throughout D.Node) :
    D.Relates w (Yolo.withBody f body) (Yolo.withBody (f.rename D.rename) body) D.Same :=
  hD.relates_newFunction hf.known hf.params hb

omit hD in
theorem throughout_block {body : Block} (h : ∀ x ∈ body, x.Throughout D.Node) :
    (Expr.block body).Throughout D.Node :=
  Expr.throughout_iff.2 ⟨h, trivial⟩

/-- The opposite of a value, if the one of a dictionary relates. -/
theorem relates_opposite {f g : Value → Eval Value} {v v' : Value} (hv : D.Same w v v')
    (hf : ∀ w', D.Le w w' → ∀ v, D.Valid w' v → D.Relates w' (f v) (g (v.rename D.rename)) D.Same)
    (hd : ∀ r, v = .dict r → D.Relates w (Yolo.opposite f v) (Yolo.opposite g v') D.Same) :
    D.Relates w (Yolo.opposite f v) (Yolo.opposite g v') D.Same := by
  obtain ⟨hv, rfl⟩ := hv
  have hr := hD.renamed w
  cases v with
  | dict r => exact hd r rfl
  | null => exact hD.relates_newText _
  | text r =>
    refine relates_get ?_
    rw [hr.text]
    exact hD.relates_newText _
  | array r =>
    refine relates_get ?_
    rw [hr.array, Array.toList_map, List.mapM_map]
    refine hD.relates_bind (hD.relates_mapM fun w' hle v hv => ?_) fun w' vs us _ h =>
      hD.relates_newArray_of_list h
    exact hf w' hle v (hD.valid_mono hle (hD.array (Array.mem_def.2 hv)))
  | bool b => exact hD.relates_pure ⟨trivial, rfl⟩
  | range a b => exact hD.relates_pure ⟨trivial, rfl⟩
  | function f =>
    refine hD.relates_withBody hv ?_
    simp only [List.mem_singleton, forall_eq]
    exact Expr.throughout_iff.2 ⟨by simpa [Expr.children] using throughout_block hv.body, trivial⟩
  | _ =>
    refine relates_get ?_
    rw [hr.display]
    exact hD.relates_newText _

theorem relates_swapEntries {d d' : Dict} {es : List Entry} (hd : D.SameDict w d d')
    (hv : ∀ e ∈ es, D.Valid w e.value) (hk : ∀ e ∈ es, e.value.IsKey → D.Valid w e.key) :
    D.Relates w (Yolo.swapEntries d es) (Yolo.swapEntries d' (es.map (Entry.rename D.rename)))
      D.SameDict := by
  induction es generalizing w d d' with
  | nil => exact hD.relates_pure hd
  | cons e es ih =>
    obtain ⟨hve, hv⟩ := List.forall_mem_cons.1 hv
    obtain ⟨hke, hk⟩ := List.forall_mem_cons.1 hk
    refine relates_get ?_
    have hh : (D.right w).hashKey? (e.rename D.rename).value = (D.left w).hashKey? e.value :=
      (hD.renamed w).hashKey? e.value
    rw [hh]
    split
    next h =>
      have hkey : D.Valid w e.key := hke (Store.isSome_hashKey?.1 h)
      refine hD.relates_bind (hD.relates_insert hd ⟨hve, rfl⟩ ⟨hkey, rfl⟩) fun w' d d' hle hd => ?_
      exact ih hd (fun e he => hD.valid_mono hle (hv e he))
        fun e he h => hD.valid_mono hle (hk e he h)
    next => exact ih hd hv hk

/-- The opposite of a dictionary whose keys may be handed out. -/
theorem relates_oppositeDict {f g : Value → Eval Value} (r : Ref .dict)
    (hk : ∀ e ∈ ((D.left w).dict r).entries, e.value.IsKey → D.Valid w e.key) :
    D.Relates w (Yolo.opposite f (.dict r)) (Yolo.opposite g (.dict r)) D.Same := by
  refine relates_get ?_
  rw [(hD.renamed w).dict]
  refine hD.relates_bind (hD.relates_swapEntries ⟨hD.emptyDict, rfl⟩ (fun e he => ?_) hk)
    fun w' d d' _ hd => hD.relates_newDict hd
  exact (hD.entry (hD.dict r) he).1

/-- The minus sign in yolo, where keys are as good as other values. -/
theorem relates_negate (hk : ∀ w r, ∀ e ∈ ((D.left w).dict r).entries, D.Valid w e.key) (n : Nat)
    {v : Value} (hv : D.Valid w v) :
    D.Relates w (Yolo.negate n v) (Yolo.negate n (v.rename D.rename)) D.Same := by
  induction n generalizing w v with
  | zero => exact hD.relates_exhausted
  | succ n ih =>
    refine hD.relates_unary .minus ⟨hv, rfl⟩ fun _ => ?_
    refine hD.relates_opposite ⟨hv, rfl⟩ (fun w' _ v hv => ih hv) ?_
    rintro r rfl
    exact hD.relates_oppositeDict r fun e he _ => hk w r e he

/-! ### Functions as operands -/

theorem valid_of_getText? {d : Dict} {t : String} {v : Value} (hd : D.ValidDict w d)
    (h : d.getText? (D.left w) t = some v) : D.Valid w v :=
  hD.valid_of_find? hd h

theorem fillParams_rename (params : List String) (v : Value) :
    Yolo.fillParams (D.right w) params (v.rename D.rename) =
      ((Yolo.fillParams (D.left w) params v).1.map fun b => (b.1, b.2.rename D.rename),
        (Yolo.fillParams (D.left w) params v).2) := by
  have hr := hD.renamed w
  cases v with
  | dict r =>
    simp [Yolo.fillParams, hr.dict, hr.getText?, List.map_filterMap, Option.map_map,
      Function.comp_def]
  | array r => simp [Yolo.fillParams, hr.array, List.zip_map_right, Prod.map]
  | _ => simp [Yolo.fillParams, Function.comp_def]

theorem valid_fillParams (params : List String) {v : Value} (hv : D.Valid w v) :
    (∀ b ∈ (Yolo.fillParams (D.left w) params v).1, b.1 ∈ params ∧ D.Valid w b.2) ∧
      ∀ p ∈ (Yolo.fillParams (D.left w) params v).2, p ∈ params := by
  cases v with
  | dict r =>
    refine ⟨fun b hb => ?_, fun p hp => (List.mem_filter.1 hp).1⟩
    obtain ⟨p, hp, hb⟩ := List.mem_filterMap.1 hb
    obtain ⟨v, hv, rfl⟩ := Option.map_eq_some_iff.1 hb
    exact ⟨hp, hD.valid_of_getText? (hD.dict r) hv⟩
  | array r =>
    refine ⟨fun b hb => ?_, fun p hp => List.mem_of_mem_drop hp⟩
    have := List.of_mem_zip hb
    exact ⟨this.1, hD.array (Array.mem_def.2 this.2)⟩
  | _ =>
    refine ⟨fun b hb => ?_, fun p hp => List.mem_of_mem_drop hp⟩
    obtain ⟨p, hp, rfl⟩ := List.mem_map.1 hb
    exact ⟨List.mem_of_mem_take hp, hv⟩

theorem relates_bake {f : Closure} {v : Value} (hf : D.ValidClosure w f) (hv : D.Valid w v) :
    D.Relates w (Yolo.bake f v) (Yolo.bake (f.rename D.rename) (v.rename D.rename)) D.Same := by
  by_cases hn : v = .null
  · subst hn
    exact hD.relates_pure ⟨hf, rfl⟩
  have hn' : v.rename D.rename ≠ .null := by
    intro h
    cases v <;> simp_all
  rw [Yolo.bake_eq hn, Yolo.bake_eq hn']
  refine hD.relates_bind (hD.relates_enclose hf.known) fun w₁ r q h₁ hr => ?_
  refine relates_get ?_
  have hv₁ := hD.valid_mono h₁ hv
  obtain ⟨hb, hp⟩ := hD.valid_fillParams f.params hv₁
  have he := hD.fillParams_rename (w := w₁) f.params v
  refine hD.relates_bind (hD.relates_bindAll hr (fun b hm => ?_) (congrArg Prod.fst he))
    fun w₂ _ _ h₂ _ => hD.relates_pure ⟨?_, ?_⟩
  · exact ⟨hf.params _ (hb b hm).1, (hb b hm).2⟩
  · exact ⟨hD.known_of_open (hD.open_mono h₂ hr.1), fun p h => hf.params p (hp p h), hf.body⟩
  · rw [show (f.rename D.rename).params = f.params from rfl, he, hr.2]
    rfl

theorem relates_compose {f : Closure} {first second : Value} (hf : D.ValidClosure w f)
    (h₁ : D.Valid w first) (h₂ : D.Valid w second) :
    D.Relates w (Yolo.compose f first second)
      (Yolo.compose (f.rename D.rename) (first.rename D.rename) (second.rename D.rename))
        D.Same := by
  refine hD.relates_bind (hD.relates_encloseEmpty hf.known) fun w₁ r q hle hr => ?_
  obtain ⟨⟨ho, rfl⟩, hn⟩ := hr
  have hparts := hD.reaches_parts ho hn (hD.valid_mono hle h₁) (hD.valid_mono hle h₂)
  refine hD.relates_bind (relates_modify hparts) fun w₂ _ _ h₂ _ => ?_
  refine hD.relates_newFunction (hD.known_of_open (hD.open_mono h₂ ho)) hf.params ?_
  have hargs : ∀ x ∈ f.params.map Expr.ident, x.Throughout D.Node := by
    intro x hx
    obtain ⟨p, hp, rfl⟩ := List.mem_map.1 hx
    exact throughout_leaf rfl (hf.params p hp).1
  have hinner : (Expr.call (.ident Yolo.firstName) (f.params.map .ident)).Throughout D.Node :=
    Expr.throughout_iff.2
      ⟨List.forall_mem_cons.2 ⟨throughout_leaf rfl hD.firstName, hargs⟩, trivial⟩
  simp only [List.mem_singleton, forall_eq]
  refine Expr.throughout_iff.2 ⟨?_, trivial⟩
  simp only [Expr.children, List.forall_mem_cons]
  exact ⟨throughout_leaf rfl hD.secondName, hinner, by simp⟩

theorem relates_concat (l r : Value) :
    D.Relates w (Yolo.concat l r) (Yolo.concat (l.rename D.rename) (r.rename D.rename)) D.Same := by
  refine relates_get ?_
  rw [(hD.renamed w).display, (hD.renamed w).display]
  exact hD.relates_newText _

theorem relates_onResult {f : Closure} {other : Value} {operation : Expr → Expr → Expr}
    (l r : Value) (hf : D.ValidClosure w f) (ho : D.Valid w other)
    (hop : ∀ x y, x.Throughout D.Node → y.Throughout D.Node → (operation x y).Throughout D.Node) :
    D.Relates w (Yolo.onResult f other operation l r)
      (Yolo.onResult (f.rename D.rename) (other.rename D.rename) operation (l.rename D.rename)
        (r.rename D.rename)) D.Same := by
  refine relates_get ?_
  rw [(hD.renamed w).literal]
  split
  next x hx =>
    refine hD.relates_withBody hf ?_
    simp only [List.mem_singleton, forall_eq]
    exact hop _ _ (throughout_block hf.body) (hD.throughout_literal ho hx)
  next => exact hD.relates_concat l r
  next => exact hD.relates_exhausted

/-! ### Any two operands -/

theorem relates_newAbyss : D.Relates w Yolo.newAbyss Yolo.newAbyss D.Same := hD.relates_newText _

theorem relates_repeatText (t : String) (count : Int64) :
    D.Relates w (Yolo.repeatText t count) (Yolo.repeatText t count) D.Same := by
  unfold Yolo.repeatText
  split
  · exact hD.relates_newAbyss
  · split
    · exact hD.relates_newText _
    · simp only
      split
      · exact hD.relates_newText _
      · exact hD.relates_newAbyss

theorem relates_splitText (t : String) (count : Int64) :
    D.Relates w (Yolo.splitText t count) (Yolo.splitText t count) D.Same := by
  unfold Yolo.splitText
  split
  · exact hD.relates_newAbyss
  · exact hD.relates_bind (hD.relates_newChars _) fun w' vs us _ h => hD.relates_newArray_of_list h

omit hD in
theorem same_of_ordering? {op : BinaryOp} {b : Bool} {v : Value}
    (h : Yolo.ordering? op b = some v) :
    D.Same w v v := by
  unfold Yolo.ordering? at h
  split at h <;> cases h
  all_goals exact ⟨trivial, rfl⟩

theorem relates_textWithCount (op : BinaryOp) (t : String) (count : Int64) (first : Bool)
    (l r : Value) :
    D.Relates w (Yolo.textWithCount op t count first l r)
      (Yolo.textWithCount op t count first (l.rename D.rename) (r.rename D.rename)) D.Same := by
  unfold Yolo.textWithCount
  split
  · exact hD.relates_repeatText t count
  · exact hD.relates_splitText t count
  · split
    next v hv => exact hD.relates_pure (same_of_ordering? hv)
    next => exact hD.relates_concat l r

theorem relates_textWithInt (op : BinaryOp) {f g : Value → Eval Value} (t : Ref .text)
    (count : Int64)
    (first : Bool) (l r : Value) (hf : ∀ n, D.Relates w (f (.int n)) (g (.int n)) D.Same) :
    D.Relates w (Yolo.textWithInt op f t count first l r)
      (Yolo.textWithInt op g t count first (l.rename D.rename) (r.rename D.rename)) D.Same := by
  refine relates_get ?_
  simp only [(hD.renamed w).text]
  split
  · exact hf _
  · exact hD.relates_textWithCount op _ count first l r

theorem relates_scalarWithArray (op : BinaryOp) {f g : Value → Eval Value} (a : Ref .array)
    (first : Bool) (l r : Value)
    (hf : ∀ w', D.Le w w' → ∀ v, D.Valid w' v → D.Relates w' (f v) (g (v.rename D.rename)) D.Same) :
    D.Relates w (Yolo.scalarWithArray op f a first l r)
      (Yolo.scalarWithArray op g a first (l.rename D.rename) (r.rename D.rename)) D.Same := by
  unfold Yolo.scalarWithArray
  split
  · refine relates_get ?_
    rw [(hD.renamed w).array, Array.toList_map, List.mapM_map]
    refine hD.relates_bind (hD.relates_mapM fun w' hle v hv => ?_) fun w' vs us _ h =>
      hD.relates_newArray_of_list h
    exact hf w' hle v (hD.valid_mono hle (hD.array (Array.mem_def.2 hv)))
  · split
    next v hv => exact hD.relates_pure (same_of_ordering? hv)
    next => exact hD.relates_concat l r

theorem relates_rangeOf (first last : Option Int64) :
    D.Relates w (Yolo.rangeOf first last) (Yolo.rangeOf first last) D.Same := by
  unfold Yolo.rangeOf
  split
  · exact hD.relates_pure ⟨trivial, rfl⟩
  · exact hD.relates_newAbyss

omit hD in
theorem throughout_binary {op : BinaryOp} {x y : Expr} (hx : x.Throughout D.Node)
    (hy : y.Throughout D.Node) : (Expr.binary op x y).Throughout D.Node := by
  refine Expr.throughout_iff.2 ⟨?_, trivial⟩
  simp only [Expr.children, List.forall_mem_cons]
  exact ⟨hx, hy, by simp⟩

theorem relates_functionLeft (op : BinaryOp) {f : Closure} {r : Value} (hf : D.ValidClosure w f)
    (hr : D.Valid w r) (c c' : BinaryOp → Value → Value → Eval Value) :
    D.Relates w (Yolo.coerce c op (.function f) r)
      (Yolo.coerce c' op (.function (f.rename D.rename)) (r.rename D.rename)) D.Same := by
  simp only [Yolo.coerce]
  split
  · cases r with
    | function g => exact hD.relates_compose hf (show D.Valid w (.function f) from hf) hr
    | _ => exact hD.relates_bake hf hr
  · exact hD.relates_onResult (.function f) r hf hr fun _ _ => throughout_binary

theorem relates_functionRight (op : BinaryOp) {f : Closure} {l : Value} (hf : D.ValidClosure w f)
    (hl : D.Valid w l) :
    D.Relates w
      (if op = .plus then Yolo.bake f l
        else Yolo.onResult f l (fun body literal => .binary op literal body) l (.function f))
      (if op = .plus then Yolo.bake (f.rename D.rename) (l.rename D.rename)
        else Yolo.onResult (f.rename D.rename) (l.rename D.rename)
          (fun body literal => .binary op literal body) (l.rename D.rename)
          (.function (f.rename D.rename))) D.Same := by
  split
  · exact hD.relates_bake hf hl
  · exact hD.relates_onResult l (.function f) hf hl fun _ _ hx hy => throughout_binary hy hx

theorem relates_coerce {c c' : BinaryOp → Value → Value → Eval Value} (op : BinaryOp) {l r : Value}
    (hl : D.Valid w l) (hr : D.Valid w r)
    (hc : ∀ w', D.Le w w' → ∀ l r, D.Valid w' l → D.Valid w' r →
      D.Relates w' (c op l r) (c' op (l.rename D.rename) (r.rename D.rename)) D.Same) :
    D.Relates w (Yolo.coerce c op l r) (Yolo.coerce c' op (l.rename D.rename) (r.rename D.rename))
      D.Same := by
  have here := hc w (hD.refl w)
  -- What combines with each element combines with it in every later world.
  have onLeft : ∀ w', D.Le w w' → ∀ v, D.Valid w' v →
      D.Relates w' (c op l v) (c' op (l.rename D.rename) (v.rename D.rename)) D.Same :=
    fun w' hle v hv => hc w' hle l v (hD.valid_mono hle hl) hv
  have onRight : ∀ w', D.Le w w' → ∀ v, D.Valid w' v →
      D.Relates w' (c op v r) (c' op (v.rename D.rename) (r.rename D.rename)) D.Same :=
    fun w' hle v hv => hc w' hle v r hv (hD.valid_mono hle hr)
  cases l with
  | function f => exact hD.relates_functionLeft op hl hr c c'
  | int n =>
    cases r with
    | array a => exact hD.relates_scalarWithArray op a true (.int n) (.array a) onLeft
    | text t =>
      refine hD.relates_textWithInt op t n true (.int n) (.text t) fun m => ?_
      exact here (.int n) (.int m) trivial trivial
    | bool b => exact here (.int n) (.int _) trivial trivial
    | range a b =>
      simp only [Yolo.coerce, Value.rename_int, Value.rename_range]
      split
      · exact hD.relates_rangeOf _ _
      · exact hD.relates_concat (.int n) (.range a b)
    | function f => exact hD.relates_functionRight op hr hl
    | _ => exact hD.relates_concat _ _
  | num x =>
    cases r with
    | array a => exact hD.relates_scalarWithArray op a true (.num x) (.array a) onLeft
    | bool b => exact here (.num x) (.int _) trivial trivial
    | function f => exact hD.relates_functionRight op hr hl
    | _ => exact hD.relates_concat _ _
  | array a =>
    cases r with
    | int n => exact hD.relates_scalarWithArray op a false (.array a) (.int n) onRight
    | num x => exact hD.relates_scalarWithArray op a false (.array a) (.num x) onRight
    | function f => exact hD.relates_functionRight op hr hl
    | _ => exact hD.relates_concat _ _
  | text t =>
    cases r with
    | int n =>
      simp only [Yolo.coerce, Value.rename_text, Value.rename_int]
      refine hD.relates_textWithInt op t n false (.text t) (.int n) fun m => ?_
      exact here (.int m) (.int n) trivial trivial
    | function f => exact hD.relates_functionRight op hr hl
    | _ => exact hD.relates_concat _ _
  | bool b =>
    cases r with
    | int n => exact here (.int _) (.int n) trivial trivial
    | num x => exact here (.int _) (.num x) trivial trivial
    | function f => exact hD.relates_functionRight op hr hl
    | _ => exact hD.relates_concat _ _
  | range a b =>
    cases r with
    | int n =>
      simp only [Yolo.coerce, Value.rename_int, Value.rename_range]
      split
      · exact hD.relates_rangeOf _ _
      · exact hD.relates_concat (.range a b) (.int n)
    | function f => exact hD.relates_functionRight op hr hl
    | _ => exact hD.relates_concat _ _
  | _ =>
    cases r with
    | function f => exact hD.relates_functionRight op hr hl
    | _ => exact hD.relates_concat _ _

theorem relates_combine (n : Nat) (op : BinaryOp) {l r : Value} (hl : D.Valid w l)
    (hr : D.Valid w r) :
    D.Relates w (Yolo.combine n op l r)
      (Yolo.combine n op (l.rename D.rename) (r.rename D.rename)) D.Same := by
  induction n generalizing w l r with
  | zero => exact hD.relates_exhausted
  | succ n ih =>
    refine hD.relates_binary op ⟨hl, rfl⟩ ⟨hr, rfl⟩ fun w' hle => ?_
    exact hD.relates_coerce op (hD.valid_mono hle hl) (hD.valid_mono hle hr)
      fun w'' _ l r hl hr => ih hl hr

theorem relates_yoloBinary (op : BinaryOp) {l l' r r' : Value} (hl : D.Same w l l')
    (hr : D.Same w r r') :
    D.Relates w (Yolo.binary op l r) (Yolo.binary op l' r') D.Same := by
  obtain ⟨hl, rfl⟩ := hl
  obtain ⟨hr, rfl⟩ := hr
  refine relates_get ?_
  simp only [(hD.renamed w).nesting]
  exact hD.relates_combine _ op hl hr

/-- A strict operator beside its yolo form: only its results count. -/
theorem relates_strictYolo (hi : ∀ e, D.Ignored (.failed e)) (op : BinaryOp) {l l' r r' : Value}
    (hl : D.Same w l l') (hr : D.Same w r r') :
    D.Relates w (Operator.strictBinary op l r) (Yolo.binary op l' r') D.Same := by
  refine relates_get_right (g := fun s => Yolo.combine (s.nesting + 3) op l' r') ?_
  rw [Yolo.combine]
  refine hD.relates_binary op hl hr fun w' _ => ?_
  unfold Operator.mismatch
  split
  · exact Relates.ignored hi
  · exact Relates.ignored hi

end Steady

end Discipline

end YeetYoink
