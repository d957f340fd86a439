import YeetYoink.Proofs.Eval.Elements
import YeetYoink.Proofs.Eval.Operators
import YeetYoink.Proofs.Eval.Rewriting

/-!
# Evaluation under a discipline

`D.Follows ev ev'` says that two evaluators relate for every expression of well-formed nodes, in
every world. Each construct relates if the evaluators for the expressions inside it do, so one
expression does (`relates_node`). The minus sign and yolo blocks are left to hypotheses: the first
may hand out keys, and `Marked.evaluate`, which marks the scopes of yolo blocks with another value,
differs in the second.
-/

namespace YeetYoink

/-- Negation of truth is the same in yolo. -/
theorem Evaluator.applyUnary_bang (r : Ref .scope) (v : Value) :
    applyUnary r .bang v = do return .bool (!(← get).truthy v) := by
  funext s
  change (if s.isYolo r then Yolo.unary .bang v else Operator.strictUnary .bang v) s = _
  split <;> rfl

theorem Evaluator.node_binary {ev : Evaluator} {n : Nat} {op : BinaryOp} {x y : Expr}
    {r : Ref .scope} (h : ¬ ∃ name, op = .push ∧ x = .ident name) :
    node ev n (.binary op x y) r = binary ev r op x y := by
  cases op with
  | push =>
    cases x with
    | ident name => exact absurd ⟨name, rfl, rfl⟩ h
    | _ => rfl
  | _ => rfl

theorem Evaluator.unquote_of_not_call {ev : Evaluator} {r : Ref .scope} {x : Expr}
    (h : ∀ c args, x ≠ .call c args) : unquote ev r x = pure x := by
  unfold unquote
  split
  · exact absurd rfl (h _ _)
  · rfl

theorem Evaluator.rebind_of_holder? {s : Store} {r q : Ref .scope} {name : String}
    (h : s.holder? r name = some q) (v : Value) :
    rebind r name v s = .ok v (s.bind q name v) := by
  have hu : s.update r name v = (true, s.bind q name v) := by
    rw [Store.update, Store.rebind?, h, Option.map_some]
  change (if (s.update r name v).1 then _ else _ : Eval Value) (s.update r name v).2 = _
  rw [hu]
  rfl

/-- A name that is bound nowhere. -/
theorem Evaluator.rebind_of_none {s : Store} {r : Ref .scope} {name : String}
    (h : s.holder? r name = none) (v : Value) :
    rebind r name v s = (if s.isYolo r then do
        modify (·.bind r name v)
        return v
      else Eval.fail (.undeclared name) : Eval Value) s := by
  have hu : s.update r name v = (false, s) := by
    rw [Store.update, Store.rebind?, h, Option.map_none]
  change (if (s.update r name v).1 then _ else _ : Eval Value) (s.update r name v).2 = _
  rw [hu]
  rfl

theorem Expr.isTarget_cases {kind : AssignKind} {x : Expr} (h : IsTarget kind x) :
    (∃ name, x = .ident name) ∨ kind = .update ∧ ∃ c k, x = .index c k := by
  unfold IsTarget at h
  split at h
  · exact .inl ⟨_, rfl⟩
  · exact .inr ⟨rfl, _, _, rfl⟩
  · exact h.elim

namespace Marked

/-- One expression, where the scope of a yolo block is marked with this value. -/
def node (mark : Value) (ev : Evaluator) (n : Nat) (x : Expr) (scope : Ref .scope) : Eval Value :=
  match x with
  | .yolo body => do
    let scope ← Eval.enclose scope
    modify (·.bind scope Store.yoloMark mark)
    Evaluator.block ev scope body
  | x => Evaluator.node ev n x scope

/-- Evaluates like `evaluate`, but for the mark of the scopes of yolo blocks. -/
def evaluate (mark : Value) : Nat → Evaluator
  | 0, _, _ => Eval.exhausted
  | n + 1, x, scope => node mark (evaluate mark n) n x scope

theorem node_of_not_yolo {mark : Value} {ev : Evaluator} {n : Nat} {x : Expr} {r : Ref .scope}
    (h : ∀ body, x ≠ .yolo body) : node mark ev n x r = Evaluator.node ev n x r := by
  unfold node
  split
  · exact absurd rfl (h _)
  · rfl

/-- The usual mark. -/
theorem evaluate_true (n : Nat) : evaluate (.bool true) n = YeetYoink.evaluate n := by
  induction n with
  | zero => rfl
  | succ n ih =>
    funext x r
    rw [evaluate, evaluate_succ, ih]
    by_cases h : ∃ body, x = .yolo body
    · obtain ⟨body, rfl⟩ := h
      rfl
    · exact node_of_not_yolo fun body hx => h ⟨body, hx⟩

end Marked

namespace Discipline

/-- Evaluators that give related values for every expression. -/
def Follows (D : Discipline) (ev ev' : Evaluator) : Prop :=
  ∀ ⦃w x r q⦄, x.Throughout D.Node → D.SameScope w r q → D.Relates w (ev x r) (ev' x q) D.Same

namespace Steady

variable {D : Discipline} (hD : D.Steady) {ev ev' : Evaluator} (hev : D.Follows ev ev')
    {w : D.World}
  {r q : Ref .scope}
include hD hev

/-! ### Sequences -/

theorem relates_sequence {v u : Value} {body : Block} (hr : D.SameScope w r q) (hv : D.Same w v u)
    (hb : ∀ x ∈ body, x.Throughout D.Node) :
    D.Relates w (Evaluator.sequence ev r v body) (Evaluator.sequence ev' q u body) D.Same := by
  induction body generalizing w v u with
  | nil => exact hD.relates_pure hv
  | cons x xs ih =>
    obtain ⟨hx, hb⟩ := List.forall_mem_cons.1 hb
    exact hD.relates_bind (hev hx hr) fun w' v u hle hv => ih (hD.scope_mono hle hr) hv hb

theorem relates_block {body : Block} (hr : D.SameScope w r q)
    (hb : ∀ x ∈ body, x.Throughout D.Node) :
    D.Relates w (Evaluator.block ev r body) (Evaluator.block ev' q body) D.Same :=
  hD.relates_sequence hev hr ⟨trivial, rfl⟩ hb

theorem relates_values {xs : List Expr} (hr : D.SameScope w r q)
    (hx : ∀ x ∈ xs, x.Throughout D.Node) :
    D.Relates w (Evaluator.values ev r xs) (Evaluator.values ev' q xs) D.SameAll :=
  hD.relates_mapM fun _ hle x hm => hev (hx x hm) (hD.scope_mono hle hr)

/-! ### Literals -/

theorem relates_template (text : String) {xs : List Expr} (hr : D.SameScope w r q)
    (hx : ∀ x ∈ xs, x.Throughout D.Node) :
    D.Relates w (Evaluator.template ev r text xs) (Evaluator.template ev' q text xs) D.Same := by
  refine hD.relates_bind (hD.relates_values hev hr hx) fun w' vs us _ h => relates_get ?_
  have hs : us.map (D.right w').display = vs.map (D.left w').display := by
    simp only [h.2, List.map_map, Function.comp_def, (hD.renamed w').display]
  rw [hs]
  exact hD.relates_newText _

theorem relates_dictPairs {d e : Dict} {ps : List (Expr × Expr)} (hr : D.SameScope w r q)
    (hd : D.SameDict w d e) (hp : ∀ p ∈ ps, p.1.Throughout D.Node ∧ p.2.Throughout D.Node) :
    D.Relates w (Evaluator.dictPairs ev r d ps) (Evaluator.dictPairs ev' q e ps) D.SameDict := by
  induction ps generalizing w d e with
  | nil => exact hD.relates_pure hd
  | cons p ps ih =>
    obtain ⟨⟨hk, hv⟩, hp⟩ := List.forall_mem_cons.1 hp
    refine hD.relates_bind (hev hk hr) fun w₁ k k' h₁ hk => ?_
    refine hD.relates_bind (hev hv (hD.scope_mono h₁ hr)) fun w₂ v v' h₂ hv => ?_
    have hle := hD.trans h₁ h₂
    refine hD.relates_bind (hD.relates_insert (hD.sameDict_mono hle hd) (hD.same_mono h₂ hk) hv)
      fun w₃ d e h₃ hd => ?_
    exact ih (hD.scope_mono (hD.trans hle h₃) hr) hd hp

theorem relates_dict {ps : List (Expr × Expr)} (hr : D.SameScope w r q)
    (hp : ∀ p ∈ ps, p.1.Throughout D.Node ∧ p.2.Throughout D.Node) :
    D.Relates w (Evaluator.dict ev r ps) (Evaluator.dict ev' q ps) D.Same :=
  hD.relates_bind (hD.relates_dictPairs hev hr ⟨hD.emptyDict, rfl⟩ hp) fun _ _ _ _ hd =>
    hD.relates_newDict hd

theorem relates_range {first last : Expr} (hr : D.SameScope w r q) (hf : first.Throughout D.Node)
    (hl : last.Throughout D.Node) :
    D.Relates w (Evaluator.range ev r first last) (Evaluator.range ev' q first last) D.Same := by
  refine hD.relates_bind (hev hf hr) fun w₁ a a' h₁ ha => ?_
  refine hD.relates_bind (hev hl (hD.scope_mono h₁ hr)) fun w₂ b b' _ hb => ?_
  obtain ⟨-, rfl⟩ := ha
  obtain ⟨-, rfl⟩ := hb
  cases a with
  | int n =>
    cases b with
    | int m => exact hD.relates_pure ⟨trivial, rfl⟩
    | _ => exact hD.relates_fail id
  | _ => exact hD.relates_fails (by simp only [Value.kind_rename]) id

/-! ### Operators -/

omit hev in
theorem relates_applyBinary (op : BinaryOp) {l l' r₁ r₂ : Value} (hr : D.SameScope w r q)
    (hl : D.Same w l l') (hv : D.Same w r₁ r₂) :
    D.Relates w (Evaluator.applyBinary r op l r₁) (Evaluator.applyBinary q op l' r₂) D.Same := by
  refine relates_get ?_
  obtain h | ⟨h, hi⟩ := hD.isYolo_eq hr
  · rw [h]
    split
    · exact hD.relates_yoloBinary op hl hv
    · exact hD.relates_strictBinary op hl hv
  · rw [h, if_neg Bool.false_ne_true]
    split
    · exact hD.relates_strictYolo hi op hl hv
    · exact hD.relates_strictBinary op hl hv

omit hev in
theorem relates_applyBang {v u : Value} (hv : D.Same w v u) :
    D.Relates w (Evaluator.applyUnary r .bang v) (Evaluator.applyUnary q .bang u) D.Same := by
  rw [Evaluator.applyUnary_bang, Evaluator.applyUnary_bang]
  refine relates_get ?_
  rw [hv.2, (hD.renamed w).truthy]
  exact hD.relates_pure ⟨trivial, rfl⟩

omit hev in
theorem relates_applyMinus (hk : ∀ w r, ∀ e ∈ ((D.left w).dict r).entries, D.Valid w e.key)
    {v u : Value} (hr : D.SameScope w r q) (hv : D.Same w v u) :
    D.Relates w (Evaluator.applyUnary r .minus v) (Evaluator.applyUnary q .minus u) D.Same := by
  refine relates_get ?_
  obtain h | ⟨h, hi⟩ := hD.isYolo_eq hr
  · rw [h]
    split
    · refine relates_get ?_
      simp only [(hD.renamed w).nesting]
      obtain ⟨hv, rfl⟩ := hv
      exact hD.relates_negate hk ((D.left w).nesting + 1 + 1) hv
    · exact hD.relates_strictUnary .minus hv
  · rw [h, if_neg Bool.false_ne_true]
    split
    · refine relates_get_right (g := fun s => Yolo.negate (s.nesting + 1 + 1) u) ?_
      exact hD.relates_unary .minus hv fun _ => Relates.ignored hi
    · exact hD.relates_strictUnary .minus hv

theorem relates_pushNamed {name : String} {x : Expr} (hr : D.SameScope w r q) (hn : D.Name name)
    (hx : x.Throughout D.Node) :
    D.Relates w (Evaluator.pushNamed ev r name x) (Evaluator.pushNamed ev' q name x) D.Same := by
  have ht : (Expr.ident name).Throughout D.Node := throughout_leaf rfl hn
  refine hD.relates_bind (hev ht hr) fun w₁ t t' h₁ ht => ?_
  refine hD.relates_bind (hev hx (hD.scope_mono h₁ hr)) fun w₂ v v' h₂ hv => ?_
  have hr₂ := hD.scope_mono (hD.trans h₁ h₂) hr
  have ht₂ := hD.same_mono h₂ ht
  obtain ⟨-, rfl⟩ := ht
  cases t with
  | array a =>
    refine hD.relates_bind (hD.relates_modifyArray (fun u hu => ?_) ?_) fun _ _ _ _ _ =>
      hD.relates_pure ⟨trivial, rfl⟩
    · obtain hu | rfl := Array.mem_push.1 hu
      · exact hD.array hu
      · exact hv.1
    · rw [(hD.renamed w₂).array, hv.2, Array.map_push]
  | _ => exact hD.relates_applyBinary .push hr₂ ht₂ hv

theorem relates_binaryExpr (op : BinaryOp) {x y : Expr} (hr : D.SameScope w r q)
    (hx : x.Throughout D.Node) (hy : y.Throughout D.Node) :
    D.Relates w (Evaluator.binary ev r op x y) (Evaluator.binary ev' q op x y) D.Same := by
  refine hD.relates_bind (hev hx hr) fun w₁ l l' h₁ hl => ?_
  refine hD.relates_bind (hev hy (hD.scope_mono h₁ hr)) fun w₂ v v' h₂ hv => ?_
  exact hD.relates_applyBinary op (hD.scope_mono (hD.trans h₁ h₂) hr) (hD.same_mono h₂ hl) hv

theorem relates_logical (on : Bool) {x y : Expr} (hr : D.SameScope w r q)
    (hx : x.Throughout D.Node) (hy : y.Throughout D.Node) :
    D.Relates w (Evaluator.logical ev r on x y) (Evaluator.logical ev' q on x y) D.Same := by
  refine hD.relates_bind (hev hx hr) fun w₁ v v' h₁ hv => relates_get ?_
  rw [hv.2, (hD.renamed w₁).truthy, ← hv.2]
  split
  · exact hev hy (hD.scope_mono h₁ hr)
  · exact hD.relates_pure hv

theorem relates_index {c k : Expr} (hr : D.SameScope w r q) (hc : c.Throughout D.Node)
    (hk : k.Throughout D.Node) :
    D.Relates w (Evaluator.index ev r c k) (Evaluator.index ev' q c k) D.Same := by
  refine hD.relates_bind (hev hc hr) fun w₁ c c' h₁ hc => ?_
  refine hD.relates_bind (hev hk (hD.scope_mono h₁ hr)) fun w₂ k k' h₂ hk => ?_
  exact hD.relates_read (hD.same_mono h₂ hc) hk

/-! ### Calls -/

theorem relates_enter (callee : Expr) {f : Closure} {vs us : List Value} (hf : D.ValidClosure w f)
    (hv : D.SameAll w vs us) :
    D.Relates w (Evaluator.enter ev callee f vs) (Evaluator.enter ev' callee (f.rename D.rename) us)
      D.Same := by
  obtain ⟨hv, rfl⟩ := hv
  unfold Evaluator.enter
  simp only [List.length_map, Closure.params_rename, Closure.scope_rename, Closure.body_rename]
  split
  · refine hD.relates_bind (hD.relates_enclose hf.known) fun w₁ r q h₁ hr => ?_
    refine hD.relates_bind (hD.relates_bindAll hr (fun b hb => ?_) ?_) fun w₂ _ _ h₂ _ => ?_
    · obtain ⟨hp, hb⟩ := List.of_mem_zip hb
      exact ⟨hf.params _ hp, hD.valid_mono h₁ (hv _ hb)⟩
    · rw [List.zip_map_right]
      rfl
    · exact hD.relates_catchYeet (hD.relates_block hev (hD.scope_mono h₂ hr) hf.body)
  · exact hD.relates_fail id

theorem relates_apply (callee : Expr) {f f' : Value} {vs us : List Value} (hf : D.Same w f f')
    (hv : D.SameAll w vs us) :
    D.Relates w (Evaluator.apply ev callee f vs) (Evaluator.apply ev' callee f' us) D.Same := by
  obtain ⟨hf, rfl⟩ := hf
  cases f with
  | function f => exact hD.relates_enter hev callee hf hv
  | builtin b => exact hD.relates_builtin b hv
  | _ => exact hD.relates_fail id

theorem relates_unquote {x : Expr} (hr : D.SameScope w r q) (hx : x.Throughout D.Node) :
    D.Relates w (Evaluator.unquote ev r x) (Evaluator.unquote ev' q x) D.SameExpr := by
  unfold Evaluator.unquote
  split
  next y =>
    refine hD.relates_bind (hev (hx.child (by simp [Expr.children])) hr) fun w₁ v v' _ hv => ?_
    refine relates_get ?_
    obtain ⟨hv, rfl⟩ := hv
    rw [(hD.renamed w₁).literal]
    split
    next z hz => exact hD.relates_pure ⟨hD.throughout_literal hv hz, rfl⟩
    next => exact hD.relates_fails (by rw [Value.kind_rename]) id
    next => exact hD.relates_exhausted
  next => exact hD.relates_pure ⟨hx, rfl⟩

theorem relates_quote {args : List Expr} (hr : D.SameScope w r q)
    (ha : ∀ x ∈ args, x.Throughout D.Node) :
    D.Relates w (Evaluator.quote ev r args) (Evaluator.quote ev' q args) D.Same := by
  unfold Evaluator.quote
  split
  next x =>
    have hu : D.Rewrites (Evaluator.unquote ev r) (Evaluator.unquote ev' q) w :=
      { other x hx := ⟨Evaluator.unquote_of_not_call hx, Evaluator.unquote_of_not_call hx⟩
        relates w' hle x hx := hD.relates_unquote hev (hD.scope_mono hle hr) hx }
    refine hD.relates_bind (hD.relates_transformM hu (ha x (by simp))) fun w' y y' _ hy => ?_
    obtain ⟨⟨hy, rfl⟩, -⟩ := hy
    exact hD.relates_pure ⟨hy, rfl⟩
  next => exact hD.relates_fail id

theorem relates_call {callee : Expr} {args : List Expr} (hr : D.SameScope w r q)
    (hc : callee.Throughout D.Node) (ha : ∀ x ∈ args, x.Throughout D.Node) :
    D.Relates w (Evaluator.call ev r callee args) (Evaluator.call ev' q callee args) D.Same := by
  unfold Evaluator.call
  split
  · exact hD.relates_quote hev hr ha
  · refine hD.relates_bind (hev hc hr) fun w₁ f f' h₁ hf => ?_
    refine hD.relates_bind (hD.relates_values hev (hD.scope_mono h₁ hr) ha) fun w₂ vs us h₂ hv => ?_
    exact hD.relates_apply hev callee (hD.same_mono h₂ hf) hv

/-! ### Assignments -/

theorem relates_declareExpr {name : String} {x : Expr} (hr : D.SameScope w r q) (hn : D.Binds name)
    (hx : x.Throughout D.Node) :
    D.Relates w (Evaluator.declare ev r name x) (Evaluator.declare ev' q name x) D.Same := by
  refine hD.relates_bind (hev hx hr) fun w₁ v u h₁ hv => ?_
  refine hD.relates_bind (hD.relates_declare (hD.scope_mono h₁ hr) hn hv) fun w₂ _ _ h₂ _ => ?_
  exact hD.relates_pure (hD.same_mono h₂ hv)

omit hev in
/-- A name that is bound nowhere: in yolo it is bound nowhere in the right run either. -/
theorem holder?_none {name : String} (hr : D.SameScope w r q) (hn : D.Name name)
    (hl : (D.left w).holder? r name = none) :
    ((D.right w).holder? q name = none ∧ (D.right w).isYolo q = (D.left w).isYolo r) ∨
      (D.left w).isYolo r = false ∧ ∀ e, D.Ignored (.failed e) := by
  rw [Store.holder?_eq_none] at hl
  obtain ⟨ho, rfl⟩ := hr
  obtain h | ⟨rfl, -, hi⟩ := hD.lookup_none (hD.known_of_open ho) hn hl
  · obtain hy | hy := hD.isYolo_eq ⟨ho, rfl⟩
    · exact .inl ⟨(Store.holder?_eq_none _).2 h, hy⟩
    · exact .inr hy
  · exact .inr ⟨by rw [Store.isYolo, hl]; rfl, hi⟩

theorem relates_updateElement {c k x : Expr} (hr : D.SameScope w r q) (hc : c.Throughout D.Node)
    (hk : k.Throughout D.Node) (hx : x.Throughout D.Node) :
    D.Relates w (Evaluator.updateElement ev r c k x) (Evaluator.updateElement ev' q c k x)
      D.Same := by
  refine hD.relates_bind (hev hc hr) fun w₁ c₁ c₂ h₁ hc => ?_
  refine hD.relates_bind (hev hk (hD.scope_mono h₁ hr)) fun w₂ k₁ k₂ h₂ hk => ?_
  have hle := hD.trans h₁ h₂
  refine hD.relates_bind (hev hx (hD.scope_mono hle hr)) fun w₃ v u h₃ hv => ?_
  exact hD.relates_assign (hD.same_mono (hD.trans h₂ h₃) hc) (hD.same_mono h₃ hk) hv _

theorem relates_assignExpr {kind : AssignKind} {target x : Expr} (hr : D.SameScope w r q)
    (hk : Expr.IsTarget kind target ∨ D.malformed)
    (hb : ∀ name, target = .ident name → D.Binds name)
    (ht : target.Throughout D.Node) (hx : x.Throughout D.Node)
    (hu : ∀ name, kind = .update → target = .ident name →
      D.Relates w (Evaluator.update ev r name x) (Evaluator.update ev' q name x) D.Same) :
    D.Relates w (Evaluator.assign ev r kind target x) (Evaluator.assign ev' q kind target x)
      D.Same := by
  unfold Evaluator.assign
  split
  · exact hD.relates_declareExpr hev hr (hb _ rfl) hx
  · exact hu _ rfl rfl
  · exact hD.relates_updateElement hev hr (ht.child (by simp [Expr.children]))
      (ht.child (by simp [Expr.children])) hx
  next hd hu he =>
    obtain hk | hm := hk
    · obtain ⟨name, rfl⟩ | ⟨rfl, c, k, rfl⟩ := Expr.isTarget_cases hk
      · cases kind with
        | declare => exact (hd name rfl rfl).elim
        | update => exact (hu name rfl rfl).elim
      · exact (he c k rfl rfl).elim
    · exact hD.relates_malformed hm

/-! ### Control -/

theorem relates_conditional {c : Expr} {body : Block} (otherwise : Option Block)
    (hr : D.SameScope w r q) (hc : c.Throughout D.Node) (hb : ∀ x ∈ body, x.Throughout D.Node)
    (ho : ∀ b ∈ otherwise, ∀ x ∈ b, x.Throughout D.Node) :
    D.Relates w (Evaluator.conditional ev r c body otherwise)
      (Evaluator.conditional ev' q c body otherwise) D.Same := by
  refine hD.relates_bind (hev hc hr) fun w₁ v u h₁ hv => relates_get ?_
  have hr₁ := hD.scope_mono h₁ hr
  rw [hv.2, (hD.renamed w₁).truthy]
  split
  · exact hD.relates_block hev hr₁ hb
  · cases otherwise with
    | some body => exact hD.relates_block hev hr₁ (ho body rfl)
    | none => exact hD.relates_pure ⟨trivial, rfl⟩

theorem relates_rounds {c : Expr} {body : Block} (n : Nat) {v u : Value} (hr : D.SameScope w r q)
    (hc : c.Throughout D.Node) (hb : ∀ x ∈ body, x.Throughout D.Node) (hv : D.Same w v u) :
    D.Relates w (Evaluator.rounds ev r c body n v) (Evaluator.rounds ev' q c body n u) D.Same := by
  induction n generalizing w v u with
  | zero => exact hD.relates_exhausted
  | succ n ih =>
    refine hD.relates_bind (hev hc hr) fun w₁ a b h₁ hab => relates_get ?_
    have hr₁ := hD.scope_mono h₁ hr
    rw [hab.2, (hD.renamed w₁).truthy]
    split
    · refine hD.relates_bind (hD.relates_block hev hr₁ hb) fun w₂ v u h₂ hv => ?_
      exact ih (hD.scope_mono h₂ hr₁) hv
    · exact hD.relates_pure (hD.same_mono h₁ hv)

theorem relates_loop {c : Expr} {body : Block} (n : Nat) (hk : D.Known w r)
    (hc : c.Throughout D.Node) (hb : ∀ x ∈ body, x.Throughout D.Node) :
    D.Relates w (Evaluator.loop ev n r c body) (Evaluator.loop ev' n (D.rename r) c body) D.Same :=
  hD.relates_bind (hD.relates_enclose hk) fun _ _ _ _ hr =>
    hD.relates_rounds hev n hr hc hb ⟨trivial, rfl⟩

theorem relates_round {key : String} {body : Block} {v u : Value} (hr : D.SameScope w r q)
    (hk : D.Binds key) (hb : ∀ x ∈ body, x.Throughout D.Node) (hv : D.Same w v u) :
    D.Relates w (Evaluator.round ev r key body v) (Evaluator.round ev' q key body u) D.Same :=
  hD.relates_bind (hD.relates_declare hr hk hv) fun _ _ _ h₁ _ =>
    hD.relates_block hev (hD.scope_mono h₁ hr) hb

theorem relates_eachListed {key : String} {body : Block} {v u : Value} {vs : List Value}
    (hr : D.SameScope w r q) (hk : D.Binds key) (hb : ∀ x ∈ body, x.Throughout D.Node)
    (hv : D.Same w v u) (hvs : ∀ v ∈ vs, D.Valid w v) :
    D.Relates w (Evaluator.eachListed ev r key body v vs)
      (Evaluator.eachListed ev' q key body u (vs.map (Value.rename D.rename))) D.Same := by
  induction vs generalizing w v u with
  | nil => exact hD.relates_pure hv
  | cons x vs ih =>
    obtain ⟨hx, hvs⟩ := List.forall_mem_cons.1 hvs
    refine hD.relates_bind (hD.relates_round hev hr hk hb ⟨hx, rfl⟩) fun w₁ v u h₁ hv => ?_
    exact ih (hD.scope_mono h₁ hr) hv fun v hm => hD.valid_mono h₁ (hvs v hm)

theorem relates_eachCounted {key : String} {body : Block} {v u : Value} (step i : Int64) (n : Nat)
    (hr : D.SameScope w r q) (hk : D.Binds key) (hb : ∀ x ∈ body, x.Throughout D.Node)
    (hv : D.Same w v u) :
    D.Relates w (Evaluator.eachCounted ev r key body step v i n)
      (Evaluator.eachCounted ev' q key body step u i n) D.Same := by
  induction n generalizing w v u i with
  | zero => exact hD.relates_pure hv
  | succ n ih =>
    refine hD.relates_bind (hD.relates_round hev hr hk hb ⟨trivial, rfl⟩) fun w₁ v u h₁ hv => ?_
    exact ih (i + step) (hD.scope_mono h₁ hr) hv

theorem relates_iteration {key : String} {source : Expr} {body : Block} (hr : D.SameScope w r q)
    (hk : D.Binds key) (hs : source.Throughout D.Node) (hb : ∀ x ∈ body, x.Throughout D.Node) :
    D.Relates w (Evaluator.iteration ev r key source body)
      (Evaluator.iteration ev' q key source body)
      D.Same := by
  refine hD.relates_bind (hev hs hr) fun w₁ v u h₁ hv => ?_
  obtain ⟨ho, rfl⟩ := hD.scope_mono h₁ hr
  refine hD.relates_bind (hD.relates_enclose (hD.known_of_open ho)) fun w₂ r q h₂ hr => ?_
  refine hD.relates_bind (hD.relates_items (hD.same_mono h₂ hv)) fun w₃ a b h₃ hab => ?_
  have hr₃ := hD.scope_mono h₃ hr
  obtain ⟨vs, us, rfl, rfl, hvs, rfl⟩ | ⟨first, step, n, rfl, rfl⟩ := hab
  · exact hD.relates_eachListed hev hr₃ hk hb ⟨trivial, rfl⟩ hvs
  · exact hD.relates_eachCounted hev step first n hr₃ hk hb ⟨trivial, rfl⟩

theorem relates_yolo {mark : Value} (hy : D.OpensYolo mark) (n : Nat) {body : Block}
    (hk : D.Known w r) (hb : ∀ x ∈ body, x.Throughout D.Node) :
    D.Relates w (Evaluator.yolo ev r body)
      (Marked.node mark ev' n (.yolo body) (D.rename r)) D.Same := by
  -- The scope is new and marked at once: between the two steps there is no world.
  obtain ⟨w₁, hl, hq, h₁, hs⟩ := hy hk
  have hb := hD.relates_block hev hs hb
  unfold Relates at hb
  rw [hl, hq] at hb
  exact hD.outcome_trans h₁ hb

/-! ### All expressions -/

theorem relates_node (n : Nat) {x : Expr} (hr : D.SameScope w r q) (hx : x.Throughout D.Node)
    (hm : ∀ y, x = .unary .minus y →
      D.Relates w (Evaluator.unary ev r .minus y) (Evaluator.unary ev' q .minus y) D.Same)
    (hy : ∀ body, x = .yolo body →
      D.Relates w (Evaluator.yolo ev r body) (Evaluator.yolo ev' q body) D.Same)
    (hu : ∀ name y, x = .assign .update (.ident name) y →
      D.Relates w (Evaluator.update ev r name y) (Evaluator.update ev' q name y) D.Same) :
    D.Relates w (Evaluator.node ev n x r) (Evaluator.node ev' n x q) D.Same := by
  have hn := hx.here
  have hc := (Expr.throughout_iff.1 hx).1
  cases x with
  | ident name => exact relates_get (hD.relates_resolve hr hn)
  | int _ | num _ | bool _ | null => exact hD.relates_pure ⟨trivial, rfl⟩
  | str text =>
    refine relates_get (hD.relates_bind (hD.relates_interpolate hr text) fun w₁ t t' _ ht => ?_)
    subst ht
    exact hD.relates_newText _
  | template text values => exact hD.relates_template hev text hr hc
  | array items =>
    exact hD.relates_bind (hD.relates_values hev hr hc) fun _ _ _ _ hv =>
      hD.relates_newArray_of_list hv
  | dict pairs =>
    refine hD.relates_dict hev hr fun p hp => ?_
    exact ⟨hc p.1 (List.mem_flatMap.2 ⟨p, hp, by simp⟩),
      hc p.2 (List.mem_flatMap.2 ⟨p, hp, by simp⟩)⟩
  | range first last =>
    simp only [Expr.children, List.forall_mem_cons] at hc
    exact hD.relates_range hev hr hc.1 hc.2.1
  | unary op y =>
    simp only [Expr.children, List.forall_mem_cons] at hc
    cases op with
    | minus => exact hm y rfl
    | bang => exact hD.relates_bind (hev hc.1 hr) fun _ _ _ _ hv => hD.relates_applyBang hv
  | binary op x y =>
    simp only [Expr.children, List.forall_mem_cons] at hc
    by_cases hp : ∃ name, op = .push ∧ x = .ident name
    · obtain ⟨name, rfl, rfl⟩ := hp
      exact hD.relates_pushNamed hev hr hc.1.here hc.2.1
    · rw [Evaluator.node_binary hp, Evaluator.node_binary hp]
      exact hD.relates_binaryExpr hev op hr hc.1 hc.2.1
  | and x y =>
    simp only [Expr.children, List.forall_mem_cons] at hc
    exact hD.relates_logical hev true hr hc.1 hc.2.1
  | or x y =>
    simp only [Expr.children, List.forall_mem_cons] at hc
    exact hD.relates_logical hev false hr hc.1 hc.2.1
  | index c k =>
    simp only [Expr.children, List.forall_mem_cons] at hc
    exact hD.relates_index hev hr hc.1 hc.2.1
  | call c args =>
    simp only [Expr.children, List.forall_mem_cons] at hc
    exact hD.relates_call hev hr hc.1 hc.2
  | assign kind target y =>
    simp only [Expr.children, List.forall_mem_cons] at hc
    refine hD.relates_assignExpr hev hr hn.1 hn.2 hc.1 hc.2.1 fun name hkind htarget => hu name y ?_
    rw [hkind, htarget]
  | block body => exact hD.relates_block hev hr hc
  | yif c body otherwise =>
    cases otherwise with
    | none =>
      simp only [Expr.children, List.forall_mem_cons] at hc
      refine hD.relates_conditional hev none hr hc.1 hc.2 ?_
      simp
    | some otherwise =>
      simp only [Expr.children, List.forall_mem_cons, List.forall_mem_append] at hc
      refine hD.relates_conditional hev (some otherwise) hr hc.1 hc.2.1 ?_
      simpa using hc.2.2
  | yoyo c body =>
    simp only [Expr.children, List.forall_mem_cons] at hc
    obtain ⟨ho, rfl⟩ := hr
    exact hD.relates_loop hev n (hD.known_of_open ho) hc.1 hc.2
  | yall key source body =>
    simp only [Expr.children, List.forall_mem_cons] at hc
    exact hD.relates_iteration hev hr hn hc.1 hc.2
  | yeet y =>
    simp only [Expr.children, List.forall_mem_cons] at hc
    exact hD.relates_bind (hev hc.1 hr) fun _ _ _ _ hv => hD.relates_throw hv
  | yolo body => exact hy body rfl
  | lambda params body =>
    obtain ⟨ho, rfl⟩ := hr
    exact hD.relates_newFunction (hD.known_of_open ho) hn hc
  | macroLit params body =>
    obtain ⟨ho, rfl⟩ := hr
    exact hD.relates_newMacro hn.1 (hD.known_of_open ho) hn.2 hc
  | bad t => exact hD.relates_malformed hn

/-! ### Programs -/

theorem relates_program {p : Program} (hr : D.SameScope w r q) (hp : ∀ x ∈ p, x.Throughout D.Node) :
    D.Relates w (Eval.catchYeet (Evaluator.block ev r p)) (Eval.catchYeet (Evaluator.block ev' q p))
      D.Same :=
  hD.relates_catchYeet (hD.relates_block hev hr hp)

end Steady

namespace Sound

variable {D : Discipline} (hD : D.Sound) {ev ev' : Evaluator} (hev : D.Follows ev ev') {w : D.World}
  {r q : Ref .scope}
include hD hev

/-! ### Evaluation -/

theorem relates_update {name : String} {x : Expr} (hr : D.SameScope w r q) (hn : D.Binds name)
    (hx : x.Throughout D.Node) :
    D.Relates w (Evaluator.update ev r name x) (Evaluator.update ev' q name x) D.Same := by
  refine hD.relates_bind (hev hx hr) fun w₁ v u h₁ hv => ?_
  have hr₁ := hD.scope_mono h₁ hr
  have hk := hD.known_of_open hr₁.1
  cases hl : (D.left w₁).holder? r name with
  | some p =>
    obtain ⟨hval, rfl⟩ := hv
    have hl' := hD.holder_some hk hn.1 hl
    rw [← hr₁.2] at hl'
    refine .of_ok (Evaluator.rebind_of_holder? hl v) (Evaluator.rebind_of_holder? hl' _) ?_
    exact (hD.rebind hk hn hl hval).mono fun w₂ h₂ _ => ⟨hD.valid_mono h₂ hval, rfl⟩
  | none =>
    obtain ⟨hl', hy⟩ | ⟨hy, hi⟩ := hD.holder?_none hr₁ hn.1 hl
    · refine .congr ?_ (Evaluator.rebind_of_none hl v) (Evaluator.rebind_of_none hl' u)
      rw [hy]
      split
      · refine hD.relates_bind (hD.relates_declare hr₁ hn hv) fun w₂ _ _ h₂ _ => ?_
        exact hD.relates_pure (hD.same_mono h₂ hv)
      · exact hD.relates_fail id
    · refine .congr ?_ (Evaluator.rebind_of_none hl v) rfl
      rw [hy]
      exact Relates.ignored hi

theorem relates_node (n : Nat) {x : Expr} (hr : D.SameScope w r q) (hx : x.Throughout D.Node)
    (hm : ∀ y, x = .unary .minus y →
      D.Relates w (Evaluator.unary ev r .minus y) (Evaluator.unary ev' q .minus y) D.Same)
    (hy : ∀ body, x = .yolo body →
      D.Relates w (Evaluator.yolo ev r body) (Evaluator.yolo ev' q body) D.Same) :
    D.Relates w (Evaluator.node ev n x r) (Evaluator.node ev' n x q) D.Same := by
  refine hD.toSteady.relates_node hev n hr hx hm hy ?_
  rintro name y rfl
  have hc := (Expr.throughout_iff.1 hx).1
  simp only [Expr.children, List.forall_mem_cons] at hc
  exact hD.relates_update hev hr (hx.here.2 name rfl) hc.2.1

omit hev in
/-- Evaluation follows itself, whatever the right run marks its yolo scopes with. -/
theorem follows_marked (hk : ∀ w r, ∀ e ∈ ((D.left w).dict r).entries, D.Valid w e.key)
    {mark : Value}
    (hy : D.OpensYolo mark) (n : Nat) : D.Follows (evaluate n) (Marked.evaluate mark n) := by
  induction n with
  | zero => exact fun w x r q _ _ => hD.relates_exhausted
  | succ n ih =>
    intro w x r q hx hr
    rw [evaluate_succ, Marked.evaluate]
    by_cases h : ∃ body, x = .yolo body
    · obtain ⟨body, rfl⟩ := h
      obtain ⟨ho, rfl⟩ := hr
      exact hD.relates_yolo ih hy n (hD.known_of_open ho) (Expr.throughout_iff.1 hx).1
    · simp only [not_exists] at h
      rw [Marked.node_of_not_yolo h]
      refine hD.relates_node ih n hr hx ?_ fun body hb => absurd hb (h body)
      rintro y rfl
      refine hD.relates_bind (ih (hx.child (by simp [Expr.children])) hr) fun w₁ v u h₁ hv => ?_
      exact hD.relates_applyMinus hk (hD.scope_mono h₁ hr) hv

omit hev in
theorem follows_evaluate (hk : ∀ w r, ∀ e ∈ ((D.left w).dict r).entries, D.Valid w e.key)
    (hy : D.OpensYolo (.bool true)) (n : Nat) : D.Follows (evaluate n) (evaluate n) :=
  Marked.evaluate_true n ▸ hD.follows_marked hk hy n

end Sound

end Discipline

end YeetYoink
