import YeetYoink.Proofs.Eval.Calls
import YeetYoink.Proofs.Session.Lawful
import YeetYoink.Proofs.Yolo.Total

/-!
# Operators on functions

In yolo an operator with a function makes a function that does the operation on its result. The body
of the new function is an expression around the body of the old one, so it is evaluated in the same
frame, and the other operand is written into it as a literal: each call makes a copy of the value it
had. The operation follows the rules of the scope that the function was made in, which no run
changes (`Store.Regular`).
-/

namespace YeetYoink

theorem Value.IsData.allows {R : Rules} {v : Value} (h : v.IsData) : R.Allows v := by
  cases v with
  | function | macroFn | builtin | quote => exact h.elim
  | _ => trivial

/-! ### Stores of sessions -/

namespace Store

/-- All code comes from sources, and the marks are the usual ones. -/
structure Regular (s : Store) : Prop where
  lawful : s.Lawful True
  marked : s.Remarked (.bool true) s

theorem regular_left (w : Lawful.World True (.bool true)) : w.left.Regular where
  lawful := w.lawful
  marked := by
    have h := w.remarked
    rwa [h.usual rfl] at h

namespace Regular

variable {s t : Store} (h : s.Regular)

/-- A store beside itself. -/
def world : Lawful.World True (.bool true) where
  left := s
  right := s
  lawful := h.lawful
  remarked := h.marked

include h

theorem evaluateBlock {n : Nat} {r : Ref .scope} {body : Block} {v : Value}
    (hb : ∀ x ∈ body, x.Throughout (Rules.source True).Node)
    (he : Evaluator.block (evaluate n) r body s = .ok v t) : t.Regular ∧ s.Stable t := by
  have hrel := Lawful.sound.relates_block (Lawful.follows n) (w := h.world) (r := r)
    ⟨trivial, rfl⟩ hb
  change Discipline.Outcome _ _ _ (Evaluator.block (evaluate n) r body s) _ at hrel
  rw [he] at hrel
  generalize Evaluator.block _ _ _ _ = q at hrel
  cases hrel with
  | @ok w' _ _ hle _ => exact ⟨regular_left w', hle⟩

theorem framed {f : Closure} {args : List Value} (hf : (Rules.source True).Allows (.function f))
    (ha : ∀ a ∈ args, (Rules.source True).Allows a) :
    (s.framed f args).Regular ∧ s.Stable (s.framed f args) := by
  obtain ⟨w₁, hl, -, h₁, hr, -⟩ := Lawful.sound.enclose (w := h.world) (r := f.scope) trivial
  obtain ⟨w₂, hl₂, -, h₂, -⟩ := Lawful.sound.reaches_bindAll (w := w₁) hr
    fun b (hb : b ∈ f.params.zip args) =>
      ⟨hf.1 _ (List.of_mem_zip hb).1, Lawful.valid_iff.2 (ha _ (List.of_mem_zip hb).2)⟩
  have heq : s.framed f args = w₂.left := by
    refine Eq.trans ?_ hl₂.symm
    rw [hl]
    rfl
  rw [heq]
  exact ⟨regular_left w₂, h₁.trans h₂⟩

theorem isYolo_framed {f : Closure} {args : List Value}
    (hf : (Rules.source True).Allows (.function f))
    (ha : ∀ a ∈ args, (Rules.source True).Allows a) (hm : f.scope.index < s.scopes.size) :
    (s.framed f args).isYolo (s.frame f) = s.isYolo f.scope := by
  have hmark : yoloMark ∉ f.params := fun hp => (hf.1 _ hp).1 rfl
  rw [isYolo, lookup?_framed _ _ _ hm, Scope.lookup_insertAll_zip hmark, Option.none_or]
  exact (h.framed hf ha).2.isYolo hm

end Regular

end Store

/-! ### Operators let no value out -/

/-- A stop that is no value on its way out. -/
def Stop.Quiet (e : Stop) : Prop := ∀ v, e ≠ .yeet v

theorem Eval.Settles.catchYeet_eq {s : Store} {x : Eval Value} (h : Eval.Settles Stop.Quiet s x) :
    catchYeet x s = x s := by
  refine Eval.catchYeet_eq fun v t => ?_
  unfold Eval.Settles at h
  generalize x s = q at h ⊢
  rintro rfl
  cases h with
  | stop h => exact h v rfl

namespace Evaluator

/-- An operator by the rules of yolo, or without them. -/
def unaryBy (yolo : Bool) (op : UnaryOp) (v : Value) : Eval Value :=
  if yolo then Yolo.unary op v else Operator.strictUnary op v

def binaryBy (yolo : Bool) (op : BinaryOp) (l r : Value) : Eval Value :=
  if yolo then Yolo.binary op l r else Operator.strictBinary op l r

end Evaluator

namespace Yolo

open Eval Evaluator Stop

variable {s : Store}

theorem quiet_failed (e : EvalError) : Quiet (.failed e) := fun _ h => by cases h

theorem quiet_exhausted : Quiet .exhausted := fun _ h => by cases h

theorem Fails.quiet {op : BinaryOp} {e : Stop} (h : Fails op e) : Quiet e := h.2 ▸ quiet_failed _

theorem quiet_negate (n : Nat) (v : Value) : Settles Quiet s (negate n v) := by
  induction n generalizing s v with
  | zero => exact .stop quiet_exhausted
  | succ n ih => exact settles_unary .minus (settles_opposite fun _ _ u _ _ _ => ih u)

theorem quiet_combine (n : Nat) (op : BinaryOp) (l r : Value) :
    Settles Quiet s (combine n op l r) := by
  induction n generalizing s l r with
  | zero => exact .stop quiet_exhausted
  | succ n ih =>
    refine settles_binary (fun _ h => h.quiet) (fun _ => quiet_exhausted)
      (settles_coerce ?_ ?_ ?_ ?_ ?_)
    · exact fun a b _ _ => ih a b
    · exact fun _ _ _ u _ _ _ => ih l u
    · exact fun _ _ _ u _ _ _ => ih u r
    · exact fun _ _ _ => quiet_exhausted
    · exact fun _ _ _ => quiet_exhausted

theorem quiet_unaryBy (yolo : Bool) (op : UnaryOp) (v : Value) :
    Settles Quiet s (unaryBy yolo op v) := by
  cases yolo with
  | true =>
    exact settles_get (settles_unary op (settles_opposite fun _ _ u _ _ _ => quiet_negate _ u))
  | false => exact settles_unary op (.stop (quiet_failed _))

theorem quiet_binaryBy (yolo : Bool) (op : BinaryOp) (l r : Value) :
    Settles Quiet s (binaryBy yolo op l r) := by
  cases yolo with
  | true => exact settles_get (quiet_combine _ op l r)
  | false =>
    refine settles_binary (fun _ h => h.quiet) (fun _ => quiet_exhausted) ?_
    unfold Operator.mismatch
    split
    · exact .stop (quiet_failed _)
    · exact .stop (quiet_failed _)

/-! ### The functions that operators make -/

section

variable {f : Closure} {op : BinaryOp} {v : Value} {x : Expr} {n : Nat}

/-- Operators that are no comparison go on to what yolo makes of operands of other kinds. -/
theorem binary_eq_coerce {l r : Value} (hop : op ∉ [.plus, .equal, .notEqual])
    (hnum : Operator.asNumbers op l r = none) (hint : ∀ a b, l = .int a → r = .int b → False)
    (hpush : ∀ a, op = .push → l = .array a → False) :
    Yolo.binary op l r s = coerce (combine (s.nesting + 2)) op l r s := by
  simp only [List.mem_cons, List.not_mem_nil, or_false, not_or] at hop
  have htyped := Operator.typed?_eq hint (fun _ _ h => absurd h hop.1) hpush
    fun _ _ h => absurd h hop.1
  rw [hnum] at htyped
  change Operator.binary (coerce (combine (s.nesting + 2))) op l r s = _
  rw [Operator.binary, htyped, pure_bind]
  · exact hop.2.1
  · exact hop.2.2

theorem coerce_function {c : BinaryOp → Value → Value → Eval Value} (hplus : op ≠ .plus) :
    coerce c op (.function f) v = onResult f v (.binary op) (.function f) v :=
  if_neg hplus

theorem binary_function (hop : op ∉ [.plus, .equal, .notEqual]) (hx : s.literal v = .ok x) :
    Yolo.binary op (.function f) v s = withBody f [.binary op (.block f.body) x] s := by
  have hplus : op ≠ .plus := fun h => hop (h ▸ List.mem_cons_self)
  rw [binary_eq_coerce hop rfl (fun _ _ h => by cases h) (fun _ _ h => by cases h),
    coerce_function hplus, onResult, get_bind, hx]

theorem coerce_literal {c : BinaryOp → Value → Value → Eval Value} (hplus : op ≠ .plus)
    (hv : v.IsData) :
    coerce c op v (.function f) =
      onResult f v (fun body literal => .binary op literal body) v (.function f) := by
  cases v with
  | function | macroFn | builtin | quote => exact hv.elim
  | _ => exact if_neg hplus

theorem binary_literal (hop : op ∉ [.plus, .equal, .notEqual]) (hv : v.IsData)
    (hpush : ¬ (op = .push ∧ v.kind = .array)) (hx : s.literal v = .ok x) :
    Yolo.binary op v (.function f) s = withBody f [.binary op x (.block f.body)] s := by
  have hplus : op ≠ .plus := fun h => hop (h ▸ List.mem_cons_self)
  have hnum : Operator.asNumbers op v (.function f) = none :=
    Option.bind_eq_none_iff.2 fun _ _ => rfl
  rw [binary_eq_coerce hop hnum (fun _ _ _ h => by cases h) (fun a h hv => hpush ⟨h, hv ▸ rfl⟩),
    coerce_literal hplus hv, onResult, get_bind, hx]

theorem literal_ne_ident (hv : v.IsData) (hx : s.literal v = .ok x) (name : String) :
    x ≠ .ident name := by
  rintro rfl
  cases v with
  | array | dict =>
    obtain ⟨xs, -, hx⟩ := exists_of_bind_eq_ok hx
    cases hx
  | function | macroFn | builtin | quote => exact hv.elim
  | _ => cases hx

end

/-! ### Calls of them -/

/-- A function and as many arguments as it takes, in a store of a session. -/
structure Callable (t : Store) (f : Closure) (args : List Value) : Prop where
  arity : f.params.length = args.length
  made : f.scope.index < t.scopes.size
  regular : t.Regular
  function : (Rules.source True).Allows (.function f)
  values : ∀ a ∈ args, (Rules.source True).Allows a

namespace Callable

variable {t u : Store} {f : Closure} {args : List Value} (h : Callable t f args) {n : Nat}
    {r w : Value}
  {x : Expr} {t₁ t₂ : Store}
include h

/-- A body leaves its frame in yolo or out of it. -/
theorem isYolo_after (hu : u.Regular) (hs : u.scopes = (t.framed f args).scopes)
    (hrun : block (evaluate n) (t.frame f) f.body u = .ok r t₁) (hs₂ : t₂.scopes = t₁.scopes) :
    t₂.isYolo (t.frame f) = t.isYolo f.scope := by
  have hlt : (t.frame f).index < (t.framed f args).scopes.size := by
    rw [Store.size_framed]
    exact Nat.lt_succ_self _
  have hstable : (t.framed f args).Stable t₂ :=
    (Store.Stable.of_eq hs).trans ((hu.evaluateBlock h.function.2 hrun).2.trans (.of_eq hs₂))
  rw [hstable.isYolo hlt]
  exact h.regular.isYolo_framed h.function h.values h.made

theorem enter_unary (hrun : block (evaluate n) (t.frame f) f.body (t.framed f args) = .ok r t₁)
    (op : UnaryOp) (identity : Nat) (callee : Expr) :
    enter (evaluate (n + 2)) callee
        { f with body := [.unary op (.block f.body)], identity } args t =
      unaryBy (t.isYolo f.scope) op r t₁ := by
  have hyolo := h.isYolo_after (h.regular.framed h.function h.values).1 rfl hrun rfl
  have happly : applyUnary (t.frame f) op r t₁ = unaryBy (t.isYolo f.scope) op r t₁ := by
    rw [applyUnary, get_bind, hyolo]
    rfl
  rw [enter_expr _ _ h.arity, evaluate_succ, node, Evaluator.unary, evaluate_block,
    catchYeet_bind_ok hrun, catchYeet_congr happly, (quiet_unaryBy _ op r).catchYeet_eq]

omit h in
theorem catchYeet_applyBinary (hyolo : t₁.isYolo (t.frame f) = t.isYolo f.scope) (op : BinaryOp)
    (l r : Value) :
    catchYeet (applyBinary (t.frame f) op l r) t₁ = binaryBy (t.isYolo f.scope) op l r t₁ := by
  have happly : applyBinary (t.frame f) op l r t₁ = binaryBy (t.isYolo f.scope) op l r t₁ := by
    rw [applyBinary, get_bind, hyolo]
    rfl
  rw [catchYeet_congr happly, (quiet_binaryBy _ op l r).catchYeet_eq]

theorem enter_binary (hrun : block (evaluate n) (t.frame f) f.body (t.framed f args) = .ok r t₁)
    (hx : evaluate (n + 1) x (t.frame f) t₁ = .ok w t₂) (hs : t₂.scopes = t₁.scopes) (op : BinaryOp)
    (identity : Nat) (callee : Expr) :
    enter (evaluate (n + 2)) callee
        { f with body := [.binary op (.block f.body) x], identity } args t =
      binaryBy (t.isYolo f.scope) op r w t₂ := by
  have hyolo := h.isYolo_after (h.regular.framed h.function h.values).1 rfl hrun hs
  rw [enter_expr _ _ h.arity, evaluate_succ, node_binary (by simp), Evaluator.binary,
    evaluate_block, catchYeet_bind_ok hrun, catchYeet_bind_ok hx, catchYeet_applyBinary hyolo]

theorem enter_binary_literal (hx : evaluate (n + 1) x (t.frame f) (t.framed f args) = .ok w t₁)
    (hreg : t₁.Regular) (hs : t₁.scopes = (t.framed f args).scopes)
    (hrun : block (evaluate n) (t.frame f) f.body t₁ = .ok r t₂) (op : BinaryOp)
    (hid : ∀ name, x ≠ .ident name) (identity : Nat) (callee : Expr) :
    enter (evaluate (n + 2)) callee
        { f with body := [.binary op x (.block f.body)], identity } args t =
      binaryBy (t.isYolo f.scope) op w r t₂ := by
  have hyolo := h.isYolo_after hreg hs hrun rfl
  have hnode : ¬ ∃ name, op = .push ∧ x = .ident name := fun hname => hid _ hname.choose_spec.2
  rw [enter_expr _ _ h.arity, evaluate_succ, node_binary hnode, Evaluator.binary, evaluate_block,
    catchYeet_bind_ok hx, catchYeet_bind_ok hrun, catchYeet_applyBinary hyolo]

end Callable

/-- A function with a minus sign negates what its body gives; with an operator and a value, on
either side, it does the operation on what its body gives and a copy of the value as it was. The
operation follows the rules of the scope that the function was made in. A value to the left is
copied before the body is evaluated; an array there takes the function as an element if the operator
is a push. -/
theorem coercions_on_result {s : Store} (hs : s.Regular) (f : Closure) :
    (∃ h s', Yolo.unary .minus (.function f) s = .ok (.function h) s' ∧
      ∀ t args n r t₁, Callable t f args →
        block (evaluate n) (t.frame f) f.body (t.framed f args) = .ok r t₁ → ∀ callee,
          enter (evaluate (n + 2)) callee h args t = unaryBy (t.isYolo f.scope) .minus r t₁) ∧
    ∀ op v, op ∉ [.plus, .equal, .notEqual] → s.Acyclic v → s.DataIn v → s.IntactIn v →
      (∃ h s', Yolo.binary op (.function f) v s = .ok (.function h) s' ∧
        ∀ t args n r t₁, Callable t f args → s.nesting + 2 ≤ n →
          block (evaluate n) (t.frame f) f.body (t.framed f args) = .ok r t₁ → ∃ w t₂, t₁.Adds t₂ ∧
            s.Alike t₂ v w ∧ ∀ callee,
              enter (evaluate (n + 2)) callee h args t = binaryBy (t.isYolo f.scope) op r w t₂) ∧
      (¬ (op = .push ∧ v.kind = .array) → ∃ h s', Yolo.binary op v (.function f) s =
        .ok (.function h) s' ∧
        ∀ t args n, Callable t f args → s.nesting + 2 ≤ n → ∃ w t₁, (t.framed f args).Adds t₁ ∧
          s.Alike t₁ v w ∧ ∀ r t₂, block (evaluate n) (t.frame f) f.body t₁ = .ok r t₂ → ∀ callee,
            enter (evaluate (n + 2)) callee h args t = binaryBy (t.isYolo f.scope) op w r t₂) := by
  refine ⟨⟨_, _, rfl, fun t args n r t₁ h hrun callee => h.enter_unary hrun .minus _ callee⟩, ?_⟩
  intro op v hop ha hd hi
  obtain ⟨x, hx, hcopies⟩ := Store.exists_survives ha.nests hd hi
  have hdata : v.IsData := hd v (.refl s v)
  refine ⟨⟨_, _, binary_function hop hx, fun t args n r t₁ h hn hrun => ?_⟩, fun hpush => ?_⟩
  · obtain ⟨w, t₂, hw, hadds, hcopy⟩ := hcopies (n + 1) (by omega) (t.frame f) t₁
    exact ⟨w, t₂, hadds, hcopy.alike, fun callee => h.enter_binary hrun hw hadds.scopes op _ callee⟩
  · refine ⟨_, _, binary_literal hop hdata hpush hx, fun t args n h hn => ?_⟩
    obtain ⟨w, t₁, hw, hadds, hcopy⟩ := hcopies (n + 1) (by omega) (t.frame f) (t.framed f args)
    have hreg : t₁.Regular := by
      have hthrough : x.Throughout (Rules.source True).Node :=
        Lawful.sound.throughout_literal (w := hs.world) (Lawful.valid_iff.2 hdata.allows) hx
      have hblock : block (evaluate (n + 1)) (t.frame f) [x] (t.framed f args) = .ok w t₁ := by
        rw [block_singleton, hw]
      exact ((h.regular.framed h.function h.values).1.evaluateBlock
        (List.forall_mem_singleton.2 hthrough) hblock).1
    exact ⟨w, t₁, hadds, hcopy.alike, fun r t₂ hrun callee =>
      h.enter_binary_literal hw hreg hadds.scopes hrun op (literal_ne_ident hdata hx) _ callee⟩

/-- A yolo scope and an array. -/
def room : Store where
  arrays := #[#[.int 1]]
  scopes := #[{ bindings := [(Store.yoloMark, .bool true)] }]

theorem mem_room {v : Value} {a : Ref .array} (h : v ∈ room.array a) : v = .int 1 := by
  obtain ⟨_ | i⟩ := a
  · exact List.mem_singleton.1 (Array.mem_def.1 h)
  · exact absurd h (by simp [room, Store.array])

theorem regular_room : room.Regular where
  lawful :=
    { arrays _ v hv := by
        rw [mem_room hv]
        trivial
      dicts _ e he := absurd he List.not_mem_nil
      scopes r name v hv := by
        obtain ⟨_ | i⟩ := r
        · change [(Store.yoloMark, Value.bool true)].lookup name = some v at hv
          rw [List.lookup_cons] at hv
          split at hv
          · cases hv
            trivial
          · cases hv
        · cases hv }
  marked :=
    { rest := rfl
      size := rfl
      outer _ := rfl
      get _ _ _ := rfl
      marks r := by
        obtain ⟨_ | i⟩ := r
        · exact .inr ⟨rfl, rfl⟩
        · exact .inl ⟨rfl, rfl⟩
      usual _ := rfl }

theorem acyclic_room (v : Value) : room.Acyclic v := by
  refine Store.acyclic_of_rank (fun u => if u.kind = .array then 1 else 0) (fun u v hu => ?_) v
  obtain ⟨a, rfl, -⟩ | ⟨d, rfl, hd⟩ := Store.exists_array_or_dict hu
  · rw [mem_room (Array.mem_def.2 hu)]
    simp [Value.kind]
  · cases hd

theorem dataIn_room : room.DataIn (.array ⟨0⟩) := by
  intro u hu
  obtain rfl | ⟨c, hc, -⟩ := Relation.ReflTransGen.cases_head hu
  · trivial
  · obtain ⟨a, rfl, -⟩ | ⟨d, rfl, hd⟩ := Store.exists_array_or_dict hc
    · rw [mem_room (Array.mem_def.2 hc)]
      trivial
    · cases hd

/-- Gives its argument back. -/
def echo : Closure where
  params := ["x"]
  body := [.ident "x"]
  scope := ⟨0⟩
  identity := 0

theorem callable_echo : Callable room echo [.int 5] where
  arity := rfl
  made := by decide
  regular := regular_room
  function := by
    have hname : "x" ≠ Store.yoloMark := by decide
    refine ⟨List.forall_mem_singleton.2 ⟨hname, .inl trivial⟩, List.forall_mem_singleton.2 ?_⟩
    exact Expr.throughout_iff.2 ⟨fun y hy => absurd hy List.not_mem_nil, hname⟩
  values := List.forall_mem_singleton.2 trivial

theorem block_echo (n : Nat) : block (evaluate (n + 1)) (room.frame echo) echo.body
    (room.framed echo [.int 5]) = .ok (.int 5) (room.framed echo [.int 5]) := by
  have hx : (room.framed echo [.int 5]).lookup? (room.frame echo) "x" = some (.int 5) := by
    rw [Store.lookup?_framed _ _ _ (by decide)]
    rfl
  rw [show echo.body = [.ident "x"] from rfl, block_singleton, evaluate_ident hx]

/-- A function that gives its argument back, and an array. -/
theorem coercions_on_result_echo :
    room.Regular ∧ Callable room echo [.int 5] ∧ room.Acyclic (.array ⟨0⟩) ∧
      room.DataIn (.array ⟨0⟩) ∧
    room.IntactIn (.array ⟨0⟩) ∧ room.isYolo echo.scope = true ∧
    (∃ h s, Yolo.unary .minus (.function echo) room = .ok (.function h) s ∧
      ∃ t, enter (evaluate 5) (.ident "h") h [.int 5] room = .ok (.int (-5)) t) ∧
    ∃ h s, Yolo.binary .times (.function echo) (.array ⟨0⟩) room = .ok (.function h) s ∧
      ∃ w t, room.Alike t (.array ⟨0⟩) w ∧
        enter (evaluate 5) (.ident "h") h [.int 5] room = Yolo.binary .times (.int 5) w t := by
  have hi : room.IntactIn (.array ⟨0⟩) := fun r _ => (Dict.filed_empty room).intact
  have hyolo : room.isYolo echo.scope = true := by decide +kernel
  obtain ⟨⟨h, s, hneg, hcall⟩, hop⟩ := coercions_on_result regular_room echo
  obtain ⟨⟨k, s', htimes, hcall'⟩, -⟩ :=
    hop .times (.array ⟨0⟩) (by decide) (acyclic_room _) dataIn_room hi
  refine ⟨regular_room, callable_echo, acyclic_room _, dataIn_room, hi, hyolo, ⟨h, s, hneg, ?_⟩, k,
    s', htimes, ?_⟩
  · rw [hcall room [.int 5] 3 _ _ callable_echo (block_echo 2), hyolo]
    exact ⟨_, rfl⟩
  · obtain ⟨w, t, -, hw, he⟩ := hcall' room [.int 5] 3 _ _ callable_echo (by decide) (block_echo 2)
    rw [hyolo] at he
    exact ⟨w, t, hw, he _⟩

end Yolo

namespace Session

/-- Whatever a new session is asked, its store is regular. -/
theorem regular_store (requests : List Request) :
    (({} : Service).serveAll requests).2.session.store.Regular := by
  have h₀ : ({} : Service).IsLawful := ⟨⟨lawfulNew True (.bool true), rfl⟩, by simp⟩
  obtain ⟨w, hw⟩ := (h₀.serveAll requests).2.store
  rw [hw]
  exact Store.regular_left w

/-- A call of a function that an operator made, and the operator on what the call gives: an array
takes the function as an element; a function from outside of yolo keeps to its own rules; code in an
array is evaluated; a value is taken as it was; and a value that is yeeted passes the operator by.
-/
theorem coercions_differ :
    answer? "yolo \x7b f := \\ \x7b 1 \x7d; ([0] << f)() \x7d" = none ∧
      answer? "yolo \x7b f := \\ \x7b 1 \x7d; [0] << f() \x7d" = some "[0, 1]" ∧
    answer? "f := \\ \x7b \"a\" \x7d; yolo \x7b (-f)() \x7d" = none ∧
      answer? "f := \\ \x7b \"a\" \x7d; yolo \x7b -f() \x7d" = some "\"n\"" ∧
    answer? "yolo \x7b f := \\ \x7b 1 \x7d; (f - [quote(1 + 2)])() \x7d" = some "[-2]" ∧
      answer? "yolo \x7b f := \\ \x7b 1 \x7d; f() - [quote(1 + 2)] \x7d" =
        some "[\"1quote((1 + 2))\"]" ∧
    answer? "yolo \x7b v := [1]; f := \\ \x7b v << 2; 5 \x7d; (f - v)() \x7d" = some "[4]" ∧
      answer? "yolo \x7b v := [1]; f := \\ \x7b v << 2; 5 \x7d; f() - v \x7d" = some "[4, 3]" ∧
    answer? "yolo \x7b f := \\ \x7b yeet 1; 2 \x7d; (-f)() \x7d" = some "1" ∧
      answer? "yolo \x7b f := \\ \x7b yeet 1; 2 \x7d; -f() \x7d" = some "-1" := by
  decide +kernel

end Session

end YeetYoink
