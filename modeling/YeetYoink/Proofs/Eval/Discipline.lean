import YeetYoink.Evaluate
import YeetYoink.Proofs.Dict.Keys
import YeetYoink.Proofs.Expr.Spelling
import YeetYoink.Proofs.Store.Renamed

/-!
# What holds all along a run

Facts about every state of a run are proved for two runs side by side, of which one may be the
other. A `Discipline` says how the two stores are related: a world is a pair of stores with all that
is known of them, worlds grow along a run (`Le`), and some texts, dictionaries and scopes are fit
for use in a world. The right store may keep its scopes under other references; everything else is
the same in both.

`Relates w x y Q` says that the computations `x` and `y`, started in a world, end the same way in a
later world, with results that satisfy `Q`. A stop that is `Ignored` asks for nothing. `Sound` lists
what a discipline must know about the store; from that alone evaluation relates to itself
(`Proofs.Eval.Nodes`). `Steady` is all of it but what is needed for giving new values to names.
-/

namespace YeetYoink

/-- An error of an expression that no source gives. -/
def EvalError.IsMalformed : EvalError → Prop
  | badExpression | invalidTarget _ => True
  | _ => False

/-- The store that a computation leaves, however it ends. -/
def Eval.after {α : Type} (x : Eval α) (s : Store) : Store :=
  match x s with
  | .ok _ t | .error _ t => t

/-- The names of the two functions in a composition. -/
def Yolo.IsPart (name : String) : Prop := name = firstName ∨ name = secondName

/-- What the expressions of a run may be made of. -/
structure Rules where
  Name : String → Prop
  /-- Whether there may be bad nodes, and assignments to what is no place. -/
  malformed : Prop
  /-- Whether there may be macros. -/
  macros : Prop
  /-- Whether the parts of compositions may be given values, as malformed code may do. -/
  parts : Prop
  parts_of_malformed : malformed → parts

namespace Rules

variable (R : Rules)

/-- A name that may be given a value. -/
def Binds (name : String) : Prop := R.Name name ∧ (R.parts ∨ ¬ Yolo.IsPart name)

def Node : Expr → Prop
  | .ident name => R.Name name
  | .assign kind target _ =>
    (Expr.IsTarget kind target ∨ R.malformed) ∧ ∀ name, target = .ident name → R.Binds name
  | .yall key _ _ => R.Binds key
  | .lambda params _ => ∀ p ∈ params, R.Binds p
  | .macroLit params _ => R.macros ∧ ∀ p ∈ params, R.Binds p
  | .bad _ => R.malformed
  | _ => True

end Rules

structure Discipline extends Rules where
  World : Type
  left : World → Store
  right : World → Store
  /-- A world and one that may come after it. -/
  Le : World → World → Prop
  /-- Where the right run keeps a scope of the left run. -/
  rename : Ref .scope → Ref .scope
  ValidText : World → Ref .text → Prop
  ValidDict : World → Dict → Prop
  /-- A scope that functions may be made in. -/
  Known : World → Ref .scope → Prop
  /-- A scope in which names may be declared. -/
  Open : World → Ref .scope → Prop
  Ignored : Stop → Prop

namespace Discipline

variable {α β γ δ : Type}

section

variable (D : Discipline)

structure ValidClosure (w : D.World) (f : Closure) : Prop where
  known : D.Known w f.scope
  params : ∀ p ∈ f.params, D.Binds p
  body : ∀ x ∈ f.body, x.Throughout D.Node

def Valid (w : D.World) : Value → Prop
  | .text r => D.ValidText w r
  | .function f => D.ValidClosure w f
  | .macroFn f => D.macros ∧ D.ValidClosure w f
  | .quote x => x.Throughout D.Node
  | _ => True

/-- A value of the left run and the one of the right run for it. -/
def Same (w : D.World) (v u : Value) : Prop := D.Valid w v ∧ u = v.rename D.rename

def SameAll (w : D.World) (vs us : List Value) : Prop :=
  (∀ v ∈ vs, D.Valid w v) ∧ us = vs.map (Value.rename D.rename)

def SameDict (w : D.World) (d e : Dict) : Prop := D.ValidDict w d ∧ e = d.rename D.rename

/-- The scopes in which the two runs evaluate an expression. -/
def SameScope (w : D.World) (r q : Ref .scope) : Prop := D.Open w r ∧ q = D.rename r

def Error (e : EvalError) : Prop := e.IsMalformed → D.malformed

/-- These two stores make a world after `w`. -/
def Reaches (w : D.World) (s t : Store) (P : D.World → Prop) : Prop :=
  ∃ w', D.left w' = s ∧ D.right w' = t ∧ D.Le w w' ∧ P w'

/-- How two computations may end, one beside the other. -/
inductive Outcome (w : D.World) (Q : D.World → α → β → Prop) :
    EStateM.Result Stop Store α → EStateM.Result Stop Store β → Prop where
  | ok {w' : D.World} {a : α} {b : β} (hle : D.Le w w') (h : Q w' a b) :
      Outcome w Q (.ok a (D.left w')) (.ok b (D.right w'))
  | yeet {w' : D.World} {v u : Value} (hle : D.Le w w') (h : D.Same w' v u) :
      Outcome w Q (.error (.yeet v) (D.left w')) (.error (.yeet u) (D.right w'))
  | failed {w' : D.World} {e : EvalError} (hle : D.Le w w') (h : D.Error e) :
      Outcome w Q (.error (.failed e) (D.left w')) (.error (.failed e) (D.right w'))
  | exhausted {w' : D.World} (hle : D.Le w w') :
      Outcome w Q (.error .exhausted (D.left w')) (.error .exhausted (D.right w'))
  | ignored {e : Stop} {s : Store} {r : EStateM.Result Stop Store β} (h : D.Ignored e) :
      Outcome w Q (.error e s) r

def Relates (w : D.World) (x : Eval α) (y : Eval β) (Q : D.World → α → β → Prop) : Prop :=
  D.Outcome w Q (x (D.left w)) (y (D.right w))

/-- What a discipline must know about the store, but for assignments to names. -/
structure Steady : Prop where
  refl (w) : D.Le w w
  trans {w₁ w₂ w₃} : D.Le w₁ w₂ → D.Le w₂ w₃ → D.Le w₁ w₃
  renamed (w) : Store.Renamed D.rename (D.left w) (D.right w)
  injective : Function.Injective D.rename
  yeet_counts (v) : ¬ D.Ignored (.yeet v)
  text_mono {w w' r} : D.Le w w' → D.ValidText w r → D.ValidText w' r
  dict_mono {w w' d} : D.Le w w' → D.ValidDict w d → D.ValidDict w' d
  known_mono {w w' r} : D.Le w w' → D.Known w r → D.Known w' r
  open_mono {w w' r} : D.Le w w' → D.Open w r → D.Open w' r
  known_of_open {w r} : D.Open w r → D.Known w r
  word {name} : Lexer.IsWord name.toList → D.Name name
  firstName : D.Name Yolo.firstName
  secondName : D.Name Yolo.secondName
  -- What is in the store is valid.
  array {w r v} : v ∈ (D.left w).array r → D.Valid w v
  dict {w} (r) : D.ValidDict w ((D.left w).dict r)
  binding {w r name v} : ((D.left w).scope r).get? name = some v → D.Valid w v
  entry {w d e} : D.ValidDict w d → e ∈ d.entries →
    D.Valid w e.value ∧ (e.key.IsKey ∨ D.Valid w e.key)
  -- Names mean the same, but for the mark, which the right run may have where the left run has
  -- none.
  lookup_some {w r name v} : D.Known w r → D.Name name → (D.left w).lookup? r name = some v →
    (D.right w).lookup? (D.rename r) name = some (v.rename D.rename)
  lookup_none {w r name} : D.Known w r → D.Name name → (D.left w).lookup? r name = none →
    (D.right w).lookup? (D.rename r) name = none ∨
      name = Store.yoloMark ∧ (D.right w).lookup? (D.rename r) name = some (.bool true) ∧
        ∀ e, D.Ignored (.failed e)
  isYolo {w r} : D.Known w r → (D.right w).isYolo (D.rename r) = (D.left w).isYolo r ∨
    (D.left w).isYolo r = false ∧ ∀ e, D.Ignored (.failed e)
  -- What a run does to the store.
  newText {w} (t) : D.Reaches w ((D.left w).newText t).2 ((D.right w).newText t).2 fun w' =>
    D.ValidText w' ((D.left w).newText t).1
  newArray {w a} : (∀ v ∈ a, D.Valid w v) → D.Reaches w ((D.left w).newArray a).2
    ((D.right w).newArray (a.map (Value.rename D.rename))).2 fun _ => True
  newDict {w d} : D.ValidDict w d → D.Reaches w ((D.left w).newDict d).2
    ((D.right w).newDict (d.rename D.rename)).2 fun _ => True
  newBody {w} : D.Reaches w { D.left w with bodies := (D.left w).bodies + 1 }
    { D.right w with bodies := (D.right w).bodies + 1 } fun _ => True
  enclose {w r} : D.Known w r → D.Reaches w ((D.left w).enclose r).2
    ((D.right w).enclose (D.rename r)).2 fun w' =>
      D.SameScope w' ((D.left w).enclose r).1 ((D.right w).enclose (D.rename r)).1
  declare {w r name v} : D.Open w r → D.Name name →
    D.Binds name ∨ ((D.left w).scope r).get? name = none → D.Valid w v →
    D.Reaches w ((D.left w).bind r name v)
      ((D.right w).bind (D.rename r) name (v.rename D.rename)) fun _ => True
  modifyText {w r} (f) : D.ValidText w r →
    D.Reaches w ((D.left w).modifyText r f) ((D.right w).modifyText r f) fun _ => True
  setArray {w a} (r) : (∀ v ∈ a, D.Valid w v) → D.Reaches w ((D.left w).modifyArray r fun _ => a)
    ((D.right w).modifyArray r fun _ => a.map (Value.rename D.rename)) fun _ => True
  setDict {w d} (r) : D.ValidDict w d → D.Reaches w ((D.left w).modifyDict r fun _ => d)
    ((D.right w).modifyDict r fun _ => d.rename D.rename) fun _ => True
  print {w} (line) : D.Reaches w ((D.left w).print line) ((D.right w).print line) fun _ => True
  -- Dictionaries.
  emptyDict {w} : D.ValidDict w {}
  setValue {w d i v} : D.ValidDict w d → D.Valid w v → D.ValidDict w (d.setValue i v)
  addEntry {w d h k v} : D.ValidDict w d → k.kind ≠ .text → D.Valid w v →
    (D.left w).hashKey? k = some h → d.place? h ((D.left w).sameKey · k) = none →
    D.ValidDict w (d.push h k v)
  addText {w d h r v} : D.ValidDict w d → D.ValidText w r → D.Valid w v →
    (D.left w).hashKey? (.text r) = some h →
    d.place? h ((D.left w).sameKey · (.text r)) = none →
    D.Reaches w ((D.left w).newText ((D.left w).text r)).2
      ((D.right w).newText ((D.left w).text r)).2 fun w' =>
        D.ValidDict w' (d.push h (.text ((D.left w).newText ((D.left w).text r)).1) v)

/-- What a discipline must know about the store. -/
structure Sound : Prop extends D.Steady where
  holder_some {w r name q} : D.Known w r → D.Name name → (D.left w).holder? r name = some q →
    (D.right w).holder? (D.rename r) name = some (D.rename q)
  rebind {w r name q v} : D.Known w r → D.Binds name → (D.left w).holder? r name = some q →
    D.Valid w v →
    D.Reaches w ((D.left w).bind q name v)
      ((D.right w).bind (D.rename q) name (v.rename D.rename)) fun _ => True

/-- A yolo block can be opened whose scope the right run marks with this value. -/
def OpensYolo (mark : Value) : Prop :=
  ∀ ⦃w r⦄, D.Known w r →
    D.Reaches w (((D.left w).enclose r).2.markYolo ((D.left w).enclose r).1)
      (((D.right w).enclose (D.rename r)).2.bind
        ((D.right w).enclose (D.rename r)).1 Store.yoloMark mark)
      fun w' => D.SameScope w' ((D.left w).enclose r).1 ((D.right w).enclose (D.rename r)).1

end

variable {D : Discipline}

/-! ### Rules that need nothing of the discipline -/

theorem Reaches.mono {w : D.World} {s t : Store} {P P' : D.World → Prop} (h : D.Reaches w s t P)
    (hp : ∀ w', D.Le w w' → P w' → P' w') : D.Reaches w s t P' := by
  obtain ⟨w', hs, ht, hle, h⟩ := h
  exact ⟨w', hs, ht, hle, hp w' hle h⟩

namespace Relates

variable {w : D.World} {x : Eval α} {y : Eval β} {Q : D.World → α → β → Prop}

theorem of_ok {a : α} {b : β} {s t : Store} (hx : x (D.left w) = .ok a s)
    (hy : y (D.right w) = .ok b t) (h : D.Reaches w s t (Q · a b)) : D.Relates w x y Q := by
  obtain ⟨w', rfl, rfl, hle, hq⟩ := h
  rw [Relates, hx, hy]
  exact .ok hle hq

/-- Only what the computations do to these two stores counts. -/
theorem congr {x' : Eval α} {y' : Eval β} (h : D.Relates w x' y' Q)
    (hx : x (D.left w) = x' (D.left w)) (hy : y (D.right w) = y' (D.right w)) :
    D.Relates w x y Q := by
  rwa [Relates, hx, hy]

theorem ignored {e : EvalError} (h : ∀ e, D.Ignored (.failed e)) : D.Relates w (Eval.fail e) y Q :=
  Outcome.ignored (h e)

theorem mono {R : D.World → α → β → Prop} (h : D.Relates w x y Q)
    (hq : ∀ w' a b, D.Le w w' → Q w' a b → R w' a b) : D.Relates w x y R := by
  unfold Relates at h ⊢
  generalize x (D.left w) = r, y (D.right w) = q at h ⊢
  cases h with
  | ok hle h => exact .ok hle (hq _ _ _ hle h)
  | yeet hle h => exact .yeet hle h
  | failed hle h => exact .failed hle h
  | exhausted hle => exact .exhausted hle
  | ignored h => exact .ignored h

theorem after (h : D.Relates w x y Q) (hi : ∀ e, ¬ D.Ignored e) :
    D.Reaches w (x.after (D.left w)) (y.after (D.right w)) fun _ => True := by
  unfold Relates at h
  unfold Eval.after
  generalize x (D.left w) = r, y (D.right w) = q at h ⊢
  cases h with
  | ok hle _ | yeet hle _ | failed hle _ | exhausted hle => exact ⟨_, rfl, rfl, hle, trivial⟩
  | ignored h => exact absurd h (hi _)

end Relates

theorem relates_get {w : D.World} {f : Store → Eval α} {g : Store → Eval β}
    {Q : D.World → α → β → Prop} (h : D.Relates w (f (D.left w)) (g (D.right w)) Q) :
    D.Relates w (get >>= f) (get >>= g) Q := h

theorem relates_get_right {w : D.World} {x : Eval α} {g : Store → Eval β}
    {Q : D.World → α → β → Prop} (h : D.Relates w x (g (D.right w)) Q) :
    D.Relates w x (get >>= g) Q := h

theorem relates_modify {w : D.World} {f g : Store → Store} {P : D.World → Prop}
    (h : D.Reaches w (f (D.left w)) (g (D.right w)) P) :
    D.Relates w (modify f) (modify g) fun w' _ _ => P w' :=
  .of_ok rfl rfl h

namespace Steady

variable (hD : D.Steady) {w : D.World}
include hD

theorem stay {P : D.World → Prop} (h : P w) : D.Reaches w (D.left w) (D.right w) P :=
  ⟨w, rfl, rfl, hD.refl w, h⟩

/-! ### Later worlds -/

theorem valid_mono {w' : D.World} (hle : D.Le w w') {v : Value} (h : D.Valid w v) :
    D.Valid w' v := by
  cases v with
  | text r => exact hD.text_mono hle h
  | function f => exact { h with known := hD.known_mono hle h.known }
  | macroFn f => exact ⟨h.1, { h.2 with known := hD.known_mono hle h.2.known }⟩
  | _ => exact h

theorem same_mono {w' : D.World} (hle : D.Le w w') {v u : Value} (h : D.Same w v u) :
    D.Same w' v u :=
  ⟨hD.valid_mono hle h.1, h.2⟩

theorem sameDict_mono {w' : D.World} (hle : D.Le w w') {d e : Dict} (h : D.SameDict w d e) :
    D.SameDict w' d e :=
  ⟨hD.dict_mono hle h.1, h.2⟩

theorem scope_mono {w' : D.World} (hle : D.Le w w') {r q : Ref .scope} (h : D.SameScope w r q) :
    D.SameScope w' r q :=
  ⟨hD.open_mono hle h.1, h.2⟩

/-! ### Rules for computations -/

section

variable {x : Eval α} {y : Eval β} {Q : D.World → α → β → Prop}

theorem relates_pure {a : α} {b : β} (h : Q w a b) : D.Relates w (pure a) (pure b) Q :=
  .ok (hD.refl w) h

theorem relates_fail {e : EvalError} (h : ¬ e.IsMalformed) :
    D.Relates w (Eval.fail e) (Eval.fail e) Q :=
  .failed (hD.refl w) fun he => absurd he h

theorem relates_fails {e e' : EvalError} (he : e' = e) (h : ¬ e.IsMalformed) :
    D.Relates w (Eval.fail e) (Eval.fail e') Q := by
  subst he
  exact hD.relates_fail h

theorem relates_malformed {e : EvalError} (h : D.malformed) :
    D.Relates w (Eval.fail e) (Eval.fail e) Q :=
  .failed (hD.refl w) fun _ => h

theorem relates_exhausted : D.Relates w Eval.exhausted Eval.exhausted Q := .exhausted (hD.refl w)

theorem relates_throw {v u : Value} (h : D.Same w v u) :
    D.Relates w (throw (.yeet v)) (throw (.yeet u)) Q :=
  .yeet (hD.refl w) h

/-- How a computation ends in a later world is a way to end from this one on. -/
theorem outcome_trans {w' : D.World} {r : EStateM.Result Stop Store α}
    {q : EStateM.Result Stop Store β}
    (hle : D.Le w w') (h : D.Outcome w' Q r q) : D.Outcome w Q r q := by
  cases h with
  | ok hle' h => exact .ok (hD.trans hle hle') h
  | yeet hle' h => exact .yeet (hD.trans hle hle') h
  | failed hle' h => exact .failed (hD.trans hle hle') h
  | exhausted hle' => exact .exhausted (hD.trans hle hle')
  | ignored h => exact .ignored h

theorem relates_bind {f : α → Eval γ} {g : β → Eval δ} {R : D.World → γ → δ → Prop}
    (h : D.Relates w x y Q)
    (hk : ∀ w' a b, D.Le w w' → Q w' a b → D.Relates w' (f a) (g b) R) :
    D.Relates w (x >>= f) (y >>= g) R := by
  unfold Relates at h ⊢
  change D.Outcome w R (EStateM.bind x f (D.left w)) (EStateM.bind y g (D.right w))
  unfold EStateM.bind
  generalize x (D.left w) = r, y (D.right w) = q at h ⊢
  cases h with
  | ok hle h => exact hD.outcome_trans hle (hk _ _ _ hle h)
  | yeet hle h => exact .yeet hle h
  | failed hle h => exact .failed hle h
  | exhausted hle => exact .exhausted hle
  | ignored h => exact .ignored h

theorem relates_catchYeet {x y : Eval Value} (h : D.Relates w x y D.Same) :
    D.Relates w (Eval.catchYeet x) (Eval.catchYeet y) D.Same := by
  unfold Relates Eval.catchYeet at *
  generalize x (D.left w) = r, y (D.right w) = q at h ⊢
  cases h with
  | ok hle h => exact .ok hle h
  | yeet hle h => exact .ok hle h
  | failed hle h => exact .failed hle h
  | exhausted hle => exact .exhausted hle
  | @ignored e _ _ h =>
    cases e with
    | yeet v => exact absurd h (hD.yeet_counts v)
    | _ => exact .ignored h

theorem relates_mapM {f g : α → Eval Value} {xs : List α}
    (h : ∀ w', D.Le w w' → ∀ x ∈ xs, D.Relates w' (f x) (g x) D.Same) :
    D.Relates w (xs.mapM f) (xs.mapM g) D.SameAll := by
  induction xs generalizing w with
  | nil => exact hD.relates_pure ⟨by simp, rfl⟩
  | cons x xs ih =>
    simp only [List.mapM_cons]
    refine hD.relates_bind (h w (hD.refl w) x List.mem_cons_self) fun w₁ v u h₁ hv => ?_
    refine hD.relates_bind (ih fun w' hle z hz => ?_) fun w₂ vs us h₂ hvs => ?_
    · exact h w' (hD.trans h₁ hle) z (List.mem_cons_of_mem _ hz)
    · exact hD.relates_pure ⟨List.forall_mem_cons.2 ⟨hD.valid_mono h₂ hv.1, hvs.1⟩,
        by rw [hv.2, hvs.2, List.map_cons]⟩

end

end Steady

end Discipline

end YeetYoink
