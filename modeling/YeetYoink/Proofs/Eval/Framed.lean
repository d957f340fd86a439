import YeetYoink.Proofs.Eval.Nodes
import YeetYoink.Proofs.Store.Frame

/-!
# Evaluation declares names in its own scope only

Evaluating an expression in a scope may bind new names there and in scopes that it makes, and
nowhere else: in every other scope that it finds, it can only give new values to names that are
bound already. A body that has a scope of its own, that of a function, a loop or a yolo block, binds
no name in any scope it finds. All that holds however the evaluation ends, of any store and any
expression.
-/

namespace YeetYoink

/-- Stores that a run comes to which may declare names in the `Free` scopes of a store. -/
def Discipline.framed (Free : Ref .scope → Prop) (base : Store) : Discipline where
  World := { s : Store // base.Frame Free s }
  left := Subtype.val
  right := Subtype.val
  Le _ _ := True
  rename := id
  ValidText _ _ := True
  ValidDict _ _ := True
  Known _ _ := True
  Open _ r := Free r ∨ base.scopes.size ≤ r.index
  Name _ := True
  malformed := True
  macros := True
  parts := True
  parts_of_malformed _ := trivial
  Ignored _ := False

namespace Framed

variable {Free : Ref .scope → Prop} {base : Store}

theorem throughout (x : Expr) : x.Throughout (Discipline.framed Free base).Node := by
  intro y _
  cases y <;> simp [Rules.Node, Rules.Binds, Discipline.framed]

theorem valid (w : { s : Store // base.Frame Free s }) (v : Value) :
    (Discipline.framed Free base).Valid w v := by
  cases v with
  | function f => exact ⟨trivial, fun _ _ => ⟨trivial, .inl trivial⟩, fun x _ => throughout x⟩
  | macroFn f =>
    exact ⟨trivial, trivial, fun _ _ => ⟨trivial, .inl trivial⟩, fun x _ => throughout x⟩
  | quote x => exact throughout x
  | _ => trivial

theorem reaches (w : { s : Store // base.Frame Free s }) (s : Store)
    {P : { s : Store // base.Frame Free s } → Prop}
    (h : w.1.Frame (fun r => Free r ∨ base.scopes.size ≤ r.index) s) (hp : ∀ w, P w) :
    (Discipline.framed Free base).Reaches w s s P :=
  ⟨⟨s, w.2.trans h⟩, rfl, rfl, trivial, hp _⟩

theorem rename_eq : (Discipline.framed Free base).rename = id := rfl

theorem sound : (Discipline.framed Free base).Sound where
  refl _ := trivial
  trans _ _ := trivial
  renamed w := Store.Renamed.refl w.1
  injective := Function.injective_id
  yeet_counts _ h := h
  text_mono _ _ := trivial
  dict_mono _ _ := trivial
  known_mono _ _ := trivial
  open_mono _ h := h
  known_of_open _ := trivial
  word _ := trivial
  firstName := trivial
  secondName := trivial
  array _ := valid _ _
  dict _ := trivial
  binding _ := valid _ _
  entry _ _ := ⟨valid _ _, .inr (valid _ _)⟩
  lookup_some {w r name v} _ _ h := by
    rw [rename_eq, Value.rename_id]
    exact h
  lookup_none _ _ h := .inl h
  holder_some _ _ h := h
  isYolo _ := .inl rfl
  newText {w} t := reaches w (w.1.newText t).2 (.of_eq rfl) fun _ => trivial
  newArray {w a} _ := by
    rw [rename_eq, Value.rename_id, Array.map_id]
    exact reaches w (w.1.newArray a).2 (.of_eq rfl) fun _ => trivial
  newDict {w d} _ := by
    rw [rename_eq, Dict.rename_id]
    exact reaches w (w.1.newDict d).2 (.of_eq rfl) fun _ => trivial
  newBody {w} := reaches w { w.1 with bodies := w.1.bodies + 1 } (.of_eq rfl) fun _ => trivial
  enclose {w r} _ := reaches w (w.1.enclose r).2 (.enclose w.1 r) fun _ => ⟨.inr w.2.size, rfl⟩
  declare {w r name v} hr _ _ _ := by
    rw [rename_eq, Value.rename_id]
    exact reaches w (w.1.bind r name v) (.declare w.1 hr name v) fun _ => trivial
  rebind {w r name q v} _ _ h _ := by
    rw [rename_eq, Value.rename_id]
    exact reaches w (w.1.bind q name v) (.rebind w.1 (Store.binds_of_holder? h) v) fun _ => trivial
  modifyText {w r} f _ := reaches w (w.1.modifyText r f) (.of_eq rfl) fun _ => trivial
  setArray {w a} r _ := by
    rw [rename_eq, Value.rename_id, Array.map_id]
    exact reaches w (w.1.modifyArray r fun _ => a) (.of_eq rfl) fun _ => trivial
  setDict {w d} r _ := by
    rw [rename_eq, Dict.rename_id]
    exact reaches w (w.1.modifyDict r fun _ => d) (.of_eq rfl) fun _ => trivial
  print {w} line := reaches w (w.1.print line) (.of_eq rfl) fun _ => trivial
  emptyDict := trivial
  setValue _ _ := trivial
  addEntry _ _ _ _ _ := trivial
  addText {w d h r v} _ _ _ _ _ := reaches w (w.1.newText (w.1.text r)).2 (.of_eq rfl)
    fun _ => trivial

theorem opensYolo : (Discipline.framed Free base).OpensYolo (.bool true) := by
  intro w r _
  -- The mark is bound in a scope that was just made.
  refine ⟨⟨(w.1.enclose r).2.markYolo (w.1.enclose r).1, ?_⟩, rfl, rfl, trivial, .inr w.2.size, rfl⟩
  have h : base.Frame Free (w.1.enclose r).2 := w.2.trans (.enclose w.1 r)
  exact h.trans (.declare _ (.inr w.2.size) _ _)

theorem follows (n : Nat) : (Discipline.framed Free base).Follows (evaluate n) (evaluate n) :=
  sound.follows_evaluate (fun w _ e _ => valid w e.key) opensYolo n

/-- A computation that keeps to the discipline from a store on leaves a frame of it. -/
theorem frame {α : Type} {x : Eval α} {Q : { s : Store // base.Frame Free s } → α → α → Prop}
    (h : (Discipline.framed Free base).Relates ⟨base, .of_eq rfl⟩ x x Q) :
    base.Frame Free (x.after base) := by
  obtain ⟨w, hw, -⟩ := h.after fun _ => id
  exact hw ▸ w.2

end Framed

/-- Evaluation declares names in no scope that was there before but its own, and there names only
come to be bound; a body with a scope of its own declares none in any scope that was there before.
-/
theorem evaluate_frame (n : Nat) (x : Expr) (r : Ref .scope) (s : Store) :
    s.Frame (· = r) ((evaluate n x r).after s) ∧
      (∀ callee f args, s.Frame (fun _ => False)
        ((Evaluator.enter (evaluate n) callee f args).after s)) ∧
      (∀ condition body, s.Frame (fun _ => False) ((evaluate n (.yoyo condition body) r).after s)) ∧
      ∀ body, s.Frame (fun _ => False) ((evaluate n (.yolo body) r).after s) := by
  refine ⟨?_, fun callee f args => ?_, fun c body => ?_, fun body => ?_⟩
  · exact Framed.frame (Framed.follows n (Framed.throughout x) ⟨.inl rfl, rfl⟩)
  · have hf : (Discipline.framed (fun _ => False) s).ValidClosure ⟨s, .of_eq rfl⟩ f :=
      Framed.valid _ (.function f)
    refine Framed.frame (Framed.sound.relates_enter (Framed.follows n) callee hf
      ⟨fun v _ => ?_, ?_⟩)
    · exact Framed.valid _ v
    · rw [Framed.rename_eq, Value.rename_id, List.map_id]
  · cases n with
    | zero => exact .of_eq rfl
    | succ n =>
      rw [evaluate_succ]
      exact Framed.frame (Framed.sound.relates_loop (Framed.follows n) n trivial
        (Framed.throughout c)
        fun x _ => Framed.throughout x)
  · cases n with
    | zero => exact .of_eq rfl
    | succ n =>
      rw [evaluate_succ]
      exact Framed.frame (Framed.sound.relates_yolo (Framed.follows n) Framed.opensYolo n trivial
        fun x _ => Framed.throughout x)

end YeetYoink
