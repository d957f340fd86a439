import YeetYoink.Value.Display
import YeetYoink.Value.Equality
import YeetYoink.Value.Literal

/-!
# Stores that differ in their scopes

Two runs of a program may keep their scopes under different references and agree in everything else.
`Value.rename` puts other references into functions and macros, and `Store.Renamed` says that all
texts, arrays and dictionaries of one store are those of the other with their values renamed.
Whatever a program can see of a value is then the same in both.
-/

namespace YeetYoink

variable {ρ : Ref .scope → Ref .scope} {s t : Store}

def Closure.rename (ρ : Ref .scope → Ref .scope) (f : Closure) : Closure :=
  { f with scope := ρ f.scope }

@[simp] theorem Closure.params_rename (f : Closure) : (f.rename ρ).params = f.params := rfl

@[simp] theorem Closure.body_rename (f : Closure) : (f.rename ρ).body = f.body := rfl

@[simp] theorem Closure.scope_rename (f : Closure) : (f.rename ρ).scope = ρ f.scope := rfl

namespace Value

def rename (ρ : Ref .scope → Ref .scope) : Value → Value
  | .function f => .function (f.rename ρ)
  | .macroFn f => .macroFn (f.rename ρ)
  | v => v

@[simp] theorem rename_int (n : Int64) : (int n).rename ρ = .int n := rfl

@[simp] theorem rename_num (x : Float) : (num x).rename ρ = .num x := rfl

@[simp] theorem rename_bool (b : Bool) : (bool b).rename ρ = .bool b := rfl

@[simp] theorem rename_null : null.rename ρ = .null := rfl

@[simp] theorem rename_text (r : Ref .text) : (text r).rename ρ = .text r := rfl

@[simp] theorem rename_array (r : Ref .array) : (array r).rename ρ = .array r := rfl

@[simp] theorem rename_dict (r : Ref .dict) : (dict r).rename ρ = .dict r := rfl

@[simp] theorem rename_range (a b : Int64) : (range a b).rename ρ = .range a b := rfl

@[simp] theorem rename_function (f : Closure) :
    (function f).rename ρ = .function (f.rename ρ) := rfl

@[simp] theorem rename_macroFn (f : Closure) : (macroFn f).rename ρ = .macroFn (f.rename ρ) := rfl

@[simp] theorem rename_builtin (b : Builtin) : (builtin b).rename ρ = .builtin b := rfl

@[simp] theorem rename_quote (x : Expr) : (quote x).rename ρ = .quote x := rfl

@[simp] theorem kind_rename (v : Value) : (v.rename ρ).kind = v.kind := by
  cases v <;> rfl

@[simp] theorem rename_id : Value.rename id = id := by
  funext v
  cases v <;> rfl

end Value

def Entry.rename (ρ : Ref .scope → Ref .scope) (e : Entry) : Entry :=
  { e with key := e.key.rename ρ, value := e.value.rename ρ }

def Dict.rename (ρ : Ref .scope → Ref .scope) (d : Dict) : Dict :=
  { d with entries := d.entries.map (Entry.rename ρ) }

@[simp] theorem Dict.size_rename (d : Dict) : (d.rename ρ).size = d.size := by
  simp [Dict.rename, Dict.size]

@[simp] theorem Dict.entries_rename (d : Dict) :
    (d.rename ρ).entries = d.entries.map (Entry.rename ρ) := rfl

@[simp] theorem Entry.rename_id : Entry.rename id = id := by
  funext e
  simp [Entry.rename]

@[simp] theorem Dict.rename_id : Dict.rename id = id := by
  funext d
  simp [Dict.rename]

structure Store.Renamed (ρ : Ref .scope → Ref .scope) (s t : Store) : Prop where
  texts : t.texts = s.texts
  arrays : t.arrays = s.arrays.map (·.map (Value.rename ρ))
  dicts : t.dicts = s.dicts.map (Dict.rename ρ)
  bodies : t.bodies = s.bodies
  printed : t.printed = s.printed

theorem Store.Renamed.refl (s : Store) : Store.Renamed id s s := by
  constructor <;> simp

theorem Dict.rename_setValue (d : Dict) (i : Nat) (v : Value) :
    (d.setValue i v).rename ρ = (d.rename ρ).setValue i (v.rename ρ) := by
  refine congrArg (Dict.mk · d.slots) (List.ext_getElem? fun j => ?_)
  simp only [Dict.setValue, Dict.rename, List.getElem?_map, List.getElem?_modify]
  cases d.entries[j]? with
  | none => rfl
  | some e => by_cases hj : i = j <;> simp [hj, Entry.rename]

theorem Dict.rename_push (d : Dict) (h : HashKey) (k v : Value) :
    (d.push h k v).rename ρ = (d.rename ρ).push h (k.rename ρ) (v.rename ρ) := by
  simp [Dict.push, Dict.rename, Dict.size, Entry.rename]

/-- Keys are found at the same place if they are still told apart. -/
theorem Dict.place?_rename {p q : Value → Bool} (hp : ∀ v, p (v.rename ρ) = q v) (d : Dict)
    (h : HashKey) : (d.rename ρ).place? h p = d.place? h q := by
  rw [place?, place?]
  congr 1
  funext i
  rw [entries_rename, List.getElem?_map, Option.any_map]
  congr 1
  funext e
  exact hp e.key

theorem Dict.find?_rename {p q : Value → Bool} (hp : ∀ v, p (v.rename ρ) = q v) (d : Dict)
    (h : HashKey) : (d.rename ρ).find? h p = (d.find? h q).map (Value.rename ρ) := by
  rw [find?, find?, place?_rename hp]
  cases d.place? h q with
  | none => rfl
  | some i =>
    rw [Option.bind_some, Option.bind_some, entries_rename, List.getElem?_map]
    cases d.entries[i]? <;> rfl

namespace Store.Renamed

variable (h : Store.Renamed ρ s t)
include h

theorem text (r : Ref .text) : t.text r = s.text r := by
  simp [Store.text, h.texts]

theorem array (r : Ref .array) : t.array r = (s.array r).map (Value.rename ρ) := by
  cases hr : s.arrays[r.index]? <;> simp [Store.array, h.arrays, hr]

theorem dict (r : Ref .dict) : t.dict r = (s.dict r).rename ρ := by
  cases hr : s.dicts[r.index]? <;> simp [Store.dict, h.dicts, hr, Dict.rename]

theorem nesting : t.nesting = s.nesting := by
  simp [Store.nesting, h.arrays, h.dicts]

/-! ### Keys -/

theorem hashKey? (v : Value) : t.hashKey? (v.rename ρ) = s.hashKey? v := by
  cases v <;> simp [Store.hashKey?, h.text]

theorem sameKey (a b : Value) : t.sameKey (a.rename ρ) (b.rename ρ) = s.sameKey a b := by
  cases a <;> cases b <;> simp [Store.sameKey, h.text]

theorem place? (d : Dict) (k : HashKey) (key : Value) :
    (d.rename ρ).place? k (t.sameKey · (key.rename ρ)) = d.place? k (s.sameKey · key) :=
  Dict.place?_rename (fun v => h.sameKey v key) d k

theorem get (d : Dict) (key : Value) :
    (d.rename ρ).get t (key.rename ρ) = (d.get s key).map (Option.map (Value.rename ρ)) := by
  unfold Dict.get
  rw [h.hashKey?]
  cases s.hashKey? key with
  | none => simp [Except.map]
  | some k => exact congrArg Except.ok (Dict.find?_rename (fun v => h.sameKey v key) d k)

theorem getText? (d : Dict) (text : String) :
    (d.rename ρ).getText? t text = (d.getText? s text).map (Value.rename ρ) := by
  refine Dict.find?_rename (fun v => ?_) d _
  cases v <;> simp [Store.isText, h.text]

/-! ### What values show -/

theorem inspectPlain (v : Value) : t.inspectPlain (v.rename ρ) = s.inspectPlain v := by
  cases v <;> simp [Store.inspectPlain, Closure.rename, h.text]

theorem inspectIn (n : Nat) (path : List Container) (v : Value) :
    t.inspectIn n path (v.rename ρ) = s.inspectIn n path v := by
  induction n generalizing path v with
  | zero => exact h.inspectPlain v
  | succ n ih =>
    cases v with
    | array r =>
      simp only [Value.rename_array, Store.inspectIn, h.array, Array.toList_map, List.map_map]
      congr 5
      funext x
      exact ih _ x
    | dict r =>
      simp only [Value.rename_dict, Store.inspectIn, h.dict, Dict.rename, List.map_map]
      congr 5
      funext e
      simp only [Function.comp_apply, Entry.rename, ih]
    | _ => exact h.inspectPlain _

theorem inspect (v : Value) : t.inspect (v.rename ρ) = s.inspect v := by
  rw [Store.inspect, Store.inspect, h.nesting, h.inspectIn]

theorem display (v : Value) : t.display (v.rename ρ) = s.display v := by
  cases v with
  | text r => exact h.text r
  | _ => exact h.inspect _

theorem truthy (v : Value) : t.truthy (v.rename ρ) = s.truthy v := by
  cases v with
  | array r => simp [Store.truthy, h.array, Array.isEmpty]
  | dict r => simp [Store.truthy, h.dict, Dict.rename]
  | _ => simp [Store.truthy, h.text]

theorem literalIn (n : Nat) (v : Value) : t.literalIn n (v.rename ρ) = s.literalIn n v := by
  induction n generalizing v with
  | zero => cases v <;> simp [Store.literalIn, h.text]
  | succ n ih =>
    cases v with
    | array r =>
      simp only [Value.rename_array, Store.literalIn, h.array, Array.toList_map, List.mapM_map,
        Function.comp_def, ih]
    | dict r =>
      simp only [Value.rename_dict, Store.literalIn, h.dict, Dict.rename, List.mapM_map,
        Function.comp_def, Entry.rename, ih]
    | _ => simp [Store.literalIn, h.text]

theorem literal (v : Value) : t.literal (v.rename ρ) = s.literal v := by
  rw [Store.literal, Store.literal, h.nesting, h.literalIn]

/-! ### Equality -/

omit h in
theorem equalLists?_rename {eq? eq'? : Value → Value → Option Bool}
    (heq : ∀ a b, eq'? (a.rename ρ) (b.rename ρ) = eq? a b) (xs ys : List Value) :
    equalLists? eq'? (xs.map (Value.rename ρ)) (ys.map (Value.rename ρ)) =
      equalLists? eq? xs ys := by
  induction xs generalizing ys with
  | nil => cases ys <;> rfl
  | cons x xs ih =>
    cases ys with
    | nil => rfl
    | cons y ys => simp only [List.map_cons, equalLists?, heq, ih]

theorem entriesIn? {eq? eq'? : Value → Value → Option Bool}
    (heq : ∀ a b, eq'? (a.rename ρ) (b.rename ρ) = eq? a b) (d : Dict) (es : List Entry) :
    t.entriesIn? eq'? (d.rename ρ) (es.map (Entry.rename ρ)) = s.entriesIn? eq? d es := by
  induction es with
  | nil => rfl
  | cons e es ih =>
    have hget := h.get d e.key
    simp only [List.map_cons, Store.entriesIn?, Entry.rename]
    rw [hget]
    cases d.get s e.key with
    | error e => rfl
    | ok v =>
      cases v with
      | none => rfl
      | some v => simp only [Except.map, Option.map, heq, ih]

theorem equalIn? (hρ : Function.Injective ρ) (n : Nat) (a b : Value) :
    t.equalIn? n (a.rename ρ) (b.rename ρ) = s.equalIn? n a b := by
  induction n generalizing a b with
  | zero =>
    cases a <;> cases b <;>
      simp [Closure.rename, Store.equalIn?, h.text, hρ.eq_iff]
  | succ n ih =>
    cases a <;> cases b <;>
      simp [Closure.rename, Store.equalIn?, h.text, hρ.eq_iff, h.array, h.dict,
        equalLists?_rename ih, h.entriesIn? ih]

theorem equal? (hρ : Function.Injective ρ) (a b : Value) :
    t.equal? (a.rename ρ) (b.rename ρ) = s.equal? a b := by
  rw [Store.equal?, Store.equal?, h.nesting, h.equalIn? hρ]

/-! ### Changes -/

/-- The scopes may differ in any way. -/
theorem withScopes (xs ys : Array Scope) :
    Store.Renamed ρ { s with scopes := xs } { t with scopes := ys } :=
  ⟨h.texts, h.arrays, h.dicts, h.bodies, h.printed⟩

theorem newText (x : String) : Store.Renamed ρ (s.newText x).2 (t.newText x).2 :=
  { h with texts := congrArg (·.push x) h.texts }

theorem newArray (a : Array Value) :
    Store.Renamed ρ (s.newArray a).2 (t.newArray (a.map (Value.rename ρ))).2 :=
  { h with arrays := by simp [Store.newArray, h.arrays] }

theorem newDict (d : Dict) : Store.Renamed ρ (s.newDict d).2 (t.newDict (d.rename ρ)).2 :=
  { h with dicts := by simp [Store.newDict, h.dicts] }

theorem newBody : Store.Renamed ρ { s with bodies := s.bodies + 1 }
      { t with bodies := t.bodies + 1 } :=
  { h with bodies := congrArg (· + 1) h.bodies }

theorem modifyText (r : Ref .text) (f : String → String) :
    Store.Renamed ρ (s.modifyText r f) (t.modifyText r f) :=
  { h with texts := congrArg (·.modify r.index f) h.texts }

omit h in
theorem map_modify_const {α β : Type} (f : α → β) (a : Array α) (i : Nat) (x : α) :
    (a.modify i fun _ => x).map f = (a.map f).modify i fun _ => f x := by
  apply Array.ext_getElem?
  intro j
  simp only [Array.getElem?_map, Array.getElem?_modify]
  split
  · cases a[j]? <;> rfl
  · rfl

theorem setArray (r : Ref .array) (a : Array Value) :
    Store.Renamed ρ (s.modifyArray r fun _ => a)
      (t.modifyArray r fun _ => a.map (Value.rename ρ)) :=
  { h with arrays := by simp [Store.modifyArray, h.arrays, map_modify_const] }

theorem setDict (r : Ref .dict) (d : Dict) :
    Store.Renamed ρ (s.modifyDict r fun _ => d) (t.modifyDict r fun _ => d.rename ρ) :=
  { h with dicts := by simp [Store.modifyDict, h.dicts, map_modify_const] }

theorem print (line : String) : Store.Renamed ρ (s.print line) (t.print line) :=
  { h with printed := by simp [Store.print, h.printed] }

end Store.Renamed

end YeetYoink
