import YeetYoink.Proofs.Eval.Nodes
import YeetYoink.Proofs.Store.Frame

/-!
# Code from sources

Code that was read from a source has no bad node, assigns to places only, and has no name that is
the mark of yolo scopes (`Rules.source`). A store is `Lawful` if that holds of all functions, macros
and quotes in it. Evaluation keeps a store lawful, so such code never fails for being malformed.

`Discipline.lawful` says so for two runs of which the right one marks the scopes of yolo blocks with
a value of one's choice. Since no name is the mark, the runs cannot tell: the stores stay the same
but for that value (`Store.Remarked`), and scopes that are there keep their marks (`Store.Stable`).
-/

namespace YeetYoink

/-- The rules that code from sources keeps to, with macros or without. -/
def Rules.source (macros : Prop) : Rules where
  Name name := name ≠ Store.yoloMark
  malformed := False
  macros := macros
  parts := True
  parts_of_malformed _ := trivial

/-- The code in a value keeps to the rules. -/
def Rules.Allows (R : Rules) : Value → Prop
  | .function f => (∀ p ∈ f.params, R.Binds p) ∧ ∀ x ∈ f.body, x.Throughout R.Node
  | .macroFn f => R.macros ∧ (∀ p ∈ f.params, R.Binds p) ∧ ∀ x ∈ f.body, x.Throughout R.Node
  | .quote x => x.Throughout R.Node
  | _ => True

/-- A dictionary of such values, with keys that have no code in them. -/
def Rules.AllowsDict (R : Rules) (d : Dict) : Prop :=
  ∀ e ∈ d.entries, R.Allows e.value ∧ e.key.IsKey

namespace Rules.AllowsDict

variable {R : Rules} {d : Dict} (hd : R.AllowsDict d) {v : Value} (hv : R.Allows v)
include hd hv

theorem setValue (i : Nat) : R.AllowsDict (d.setValue i v) := by
  intro e he
  obtain ⟨e', he', hk⟩ := Dict.key_of_mem_setValue he
  refine ⟨?_, hk ▸ (hd e' he').2⟩
  obtain h | he := Dict.value_of_mem_setValue he
  · exact h ▸ hv
  · exact (hd e he).1

theorem push {h : HashKey} {k : Value} (hk : k.IsKey) : R.AllowsDict (d.push h k v) :=
  List.forall_mem_append.2 ⟨hd, List.forall_mem_singleton.2 ⟨hv, hk⟩⟩

end Rules.AllowsDict

theorem Rules.allows_of_isKey {R : Rules} {v : Value} (h : v.IsKey) : R.Allows v := by
  cases v with
  | int _ | bool _ | text _ => trivial
  | _ => exact h.elim

/-- Where all scopes and texts are fit for use, only the code in a value counts. -/
theorem Discipline.valid_iff_allows {D : Discipline} {w : D.World} (hk : ∀ r, D.Known w r)
    (ht : ∀ r, D.ValidText w r) {v : Value} : D.Valid w v ↔ D.Allows v := by
  cases v with
  | text r => exact iff_of_true (ht r) trivial
  | function f => exact ⟨fun h => ⟨h.params, h.body⟩, fun h => ⟨hk _, h.1, h.2⟩⟩
  | macroFn f => exact ⟨fun h => ⟨h.1, h.2.params, h.2.body⟩, fun h => ⟨h.1, ⟨hk _, h.2.1, h.2.2⟩⟩⟩
  | _ => exact Iff.rfl

theorem Lexer.IsWord.ne_yoloMark {name : String} (h : IsWord name.toList) :
    name ≠ Store.yoloMark := by
  rintro rfl
  exact absurd (h.all '#' (by decide)) (by decide)

namespace Store

/-- All code in the store keeps to the rules of sources. -/
def Lawful (macros : Prop) (s : Store) : Prop :=
  s.Holds (Rules.source macros).Allows (Rules.source macros).AllowsDict

/-- The same store but for the value that yolo scopes are marked with. -/
structure Remarked (mark : Value) (s t : Store) : Prop where
  rest : t = { s with scopes := t.scopes }
  size : t.scopes.size = s.scopes.size
  outer : ∀ r, (t.scope r).outer = (s.scope r).outer
  get : ∀ r name, name ≠ yoloMark → (t.scope r).get? name = (s.scope r).get? name
  marks : ∀ r, (s.scope r).get? yoloMark = none ∧ (t.scope r).get? yoloMark = none ∨
    (s.scope r).get? yoloMark = some (.bool true) ∧ (t.scope r).get? yoloMark = some mark
  usual : mark = .bool true → t = s

namespace Remarked

variable {mark : Value} {s t : Store} (h : Remarked mark s t)
include h

theorem renamed : Renamed id s t := by
  rw [h.rest]
  exact ⟨rfl, by simp, by simp, rfl, rfl⟩

theorem chain (r : Ref .scope) : t.chain r = s.chain r := by
  obtain ⟨i⟩ := r
  simp only [Store.chain]
  induction i using Nat.strongRecOn with
  | ind i ih =>
    have hn : t.next? i = s.next? i := by rw [next?, h.outer, next?]
    rw [chainFrom_eq, chainFrom_eq s, hn]
    cases ho : s.next? i with
    | none => rfl
    | some o =>
      have hlt : o.index < i := Store.lt_of_next? ho
      rw [Option.map_some, Option.map_some, ih o.index hlt]

theorem lookup? (r : Ref .scope) {name : String} (hn : name ≠ yoloMark) :
    t.lookup? r name = s.lookup? r name := by
  simp only [Store.lookup?, h.chain, h.get _ name hn]

theorem holder? (r : Ref .scope) {name : String} (hn : name ≠ yoloMark) :
    t.holder? r name = s.holder? r name := by
  simp only [Store.holder?, h.chain, Scope.binds, h.get _ name hn]

theorem isSome_mark (r : Ref .scope) :
    ((t.scope r).get? yoloMark).isSome = ((s.scope r).get? yoloMark).isSome := by
  obtain ⟨hs, ht⟩ | ⟨hs, ht⟩ := h.marks r
  · rw [hs, ht]
  · rw [hs, ht]
    rfl

theorem isYolo (r : Ref .scope) : t.isYolo r = s.isYolo r := by
  rw [Bool.eq_iff_iff, isYolo_iff, isYolo_iff, h.chain]
  simp only [h.isSome_mark]

/-- A scope is marked in the one store where it is in the other. -/
theorem get?_mark_iff (r : Ref .scope) :
    ((s.scope r).get? yoloMark).isSome ↔ (t.scope r).get? yoloMark = some mark := by
  obtain ⟨hs, ht⟩ | ⟨hs, ht⟩ := h.marks r
  · simp [hs, ht]
  · simp [hs, ht]

/-- Where the one store keeps its marks, so does the other. -/
theorem stable {s' t' : Store} (h' : Remarked mark s' t') (hs : s.Stable s') : t.Stable t' where
  size := by rw [h.size, h'.size]; exact hs.size
  outer r hr := by rw [h'.outer, h.outer, hs.outer r (h.size ▸ hr)]
  mark r hr := by
    have hm := hs.mark r (h.size ▸ hr)
    obtain ⟨h₁, h₂⟩ | ⟨h₁, h₂⟩ := h.marks r
    · obtain ⟨-, h₃⟩ | ⟨h₃, -⟩ := h'.marks r
      · rw [h₂, h₃]
      · rw [hm, h₁] at h₃
        cases h₃
    · obtain ⟨h₃, -⟩ | ⟨-, h₃⟩ := h'.marks r
      · rw [hm, h₁] at h₃
        cases h₃
      · rw [h₂, h₃]

/-! ### Changes -/

theorem congr {s' t' : Store} (hr : t' = { s' with scopes := t'.scopes })
    (hs : s'.scopes = s.scopes) (ht : t'.scopes = t.scopes) : Remarked mark s' t' := by
  have hs' : ∀ r, s'.scope r = s.scope r := fun r => by rw [scope, hs, scope]
  have ht' : ∀ r, t'.scope r = t.scope r := fun r => by rw [scope, ht, scope]
  refine ⟨hr, by rw [hs, ht, h.size], fun r => ?_, fun r => ?_, fun r => ?_, fun hm => ?_⟩
  · rw [hs', ht', h.outer]
  · rw [hs', ht']
    exact h.get r
  · rw [hs', ht']
    exact h.marks r
  · rw [hr, ht, h.usual hm, ← hs]

theorem bind (r : Ref .scope) {name : String} (hn : name ≠ yoloMark) (v : Value) :
    Remarked mark (s.bind r name v) (t.bind r name v) where
  rest := by
    rw [h.rest]
    rfl
  size := by rw [size_bind, size_bind, h.size]
  outer q := by rw [outer_bind, outer_bind, h.outer]
  get q k hk := by
    by_cases hr : r.index < s.scopes.size
    · rw [scope_bind s hr, scope_bind t (by rwa [h.size])]
      split
      · rw [Scope.get?_set, Scope.get?_set, h.get _ k hk]
      · exact h.get q k hk
    · rw [bind_of_le s (Nat.le_of_not_lt hr),
        bind_of_le t (by rw [h.size]; exact Nat.le_of_not_lt hr)]
      exact h.get q k hk
  marks q := by
    rw [get?_bind_of_ne s r hn.symm, get?_bind_of_ne t r hn.symm]
    exact h.marks q
  usual hm := by rw [h.usual hm]

theorem fst_enclose (r : Ref .scope) : (t.enclose r).1 = (s.enclose r).1 := congrArg Ref.mk h.size

theorem enclose (r : Ref .scope) : Remarked mark (s.enclose r).2 (t.enclose r).2 where
  rest := by
    rw [h.rest]
    rfl
  size := by simp [Store.enclose, newScope, h.size]
  outer q := by
    simp only [Store.enclose, scope_newScope_eq, h.size]
    split
    · rfl
    · exact h.outer q
  get q k hk := by
    simp only [Store.enclose, scope_newScope_eq, h.size]
    split
    · rfl
    · exact h.get q k hk
  marks q := by
    simp only [Store.enclose, scope_newScope_eq, h.size]
    split
    · exact .inl ⟨rfl, rfl⟩
    · exact h.marks q
  usual hm := by rw [h.usual hm]

/-- Marking a scope, each store in its own way. -/
theorem markYolo {r : Ref .scope} (hr : r.index < s.scopes.size) :
    Remarked mark (s.markYolo r) (t.bind r yoloMark mark) where
  rest := by
    rw [h.rest]
    rfl
  size := by rw [Store.markYolo, size_bind, size_bind, h.size]
  outer q := by rw [Store.markYolo, outer_bind, outer_bind, h.outer]
  get q k hk := by rw [Store.markYolo, get?_bind_of_ne s r hk, get?_bind_of_ne t r hk, h.get q k hk]
  marks q := by
    rw [Store.markYolo, scope_bind s hr, scope_bind t (by rwa [h.size])]
    split
    · rw [Scope.get?_set, Scope.get?_set, if_pos rfl, if_pos rfl]
      exact .inr ⟨rfl, rfl⟩
    · exact h.marks q
  usual hm := by rw [h.usual hm, hm, Store.markYolo]

end Remarked

end Store

namespace Lawful

/-- A run beside one that marks yolo scopes with another value. -/
structure World (macros : Prop) (mark : Value) where
  left : Store
  right : Store
  lawful : left.Lawful macros
  remarked : left.Remarked mark right

end Lawful

def Discipline.lawful (macros : Prop) (mark : Value) : Discipline where
  toRules := Rules.source macros
  World := Lawful.World macros mark
  left := Lawful.World.left
  right := Lawful.World.right
  Le w w' := w.left.Stable w'.left
  rename := id
  ValidText _ _ := True
  ValidDict _ := (Rules.source macros).AllowsDict
  Known _ _ := True
  Open _ _ := True
  Ignored _ := False

namespace Lawful

variable {macros : Prop} {mark : Value}

theorem valid_iff {w : World macros mark} {v : Value} :
    (Discipline.lawful macros mark).Valid w v ↔ (Rules.source macros).Allows v :=
  Discipline.valid_iff_allows (fun _ => trivial) fun _ => trivial

theorem rename_eq : (Discipline.lawful macros mark).rename = id := rfl

theorem reaches (w : World macros mark) {s t : Store} {P : World macros mark → Prop}
    (hs : s.Lawful macros) (ht : s.Remarked mark t) (hle : w.left.Stable s) (hp : ∀ w, P w) :
    (Discipline.lawful macros mark).Reaches w s t P :=
  ⟨⟨s, t, hs, ht⟩, rfl, rfl, hle, hp _⟩

/-- Changes that leave the scopes alone. -/
theorem reaches_same (w : World macros mark) {s t : Store} {P : World macros mark → Prop}
    (hs : s.Lawful macros) (hst : t = { s with scopes := t.scopes })
    (hls : s.scopes = w.left.scopes)
    (hrs : t.scopes = w.right.scopes) (hp : ∀ w, P w) :
    (Discipline.lawful macros mark).Reaches w s t P :=
  reaches w hs (w.remarked.congr hst hls hrs) (.of_eq hls) hp

/-- The right store is the left one with scopes of its own. -/
theorem World.right_eq (w : World macros mark) :
    w.right = { w.left with scopes := w.right.scopes } :=
  w.remarked.rest

theorem sound : (Discipline.lawful macros mark).Sound where
  refl _ := .of_eq rfl
  trans h₁ h₂ := h₁.trans h₂
  renamed w := w.remarked.renamed
  injective := Function.injective_id
  yeet_counts _ h := h
  text_mono _ _ := trivial
  dict_mono _ h := h
  known_mono _ _ := trivial
  open_mono _ _ := trivial
  known_of_open _ := trivial
  word h := h.ne_yoloMark
  firstName := show Yolo.firstName ≠ Store.yoloMark by decide
  secondName := show Yolo.secondName ≠ Store.yoloMark by decide
  array {w r v} hv := valid_iff.2 (w.lawful.arrays r v hv)
  dict {w} r := w.lawful.dicts r
  binding {w r name v} h := valid_iff.2 (w.lawful.scopes r name v h)
  entry hd he := ⟨valid_iff.2 (hd _ he).1, .inl (hd _ he).2⟩
  lookup_some {w r name v} _ hn h := by
    rw [rename_eq, Value.rename_id]
    exact (w.remarked.lookup? r hn).trans h
  lookup_none {w r name} _ hn h := .inl ((w.remarked.lookup? r hn).trans h)
  holder_some {w r name q} _ hn h := (w.remarked.holder? r hn).trans h
  isYolo {w r} _ := .inl (w.remarked.isYolo r)
  newText {w} t := by
    refine reaches_same w ⟨w.lawful.arrays, w.lawful.dicts, w.lawful.scopes⟩ ?_ rfl rfl
      fun _ => trivial
    exact congrArg (fun s => (Store.newText s t).2) w.right_eq
  newArray {w a} ha := by
    rw [rename_eq, Value.rename_id, Array.map_id]
    refine reaches_same w (w.lawful.newArray fun v hv => valid_iff.1 (ha v hv)) ?_ rfl rfl
      fun _ => trivial
    exact congrArg (fun s => (Store.newArray s a).2) w.right_eq
  newDict {w d} hd := by
    rw [rename_eq, Dict.rename_id]
    refine reaches_same w (w.lawful.newDict hd) ?_ rfl rfl fun _ => trivial
    exact congrArg (fun s => (Store.newDict s d).2) w.right_eq
  newBody {w} := by
    refine reaches_same w ⟨w.lawful.arrays, w.lawful.dicts, w.lawful.scopes⟩ ?_ rfl rfl
      fun _ => trivial
    exact congrArg (fun s : Store => { s with bodies := s.bodies + 1 }) w.right_eq
  enclose {w r} _ := reaches w (w.lawful.enclose r) (w.remarked.enclose r)
    (.enclose w.left r) fun _ =>
    ⟨trivial, w.remarked.fst_enclose r⟩
  declare {w r name v} _ hn _ hv := by
    rw [rename_eq, Value.rename_id]
    exact reaches w (w.lawful.bind r name (valid_iff.1 hv)) (w.remarked.bind r hn v)
      (.bind w.left r hn v)
      fun _ => trivial
  rebind {w r name q v} _ hn _ hv := by
    rw [rename_eq, Value.rename_id]
    exact reaches w (w.lawful.bind q name (valid_iff.1 hv)) (w.remarked.bind q hn.1 v)
      (.bind w.left q hn.1 v)
      fun _ => trivial
  modifyText {w r} f _ := by
    refine reaches_same w ⟨w.lawful.arrays, w.lawful.dicts, w.lawful.scopes⟩ ?_ rfl rfl
      fun _ => trivial
    exact congrArg (fun s => Store.modifyText s r f) w.right_eq
  setArray {w a} r ha := by
    rw [rename_eq, Value.rename_id, Array.map_id]
    refine reaches_same w (w.lawful.setArray r fun v hv => valid_iff.1 (ha v hv)) ?_ rfl rfl
      fun _ => trivial
    exact congrArg (fun s => Store.modifyArray s r fun _ => a) w.right_eq
  setDict {w d} r hd := by
    rw [rename_eq, Dict.rename_id]
    refine reaches_same w (w.lawful.setDict r hd) ?_ rfl rfl fun _ => trivial
    exact congrArg (fun s => Store.modifyDict s r fun _ => d) w.right_eq
  print {w} line := by
    refine reaches_same w ⟨w.lawful.arrays, w.lawful.dicts, w.lawful.scopes⟩ ?_ rfl rfl
      fun _ => trivial
    exact congrArg (fun s => Store.print s line) w.right_eq
  emptyDict _ he := absurd he List.not_mem_nil
  setValue {w d i v} hd hv := hd.setValue (valid_iff.1 hv) i
  addEntry {w d h k v} hd _ hv hh _ := hd.push (valid_iff.1 hv) (Store.isKey_of_hashKey? hh)
  addText {w d h r v} hd _ hv _ _ := by
    refine reaches_same w ⟨w.lawful.arrays, w.lawful.dicts, w.lawful.scopes⟩ ?_ rfl rfl fun _ => ?_
    · exact congrArg (fun s => (Store.newText s (w.left.text r)).2) w.right_eq
    · exact hd.push (valid_iff.1 hv) trivial

theorem opensYolo : (Discipline.lawful macros mark).OpensYolo mark := by
  intro w r _
  have hr : (w.left.enclose r).1.index < (w.left.enclose r).2.scopes.size := by
    simp [Store.enclose, Store.newScope]
  have hq : (w.right.enclose r).1 = (w.left.enclose r).1 := w.remarked.fst_enclose r
  refine ⟨⟨(w.left.enclose r).2.markYolo (w.left.enclose r).1,
    (w.right.enclose r).2.bind (w.right.enclose r).1 Store.yoloMark mark, ?_, ?_⟩, rfl, rfl, ?_,
    trivial, hq⟩
  · exact (w.lawful.enclose r).bind _ _ trivial
  · rw [hq]
    exact (w.remarked.enclose r).markYolo hr
  · exact .encloseYolo w.left r

theorem follows (n : Nat) :
    (Discipline.lawful macros mark).Follows (evaluate n) (Marked.evaluate mark n) :=
  sound.follows_marked (fun w r e he =>
    valid_iff.2 (Rules.allows_of_isKey (w.lawful.dicts r e he).2))
    opensYolo n

end Lawful

end YeetYoink
