import YeetYoink.Proofs.Yolo.Lexical

/-!
# The parts of compositions

A composition keeps its two functions in a scope of its own, under names that are no words, so that
no source can give them values (`Rules.composing`). Once they are bound there they stay, as long as
a run goes on (`Store.KeepsParts`): a watch for that gives no alarm (`Session.runAll_keepsParts`).
-/

namespace YeetYoink

theorem Lexer.IsWord.not_isPart {name : String} (h : IsWord name.toList) : ¬ Yolo.IsPart name := by
  rintro (rfl | rfl)
  · exact absurd (h.all '#' (by decide)) (by decide)
  · exact absurd (h.all '#' (by decide)) (by decide)

namespace Store

/-- Scopes stay where they are, and what they bind to the parts of a composition is as it was. -/
structure KeepsParts (s t : Store) : Prop where
  size : s.scopes.size ≤ t.scopes.size
  get : ∀ r name v, Yolo.IsPart name → (s.scope r).get? name = some v →
    (t.scope r).get? name = some v

namespace KeepsParts

variable {s t u : Store}

theorem of_eq (h : t.scopes = s.scopes) : KeepsParts s t where
  size := Nat.le_of_eq (by rw [h])
  get r name v _ hv := by rwa [scope, h]

theorem trans (h₁ : KeepsParts s t) (h₂ : KeepsParts t u) : KeepsParts s u where
  size := Nat.le_trans h₁.size h₂.size
  get r name v hn hv := h₂.get r name v hn (h₁.get r name v hn hv)

theorem enclose (s : Store) (r : Ref .scope) : KeepsParts s (s.enclose r).2 where
  size := (Extends.enclose s r).size
  get q name v _ hv := by
    have hq : q.index < s.scopes.size := by
      by_contra hq
      rw [scope, Array.getElem?_eq_none (Nat.le_of_not_lt hq)] at hv
      cases hv
    rwa [Store.enclose, scope_newScope_of_lt s _ hq]

/-- A part may be bound where it is not bound yet. -/
theorem bind (s : Store) {r : Ref .scope} {name : String}
    (hn : ¬ Yolo.IsPart name ∨ (s.scope r).get? name = none) (v : Value) :
    KeepsParts s (s.bind r name v) where
  size := (Extends.bind s r name v).size
  get q k u hk hu := by
    by_cases hkn : k = name
    · subst hkn
      have hq : q ≠ r := by
        rintro rfl
        rw [hn.resolve_left (not_not.2 hk)] at hu
        cases hu
      rwa [scope_bind_of_ne s hq]
    · rwa [get?_bind_of_ne s r hkn]

end KeepsParts

end Store

/-- The rules of code that gives no values to the parts of compositions. -/
def Rules.composing : Rules where
  Name _ := True
  malformed := False
  macros := True
  parts := False
  parts_of_malformed := id

theorem Lexer.IsWord.binds_composing (name : String) (h : IsWord name.toList) :
    Rules.composing.Binds name :=
  ⟨trivial, .inr h.not_isPart⟩

/-- A store all of whose code keeps to these rules. -/
abbrev Composing.World : Type :=
  { s : Store // s.Holds Rules.composing.Allows Rules.composing.AllowsDict }

def Discipline.composing : Discipline where
  toRules := Rules.composing
  World := Composing.World
  left := Subtype.val
  right := Subtype.val
  Le w w' := w.1.KeepsParts w'.1
  rename := id
  ValidText _ _ := True
  ValidDict _ := Rules.composing.AllowsDict
  Known _ _ := True
  Open _ _ := True
  Ignored _ := False

namespace Composing

theorem valid_iff {w : World} {v : Value} :
    Discipline.composing.Valid w v ↔ Rules.composing.Allows v :=
  Discipline.valid_iff_allows (fun _ => trivial) fun _ => trivial

theorem rename_eq : Discipline.composing.rename = id := rfl

theorem reaches (w : World) {s : Store} {P : World → Prop}
    (hs : s.Holds Rules.composing.Allows Rules.composing.AllowsDict) (hk : w.1.KeepsParts s)
    (hp : ∀ w, P w) : Discipline.composing.Reaches w s s P :=
  ⟨⟨s, hs⟩, rfl, rfl, hk, hp _⟩

theorem sound : Discipline.composing.Sound where
  refl _ := .of_eq rfl
  trans h₁ h₂ := h₁.trans h₂
  renamed w := Store.Renamed.refl w.1
  injective := Function.injective_id
  yeet_counts _ h := h
  text_mono _ _ := trivial
  dict_mono _ h := h
  known_mono _ _ := trivial
  open_mono _ _ := trivial
  known_of_open _ := trivial
  word _ := trivial
  firstName := trivial
  secondName := trivial
  array {w r v} hv := valid_iff.2 (w.2.arrays r v hv)
  dict {w} r := w.2.dicts r
  binding {w r name v} h := valid_iff.2 (w.2.scopes r name v h)
  entry hd he := ⟨valid_iff.2 (hd _ he).1, .inl (hd _ he).2⟩
  lookup_some {w r name v} _ _ h := by
    rw [rename_eq, Value.rename_id]
    exact h
  lookup_none _ _ h := .inl h
  holder_some _ _ h := h
  isYolo _ := .inl rfl
  newText {w} t := reaches w ⟨w.2.arrays, w.2.dicts, w.2.scopes⟩ (.of_eq rfl) fun _ => trivial
  newArray {w a} ha := by
    rw [rename_eq, Value.rename_id, Array.map_id]
    exact reaches w (w.2.newArray fun v hv => valid_iff.1 (ha v hv)) (.of_eq rfl) fun _ => trivial
  newDict {w d} hd := by
    rw [rename_eq, Dict.rename_id]
    exact reaches w (w.2.newDict hd) (.of_eq rfl) fun _ => trivial
  newBody {w} := reaches w ⟨w.2.arrays, w.2.dicts, w.2.scopes⟩ (.of_eq rfl) fun _ => trivial
  enclose {w r} _ := reaches w (w.2.enclose r) (.enclose w.1 r) fun _ => ⟨trivial, rfl⟩
  declare {w r name v} _ _ hn hv := by
    rw [rename_eq, Value.rename_id]
    have hn : ¬ Yolo.IsPart name ∨ (w.1.scope r).get? name = none :=
      hn.imp_left fun hb => hb.2.resolve_left id
    exact reaches w (w.2.bind r name (valid_iff.1 hv)) (.bind w.1 hn v) fun _ => trivial
  rebind {w r name q v} _ hn _ hv := by
    rw [rename_eq, Value.rename_id]
    have hn : ¬ Yolo.IsPart name ∨ (w.1.scope q).get? name = none := .inl (hn.2.resolve_left id)
    exact reaches w (w.2.bind q name (valid_iff.1 hv)) (.bind w.1 hn v) fun _ => trivial
  modifyText {w r} f _ := reaches w ⟨w.2.arrays, w.2.dicts, w.2.scopes⟩ (.of_eq rfl)
    fun _ => trivial
  setArray {w a} r ha := by
    rw [rename_eq, Value.rename_id, Array.map_id]
    exact reaches w (w.2.setArray r fun v hv => valid_iff.1 (ha v hv)) (.of_eq rfl) fun _ => trivial
  setDict {w d} r hd := by
    rw [rename_eq, Dict.rename_id]
    exact reaches w (w.2.setDict r hd) (.of_eq rfl) fun _ => trivial
  print {w} line := reaches w ⟨w.2.arrays, w.2.dicts, w.2.scopes⟩ (.of_eq rfl) fun _ => trivial
  emptyDict _ he := absurd he List.not_mem_nil
  setValue {w d i v} hd hv := hd.setValue (valid_iff.1 hv) i
  addEntry {w d h k v} hd _ hv hh _ := hd.push (valid_iff.1 hv) (Store.isKey_of_hashKey? hh)
  addText {w d h r v} hd _ hv _ _ :=
    reaches w ⟨w.2.arrays, w.2.dicts, w.2.scopes⟩ (.of_eq rfl) fun _ =>
      hd.push (valid_iff.1 hv) trivial

theorem opensYolo : Discipline.composing.OpensYolo (.bool true) := by
  intro w r _
  have hmark : ¬ Yolo.IsPart Store.yoloMark := by rintro (h | h) <;> exact absurd h (by decide)
  refine reaches w ((w.2.enclose r).bind _ _ trivial) ?_ fun _ => ⟨trivial, rfl⟩
  exact (Store.KeepsParts.enclose w.1 r).trans (.bind _ (.inl hmark) _)

end Composing

namespace Session

/-- The store of a new session has no code. -/
def composingNew : Composing.World := ⟨new.store, holds_new fun _ he => absurd he List.not_mem_nil⟩

variable {R : Store → Store → Prop} (hR : ∀ s t, s.KeepsParts t → R s t)
include hR

theorem runAllWith_keepsParts {s : Session} {w : Composing.World} (hs : s.store = w.1)
    (alarm : EvalError) (sources : List String) :
    s.runAllWith (Watched.evaluate R alarm depth) sources = s.runAll sources ∧
      ∃ w' : Composing.World, (s.runAll sources).2.store = w'.1 ∧ w.1.KeepsParts w'.1 := by
  have hf := Composing.sound.follows_watched (fun (w w' : Composing.World) hle => hR w.1 w'.1 hle)
    alarm (fun w r e he => Composing.valid_iff.2 (Rules.allows_of_isKey (w.2.dicts r e he).2))
    Composing.opensYolo depth
  obtain ⟨w', hle, hs', ht', ha⟩ := Composing.sound.runAllWith hf (s := s) (t := s) (w := w) hs hs
    ⟨trivial, rfl⟩ (fun _ _ _ hp => Program.node_of_parse Lexer.IsWord.binds_composing trivial hp)
    fun a _ ⟨_, he, _⟩ => he
  rw [← runAll_eq_runAllWith] at hs' ha
  refine ⟨Prod.ext ?_ ?_, w', by rw [hs']; rfl, hle⟩
  · rw [ha, Composing.rename_eq, map_rename_id]
  · rw [hs', ht']
    rfl

/-- A watch for the parts of compositions never gives its alarm. -/
theorem runAll_keepsParts (sources : List String) :
    (∀ alarm, new.runAllWith (Watched.evaluate R alarm depth) sources = new.runAll sources) ∧
      ∀ more, R (new.runAll sources).2.store (new.runAll (sources ++ more)).2.store := by
  have hnew := fun alarm => runAllWith_keepsParts hR (w := composingNew) rfl alarm sources
  refine ⟨fun alarm => (hnew alarm).1, fun more => ?_⟩
  obtain ⟨-, w, hw, -⟩ := hnew .badExpression
  obtain ⟨-, w', hw', hle⟩ := runAllWith_keepsParts hR hw .badExpression more
  rw [runAll_append, hw, hw']
  exact hR _ _ hle

end Session

end YeetYoink
