import YeetYoink.Proofs.Eval.Watched
import YeetYoink.Proofs.Session.Lawful

/-!
# Yolo is lexical

A scope is in yolo if and only if it lies in the scope of a yolo block, and that never changes. To
say which scopes were opened by yolo blocks, a session is run a second time by `Marked.evaluate`,
which marks those scopes with a value of one's choice. The two runs give the same answers and print
the same, so no program can read the mark; the stores are the same but for the mark, so none can
change or set it; and along the whole run scopes that are there stay in yolo or out of it.
-/

namespace YeetYoink

namespace Store

/-- Scopes that are there stay where they are, with the marks they have, in yolo or out of it. -/
def KeepsYolo (s t : Store) : Prop :=
  s.Stable t ∧ ∀ r, r.index < s.scopes.size → t.isYolo r = s.isYolo r

theorem Stable.keepsYolo {s t : Store} (h : s.Stable t) : s.KeepsYolo t :=
  ⟨h, fun _ hr => h.isYolo hr⟩

end Store

namespace Session

variable {mark : Value} {s t : Session} {w : Lawful.World True mark}

/-- A session beside one with other marks. -/
theorem runAll_marked (hs : s.store = w.left) (ht : t.store = w.right) (hr : t.root = s.root)
    (sources : List String) :
    ∃ w' : Lawful.World True mark, w.left.Stable w'.left ∧ (s.runAll sources).2.store = w'.left ∧
      (s.runAll sources).2.root = s.root ∧
      (t.runAllWith (Marked.evaluate mark depth) sources).2.store = w'.right ∧
      (t.runAllWith (Marked.evaluate mark depth) sources).1 = (s.runAll sources).1 := by
  rw [runAll_eq_runAllWith]
  obtain ⟨w', hle, hs', ht', ha⟩ := Lawful.sound.runAllWith (Lawful.follows depth) hs ht
    ⟨trivial, hr⟩
    (fun _ _ _ hp => Program.lawful_of_parse hp) fun a _ ⟨_, he, _⟩ => he
  refine ⟨w', hle, by rw [hs']; rfl, by rw [hs'], by rw [ht']; rfl, ?_⟩
  rw [ha, Lawful.rename_eq, map_rename_id]

theorem runAll_append (s : Session) (sources more : List String) :
    (s.runAll (sources ++ more)).2 = ((s.runAll sources).2.runAll more).2 := by
  induction sources generalizing s with
  | nil => rfl
  | cons source sources ih => exact ih _

/-- A watch over the marks never gives its alarm. -/
theorem runAll_watched (alarm : EvalError) (sources : List String) :
    new.runAllWith (Watched.evaluate Store.KeepsYolo alarm depth) sources = new.runAll sources := by
  have hR : ∀ w w' : Lawful.World True (.bool true), w.left.Stable w'.left →
      w.right.KeepsYolo w'.right := fun w w' hle => (w.remarked.stable w'.remarked hle).keepsYolo
  have hf := Lawful.sound.follows_watched hR alarm (fun w r e he =>
    Lawful.valid_iff.2 (Rules.allows_of_isKey (w.lawful.dicts r e he).2)) Lawful.opensYolo depth
  obtain ⟨w', -, hs, ht, ha⟩ := Lawful.sound.runAllWith hf (s := new) (t := new)
    (w := lawfulNew True (.bool true)) rfl rfl ⟨trivial, rfl⟩
    (fun _ _ _ hp => Program.lawful_of_parse hp)
    fun a _ ⟨_, he, _⟩ => he
  rw [runAll_eq_runAllWith]
  refine Prod.ext ?_ ?_
  · rw [ha, Lawful.rename_eq, map_rename_id]
  · rw [hs, ht]
    exact congrArg (Session.mk new.root) (w'.remarked.usual rfl)

/-- The scopes in yolo are those inside scopes that yolo blocks opened, whatever these are marked
with. The mark cannot be read, set or changed, and no scope comes to be in yolo or out of it after
it was opened. -/
theorem yolo_lexical (mark : Value) (sources : List String) :
    (new.runAllWith (Marked.evaluate mark depth) sources).1 = (new.runAll sources).1 ∧
      (new.runAll sources).2.store.Remarked mark
        (new.runAllWith (Marked.evaluate mark depth) sources).2.store ∧
      (∀ r, (new.runAll sources).2.store.isYolo r ↔ ∃ q ∈ (new.runAll sources).2.store.chain r,
        ((new.runAllWith (Marked.evaluate mark depth) sources).2.store.scope q).get?
          Store.yoloMark =
          some mark) ∧
      (∀ alarm, new.runAllWith (Watched.evaluate Store.KeepsYolo alarm depth) sources =
        new.runAll sources) ∧
      ∀ more, (new.runAll sources).2.store.KeepsYolo (new.runAll (sources ++ more)).2.store := by
  obtain ⟨w, -, hs, hr, ht, ha⟩ :=
    runAll_marked (s := new) (t := new) (w := lawfulNew True mark) rfl rfl rfl
    sources
  refine ⟨ha, ?_, fun r => ?_, fun alarm => runAll_watched alarm sources, fun more => ?_⟩
  · rw [hs, ht]
    exact w.remarked
  · rw [hs, ht, Store.isYolo_iff]
    simp only [w.remarked.get?_mark_iff]
  · obtain ⟨w', hle, hs', -⟩ :=
      runAll_marked (t := { new with store := w.right }) hs rfl hr.symm more
    rw [runAll_append, hs', hs]
    exact hle.keepsYolo

end Session

end YeetYoink
