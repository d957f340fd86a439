import YeetYoink.Proofs.Eval.Programs
import YeetYoink.Proofs.Store.Updates
import YeetYoink.Session

/-!
# Sessions under a discipline

`Session.runWith` runs a source by any evaluator; with `evaluate` it is `Session.run`. Two sessions
whose stores make a world still do so after both have run a source, and the source ends the same way
in both, unless it ends in the left one in a way that is ignored.
-/

namespace YeetYoink

namespace Session

theorem scope_new (r : Ref .scope) : new.store.scope r = {} := by
  obtain ⟨i⟩ := r
  cases i <;> rfl

/-- There is nothing in the store of a new session. -/
theorem holds_new {V : Value → Prop} {D : Dict → Prop} (hd : D {}) : new.store.Holds V D where
  arrays r v hv := by
    have ha : new.store.arrays = #[] := rfl
    simp [Store.array, ha] at hv
  dicts r := by
    have ha : new.store.dicts = #[] := rfl
    simpa [Store.dict, ha] using hd
  scopes r name v h := by
    rw [scope_new] at h
    cases h

/-- Runs a source, its expressions evaluated by `ev`. -/
def runWith (ev : Evaluator) (s : Session) (source : String) : Except RunError Value × Session :=
  match Program.parse source with
  | .error es => (.error (.parse es), s)
  | .ok p =>
    match s.perform do
        Expr.transformAllM (Evaluator.expandCall ev s.root) (← p.define s.root) with
    | (.ok p, s) => s.perform (Eval.catchYeet (Evaluator.block ev s.root p))
    | (.error e, s) => (.error e, s)

theorem run_eq_runWith (s : Session) (source : String) :
    s.run source = s.runWith (YeetYoink.evaluate depth) source := by
  rw [run, prepare, runWith]
  cases Program.parse source with
  | error es => rfl
  | ok p => rfl

/-- What a source gives, as it is written, unless it fails. -/
def answer? (source : String) : Option String :=
  match new.run source with
  | (.ok v, s) => some (s.store.inspect v)
  | (.error _, _) => none

/-- Runs sources one after the other: what each gave, and the session after them. -/
def runAll (s : Session) : List String → List (Except RunError Value) × Session
  | [] => ([], s)
  | source :: sources =>
    ((s.run source).1 :: ((s.run source).2.runAll sources).1, ((s.run source).2.runAll sources).2)

/-- Runs sources one after the other, their expressions evaluated by `ev`. -/
def runAllWith (ev : Evaluator) (s : Session) : List String → List (Except RunError Value) × Session
  | [] => ([], s)
  | source :: sources =>
    ((s.runWith ev source).1 :: ((s.runWith ev source).2.runAllWith ev sources).1,
      ((s.runWith ev source).2.runAllWith ev sources).2)

theorem runAll_eq_runAllWith (s : Session) (sources : List String) :
    s.runAll sources = s.runAllWith (YeetYoink.evaluate depth) sources := by
  induction sources generalizing s with
  | nil => rfl
  | cons source sources ih => rw [runAll, runAllWith, run_eq_runWith, ih]

/-- Answers in which no scope moves. -/
theorem map_rename_id (as : List (Except RunError Value)) :
    as.map (·.map (Value.rename id)) = as := by
  rw [Value.rename_id]
  exact (List.map_congr_left fun a _ => by cases a <;> rfl).trans (List.map_id _)

theorem runAllWith_take (ev : Evaluator) (s : Session) (sources : List String) (k : Nat) :
    (s.runAllWith ev (sources.take k)).1 = (s.runAllWith ev sources).1.take k := by
  induction sources generalizing s k with
  | nil => simp [runAllWith]
  | cons source sources ih =>
    cases k with
    | zero => rfl
    | succ k => rw [List.take_succ_cons, runAllWith, ih, runAllWith, List.take_succ_cons]

end Session

namespace Discipline

variable {α β : Type} (D : Discipline)

/-- What two sessions gave, which make a world now. -/
def Agree (w : D.World) (Q : D.World → α → β → Prop) (s t : Session)
    (r : Except RunError α × Session) (q : Except RunError β × Session) : Prop :=
  ∃ w', D.Le w w' ∧ r.2 = { s with store := D.left w' } ∧ q.2 = { t with store := D.right w' } ∧
    ((∃ a b, r.1 = .ok a ∧ q.1 = .ok b ∧ Q w' a b) ∨
      ∃ e, (∀ x, e = .runtime x → D.Error x) ∧ r.1 = .error e ∧ q.1 = .error e)

/-- The left session stopped in a way that does not count. -/
def Stopped (r : Except RunError α) : Prop := ∃ e, D.Ignored e ∧ r = .error (.ofStop e)

variable {D}

theorem Relates.perform {w : D.World} {x : Eval α} {y : Eval β} {Q : D.World → α → β → Prop}
    {s t : Session} (h : D.Relates w x y Q) (hs : s.store = D.left w) (ht : t.store = D.right w) :
    D.Stopped (s.perform x).1 ∨ D.Agree w Q s t (s.perform x) (t.perform y) := by
  unfold Relates at h
  unfold Session.perform
  rw [hs, ht]
  generalize x (D.left w) = r, y (D.right w) = q at h ⊢
  cases h with
  | ok hle h => exact .inr ⟨_, hle, rfl, rfl, .inl ⟨_, _, rfl, rfl, h⟩⟩
  | yeet hle _ => exact .inr ⟨_, hle, rfl, rfl, .inr ⟨.exhausted, by simp, rfl, rfl⟩⟩
  | @failed _ e hle he =>
    refine .inr ⟨_, hle, rfl, rfl, .inr ⟨.runtime e, ?_, rfl, rfl⟩⟩
    rintro x ⟨⟩
    exact he
  | exhausted hle => exact .inr ⟨_, hle, rfl, rfl, .inr ⟨.exhausted, by simp, rfl, rfl⟩⟩
  | ignored h => exact .inl ⟨_, h, rfl⟩

theorem Sound.runWith (hD : D.Sound) {ev ev' : Evaluator} (hev : D.Follows ev ev') {w : D.World}
    {s t : Session} {source : String} (hs : s.store = D.left w) (ht : t.store = D.right w)
    (hr : D.SameScope w s.root t.root)
    (hp : ∀ p, Program.parse source = .ok p → ∀ x ∈ p, x.Throughout D.Node) :
    D.Stopped (s.runWith ev source).1 ∨
      D.Agree w D.Same s t (s.runWith ev source) (t.runWith ev' source) := by
  unfold Session.runWith
  cases hparse : Program.parse source with
  | error es =>
    refine .inr ⟨w, hD.refl w, ?_, ?_, .inr ⟨.parse es, by simp, rfl, rfl⟩⟩
    · rw [← hs]
    · rw [← ht]
  | ok p =>
    have hx := (hD.relates_expand hev hr (hp p hparse)).perform hs ht
    simp only
    generalize s.perform _ = r, t.perform _ = q at hx ⊢
    obtain ⟨r, s₁⟩ := r
    obtain ⟨q, t₁⟩ := q
    obtain ⟨e, he, rfl⟩ | ⟨w₁, h₁, rfl, rfl, ⟨p, _, rfl, rfl, hp, rfl⟩ | ⟨e, he, rfl, rfl⟩⟩ := hx
    · exact .inl ⟨e, he, rfl⟩
    · have hv := (hD.relates_program hev (hD.scope_mono h₁ hr) hp).perform
        (s := { s with store := D.left w₁ }) (t := { t with store := D.right w₁ }) rfl rfl
      obtain hstop | ⟨w₂, h₂, hs₂, ht₂, hv⟩ := hv
      · exact .inl hstop
      · exact .inr ⟨w₂, hD.trans h₁ h₂, hs₂, ht₂, hv⟩
    · exact .inr ⟨w₁, h₁, rfl, rfl, .inr ⟨e, he, rfl, rfl⟩⟩

/-- Sessions that run the same sources give the same answers and make a world after them. -/
theorem Sound.runAllWith (hD : D.Sound) {ev ev' : Evaluator} (hev : D.Follows ev ev') {w : D.World}
    {s t : Session} {sources : List String} (hs : s.store = D.left w) (ht : t.store = D.right w)
    (hr : D.SameScope w s.root t.root)
    (hp : ∀ source ∈ sources, ∀ p, Program.parse source = .ok p → ∀ x ∈ p, x.Throughout D.Node)
    (hn : ∀ a ∈ (s.runAllWith ev sources).1, ¬ D.Stopped a) :
    ∃ w', D.Le w w' ∧ (s.runAllWith ev sources).2 = { s with store := D.left w' } ∧
      (t.runAllWith ev' sources).2 = { t with store := D.right w' } ∧
      (t.runAllWith ev' sources).1 =
        (s.runAllWith ev sources).1.map (·.map (Value.rename D.rename)) := by
  induction sources generalizing w s t with
  | nil => exact ⟨w, hD.refl w, by rw [← hs]; rfl, by rw [← ht]; rfl, rfl⟩
  | cons source sources ih =>
    obtain ⟨hp, hps⟩ := List.forall_mem_cons.1 hp
    obtain ⟨hn, hns⟩ := List.forall_mem_cons.1 hn
    obtain ⟨w₁, h₁, hs₁, ht₁, ha⟩ := (hD.runWith hev hs ht hr hp).resolve_left hn
    have hr₁ : D.SameScope w₁ (s.runWith ev source).2.root (t.runWith ev' source).2.root := by
      rw [hs₁, ht₁]
      exact hD.scope_mono h₁ hr
    obtain ⟨w₂, h₂, hs₂, ht₂, has⟩ := ih (by rw [hs₁]) (by rw [ht₁]) hr₁ hps hns
    refine ⟨w₂, hD.trans h₁ h₂, ?_, ?_, ?_⟩
    · rw [Session.runAllWith, hs₂, hs₁]
    · rw [Session.runAllWith, ht₂, ht₁]
    · rw [Session.runAllWith, Session.runAllWith, List.map_cons, has]
      obtain ⟨a, b, ha, hb, hab⟩ | ⟨e, -, ha, hb⟩ := ha
      · rw [ha, hb, hab.2]
        rfl
      · rw [ha, hb]
        rfl

end Discipline

end YeetYoink
