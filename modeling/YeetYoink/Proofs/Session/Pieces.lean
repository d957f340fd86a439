import YeetYoink.Proofs.Expr.Transform
import YeetYoink.Proofs.Program.Pieces
import YeetYoink.Proofs.Session.Lawful

/-!
# Running a program in pieces

Where there are no macros, preparing a program gives it back (`Program.expand_of_lawful`), so a run
is the evaluation of the statements in order. Two sources can then be run one after the other or as
one, provided that the first one ends normally.
-/

namespace YeetYoink

/-! ### Without macros -/

namespace Program

/-- No macro is written in the source. -/
def MacroFree (source : String) : Prop := ∀ t ∈ Token.lex source, t.kind ≠ .symbol .atBackslash

instance (source : String) : Decidable (MacroFree source) :=
  inferInstanceAs (Decidable (∀ t ∈ Token.lex source, _))

theorem macroFree_iff {source : String} :
    MacroFree source ↔ ∀ k ∈ (Token.lex source).map (·.kind), k ≠ .symbol .atBackslash :=
  (List.forall_mem_map (P := (· ≠ Token.Kind.symbol .atBackslash))).symm

theorem MacroFree.append {source more : String} {p : Program} (h : MacroFree source)
    (hp : parse source = .ok p) (hm : MacroFree more) : MacroFree (source ++ "\n;\n" ++ more) := by
  rw [macroFree_iff] at h hm ⊢
  rw [kinds_lex_append hp]
  exact List.forall_mem_append.2 ⟨h, List.forall_mem_cons.2 ⟨by simp, hm⟩⟩

theorem MacroFree.lawful {source : String} {p : Program} (hm : MacroFree source)
    (h : parse source = .ok p) : ∀ x ∈ p, x.Throughout (Rules.source False).Node := by
  have hf : ∀ x ∈ p, x.Throughout (Expr.Formed (· ≠ .symbol .atBackslash)) :=
    (written_of_parse h).formed hm
  intro x hx y hy
  refine Rules.node_of_readable Lexer.IsWord.binds ((readable_of_parse h x hx).deep y hy) ?_
  rintro params body rfl
  exact absurd rfl (hf x hx _ hy).1

theorem define_of_lawful {r : Ref .scope} {p : Program}
    (hp : ∀ x ∈ p, x.Throughout (Rules.source False).Node) : define r p = pure p := by
  refine define_of_ne ?_
  rintro x hx name params body rfl
  have hlit : (Expr.macroLit params body).Throughout (Rules.source False).Node :=
    (hp _ hx).child (by simp [Expr.children])
  exact hlit.here.1

end Program

theorem Store.Lawful.macroNamed? {s : Store} (h : s.Lawful False) (r : Ref .scope) (name : String) :
    s.macroNamed? r name = none := by
  unfold Store.macroNamed?
  split
  · rename_i hl
    obtain ⟨q, hq⟩ := Store.lookup?_eq_some hl
    exact absurd (h.scopes q name _ hq).1 id
  · rfl

theorem Evaluator.expandCall_of_lawful {s : Store} (h : s.Lawful False) (ev : Evaluator)
    (r : Ref .scope) (x : Expr) : expandCall ev r x s = .ok x s :=
  expandCall_of_none fun name _ _ => h.macroNamed? r name

/-- Preparing changes nothing where there are no macros. -/
theorem Program.expand_of_lawful {s : Store} (h : s.Lawful False) (n : Nat) (r : Ref .scope)
    {p : Program}
    (hp : ∀ x ∈ p, x.Throughout (Rules.source False).Node) : p.expand n r s = .ok p s := by
  rw [expand, define_of_lawful hp, pure_bind]
  exact Expr.transformAllM_of_fixed fun x _ =>
    Expr.transformM_of_fixed (Evaluator.expandCall_of_lawful h _ r) x

/-! ### In pieces -/

namespace Evaluator

theorem sequence_append (ev : Evaluator) (r : Ref .scope) (v : Value) (xs ys : Block) :
    sequence ev r v (xs ++ ys) = sequence ev r v xs >>= fun v => sequence ev r v ys := by
  induction xs generalizing v with
  | nil => rfl
  | cons x xs ih => simp only [List.cons_append, sequence, ih, bind_assoc]

/-- The value of a block is that of its last expression, whatever came before. -/
theorem block_append (ev : Evaluator) (r : Ref .scope) (xs : Block) {ys : Block} (h : ys ≠ []) :
    block ev r (xs ++ ys) = block ev r xs >>= fun _ => block ev r ys := by
  obtain ⟨y, ys, rfl⟩ := List.exists_cons_of_ne_nil h
  exact sequence_append ev r .null xs (y :: ys)

end Evaluator

namespace Session

/-- Running sources without macros leads to the session. -/
def MacroFree (s : Session) : Prop :=
  ∃ sources, (∀ source ∈ sources, Program.MacroFree source) ∧ s = (new.runAll sources).2

/-- Evaluating the program ends normally: no error, and no `yeet` outside of functions. -/
def finishes (s : Session) (p : Program) : Bool :=
  match Evaluator.block (YeetYoink.evaluate depth) s.root p s.store with
  | .ok _ _ => true
  | .error _ _ => false

theorem MacroFree.lawful {s : Session} (h : s.MacroFree) :
    ∃ w : Lawful.World False (.bool true), s.store = w.left := by
  obtain ⟨sources, hs, rfl⟩ := h
  obtain ⟨w, -, hw, -⟩ := Lawful.sound.runAllWith follows_depth (s := new) (t := new)
    (w := lawfulNew False (.bool true)) rfl rfl ⟨trivial, rfl⟩
    (fun source hmem p hp => (hs source hmem).lawful hp) fun a _ ⟨_, he, _⟩ => he
  exact ⟨w, by rw [runAll_eq_runAllWith, hw]; rfl⟩

section

variable {s : Session} {p q : Program}

theorem run_eq_evaluate {source : String} (hs : s.store.Lawful False)
    (hm : Program.MacroFree source)
    (hp : Program.parse source = .ok p) : s.run source = s.evaluate p := by
  simp only [run, prepare, hp, expand, perform,
    Program.expand_of_lawful hs depth s.root (hm.lawful hp)]

theorem evaluate_append (h : s.finishes p = true) (hq : q ≠ []) :
    s.evaluate (p ++ q) = (s.evaluate p).2.evaluate q := by
  unfold finishes at h
  split at h
  · rename_i v store hb
    have hp : s.evaluate p = (.ok v, { s with store }) := by
      simp only [evaluate, evaluateProgram, perform, Eval.catchYeet, hb]
    have hpq : Evaluator.block (YeetYoink.evaluate depth) s.root (p ++ q) s.store =
        Evaluator.block (YeetYoink.evaluate depth) s.root q store := by
      rw [Evaluator.block_append _ _ _ hq]
      change EStateM.bind _ _ _ = _
      rw [EStateM.bind, hb]
    rw [hp]
    simp only [evaluate, evaluateProgram, perform, Eval.catchYeet, hpq]
  · cases h

end

/-- Where there are no macros, two sources with a semicolon on a line of its own between them are
read as the one program and then the other. If the first ends normally, then running them as one
gives the value, the printed text and the session that running one after the other gives. -/
theorem run_append {s : Session} {source more : String} {p q : Program} (hs : s.MacroFree)
    (h₁ : Program.MacroFree source) (h₂ : Program.MacroFree more)
    (hp : Program.parse source = .ok p) (hq : Program.parse more = .ok q) (hne : q ≠ []) :
    Program.parse (source ++ "\n;\n" ++ more) = .ok (p ++ q) ∧
      (s.finishes p = true → s.run (source ++ "\n;\n" ++ more) = (s.run source).2.run more) := by
  have hpq := Program.parse_append hp hq
  refine ⟨hpq, fun hf => ?_⟩
  obtain ⟨w, hw⟩ := hs.lawful
  obtain ⟨w', hw', -⟩ := evaluate_lawful hw (h₁.lawful hp)
  rw [run_eq_evaluate (hw ▸ w.lawful) (h₁.append hp h₂) hpq, run_eq_evaluate (hw ▸ w.lawful) h₁ hp,
    run_eq_evaluate (hw' ▸ w'.lawful) h₂ hq, evaluate_append hf hne]

/-- A function with a template, and a comment that only the end of the source ends. -/
def greeting : String :=
  "greet := \\name \x7b yell(\x60\x7bword\x7d, \x7bname\x7d!\x60) \x7d; greet(1) // one"

theorem finishes_greeting : (match Program.parse greeting, Program.parse "greet(2)" with
    | .ok p, .ok (_ :: _) => (new.runAll ["word := \"hi\""]).2.finishes p
    | _, _ => false) = true := by
  decide +kernel

theorem run_append_greeting :
    ∃ p q, Program.parse greeting = .ok p ∧ Program.parse "greet(2)" = .ok q ∧
    q ≠ [] ∧ (new.runAll ["word := \"hi\""]).2.finishes p = true ∧
      (new.runAll ["word := \"hi\""]).2.run (greeting ++ "\n;\n" ++ "greet(2)") =
        ((new.runAll ["word := \"hi\""]).2.run greeting).2.run "greet(2)" ∧
      ((new.runAll ["word := \"hi\""]).2.run (greeting ++ "\n;\n" ++ "greet(2)")).2.store.printed =
        "HI, 1!\nHI, 2!\n" := by
  have hs : (new.runAll ["word := \"hi\""]).2.MacroFree :=
    ⟨_, List.forall_mem_singleton.2 (by decide +kernel), rfl⟩
  have hcheck := finishes_greeting
  split at hcheck
  · rename_i p x q hp hq
    refine ⟨p, x :: q, hp, hq, by simp, hcheck, ?_, by decide +kernel⟩
    exact (run_append hs (by decide +kernel) (by decide +kernel) hp hq (by simp)).2 hcheck
  · cases hcheck

end Session

end YeetYoink
