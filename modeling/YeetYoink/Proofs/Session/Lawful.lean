import YeetYoink.Proofs.Eval.Lawful
import YeetYoink.Proofs.Program.Reading
import YeetYoink.Proofs.Session.Runs

/-!
# Sessions have lawful code only

A session is asked to run sources, to prepare them, and to evaluate what it prepared, in any order
(`Session.Request`). Whatever it is asked, the code in its store and in the programs it prepared
keeps to the rules of sources, and no answer is the error of a malformed expression.
-/

namespace YeetYoink

/-- What can be read keeps to rules that let words be given values. -/
theorem Rules.node_of_readable {R : Rules} (hw : ∀ name, Lexer.IsWord name.toList → R.Binds name)
    {x : Expr} (h : x.Throughout Expr.Readable)
    (hm : ∀ params body, x = .macroLit params body → R.macros) : R.Node x := by
  have hx := h.here
  cases x with
  | ident name => exact (hw name hx.1).1
  | yall key source body => exact hw key hx.1
  | lambda params body => exact fun p hp => hw p (hx p hp).1
  | macroLit params body => exact ⟨hm params body rfl, fun p hp => hw p (hx p hp).1⟩
  | assign kind target value =>
    refine ⟨.inl hx, ?_⟩
    rintro name rfl
    have hname : (Expr.ident name).Throughout Expr.Readable := h.child (by simp [Expr.children])
    exact hw name hname.here.1
  | bad t => exact hx.elim
  | _ => trivial

theorem Program.node_of_parse {R : Rules} (hw : ∀ name, Lexer.IsWord name.toList → R.Binds name)
    (hm : R.macros) {source : String} {p : Program} (h : parse source = .ok p) :
    ∀ x ∈ p, x.Throughout R.Node :=
  fun x hx y hy => Rules.node_of_readable hw ((readable_of_parse h x hx).deep y hy) fun _ _ _ => hm

theorem Lexer.IsWord.binds {macros : Prop} (name : String) (h : IsWord name.toList) :
    (Rules.source macros).Binds name :=
  ⟨h.ne_yoloMark, .inl trivial⟩

/-- What is read from a source keeps to the rules of sources. -/
theorem Program.lawful_of_parse {source : String} {p : Program} (h : parse source = .ok p) :
    ∀ x ∈ p, x.Throughout (Rules.source True).Node :=
  node_of_parse Lexer.IsWord.binds trivial h

namespace Session

variable {α β : Type}

/-- An answer that is such, or an error that is not about malformed code. -/
def IsLawful (P : α → Prop) : Except RunError α → Prop
  | .ok a => P a
  | .error (.runtime e) => ¬ e.IsMalformed
  | .error _ => True

theorem IsLawful.map {P : α → Prop} {Q : β → Prop} {f : α → β} (hf : ∀ a, P a → Q (f a))
    {r : Except RunError α} (h : IsLawful P r) : IsLawful Q (r.map f) := by
  cases r with
  | ok a => exact hf a h
  | error e =>
    cases e with
    | runtime e => exact h
    | _ => trivial

theorem IsLawful.imp {P Q : α → Prop} (hf : ∀ a, P a → Q a) {r : Except RunError α}
    (h : IsLawful P r) : IsLawful Q r := by
  have := h.map (f := id) hf
  rwa [show r.map id = r by cases r <;> rfl] at this

/-- A session that performs what keeps to the discipline comes to a lawful store. -/
theorem perform_lawful {macros : Prop} {mark : Value} {w : Lawful.World macros mark} {x : Eval α}
    {y : Eval β} {Q : Lawful.World macros mark → α → β → Prop} {s : Session} (hs : s.store = w.left)
    (h : (Discipline.lawful macros mark).Relates w x y Q) :
    ∃ w' : Lawful.World macros mark, (s.perform x).2.store = w'.left ∧
      IsLawful (fun a => ∃ b, Q w' a b) (s.perform x).1 := by
  have ha := (h.perform hs (t := { s with store := w.right }) rfl).resolve_left fun ⟨_, he, _⟩ => he
  obtain ⟨w', -, hs', -, ⟨a, b, ha, -, hq⟩ | ⟨e, he, ha, -⟩⟩ := ha
  · exact ⟨w', by rw [hs']; rfl, by rw [ha]; exact ⟨b, hq⟩⟩
  · refine ⟨w', by rw [hs']; rfl, ?_⟩
    rw [ha]
    cases e with
    | runtime e => exact fun hm => he e rfl hm
    | _ => trivial

/-- The store of a new session beside itself. -/
def lawfulNew (macros : Prop) (mark : Value) : Lawful.World macros mark where
  left := new.store
  right := new.store
  lawful := holds_new fun _ he => absurd he List.not_mem_nil
  remarked :=
    { rest := rfl
      size := rfl
      outer _ := rfl
      get _ _ _ := rfl
      marks r := .inl (by rw [scope_new]; exact ⟨rfl, rfl⟩)
      usual _ := rfl }

theorem follows_depth {macros : Prop} :
    (Discipline.lawful macros (.bool true)).Follows (YeetYoink.evaluate depth)
      (YeetYoink.evaluate depth) := by
  have h : (Discipline.lawful macros (.bool true)).Follows (YeetYoink.evaluate depth)
      (Marked.evaluate (.bool true) depth) := Lawful.follows depth
  rwa [Marked.evaluate_true] at h

section

variable {macros : Prop} {s : Session} {w : Lawful.World macros (.bool true)} {source : String}

theorem prepare_lawful (hs : s.store = w.left)
    (hp : ∀ p, Program.parse source = .ok p → ∀ x ∈ p, x.Throughout (Rules.source macros).Node) :
    ∃ w' : Lawful.World macros (.bool true), (s.prepare source).2.store = w'.left ∧
      IsLawful (fun p : Program => ∀ x ∈ p, x.Throughout (Rules.source macros).Node)
        (s.prepare source).1 := by
  unfold prepare
  cases h : Program.parse source with
  | error es => exact ⟨w, hs, trivial⟩
  | ok p =>
    have hr : (Discipline.lawful macros (.bool true)).SameScope w s.root s.root := ⟨trivial, rfl⟩
    obtain ⟨w', hw, ha⟩ := perform_lawful hs (Lawful.sound.relates_expand follows_depth hr (hp p h))
    exact ⟨w', hw, ha.imp fun _ ⟨_, hb, _⟩ => hb⟩

theorem evaluate_lawful (hs : s.store = w.left) {p : Program}
    (hp : ∀ x ∈ p, x.Throughout (Rules.source macros).Node) :
    ∃ w' : Lawful.World macros (.bool true), (s.evaluate p).2.store = w'.left ∧
      IsLawful (Rules.source macros).Allows (s.evaluate p).1 := by
  have hr : (Discipline.lawful macros (.bool true)).SameScope w s.root s.root := ⟨trivial, rfl⟩
  obtain ⟨w', hw, ha⟩ := perform_lawful hs (Lawful.sound.relates_program follows_depth hr hp)
  exact ⟨w', hw, ha.imp fun _ ⟨_, hu, _⟩ => Lawful.valid_iff.1 hu⟩

theorem run_lawful (hs : s.store = w.left)
    (hp : ∀ p, Program.parse source = .ok p → ∀ x ∈ p, x.Throughout (Rules.source macros).Node) :
    ∃ w' : Lawful.World macros (.bool true), (s.run source).2.store = w'.left ∧
      IsLawful (Rules.source macros).Allows (s.run source).1 := by
  obtain ⟨w₁, h₁, hp⟩ := prepare_lawful hs hp
  unfold run
  generalize s.prepare source = r at h₁ hp ⊢
  obtain ⟨e | p, t⟩ := r
  · refine ⟨w₁, h₁, ?_⟩
    cases e with
    | runtime e => exact hp
    | _ => trivial
  · exact evaluate_lawful h₁ hp

end

/-! ### Requests -/

/-- What a session is asked. A program to evaluate is one that was prepared, counted from the last
one. -/
inductive Request where
  | run (source : String)
  | prepare (source : String)
  | evaluate (index : Nat)

inductive Reply where
  | value (v : Value)
  | program (p : Program)

/-- The code in a reply keeps to the rules of sources. -/
def Reply.IsLawful : Reply → Prop
  | value v => (Rules.source True).Allows v
  | program p => ∀ x ∈ p, x.Throughout (Rules.source True).Node

/-- A session and the programs it prepared, the last one first. -/
structure Service where
  session : Session := new
  prepared : List Program := []

namespace Service

def prepare (t : Service) (source : String) : Except RunError Program × Service :=
  match t.session.prepare source with
  | (.ok p, s) => (.ok p, { session := s, prepared := p :: t.prepared })
  | (.error e, s) => (.error e, { t with session := s })

def serve (t : Service) : Request → Except RunError Reply × Service
  | .run source =>
    ((t.session.run source).1.map .value, { t with session := (t.session.run source).2 })
  | .prepare source => ((t.prepare source).1.map .program, (t.prepare source).2)
  | .evaluate index =>
    let p := t.prepared[index]?.getD []
    ((t.session.evaluate p).1.map .value, { t with session := (t.session.evaluate p).2 })

/-- What was answered to requests one after the other, and what there is after them. -/
def serveAll (t : Service) : List Request → List (Except RunError Reply) × Service
  | [] => ([], t)
  | q :: qs => ((t.serve q).1 :: ((t.serve q).2.serveAll qs).1, ((t.serve q).2.serveAll qs).2)

structure IsLawful (t : Service) : Prop where
  store : ∃ w : Lawful.World True (.bool true), t.session.store = w.left
  prepared : ∀ p ∈ t.prepared, ∀ x ∈ p, x.Throughout (Rules.source True).Node

namespace IsLawful

variable {t : Service} (h : t.IsLawful)
include h

theorem prepare (source : String) :
    Session.IsLawful (fun p : Program => ∀ x ∈ p, x.Throughout (Rules.source True).Node)
      (t.prepare source).1 ∧ (t.prepare source).2.IsLawful := by
  obtain ⟨w, hw⟩ := h.store
  obtain ⟨w', hw', hp⟩ := prepare_lawful hw
    fun _ h => Program.lawful_of_parse (h : Program.parse source = _)
  unfold Service.prepare
  generalize t.session.prepare source = r at hw' hp ⊢
  obtain ⟨e | p, s⟩ := r
  · exact ⟨hp, ⟨w', hw'⟩, h.prepared⟩
  · exact ⟨hp, ⟨w', hw'⟩, List.forall_mem_cons.2 ⟨hp, h.prepared⟩⟩

/-- One request. -/
theorem serve (q : Request) :
    Session.IsLawful Reply.IsLawful (t.serve q).1 ∧ (t.serve q).2.IsLawful := by
  obtain ⟨w, hw⟩ := h.store
  cases q with
  | run source =>
    obtain ⟨w', hw', hv⟩ := run_lawful hw
      fun _ h => Program.lawful_of_parse (h : Program.parse source = _)
    exact ⟨hv.map (f := Reply.value) fun _ hv => hv, ⟨w', hw'⟩, h.prepared⟩
  | prepare source =>
    exact ⟨(h.prepare source).1.map (f := Reply.program) fun _ hp => hp, (h.prepare source).2⟩
  | evaluate index =>
    have hp : ∀ x ∈ t.prepared[index]?.getD [], x.Throughout (Rules.source True).Node := by
      cases hi : t.prepared[index]? with
      | none => simp
      | some p => exact h.prepared p (List.mem_of_getElem? hi)
    obtain ⟨w', hw', hv⟩ := evaluate_lawful hw hp
    exact ⟨hv.map (f := Reply.value) fun _ hv => hv, ⟨w', hw'⟩, h.prepared⟩

theorem serveAll (qs : List Request) :
    (∀ a ∈ (t.serveAll qs).1, Session.IsLawful Reply.IsLawful a) ∧ (t.serveAll qs).2.IsLawful := by
  induction qs generalizing t with
  | nil => exact ⟨by simp [Service.serveAll], h⟩
  | cons q qs ih =>
    obtain ⟨hr, ht⟩ := h.serve q
    obtain ⟨hrs, ht⟩ := ih ht
    exact ⟨List.forall_mem_cons.2 ⟨hr, hrs⟩, ht⟩

end IsLawful

end Service

/-- Whatever a new session is asked, all code in its store, in the programs it prepared and in its
answers is well formed, and no answer is the error of a malformed expression. -/
theorem code_lawful (requests : List Request) :
    (({} : Service).serveAll requests).2.session.store.Lawful True ∧
      (∀ p ∈ (({} : Service).serveAll requests).2.prepared, ∀ x ∈ p,
        x.Throughout (Rules.source True).Node) ∧
      ∀ a ∈ (({} : Service).serveAll requests).1, IsLawful Reply.IsLawful a := by
  have h₀ : ({} : Service).IsLawful := ⟨⟨lawfulNew True (.bool true), rfl⟩, by simp⟩
  obtain ⟨ha, ⟨w, hw⟩, hp⟩ := h₀.serveAll requests
  exact ⟨hw ▸ w.lawful, hp, ha⟩

end Session

end YeetYoink
