import YeetYoink.Proofs.Session.Runs

/-!
# Yolo is a conservative extension

A program that has a value has the same value inside a yolo block, and prints the same. The two runs
are followed side by side: the yolo run has one scope more, the marked one being what is the root of
the other run. Whatever the strict run does, the yolo run does as well; where the strict run fails,
nothing is said.
-/

namespace YeetYoink

namespace Beside

/-- Where the yolo run keeps a scope of the strict run. -/
def rename (r : Ref .scope) : Ref .scope := ⟨r.index + 1⟩

/-- The scopes of a strict run and those of a yolo run. -/
structure Scopes (s t : Store) : Prop where
  made : 0 < s.scopes.size
  size : t.scopes.size = s.scopes.size + 1
  outermost : (s.scope ⟨0⟩).outer = none
  outside : t.scope ⟨0⟩ = {}
  outer : ∀ i, 0 < i → (t.scope ⟨i + 1⟩).outer = (s.scope ⟨i⟩).outer.map rename
  get : ∀ i name, 0 < i ∨ name ≠ Store.yoloMark →
    (t.scope ⟨i + 1⟩).get? name = ((s.scope ⟨i⟩).get? name).map (Value.rename rename)
  mark : (t.scope ⟨1⟩).get? Store.yoloMark =
    some ((((s.scope ⟨0⟩).get? Store.yoloMark).map (Value.rename rename)).getD (.bool true))

/-- A strict run beside a yolo run. -/
structure World where
  left : Store
  right : Store
  renamed : Store.Renamed rename left right
  scopes : Scopes left right
  keys : ∀ r, ∀ e ∈ (left.dict r).entries, e.key.IsKey

end Beside

/-- Only results and values on their way out of the strict run count. -/
def Discipline.beside : Discipline where
  World := Beside.World
  left := Beside.World.left
  right := Beside.World.right
  Le _ _ := True
  rename := Beside.rename
  ValidText _ _ := True
  ValidDict _ d := ∀ e ∈ d.entries, e.key.IsKey
  Known _ _ := True
  Open _ _ := True
  Name _ := True
  malformed := True
  macros := True
  parts := True
  parts_of_malformed _ := trivial
  Ignored
    | .yeet _ => False
    | _ => True

namespace Beside

theorem node (x : Expr) : Discipline.beside.Node x := by
  cases x <;> simp [Rules.Node, Rules.Binds, Discipline.beside]

theorem throughout (x : Expr) : x.Throughout Discipline.beside.Node := fun y _ => node y

theorem valid (w : World) (v : Value) : Discipline.beside.Valid w v := by
  cases v with
  | function f => exact ⟨trivial, fun _ _ => ⟨trivial, .inl trivial⟩, fun x _ => throughout x⟩
  | macroFn f =>
    exact ⟨trivial, trivial, fun _ _ => ⟨trivial, .inl trivial⟩, fun x _ => throughout x⟩
  | quote x => exact throughout x
  | _ => trivial

/-! ### Names -/

section

variable {s t : Store} (h : Scopes s t)
include h

theorem Scopes.next? (i : Nat) (hi : 0 < i) : t.next? (i + 1) = (s.next? i).map rename := by
  rw [Store.next?, Store.next?, h.outer i hi]
  cases (s.scope ⟨i⟩).outer with
  | none => rfl
  | some o =>
    by_cases ho : o.index < i
    · simp [Option.filter_some, rename, ho]
    · simp [Option.filter_some, rename, ho]

theorem Scopes.next?_zero : s.next? 0 = none := by
  rw [Store.next?, h.outermost]
  rfl

theorem Scopes.lookup?_outside (name : String) : t.lookup? ⟨0⟩ name = none := by
  rw [Store.lookup?_eq, Store.next?, h.outside]
  rfl

theorem Scopes.lookup?_one (name : String) : t.lookup? ⟨1⟩ name = (t.scope ⟨1⟩).get? name := by
  rw [Store.lookup?_eq, Store.next?]
  cases ho : (t.scope ⟨1⟩).outer with
  | none => simp
  | some o =>
    by_cases hi : o.index = 0
    · obtain rfl : o = ⟨0⟩ := Store.ref_eq hi
      simp [Option.filter_some, h.lookup?_outside]
    · simp [Option.filter_some, hi]

/-- A name means the same in both runs, or it is the mark and means nothing in the strict run. -/
theorem Scopes.lookup? (i : Nat) (name : String) :
    t.lookup? ⟨i + 1⟩ name = (s.lookup? ⟨i⟩ name).map (Value.rename rename) ∨
      name = Store.yoloMark ∧ s.lookup? ⟨i⟩ name = none ∧
        t.lookup? ⟨i + 1⟩ name = some (.bool true) := by
  induction i using Nat.strongRecOn with
  | ind i ih =>
    rcases Nat.eq_zero_or_pos i with rfl | hi
    · have hs : s.lookup? ⟨0⟩ name = (s.scope ⟨0⟩).get? name := by
        rw [Store.lookup?_eq, h.next?_zero]
        simp
      rw [Nat.zero_add, h.lookup?_one, hs]
      by_cases hn : name = Store.yoloMark
      · subst hn
        rw [h.mark]
        cases (s.scope ⟨0⟩).get? Store.yoloMark with
        | none => exact .inr ⟨rfl, rfl, rfl⟩
        | some v => exact .inl rfl
      · exact .inl (h.get 0 name (.inr hn))
    · rw [Store.lookup?_eq, Store.lookup?_eq s, h.get i name (.inl hi), h.next? i hi]
      cases (s.scope ⟨i⟩).get? name with
      | some v => exact .inl rfl
      | none =>
        cases ho : s.next? i with
        | none => exact .inl rfl
        | some o =>
          have hlt : o.index < i := Store.lt_of_next? ho
          exact ih o.index hlt

/-- The yolo run is in yolo wherever the strict run is. -/
theorem Scopes.isYolo (i : Nat) :
    t.isYolo ⟨i + 1⟩ = s.isYolo ⟨i⟩ ∨
      s.isYolo ⟨i⟩ = false ∧ ∀ e, Discipline.beside.Ignored (.failed e) := by
  unfold Store.isYolo
  obtain h | ⟨-, h, -⟩ := h.lookup? i Store.yoloMark
  · exact .inl (by rw [h, Option.isSome_map])
  · exact .inr ⟨by rw [h]; rfl, fun _ => trivial⟩

theorem Scopes.binds {i : Nat} {name : String} (hb : (s.scope ⟨i⟩).binds name) :
    (t.scope ⟨i + 1⟩).binds name := by
  by_cases hn : 0 < i ∨ name ≠ Store.yoloMark
  · rw [Scope.binds, h.get i name hn, Option.isSome_map]
    exact hb
  · obtain ⟨hi, hm⟩ := not_or.1 hn
    obtain rfl : i = 0 := Nat.eq_zero_of_not_pos hi
    obtain rfl : name = Store.yoloMark := not_not.1 hm
    rw [Scope.binds, Nat.zero_add, h.mark]
    rfl

theorem Scopes.holder? {i : Nat} {name : String} {q : Ref .scope}
    (hq : s.holder? ⟨i⟩ name = some q) :
    t.holder? ⟨i + 1⟩ name = some (rename q) := by
  induction i using Nat.strongRecOn with
  | ind i ih =>
    rw [Store.holder?_eq] at hq ⊢
    split at hq
    next hb =>
      cases hq
      rw [if_pos (h.binds hb)]
      rfl
    next hb =>
      cases ho : s.next? i with
      | none => rw [ho] at hq; cases hq
      | some o =>
        rw [ho] at hq
        have hlt : o.index < i := Store.lt_of_next? ho
        have hi : 0 < i := Nat.zero_lt_of_lt hlt
        have hb' : ¬ (t.scope ⟨i + 1⟩).binds name := by
          rw [Scope.binds, h.get i name (.inl hi), Option.isSome_map]
          exact hb
        rw [if_neg hb', h.next? i hi, ho]
        exact ih o.index hlt hq

/-! ### Changes of scopes -/

theorem Scopes.congr {s' t' : Store} (hs : s'.scopes = s.scopes) (ht : t'.scopes = t.scopes) :
    Scopes s' t' := by
  cases s
  cases t
  cases s'
  cases t'
  cases hs
  cases ht
  exact ⟨h.made, h.size, h.outermost, h.outside, h.outer, h.get, h.mark⟩

theorem Scopes.enclose (r : Ref .scope) : Scopes (s.enclose r).2 (t.enclose (rename r)).2 where
  made := by simp [Store.enclose, Store.newScope]
  size := by simp [Store.enclose, Store.newScope, h.size]
  outermost := by
    have := h.made
    rw [Store.enclose, Store.scope_newScope_eq, if_neg (by simp; omega), h.outermost]
  outside := by
    rw [Store.enclose, Store.scope_newScope_eq, if_neg (by simp [h.size]), h.outside]
  outer i hi := by
    simp only [Store.enclose, Store.scope_newScope_eq, h.size, Nat.add_right_cancel_iff]
    split
    · rfl
    · exact h.outer i hi
  get i name hn := by
    simp only [Store.enclose, Store.scope_newScope_eq, h.size, Nat.add_right_cancel_iff]
    split
    · rfl
    · exact h.get i name hn
  mark := by
    have := h.made
    simp only [Store.enclose, Store.scope_newScope_eq, h.size]
    rw [if_neg (by omega), if_neg (by omega), h.mark]

theorem Scopes.bind (r : Ref .scope) (name : String) (v : Value) :
    Scopes (s.bind r name v) (t.bind (rename r) name (v.rename rename)) := by
  by_cases hr : r.index < s.scopes.size
  · have hs := s.scope_bind hr name v
    have ht := t.scope_bind (r := rename r) (by simpa [rename, h.size] using hr) name
      (v.rename rename)
    have hq : ∀ i, (⟨i + 1⟩ : Ref .scope) = rename r ↔ (⟨i⟩ : Ref .scope) = r := by
      intro i
      cases r
      simp [rename]
    refine ⟨?_, ?_, ?_, ?_, ?_, ?_, ?_⟩
    · simpa using h.made
    · simpa using h.size
    · rw [hs]
      split
      next e => rw [Scope.outer_set, ← e, h.outermost]
      next => exact h.outermost
    · rw [ht, if_neg (by simp [rename]), h.outside]
    · intro i hi
      simp only [hs, ht, hq]
      split
      next e =>
        subst e
        exact h.outer i hi
      next => exact h.outer i hi
    · intro i n hn
      simp only [hs, ht, hq]
      split
      next e =>
        subst e
        rw [Scope.get?_set, Scope.get?_set]
        split
        · rfl
        · exact h.get i n hn
      next => exact h.get i n hn
    · have hq := hq 0
      simp only [Nat.zero_add] at hq
      simp only [hs, ht, hq]
      split
      next e =>
        subst e
        rw [Scope.get?_set, Scope.get?_set]
        split
        · rfl
        · exact h.mark
      next => exact h.mark
  · have hs := s.bind_of_le (Nat.le_of_not_lt hr) name v
    have ht := t.bind_of_le (r := rename r) (by simpa [rename, h.size] using hr) name
      (v.rename rename)
    rwa [hs, ht]

end

/-! ### The discipline -/

theorem World.reaches (w : World) {s t : Store} {P : World → Prop} (hr : Store.Renamed rename s t)
    (hs : Scopes s t) (hk : ∀ r, ∀ e ∈ (s.dict r).entries, e.key.IsKey) (hp : ∀ w, P w) :
    Discipline.beside.Reaches w s t P :=
  ⟨⟨s, t, hr, hs, hk⟩, rfl, rfl, trivial, hp _⟩

theorem sound : Discipline.beside.Sound where
  refl _ := trivial
  trans _ _ := trivial
  renamed w := w.renamed
  injective r q h := by
    cases r
    cases q
    cases h
    rfl
  yeet_counts _ h := h
  text_mono _ _ := trivial
  dict_mono _ h := h
  known_mono _ _ := trivial
  open_mono _ _ := trivial
  known_of_open _ := trivial
  word _ := trivial
  firstName := trivial
  secondName := trivial
  array _ := valid _ _
  dict {w} r := w.keys r
  binding _ := valid _ _
  entry hd he := ⟨valid _ _, .inl (hd _ he)⟩
  lookup_some {w r name v} _ _ h := by
    obtain hl | ⟨-, hl, -⟩ := w.scopes.lookup? r.index name
    · exact hl.trans (congrArg _ h)
    · exact absurd (hl.symm.trans h) nofun
  lookup_none {w r name} _ _ h := by
    obtain hl | ⟨hn, -, hl⟩ := w.scopes.lookup? r.index name
    · exact .inl (hl.trans (congrArg _ h))
    · exact .inr ⟨hn, hl, fun _ => trivial⟩
  holder_some {w r name q} _ _ h := w.scopes.holder? h
  isYolo {w r} _ := w.scopes.isYolo r.index
  newText {w} t := w.reaches (w.renamed.newText t) (w.scopes.congr rfl rfl) w.keys fun _ => trivial
  newArray {w a} _ := w.reaches (w.renamed.newArray a) (w.scopes.congr rfl rfl) w.keys
    fun _ => trivial
  newDict {w d} hd := by
    refine w.reaches (w.renamed.newDict d) (w.scopes.congr rfl rfl) (fun r e he => ?_)
      fun _ => trivial
    rw [Store.dict_newDict_eq] at he
    split at he
    · exact hd e he
    · exact w.keys r e he
  newBody {w} := w.reaches w.renamed.newBody (w.scopes.congr rfl rfl) w.keys fun _ => trivial
  enclose {w r} _ := by
    refine w.reaches (w.renamed.withScopes _ _) (w.scopes.enclose r) w.keys fun _ => ⟨trivial, ?_⟩
    exact congrArg Ref.mk w.scopes.size
  declare {w r name v} _ _ _ _ :=
    w.reaches (w.renamed.withScopes _ _) (w.scopes.bind r name v) w.keys fun _ => trivial
  rebind {w r name q v} _ _ _ _ :=
    w.reaches (w.renamed.withScopes _ _) (w.scopes.bind q name v) w.keys fun _ => trivial
  modifyText {w r} f _ :=
    w.reaches (w.renamed.modifyText r f) (w.scopes.congr rfl rfl) w.keys fun _ => trivial
  setArray {w a} r _ :=
    w.reaches (w.renamed.setArray r a) (w.scopes.congr rfl rfl) w.keys fun _ => trivial
  setDict {w d} r hd := by
    refine w.reaches (w.renamed.setDict r d) (w.scopes.congr rfl rfl) (fun q e he => ?_)
      fun _ => trivial
    rw [Store.dict_setDict] at he
    split at he
    · exact hd e he
    · exact w.keys q e he
  print {w} line := w.reaches (w.renamed.print line) (w.scopes.congr rfl rfl) w.keys
    fun _ => trivial
  emptyDict _ he := absurd he (List.not_mem_nil)
  setValue {w d i v} hd _ e he := by
    obtain ⟨e', he', hk⟩ := Dict.key_of_mem_setValue he
    exact hk ▸ hd e' he'
  addEntry {w d h k v} hd _ _ hh _ := by
    refine List.forall_mem_append.2 ⟨hd, ?_⟩
    simp only [List.mem_singleton, forall_eq]
    exact Store.isKey_of_hashKey? hh
  addText {w d h r v} hd _ _ _ _ := by
    refine w.reaches (w.renamed.newText _) (w.scopes.congr rfl rfl) w.keys fun _ => ?_
    refine List.forall_mem_append.2 ⟨hd, ?_⟩
    simp only [List.mem_singleton, forall_eq]
    trivial

theorem opensYolo : Discipline.beside.OpensYolo (.bool true) := by
  intro w r _
  have hs : (w.right.enclose (rename r)).1 = rename (w.left.enclose r).1 :=
    congrArg Ref.mk w.scopes.size
  refine w.reaches (w.renamed.withScopes _ _) ?_ w.keys fun _ => ⟨trivial, hs⟩
  show Scopes _ ((w.right.enclose (rename r)).2.bind (w.right.enclose (rename r)).1 _ _)
  rw [hs]
  exact (w.scopes.enclose r).bind _ _ _

/-- The store of a fresh run, and the one in which its yolo block starts. -/
def fresh : Store := Session.new.store

def freshYolo : Store :=
  (fresh.enclose Session.new.root).2.markYolo (fresh.enclose Session.new.root).1

theorem scope_freshYolo (i : Nat) : freshYolo.scope ⟨i + 2⟩ = {} := rfl

theorem scopes_fresh : Scopes fresh freshYolo where
  made := by decide
  size := by decide
  outermost := rfl
  outside := rfl
  outer
    | i + 1, _ => by rw [fresh, Session.scope_new, scope_freshYolo]; rfl
  get
    | 0, name, hn => by
      have hn : name ≠ Store.yoloMark := hn.resolve_left (Nat.lt_irrefl 0)
      have hs : freshYolo.scope ⟨1⟩ =
          { bindings := [(Store.yoloMark, .bool true)], outer := some ⟨0⟩ } := rfl
      rw [fresh, Session.scope_new, hs]
      simp [Scope.get?, List.lookup_cons, beq_false_of_ne hn]
    | i + 1, name, _ => by rw [fresh, Session.scope_new, scope_freshYolo]; rfl
  mark := rfl

def World.fresh : World where
  left := Beside.fresh
  right := freshYolo
  renamed := ⟨rfl, Array.map_empty.symm, Array.map_empty.symm, rfl, rfl⟩
  scopes := scopes_fresh
  keys r e he := by
    have hd : Beside.fresh.dicts = #[] := rfl
    simp [Store.dict, hd] at he

end Beside

namespace Program

theorem evaluateProgram_yolo (n : Nat) (p : Program) (r : Ref .scope) (s : Store) :
    evaluateProgram (n + 1) [.yolo p] r s =
      evaluateProgram n p (s.enclose r).1 ((s.enclose r).2.markYolo (s.enclose r).1) := by
  have h : Evaluator.block (evaluate (n + 1)) r [.yolo p] = Evaluator.yolo (evaluate n) r p := by
    simp [Evaluator.block, Evaluator.sequence, Evaluator.node]
  rw [evaluateProgram, h]
  rfl

/-- A program that has a value has it inside a yolo block as well, and prints the same. -/
theorem yolo_conservative {n : Nat} {p : Program} {v : Value} {s : Store}
    (h : evaluateProgram n p Session.new.root Session.new.store = .ok v s) :
    ∃ v' s', evaluateProgram (n + 1) [.yolo p] Session.new.root Session.new.store = .ok v' s' ∧
      v'.kind = v.kind ∧ s'.display v' = s.display v ∧ s'.printed = s.printed := by
  have hf := Beside.sound.follows_evaluate (fun w r e _ => Beside.valid w e.key) Beside.opensYolo n
  have hr : Discipline.beside.Relates Beside.World.fresh
      (evaluateProgram n p Session.new.root)
      (evaluateProgram n p (Session.new.store.enclose Session.new.root).1) Discipline.beside.Same :=
    Beside.sound.relates_program hf ⟨trivial, rfl⟩ fun x _ => Beside.throughout x
  rw [evaluateProgram_yolo]
  unfold Discipline.Relates at hr
  change Discipline.beside.Outcome _ _ (evaluateProgram n p Session.new.root Session.new.store)
    _ at hr
  rw [h] at hr
  generalize hq : evaluateProgram n p _ (Discipline.beside.right Beside.World.fresh) = q at hr
  cases hr with
  | @ok w _ u _ hv =>
    refine ⟨u, w.right, hq, ?_, ?_, w.renamed.printed⟩
    · rw [hv.2, Value.kind_rename]
    · rw [hv.2]
      exact w.renamed.display v

/-- Doubles a number and a text in a function that prints, and yeets both. -/
def doubling : Program :=
  [.assign .declare (.ident "f") (.lambda ["x"]
      [.call (.ident "yap") [.ident "x"], .binary .plus (.ident "x") (.ident "x")]),
    .yeet (.array [.call (.ident "f") [.int 2], .call (.ident "f") [.str "ab"]])]

theorem yolo_conservative_doubling :
    ∃ v s v' s', evaluateProgram 7 doubling Session.new.root Session.new.store = .ok v s ∧
      s.display v = "[4, \"abab\"]" ∧ s.printed = "2\nab\n" ∧
      evaluateProgram 8 [.yolo doubling] Session.new.root Session.new.store = .ok v' s' ∧
      v'.kind = v.kind ∧ s'.display v' = s.display v ∧ s'.printed = s.printed := by
  obtain ⟨v, s, h, hd, hp⟩ : ∃ v s, evaluateProgram 7 doubling Session.new.root Session.new.store =
      .ok v s ∧ s.display v = "[4, \"abab\"]" ∧ s.printed = "2\nab\n" :=
    ⟨_, _, by with_unfolding_all rfl, by with_unfolding_all rfl, by with_unfolding_all rfl⟩
  obtain ⟨v', s', h'⟩ := yolo_conservative h
  exact ⟨v, s, v', s', h, hd, hp, h'⟩

end Program

end YeetYoink
