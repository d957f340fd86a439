import YeetYoink.Proofs.Eval.Watched
import YeetYoink.Proofs.Session.Runs
import YeetYoink.Proofs.Store.Updates

/-!
# Keys that nobody else holds

A text that becomes a key is copied, so that only the dictionary has it. One operation gives keys
away all the same: in yolo the minus sign exchanges keys and values, and so puts the text of a key
where programs can change it. `Cautious.evaluate alarm` evaluates like `evaluate`, but stops before
it would do that, with the alarm, an error of one's choice. Under it the keys stay sealed
(`Sealed.sound`): no array, scope or value of a dictionary holds the text of a key. So all
dictionaries stay intact as long as the caution does not stop a run (`dicts_intact`), whatever the
bound on depth is and also if the run reaches it.
-/

namespace YeetYoink

/-- Exchanging keys and values would make the text of a key a value. -/
def Dict.exposes (d : Dict) (s : Store) : Bool :=
  d.entries.any fun e => e.key.kind = .text && (s.hashKey? e.value).isSome

namespace Cautious

/-- Stops before a key is given away. -/
def opposite (alarm : EvalError) (negate : Value → Eval Value) : Value → Eval Value
  | .dict r => do
    let s ← get
    if (s.dict r).exposes s then Eval.fail alarm else Yolo.opposite negate (.dict r)
  | v => Yolo.opposite negate v

def negate (alarm : EvalError) : Nat → Value → Eval Value
  | 0, _ => Eval.exhausted
  | n + 1, v => Operator.unary (opposite alarm (negate alarm n)) .minus v

def applyMinus (alarm : EvalError) (scope : Ref .scope) (v : Value) : Eval Value := do
  let s ← get
  if s.isYolo scope then negate alarm (s.nesting + 2) v else Operator.strictUnary .minus v

def node (alarm : EvalError) (ev : Evaluator) (n : Nat) (x : Expr) (scope : Ref .scope) :
    Eval Value :=
  match x with
  | .unary .minus y => do
    let v ← ev y scope
    applyMinus alarm scope v
  | x => Evaluator.node ev n x scope

def evaluate (alarm : EvalError) : Nat → Evaluator
  | 0, _, _ => Eval.exhausted
  | n + 1, x, scope => node alarm (evaluate alarm n) n x scope

end Cautious

namespace Sealed

/-- A value is no text of a key. -/
def Fit (s : Store) (keys : Ref .text → Prop) : Value → Prop
  | .text r => r.index < s.texts.size ∧ ¬ keys r
  | _ => True

/-- A dictionary whose keys are sealed and whose values are not. -/
structure Kept (s : Store) (keys : Ref .text → Prop) (d : Dict) : Prop where
  filed : d.Filed s
  key : ∀ e ∈ d.entries, ∀ r, e.key = .text r → keys r
  value : ∀ e ∈ d.entries, Fit s keys e.value

/-- A store and the texts that are keys in it. -/
structure World where
  store : Store
  keys : Ref .text → Prop
  made : ∀ r, keys r → r.index < store.texts.size
  holds : store.Holds (Fit store keys) (Kept store keys)

/-- Texts stay, keys stay keys with the text they have, and no text becomes one later on. -/
structure Later (s : Store) (keys : Ref .text → Prop) (s' : Store) (keys' : Ref .text → Prop) :
    Prop where
  size : s.texts.size ≤ s'.texts.size
  same : ∀ r, r.index < s.texts.size → (keys' r ↔ keys r)
  made : ∀ r, keys r → r.index < s.texts.size
  text : ∀ r, keys r → s'.text r = s.text r

end Sealed

/-- One store; a stop with the alarm does not count. -/
def Discipline.sealed (alarm : EvalError) : Discipline where
  World := Sealed.World
  left := Sealed.World.store
  right := Sealed.World.store
  Le w w' := Sealed.Later w.store w.keys w'.store w'.keys
  rename := id
  ValidText w r := Sealed.Fit w.store w.keys (.text r)
  ValidDict w d := Sealed.Kept w.store w.keys d
  Known _ _ := True
  Open _ _ := True
  Name _ := True
  malformed := True
  macros := True
  parts := True
  parts_of_malformed _ := trivial
  Ignored e := e = .failed alarm

namespace Sealed

variable {alarm : EvalError}

theorem throughout (x : Expr) : x.Throughout (Discipline.sealed alarm).Node := by
  intro y _
  cases y <;> simp [Rules.Node, Rules.Binds, Discipline.sealed]

theorem valid_iff {w : World} {v : Value} :
    (Discipline.sealed alarm).Valid w v ↔ Fit w.store w.keys v := by
  cases v with
  | function f =>
    exact ⟨fun _ => trivial, fun _ => ⟨trivial, fun _ _ => ⟨trivial, .inl trivial⟩,
      fun x _ => throughout x⟩⟩
  | macroFn f =>
    exact ⟨fun _ => trivial, fun _ => ⟨trivial, trivial, fun _ _ => ⟨trivial, .inl trivial⟩,
      fun x _ => throughout x⟩⟩
  | quote x => exact ⟨fun _ => trivial, fun _ => throughout x⟩
  | _ => exact Iff.rfl

/-! ### Later worlds -/

section

variable {s s' : Store} {keys keys' : Ref .text → Prop} (h : Later s keys s' keys')
include h

theorem Fit.mono {v : Value} (hv : Fit s keys v) : Fit s' keys' v := by
  cases v with
  | text r => exact ⟨Nat.lt_of_lt_of_le hv.1 h.size, fun hk => hv.2 ((h.same r hv.1).1 hk)⟩
  | _ => trivial

theorem Later.hashKey? {k : Value} (hk : ∀ r, k = .text r → keys r) :
    s'.hashKey? k = s.hashKey? k := by
  cases k with
  | text r => simp [Store.hashKey?, h.text r (hk r rfl)]
  | _ => rfl

theorem Later.sameKey {a b : Value} (ha : ∀ r, a = .text r → keys r)
    (hb : ∀ r, b = .text r → keys r) :
    s'.sameKey a b = s.sameKey a b := by
  cases a with
  | text r =>
    cases b with
    | text q => simp [Store.sameKey, h.text r (ha r rfl), h.text q (hb q rfl)]
    | _ => rfl
  | _ => cases b <;> rfl

theorem Kept.mono {d : Dict} (hk : Kept s keys d) : Kept s' keys' d where
  filed := hk.filed.congr (fun e he => h.hashKey? (hk.key e he)) fun a ha b hb =>
    h.sameKey (hk.key a ha) (hk.key b hb)
  key e he r hr := (h.same r (h.made r (hk.key e he r hr))).2 (hk.key e he r hr)
  value e he := (hk.value e he).mono h

theorem Later.trans {s₂ : Store} {keys₂ : Ref .text → Prop} (h₂ : Later s' keys' s₂ keys₂) :
    Later s keys s₂ keys₂ where
  size := Nat.le_trans h.size h₂.size
  same r hr := (h₂.same r (Nat.lt_of_lt_of_le hr h.size)).trans (h.same r hr)
  made := h.made
  text r hr := (h₂.text r ((h.same r (h.made r hr)).2 hr)).trans (h.text r hr)

end

/-- Changes that leave the texts alone. -/
theorem World.later (w : World) {s : Store} (h : s.texts = w.store.texts) :
    Later w.store w.keys s w.keys where
  size := Nat.le_of_eq (by rw [h])
  same _ _ := Iff.rfl
  made := w.made
  text r _ := by rw [Store.text, h, Store.text]

/-- A changed store all of whose values were fit before. -/
def World.step (w : World) {s : Store} {keys : Ref .text → Prop} (h : Later w.store w.keys s keys)
    (hm : ∀ r, keys r → r.index < s.texts.size)
    (hs : s.Holds (Fit w.store w.keys) (Kept w.store w.keys)) : World where
  store := s
  keys := keys
  made := hm
  holds := hs.mono (fun _ hv => hv.mono h) fun _ hd => hd.mono h

/-! ### Insertion -/

theorem Kept.empty (s : Store) (keys : Ref .text → Prop) : Kept s keys {} :=
  ⟨Dict.filed_empty s, by simp, by simp⟩

section

variable {s : Store} {keys : Ref .text → Prop} {d : Dict} (hk : Kept s keys d)
include hk

theorem Kept.setValue (i : Nat) {v : Value} (hv : Fit s keys v) : Kept s keys (d.setValue i v) where
  filed := hk.filed.setValue i v
  key e he r hr := by
    obtain ⟨e', he', heq⟩ := Dict.key_of_mem_setValue he
    exact hk.key e' he' r (heq.trans hr)
  value e he := by
    obtain h | he := Dict.value_of_mem_setValue he
    · exact h ▸ hv
    · exact hk.value e he

/-- A key that is not there yet. -/
theorem Kept.push {h : HashKey} {k v : Value} (hh : s.hashKey? k = some h)
    (hd : ∀ e ∈ d.entries, s.sameKey e.key k = false) (hkey : ∀ r, k = .text r → keys r)
    (hv : Fit s keys v) : Kept s keys (d.push h k v) where
  filed := hk.filed.push hh hd
  key := List.forall_mem_append.2 ⟨hk.key, by simpa using hkey⟩
  value := List.forall_mem_append.2 ⟨hk.value, by simpa using hv⟩

end

/-! ### New texts -/

section

variable (w : World)

theorem World.later_newText (t : String) :
    Later w.store w.keys (w.store.newText t).2 w.keys where
  size := by simp [Store.newText]
  same _ _ := Iff.rfl
  made := w.made
  text r hr := w.store.text_newText_of_lt t (w.made r hr)

/-- A new text that is a key at once. -/
theorem World.later_newKey (t : String) :
    Later w.store w.keys (w.store.newText t).2 fun q => w.keys q ∨ q = (w.store.newText t).1 where
  size := by simp [Store.newText]
  same r hr := by
    refine or_iff_left fun h => ?_
    subst h
    exact Nat.lt_irrefl _ hr
  made := w.made
  text r hr := w.store.text_newText_of_lt t (w.made r hr)

theorem World.later_modifyText {r : Ref .text} (hr : ¬ w.keys r) (f : String → String) :
    Later w.store w.keys (w.store.modifyText r f) w.keys where
  size := by simp [Store.modifyText]
  same _ _ := Iff.rfl
  made := w.made
  text q hq := w.store.text_modifyText_of_ne (by rintro rfl; exact hr hq) f

/-- The copy of a text is the same key as the text. -/
theorem World.sameKey_newText {r : Ref .text} {k : Value} (hk : ∀ q, k = .text q → w.keys q) :
    (w.store.newText (w.store.text r)).2.sameKey k (.text (w.store.newText (w.store.text r)).1) =
      w.store.sameKey k (.text r) := by
  cases k with
  | text q =>
    have hq := w.store.text_newText_of_lt (w.store.text r) (w.made q (hk q rfl))
    simp only [Store.sameKey, hq, Store.text_newText]
  | _ => rfl

end

theorem World.reaches (w : World) {s : Store} {keys : Ref .text → Prop} {P : World → Prop}
    (h : Later w.store w.keys s keys) (hm : ∀ r, keys r → r.index < s.texts.size)
    (hs : s.Holds (Fit w.store w.keys) (Kept w.store w.keys))
    (hp : P (w.step h hm hs)) : (Discipline.sealed alarm).Reaches w s s P :=
  ⟨w.step h hm hs, rfl, rfl, h, hp⟩

/-- Changes that leave the texts alone. -/
theorem World.reaches_same (w : World) (s : Store) (h : s.texts = w.store.texts)
    (hs : s.Holds (Fit w.store w.keys) (Kept w.store w.keys)) {P : World → Prop}
    (hp : ∀ w, P w) : (Discipline.sealed alarm).Reaches w s s P :=
  w.reaches (w.later h) (fun r hr => h ▸ w.made r hr) hs (hp _)

section

variable (w : World)

theorem World.newText (t : String) : (Discipline.sealed alarm).Reaches w (w.store.newText t).2
    (w.store.newText t).2 fun w' => Fit w'.store w'.keys (.text (w.store.newText t).1) := by
  have hl := w.later_newText t
  refine w.reaches hl (fun r hr => Nat.lt_of_lt_of_le (w.made r hr) hl.size)
    ⟨w.holds.arrays, w.holds.dicts, w.holds.scopes⟩ ?_
  refine ⟨by simp [World.step, Store.newText], fun hk => ?_⟩
  exact Nat.lt_irrefl _ (w.made _ hk)

theorem World.modifyText {r : Ref .text} (hr : ¬ w.keys r) (f : String → String) :
    (Discipline.sealed alarm).Reaches w (w.store.modifyText r f) (w.store.modifyText r f)
      fun _ => True := by
  have hl := w.later_modifyText hr f
  exact w.reaches hl (fun q hq => Nat.lt_of_lt_of_le (w.made q hq) hl.size)
    ⟨w.holds.arrays, w.holds.dicts, w.holds.scopes⟩ trivial

/-- A key that was not there yet is copied and sealed. -/
theorem World.addText {d : Dict} {h : HashKey} {r : Ref .text} {v : Value}
    (hd : Kept w.store w.keys d) (hv : Fit w.store w.keys v)
    (hh : w.store.hashKey? (.text r) = some h)
    (hp : d.place? h (w.store.sameKey · (.text r)) = none) :
    (Discipline.sealed alarm).Reaches w (w.store.newText (w.store.text r)).2
      (w.store.newText (w.store.text r)).2 fun w' =>
        Kept w'.store w'.keys (d.push h (.text (w.store.newText (w.store.text r)).1) v) := by
  have hl := w.later_newKey (w.store.text r)
  refine w.reaches hl (fun q hq => ?_) ⟨w.holds.arrays, w.holds.dicts, w.holds.scopes⟩ ?_
  · obtain hq | rfl := hq
    · exact Nat.lt_of_lt_of_le (w.made q hq) hl.size
    · simp [Store.newText]
  · refine (hd.mono hl).push ?_ (fun e he => ?_) ?_ (hv.mono hl)
    · have ht := w.store.text_newText (w.store.text r)
      exact (congrArg (fun t => some (HashKey.mk .text (Text.digest t))) ht).trans hh
    · exact (w.sameKey_newText (hd.key e he)).trans ((hd.filed.place?_eq_none_iff hh).1 hp e he)
    · rintro q hq
      cases hq
      exact .inr rfl

theorem opensYolo : (Discipline.sealed alarm).OpensYolo (.bool true) := by
  intro w r _
  exact w.reaches_same ((w.store.enclose r).2.markYolo (w.store.enclose r).1) rfl
    ((w.holds.enclose r).bind _ _ trivial) fun _ => ⟨trivial, rfl⟩

end

theorem rename_eq : (Discipline.sealed alarm).rename = id := rfl

/-- Cautious evaluation keeps the keys sealed. -/
theorem sound : (Discipline.sealed alarm).Sound where
  refl w := w.later rfl
  trans h₁ h₂ := h₁.trans h₂
  renamed w := Store.Renamed.refl w.store
  injective := Function.injective_id
  yeet_counts _ := nofun
  text_mono {w w' r} h hr := Fit.mono (v := .text r) h hr
  dict_mono h hd := hd.mono h
  known_mono _ _ := trivial
  open_mono _ _ := trivial
  known_of_open _ := trivial
  word _ := trivial
  firstName := trivial
  secondName := trivial
  array {w r v} hv := valid_iff.2 (w.holds.arrays r v hv)
  dict {w} r := w.holds.dicts r
  binding {w r name v} h := valid_iff.2 (w.holds.scopes r name v h)
  entry {w d e} hd he :=
    ⟨valid_iff.2 (hd.value e he), .inl (hd.filed.keyed.isKey e he)⟩
  lookup_some {w r name v} _ _ h := by
    rw [rename_eq, Value.rename_id]
    exact h
  lookup_none _ _ h := .inl h
  holder_some _ _ h := h
  isYolo _ := .inl rfl
  newText {w} t := w.newText t
  newArray {w a} ha := by
    rw [rename_eq, Value.rename_id, Array.map_id]
    exact w.reaches_same (w.store.newArray a).2 rfl
      (w.holds.newArray fun v hv => valid_iff.1 (ha v hv))
      fun _ => trivial
  newDict {w d} hd := by
    rw [rename_eq, Dict.rename_id]
    exact w.reaches_same (w.store.newDict d).2 rfl (w.holds.newDict hd) fun _ => trivial
  newBody {w} := w.reaches_same { w.store with bodies := w.store.bodies + 1 } rfl
    ⟨w.holds.arrays, w.holds.dicts, w.holds.scopes⟩ fun _ => trivial
  enclose {w r} _ := w.reaches_same (w.store.enclose r).2 rfl (w.holds.enclose r)
    fun _ => ⟨trivial, rfl⟩
  declare {w r name v} _ _ _ hv := by
    rw [rename_eq, Value.rename_id]
    exact w.reaches_same (w.store.bind r name v) rfl (w.holds.bind r name (valid_iff.1 hv))
      fun _ => trivial
  rebind {w r name q v} _ _ _ hv := by
    rw [rename_eq, Value.rename_id]
    exact w.reaches_same (w.store.bind q name v) rfl (w.holds.bind q name (valid_iff.1 hv))
      fun _ => trivial
  modifyText {w r} f hr := w.modifyText hr.2 f
  setArray {w a} r ha := by
    rw [rename_eq, Value.rename_id, Array.map_id]
    exact w.reaches_same (w.store.modifyArray r fun _ => a) rfl
      (w.holds.setArray r fun v hv => valid_iff.1 (ha v hv)) fun _ => trivial
  setDict {w d} r hd := by
    rw [rename_eq, Dict.rename_id]
    exact w.reaches_same (w.store.modifyDict r fun _ => d) rfl (w.holds.setDict r hd)
      fun _ => trivial
  print {w} line := w.reaches_same (w.store.print line) rfl
    ⟨w.holds.arrays, w.holds.dicts, w.holds.scopes⟩ fun _ => trivial
  emptyDict {w} := Kept.empty w.store w.keys
  setValue hd hv := hd.setValue _ (valid_iff.1 hv)
  addEntry {w d h k v} hd hk hv hh hp := by
    refine hd.push hh ((hd.filed.place?_eq_none_iff hh).1 hp) ?_ (valid_iff.1 hv)
    rintro r rfl
    exact absurd rfl hk
  addText {w d h r v} hd _ hv hh hp := w.addText hd (valid_iff.1 hv) hh hp

/-! ### Cautious evaluation beside evaluation -/

/-- A value that cannot be the text of a key is none. -/
theorem valid_of_kind_ne {w : World} {v : Value} (h : v.kind ≠ .text) :
    (Discipline.sealed alarm).Valid w v := by
  refine valid_iff.2 ?_
  cases v with
  | text r => exact absurd rfl h
  | _ => trivial

theorem valid_key_of_not_exposes {w : World} {d : Dict} (h : ¬ d.exposes w.store) :
    ∀ e ∈ d.entries, e.value.IsKey → (Discipline.sealed alarm).Valid w e.key := by
  intro e he hv
  refine valid_of_kind_ne fun hk => h ?_
  refine List.any_eq_true.2 ⟨e, he, ?_⟩
  simp [hk, Store.isSome_hashKey?.2 hv]

theorem relates_opposite {w : World} {f g : Value → Eval Value} {v : Value}
    (hv : (Discipline.sealed alarm).Valid w v)
    (hf : ∀ w' v, (Discipline.sealed alarm).Valid w' v →
      (Discipline.sealed alarm).Relates w' (f v) (g v) (Discipline.sealed alarm).Same) :
    (Discipline.sealed alarm).Relates w (Cautious.opposite alarm f v) (Yolo.opposite g v)
      (Discipline.sealed alarm).Same := by
  by_cases hd : ∃ r, v = .dict r
  · obtain ⟨r, rfl⟩ := hd
    by_cases he : (w.store.dict r).exposes w.store
    · have hx : Cautious.opposite alarm f (.dict r) w.store = Eval.fail alarm w.store := by
        rw [Cautious.opposite, Eval.get_bind, if_pos he]
      exact .congr (Discipline.Outcome.ignored rfl) hx rfl
    · have hx : Cautious.opposite alarm f (.dict r) w.store =
          Yolo.opposite f (.dict r) w.store := by
        rw [Cautious.opposite, Eval.get_bind, if_neg he]
      exact .congr (sound.relates_oppositeDict r (valid_key_of_not_exposes he)) hx rfl
  · have hx : Cautious.opposite alarm f v = Yolo.opposite f v := by
      cases v with
      | dict r => exact absurd ⟨r, rfl⟩ hd
      | _ => rfl
    rw [hx]
    refine sound.relates_opposite ⟨hv, ?_⟩ (fun w' _ v hv => ?_) fun r hr => absurd ⟨r, hr⟩ hd
    · rw [rename_eq, Value.rename_id]
      rfl
    · rw [rename_eq, Value.rename_id]
      exact hf w' v hv

theorem relates_negate {w : World} (n : Nat) {v : Value}
    (hv : (Discipline.sealed alarm).Valid w v) :
    (Discipline.sealed alarm).Relates w (Cautious.negate alarm n v) (Yolo.negate n v)
      (Discipline.sealed alarm).Same := by
  induction n generalizing w v with
  | zero => exact sound.relates_exhausted
  | succ n ih =>
    refine sound.relates_unary .minus ⟨hv, ?_⟩ fun _ => relates_opposite hv fun w' v hv => ih hv
    rw [rename_eq, Value.rename_id]
    rfl

theorem relates_applyMinus {w : World} {r : Ref .scope} {v : Value}
    (hv : (Discipline.sealed alarm).Valid w v) :
    (Discipline.sealed alarm).Relates w (Cautious.applyMinus alarm r v)
      (Evaluator.applyUnary r .minus v)
      (Discipline.sealed alarm).Same := by
  refine Discipline.relates_get ?_
  change (Discipline.sealed alarm).Relates w (if w.store.isYolo r then _ else _)
    (if w.store.isYolo r then _ else _) _
  split
  · exact Discipline.relates_get_right (g := fun s => Yolo.negate (s.nesting + 1 + 1) v)
      (relates_negate (w.store.nesting + 2) hv)
  · refine sound.relates_strictUnary .minus ⟨hv, ?_⟩
    rw [rename_eq, Value.rename_id]
    rfl

end Sealed

/-- As long as it is not stopped, cautious evaluation does what evaluation does, also when that is
watched for what holds of all stores whose keys are sealed. -/
theorem Cautious.follows_watched {R : Store → Store → Prop}
    (hR : ∀ w w' : Sealed.World, R w.store w'.store) (alarm alert : EvalError) (n : Nat) :
    (Discipline.sealed alarm).Follows (evaluate alarm n) (Watched.evaluate R alert n) := by
  induction n with
  | zero => exact fun w x r q _ _ => Sealed.sound.relates_exhausted
  | succ n ih =>
    intro w x r q hx hr
    rw [evaluate, Watched.evaluate]
    refine Discipline.Relates.watched (fun w w' _ => hR w w') alert ?_
    by_cases h : ∃ y, x = .unary .minus y
    · obtain ⟨y, rfl⟩ := h
      obtain ⟨-, rfl⟩ := hr
      refine Sealed.sound.relates_bind (ih (hx.child (by simp [Expr.children])) ⟨trivial, rfl⟩)
        fun w₁ v u _ hv => ?_
      obtain ⟨hv, rfl⟩ := hv
      rw [Sealed.rename_eq, Value.rename_id]
      exact Sealed.relates_applyMinus hv
    · have hn : node alarm (evaluate alarm n) n x r = Evaluator.node (evaluate alarm n) n x r := by
        unfold node
        split
        · exact absurd ⟨_, rfl⟩ h
        · rfl
      rw [hn]
      refine Sealed.sound.relates_node ih n hr hx (fun y hy => absurd ⟨y, hy⟩ h) ?_
      rintro body rfl
      obtain ⟨-, rfl⟩ := hr
      exact Sealed.sound.relates_yolo ih Sealed.opensYolo n trivial (Expr.throughout_iff.1 hx).1

namespace Session

/-- The store of a new session has no keys. -/
def sealedNew : Sealed.World where
  store := new.store
  keys _ := False
  made _ h := h.elim
  holds := holds_new (Sealed.Kept.empty _ _)

section

variable {alarm : EvalError} {n : Nat} {sources : List String}
  (h : ∀ a ∈ (new.runAllWith (Cautious.evaluate alarm n) sources).1, a ≠ .error (.runtime alarm))
include h

/-- Sources that are not stopped when they are run cautiously give the same when they are watched,
and leave all keys sealed. -/
theorem runAllWith_of_cautious {R : Store → Store → Prop}
    (hR : ∀ w w' : Sealed.World, R w.store w'.store) (alert : EvalError) :
    new.runAllWith (Watched.evaluate R alert n) sources =
        new.runAllWith (Cautious.evaluate alarm n) sources ∧
      ∃ w : Sealed.World,
        (new.runAllWith (Cautious.evaluate alarm n) sources).2.store = w.store := by
  have hn : ∀ a ∈ (new.runAllWith (Cautious.evaluate alarm n) sources).1,
      ¬ (Discipline.sealed alarm).Stopped a := by
    rintro a ha ⟨_, rfl, rfl⟩
    exact h _ ha rfl
  obtain ⟨w, -, hs, ht, ha⟩ := Sealed.sound.runAllWith (Cautious.follows_watched hR alarm alert n)
    (w := sealedNew) rfl rfl ⟨trivial, rfl⟩ (fun _ _ _ _ x _ => Sealed.throughout x) hn
  refine ⟨Prod.ext ?_ (ht.trans hs.symm), w, by rw [hs]; rfl⟩
  rw [ha, Sealed.rename_eq]
  exact map_rename_id _

theorem runAllWith_eq_of_cautious : new.runAllWith (YeetYoink.evaluate n) sources =
    new.runAllWith (Cautious.evaluate alarm n) sources := by
  rw [← Watched.evaluate_true alarm]
  exact (runAllWith_of_cautious h (fun _ _ => trivial) _).1

end

/-- As long as no source is stopped when it is run cautiously, all dictionaries are intact in all
states that the sources go through, up to any bound on depth: a watch for that never gives its
alarm. With the bound of sessions these are the sources that a session runs. -/
theorem dicts_intact {alarm : EvalError} {n : Nat} {sources : List String}
    (h : ∀ a ∈ (new.runAllWith (Cautious.evaluate alarm n) sources).1,
      a ≠ .error (.runtime alarm)) :
    (∀ alert, new.runAllWith (Watched.evaluate (fun s t => s.Intact ∧ t.Intact) alert n) sources =
        new.runAllWith (YeetYoink.evaluate n) sources) ∧
      (∀ k, (new.runAllWith (YeetYoink.evaluate n) (sources.take k)).2.store.Intact) ∧
      (n = depth → new.runAllWith (YeetYoink.evaluate n) sources = new.runAll sources) := by
  have hP : ∀ w : Sealed.World, w.store.Intact := fun w r => (w.holds.dicts r).filed.intact
  have hR : ∀ w w' : Sealed.World, w.store.Intact ∧ w'.store.Intact := fun w w' => ⟨hP w, hP w'⟩
  refine ⟨fun alert => ?_, fun k => ?_, ?_⟩
  · exact (runAllWith_of_cautious h hR alert).1.trans (runAllWith_eq_of_cautious h).symm
  · have hk : ∀ a ∈ (new.runAllWith (Cautious.evaluate alarm n) (sources.take k)).1,
        a ≠ .error (.runtime alarm) := by
      rw [runAllWith_take]
      exact fun a ha => h a (List.mem_of_mem_take ha)
    obtain ⟨-, w, hw⟩ := runAllWith_of_cautious hk (R := fun _ _ => True) (fun _ _ => trivial) alarm
    rw [runAllWith_eq_of_cautious hk, hw]
    exact hP w
  · rintro rfl
    exact (runAll_eq_runAllWith new sources).symm

/-- Fills a dictionary in yolo, changes a text that is a key in it, and goes on without end. -/
def filling : List String :=
  ["k := \"a\"; h := %\x7bk: 1\x7d; k[0] = \"n\"",
    "yolo \x7b h[-k] = -%\x7b1: 2\x7d; h[k] = -[k, 2] \x7d; h[\"a\"]",
    "f := \\ \x7b h[k] = h; f() \x7d; f()"]

theorem filling_not_stopped :
    ((new.runAllWith (Cautious.evaluate .badExpression 40) filling).1.all fun a =>
      match a with
      | .error (.runtime e) => e ≠ .badExpression
      | _ => true) = true := by
  decide +kernel

/-- The last source reaches the bound. -/
theorem filling_exhausted :
    ((new.runAllWith (YeetYoink.evaluate 40) filling).1.map fun a =>
      match a with
      | .error .exhausted => true
      | _ => false) = [false, false, true] := by
  decide +kernel

theorem dicts_intact_filling :
    (∀ a ∈ (new.runAllWith (Cautious.evaluate .badExpression 40) filling).1,
        a ≠ .error (.runtime .badExpression)) ∧
      (∀ alert,
        new.runAllWith (Watched.evaluate (fun s t => s.Intact ∧ t.Intact) alert 40) filling =
          new.runAllWith (YeetYoink.evaluate 40) filling) ∧
      (∀ k, (new.runAllWith (YeetYoink.evaluate 40) (filling.take k)).2.store.Intact) ∧
      (40 = depth → new.runAllWith (YeetYoink.evaluate 40) filling = new.runAll filling) ∧
      ((new.runAllWith (YeetYoink.evaluate 40) filling).1.map fun a =>
        match a with
        | .error .exhausted => true
        | _ => false) = [false, false, true] := by
  have h : ∀ a ∈ (new.runAllWith (Cautious.evaluate .badExpression 40) filling).1,
      a ≠ .error (.runtime .badExpression) := by
    rintro a ha rfl
    exact absurd (List.all_eq_true.1 filling_not_stopped _ ha) (by simp)
  obtain ⟨hwatched, hintact, hdepth⟩ := dicts_intact h
  exact ⟨h, hwatched, hintact, hdepth, filling_exhausted⟩

/-- Exchanges keys and values, changes the text that was a key, and asks for the old and the new
key. -/
def leaking : String :=
  "h := %\x7b\"ab\": \"x\"\x7d; yolo \x7b k := (-h)[\"x\"]; k[0] = \"z\" \x7d; " ++
    "h[\"ab\"] == \"x\" || h[\"zb\"] == \"x\""

/-- Without caution a key can be changed while it is filed under what it was. -/
theorem not_intact_leaking : ¬ (new.runAll [leaking]).2.store.Intact := by
  intro h
  have hb : (((new.runAll [leaking]).2.store.dict ⟨0⟩).entries[0]?.all fun e =>
      ((new.runAll [leaking]).2.store.hashKey? e.key).all fun g =>
        ((new.runAll [leaking]).2.store.dict ⟨0⟩).slot g = []) = true := by decide +kernel
  have hs : ((new.runAll [leaking]).2.store.dict ⟨0⟩).entries[0]?.isSome := by decide +kernel
  obtain ⟨e, he⟩ := Option.isSome_iff_exists.1 hs
  obtain ⟨g, hg, hc⟩ := (h ⟨0⟩).placed 0 e he
  have hslot : ((new.runAll [leaking]).2.store.dict ⟨0⟩).slot g = [] := by
    simpa [he, hg] using hb
  have h1 := hc g
  rw [hslot, if_pos rfl] at h1
  cases h1

end Session

end YeetYoink
