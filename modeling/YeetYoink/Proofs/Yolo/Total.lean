import YeetYoink.Proofs.Value.Literal

/-!
# Yolo operators have a result

In yolo an operator has a result for all operands that do not contain themselves: nothing but a
division or a remainder by zero can fail. An operator that goes into arrays makes new ones on the
way. They come behind the arrays that are there, so those still hold the same elements, and going
into them ends as soon as their layers do (`Store.Layered`).
-/

namespace YeetYoink

/-! ### Computations that have a result -/

namespace Eval

/-- How a computation may end that stops only in certain ways and changes no array that is there. -/
inductive Settled {α : Type} (E : Stop → Prop) (s : Store) :
    EStateM.Result Stop Store α → Prop where
  | ok {a : α} {t : Store} (h : Grown s.arrays t.arrays) : Settled E s (.ok a t)
  | stop {e : Stop} {t : Store} (h : E e) : Settled E s (.error e t)

def Settles {α : Type} (E : Stop → Prop) (s : Store) (x : Eval α) : Prop := Settled E s (x s)

variable {α β : Type} {E : Stop → Prop} {s : Store}

theorem settles_pure (a : α) : Settles E s (pure a) := .ok (.refl _)

theorem settles_newText (x : String) : Settles E s (newText x) := .ok (.refl _)

theorem settles_newArray (a : Array Value) : Settles E s (newArray a) := .ok (.push _ a)

theorem settles_newChars (cs : List Char) : Settles E s (newChars cs) := .ok (.refl _)

theorem settles_newDict (d : Dict) : Settles E s (newDict d) := .ok (.refl _)

theorem settles_newFunction (params : List String) (body : Block) (scope : Ref .scope) :
    Settles E s (newFunction params body scope) := .ok (.refl _)

theorem settles_enclose (r : Ref .scope) : Settles E s (enclose r) := .ok (.refl _)

theorem settles_bindAll (r : Ref .scope) (bs : List (String × Value)) :
    Settles E s (modify (·.bindAll r bs)) := by
  have h : (s.bindAll r bs).arrays = s.arrays := by
    induction bs generalizing s with
    | nil => rfl
    | cons b bs ih => exact ih
  exact .ok (h ▸ .refl _)

theorem settles_get {f : Store → Eval α} (h : Settles E s (f s)) : Settles E s (get >>= f) := h

theorem settles_bind {x : Eval α} {f : α → Eval β} (h : Settles E s x)
    (hf : ∀ a t, Grown s.arrays t.arrays → Settles E t (f a)) : Settles E s (x >>= f) := by
  change Settled E s (EStateM.bind x f s)
  unfold Settles at h
  unfold EStateM.bind
  generalize x s = r at h ⊢
  cases h with
  | @ok a t ht =>
    have hft : Settled E t (f a t) := hf a t ht
    simp only
    generalize f a t = q at hft ⊢
    cases hft with
    | ok hu => exact .ok (ht.trans hu)
    | stop he => exact .stop he
  | stop he => exact .stop he

theorem settles_mapM {f : α → Eval β} {xs : List α}
    (h : ∀ x ∈ xs, ∀ t, Grown s.arrays t.arrays → Settles E t (f x)) : Settles E s (xs.mapM f) := by
  induction xs generalizing s with
  | nil => exact settles_pure []
  | cons x xs ih =>
    obtain ⟨hx, hxs⟩ := List.forall_mem_cons.1 h
    rw [List.mapM_cons]
    refine settles_bind (hx s (.refl _)) fun y t ht => ?_
    refine settles_bind (ih fun z hz u hu => hxs z hz u (ht.trans hu)) fun ys u _ => ?_
    exact settles_pure (y :: ys)

end Eval

/-! ### Layers of arrays -/

section

variable {α β ε : Type}

theorem bind_eq_error {x : Except ε α} {f : α → Except ε β} {e : ε} (h : (x >>= f) = .error e) :
    x = .error e ∨ ∃ a, f a = .error e := by
  cases x with
  | error d => exact .inl (congrArg Except.error (Except.error.inj h))
  | ok a => exact .inr ⟨a, h⟩

theorem exists_of_mapM_eq_error {f : α → Except ε β} {xs : List α} {e : ε}
    (h : xs.mapM f = .error e) :
    ∃ x ∈ xs, f x = .error e := by
  obtain ⟨ys, hys, _⟩ | ⟨before, x, after, d, rfl, _, hx, hd⟩ := mapM_cases f xs
  · cases hys.symm.trans h
  · cases hd.symm.trans h
    exact ⟨x, by simp, hx⟩

end

namespace Store

/-- The arrays in a value are there and lie at most so many deep. -/
def Layered (s : Store) : Nat → Value → Prop
  | 0, .array _ => False
  | n + 1, .array a => a.index < s.arrays.size ∧ ∀ u ∈ (s.array a).toList, s.Layered n u
  | _, _ => True

/-- No array in a value is missing from the store. -/
def ArraysMade (s : Store) (v : Value) : Prop :=
  ∀ a, s.Within (.array a) v → a.index < s.arrays.size

variable {s t : Store} {n : Nat} {v : Value}

theorem array_eq_of_grown (h : Grown s.arrays t.arrays) {a : Ref .array}
    (ha : a.index < s.arrays.size) :
    t.array a = s.array a := by
  rw [array, h.getElem? ha, array]

theorem layered_of_kind_ne (h : v.kind ≠ .array) : s.Layered n v := by
  cases v with
  | array a => exact absurd rfl h
  | _ => cases n <;> trivial

theorem Layered.grown (h : s.Layered n v) (ht : Grown s.arrays t.arrays) : t.Layered n v := by
  induction n generalizing v with
  | zero =>
    cases v with
    | array a => exact h
    | _ => trivial
  | succ n ih =>
    cases v with
    | array a =>
      have hsize : s.arrays.size ≤ t.arrays.size := by
        obtain ⟨zs, hzs⟩ := ht
        simp [hzs]
      refine ⟨Nat.lt_of_lt_of_le h.1 hsize, fun u hu => ih (h.2 u ?_)⟩
      rwa [← array_eq_of_grown ht h.1]
    | _ => trivial

theorem Nests.layered (h : s.Nests n v) (hm : s.ArraysMade v) : s.Layered n v := by
  induction n generalizing v with
  | zero =>
    cases v with
    | array a => exact h trivial
    | _ => trivial
  | succ n ih =>
    cases v with
    | array a =>
      refine ⟨hm a (.refl s _), fun u hu => ih (h u (inside_array hu)) fun b hb => ?_⟩
      exact hm b (hb.part (inside_array hu))
    | _ => trivial

theorem Acyclic.layered (h : s.Acyclic v) (hm : s.ArraysMade v) : s.Layered (s.nesting + 1) v :=
  h.nests.layered hm

theorem Nests.literalIn_ne_endless (h : s.Nests n v) : s.literalIn n v ≠ .error .endless := by
  induction n generalizing v with
  | zero =>
    cases v with
    | array | dict => exact absurd trivial h
    | _ => simp [literalIn]
  | succ n ih =>
    cases v with
    | array a =>
      intro he
      rw [literalIn] at he
      obtain he | ⟨xs, he⟩ := bind_eq_error he
      · obtain ⟨u, hu, he⟩ := exists_of_mapM_eq_error he
        exact ih (h u (inside_array hu)) he
      · cases he
    | dict r =>
      intro he
      rw [literalIn] at he
      obtain he | ⟨ps, he⟩ := bind_eq_error he
      · obtain ⟨e, hm, he⟩ := exists_of_mapM_eq_error he
        obtain he | ⟨k, he⟩ := bind_eq_error he
        · exact ih (h _ (inside_key hm)) he
        · obtain he | ⟨u, he⟩ := bind_eq_error he
          · exact ih (h _ (inside_value hm)) he
          · cases he
      · cases he
    | _ => simp [literalIn]

theorem Acyclic.literal_ne_endless (h : s.Acyclic v) : s.literal v ≠ .error .endless :=
  h.nests.literalIn_ne_endless

end Store

namespace Yolo

open Eval

variable {E : Stop → Prop} {s : Store} {n : Nat}

/-! ### The minus sign -/

theorem settles_insert (d : Dict) {k : Value} (hk : (s.hashKey? k).isSome) (v : Value) :
    Settles E s (d.insert k v) := by
  obtain ⟨h, hh⟩ := Option.isSome_iff_exists.1 hk
  refine settles_get ?_
  rw [hh]
  simp only
  split
  · exact settles_pure _
  · refine settles_bind ?_ fun k t _ => settles_pure _
    cases k with
    | text r => exact settles_newText _
    | _ => exact settles_pure _

theorem settles_swapEntries (d : Dict) (es : List Entry) : Settles E s (swapEntries d es) := by
  induction es generalizing s d with
  | nil => exact settles_pure d
  | cons e es ih =>
    refine settles_get ?_
    split
    next h => exact settles_bind (settles_insert d h e.key) fun d t _ => ih d
    next => exact ih d

theorem settles_opposite {f : Value → Eval Value} {v : Value}
    (hf : ∀ a, v = .array a → ∀ u ∈ (s.array a).toList, ∀ t, Grown s.arrays t.arrays →
      Settles E t (f u)) :
    Settles E s (opposite f v) := by
  cases v with
  | array a =>
    exact settles_get (settles_bind (settles_mapM (hf a rfl)) fun vs t _ => settles_newArray _)
  | dict r =>
    exact settles_get (settles_bind (settles_swapEntries {} _) fun d t _ => settles_newDict d)
  | function f => exact settles_newFunction _ _ _
  | bool | range => exact settles_pure _
  | _ => exact settles_newText _

theorem settles_unary {f : Value → Eval Value} (op : UnaryOp) {v : Value} (hf : Settles E s (f v)) :
    Settles E s (Operator.unary f op v) := by
  cases op with
  | bang => exact settles_pure _
  | minus =>
    cases v with
    | int | num => exact settles_pure _
    | _ => exact hf

theorem settles_negate {v : Value} (hv : s.Layered n v) : Settles E s (negate (n + 1) v) := by
  induction n generalizing s v with
  | zero =>
    refine settles_unary .minus (settles_opposite ?_)
    rintro a rfl
    exact hv.elim
  | succ n ih =>
    refine settles_unary .minus (settles_opposite ?_)
    rintro a rfl u hu t ht
    exact ih ((hv.2 u hu).grown ht)

/-! ### Two operands -/

/-- How an operator may fail: with a division by zero, if it divides. -/
def Fails (op : BinaryOp) (e : Stop) : Prop :=
  (op = .divide ∨ op = .modulo) ∧ e = .failed .divisionByZero

variable {op : BinaryOp} {l r : Value}

theorem settles_concat (l r : Value) : Settles E s (concat l r) := settles_newText _

theorem settles_repeatText (t : String) (count : Int64) : Settles E s (repeatText t count) := by
  unfold repeatText
  split
  · exact settles_newText _
  · split
    · exact settles_newText _
    · simp only
      split
      · exact settles_newText _
      · exact settles_newText _

theorem settles_splitText (t : String) (count : Int64) : Settles E s (splitText t count) := by
  unfold splitText
  split
  · exact settles_newText _
  · exact settles_bind (settles_newChars _) fun vs t _ => settles_newArray _

theorem settles_textWithCount (t : String) (count : Int64) (first : Bool) (l r : Value) :
    Settles E s (textWithCount op t count first l r) := by
  unfold textWithCount
  split
  · exact settles_repeatText t count
  · exact settles_splitText t count
  · split
    · exact settles_pure _
    · exact settles_concat l r

theorem settles_textWithInt {f : Value → Eval Value} (t : Ref .text) (count : Int64) (first : Bool)
    (l r : Value) (hf : ∀ n, Settles E s (f (.int n))) :
    Settles E s (textWithInt op f t count first l r) := by
  refine settles_get ?_
  simp only
  split
  · exact hf _
  · exact settles_textWithCount _ count first l r

theorem settles_scalarWithArray {f : Value → Eval Value} {a : Ref .array} (first : Bool)
    (l r : Value)
    (hf : ∀ u ∈ (s.array a).toList, ∀ t, Grown s.arrays t.arrays → Settles E t (f u)) :
    Settles E s (scalarWithArray op f a first l r) := by
  unfold scalarWithArray
  split
  · exact settles_get (settles_bind (settles_mapM hf) fun vs t _ => settles_newArray _)
  · split
    · exact settles_pure _
    · exact settles_concat l r

theorem settles_rangeOf (first last : Option Int64) : Settles E s (rangeOf first last) := by
  unfold rangeOf
  split
  · exact settles_pure _
  · exact settles_newText _

theorem settles_bake (f : Closure) (v : Value) : Settles E s (bake f v) := by
  by_cases hv : v = .null
  · subst hv
    exact settles_pure _
  · rw [bake_eq hv]
    refine settles_bind (settles_enclose f.scope) fun scope t _ => settles_get ?_
    exact settles_bind (settles_bindAll scope _) fun _ u _ => settles_pure _

theorem settles_compose (f : Closure) (first second : Value) :
    Settles E s (compose f first second) := by
  refine settles_bind (settles_enclose f.scope) fun scope t _ => ?_
  exact settles_bind (settles_bindAll scope _) fun _ u _ => settles_newFunction _ _ _

theorem settles_onResult (f : Closure) {other : Value}
    (h : s.literal other = .error .endless → E .exhausted)
    (operation : Expr → Expr → Expr) (l r : Value) :
    Settles E s (onResult f other operation l r) := by
  refine settles_get ?_
  split
  · exact settles_newFunction _ _ _
  · exact settles_concat l r
  next he => exact .stop (h he)

/-! ### All operands -/

/-- How the meaning of an operator for the kinds of its operands may end: with a value, with none,
or in a division by zero. -/
inductive Tried (op : BinaryOp) (s : Store) : EStateM.Result Stop Store (Option Value) → Prop where
  | value {v : Value} {t : Store} (h : Grown s.arrays t.arrays) : Tried op s (.ok (some v) t)
  | none : Tried op s (.ok none s)
  | stop {e : Stop} {t : Store} (h : Fails op e) : Tried op s (.error e t)

theorem Tried.pure (v : Option Value) : Tried op s (.ok v s) := by
  cases v with
  | none => exact .none
  | some v => exact .value (.refl _)

theorem fails_of_integers {a b : Int64} {e : EvalError} (h : Operator.integers op a b = .error e) :
    Fails op (.failed e) := by
  cases op with
  | divide | modulo =>
    rw [Operator.integers] at h
    split at h
    · exact ⟨by simp, congrArg Stop.failed (Except.error.inj h).symm⟩
    · cases h
  | _ => cases h

theorem tried_typed? (op : BinaryOp) (l r : Value) (s : Store) :
    Tried op s (Operator.typed? op l r s) := by
  by_cases hi : ∃ a b, l = .int a ∧ r = .int b
  · obtain ⟨a, b, rfl, rfl⟩ := hi
    simp only [Operator.typed?]
    cases h : Operator.integers op a b with
    | error e => exact .stop (fails_of_integers h)
    | ok v => exact .pure v
  by_cases ht : ∃ a b, op = .plus ∧ l = .text a ∧ r = .text b
  · obtain ⟨a, b, rfl, rfl, rfl⟩ := ht
    exact .value (.refl _)
  by_cases hp : ∃ a, op = .push ∧ l = .array a
  · obtain ⟨a, rfl, rfl⟩ := hp
    exact .value (.push _ _)
  by_cases ha : ∃ a b, op = .plus ∧ l = .array a ∧ r = .array b
  · obtain ⟨a, b, rfl, rfl, rfl⟩ := ha
    exact .value (.push _ _)
  simp only [not_exists, not_and] at hi ht hp ha
  rw [Operator.typed?_eq hi ht hp ha]
  exact .pure _

theorem settles_equal (h : s.equal? l r = none → E .exhausted) : Settles E s (Eval.equal l r) := by
  refine settles_get ?_
  split
  · exact settles_pure _
  next he => exact .stop (h he)

theorem settles_binary {fallback : BinaryOp → Value → Value → Eval Value}
    (hE : ∀ e, Fails op e → E e)
    (heq : s.equal? l r = none → E .exhausted) (hf : Settles E s (fallback op l r)) :
    Settles E s (Operator.binary fallback op l r) := by
  change Settled E s (EStateM.bind _ _ s)
  have h := tried_typed? op l r s
  unfold EStateM.bind
  generalize Operator.typed? op l r s = q at h ⊢
  cases h with
  | value ht => exact .ok ht
  | stop he => exact .stop (hE _ he)
  | none =>
    cases op with
    | equal | notEqual => exact settles_bind (settles_equal heq) fun b t _ => settles_pure _
    | _ => exact hf

/-- An integer or a number. -/
def IsScalar (v : Value) : Prop := v.kind = .int ∨ v.kind = .num

/-- What is left of an operator has a result if it has one for two scalars and for a scalar with
each element of an array, and if the other operand of a function can be written down. -/
theorem settles_coerce {f : BinaryOp → Value → Value → Eval Value}
    (hf : ∀ a b, IsScalar a → IsScalar b → Settles E s (f op a b))
    (hr : IsScalar l → ∀ a, r = .array a → ∀ u ∈ (s.array a).toList, ∀ t, Grown s.arrays t.arrays →
      Settles E t (f op l u))
    (hl : IsScalar r → ∀ a, l = .array a → ∀ u ∈ (s.array a).toList, ∀ t, Grown s.arrays t.arrays →
      Settles E t (f op u r))
    (hwl : ∀ g, l = .function g → s.literal r = .error .endless → E .exhausted)
    (hwr : ∀ g, r = .function g → s.literal l = .error .endless → E .exhausted) :
    Settles E s (coerce f op l r) := by
  have hint : ∀ n, IsScalar (.int n) := fun n => .inl rfl
  have hnum : ∀ x, IsScalar (.num x) := fun x => .inr rfl
  unfold coerce
  split
  next => exact settles_scalarWithArray _ _ _ (hr (hint _) _ rfl)
  next => exact settles_scalarWithArray _ _ _ (hr (hnum _) _ rfl)
  next => exact settles_scalarWithArray _ _ _ (hl (hint _) _ rfl)
  next => exact settles_scalarWithArray _ _ _ (hl (hnum _) _ rfl)
  next => exact settles_textWithInt _ _ _ _ _ fun n => hf _ _ (hint n) (hint _)
  next => exact settles_textWithInt _ _ _ _ _ fun n => hf _ _ (hint _) (hint n)
  next => exact hf _ _ (hint _) (hint _)
  next => exact hf _ _ (hint _) (hnum _)
  next => exact hf _ _ (hint _) (hint _)
  next => exact hf _ _ (hnum _) (hint _)
  next =>
    split
    · exact settles_rangeOf _ _
    · exact settles_concat _ _
  next =>
    split
    · exact settles_rangeOf _ _
    · exact settles_concat _ _
  next =>
    split
    · split
      · exact settles_compose _ _ _
      · exact settles_bake _ _
    · exact settles_onResult _ (hwl _ rfl) _ _ _
  next =>
    split
    · exact settles_bake _ _
    · exact settles_onResult _ (hwr _ rfl) _ _ _
  next => exact settles_concat _ _

theorem IsScalar.equal?_ne_none (h : IsScalar l ∨ IsScalar r) : s.equal? l r ≠ none := by
  have hn : ∀ v, IsScalar v → s.Nests (s.nesting + 1) v := fun v hv u hu => by
    obtain ⟨a, rfl, -⟩ | ⟨d, rfl, -⟩ := Store.exists_array_or_dict hu
    · simp [IsScalar, Value.kind] at hv
    · simp [IsScalar, Value.kind] at hv
  exact Option.isSome_iff_ne_none.1 (Store.isSome_equalIn? (h.imp (hn l) (hn r)))

theorem IsScalar.layered {v : Value} (h : IsScalar v) : s.Layered n v :=
  Store.layered_of_kind_ne fun ha => by simp [IsScalar, ha] at h

theorem IsScalar.literal_ne_endless {v : Value} (h : IsScalar v) :
    s.literal v ≠ .error .endless := by
  cases v with
  | int | num => simp [Store.literal, Store.literalIn]
  | _ => simp [IsScalar, Value.kind] at h

theorem settles_combine_scalars (hl : IsScalar l) (hr : IsScalar r) :
    Settles (Fails op) s (combine (n + 1) op l r) := by
  refine settles_binary (fun _ h => h) (fun he => absurd he (IsScalar.equal?_ne_none (.inl hl))) ?_
  have hshow : coerce (combine n) op l r = concat l r := by
    cases l with
    | int | num =>
      cases r with
      | int | num => rfl
      | _ => simp [IsScalar, Value.kind] at hr
    | _ => simp [IsScalar, Value.kind] at hl
  rw [hshow]
  exact settles_concat l r

/-- One layer of arrays takes one of the bound. -/
theorem settles_layer (heq : s.equal? l r ≠ none) (hr : IsScalar l → s.Layered n r)
    (hl : IsScalar r → s.Layered n l) (hwl : ∀ g, l = .function g → s.literal r ≠ .error .endless)
    (hwr : ∀ g, r = .function g → s.literal l ≠ .error .endless)
    (ih : ∀ m, n = m + 1 → ∀ t a b, IsScalar a ∧ t.Layered m b ∨ IsScalar b ∧ t.Layered m a →
      Settles (Fails op) t (combine n.succ op a b)) :
    Settles (Fails op) s (combine (n + 2) op l r) := by
  refine settles_binary (fun _ h => h) (fun he => absurd he heq) (settles_coerce
    (fun a b => settles_combine_scalars) ?_ ?_ (fun g hg he => absurd he (hwl g hg)) fun g hg he =>
    absurd he (hwr g hg))
  · rintro hsl a rfl u hu t ht
    cases n with
    | zero => exact (hr hsl).elim
    | succ m => exact ih m rfl t l u (.inl ⟨hsl, ((hr hsl).2 u hu).grown ht⟩)
  · rintro hsr a rfl u hu t ht
    cases n with
    | zero => exact (hl hsr).elim
    | succ m => exact ih m rfl t u r (.inr ⟨hsr, ((hl hsr).2 u hu).grown ht⟩)

theorem settles_combine (h : IsScalar l ∧ s.Layered n r ∨ IsScalar r ∧ s.Layered n l) :
    Settles (Fails op) s (combine (n + 2) op l r) := by
  induction n using Nat.strong_induction_on generalizing s l r with
  | _ n ih =>
    have hnf : ∀ g, ¬ IsScalar (.function g) := fun g => by simp [IsScalar, Value.kind]
    refine settles_layer (IsScalar.equal?_ne_none (h.imp And.left And.left)) ?_ ?_ ?_ ?_ ?_
    · exact fun _ => h.elim And.right fun h => h.1.layered
    · exact fun _ => h.elim (fun h => h.1.layered) And.right
    · rintro g rfl
      exact h.elim (fun h => absurd h.1 (hnf g)) fun h => h.1.literal_ne_endless
    · rintro g rfl
      exact h.elim (fun h => h.1.literal_ne_endless) fun h => absurd h.1 (hnf g)
    · rintro m rfl t a b hab
      exact ih m m.lt_succ_self hab

/-! ### The operators -/

theorem settles_yoloUnary (op : UnaryOp) {v : Value} (hv : s.Layered (s.nesting + 1) v) :
    Settles E s (Yolo.unary op v) := by
  refine settles_get (settles_unary op (settles_opposite ?_))
  rintro a rfl u hu t ht
  exact settles_negate ((hv.2 u hu).grown ht)

theorem settles_yoloBinary (hl : s.Acyclic l) (hr : s.Acyclic r) (hml : s.ArraysMade l)
    (hmr : s.ArraysMade r) : Settles (Fails op) s (Yolo.binary op l r) := by
  have heq := Option.isSome_iff_ne_none.1 (Store.isSome_equalIn? (b := r) (.inl hl.nests))
  refine settles_get (settles_layer heq (fun _ => hr.layered hmr)
    (fun _ => hl.layered hml) (fun _ _ => hr.literal_ne_endless)
    (fun _ _ => hl.literal_ne_endless) ?_)
  rintro m ⟨⟩ t a b h
  exact settles_combine h

/-- In yolo the minus sign and the exclamation mark have a result for every value that does not
contain itself, and so have the operators with two such operands, but for a division or a remainder
by zero. -/
theorem operators_total (hl : s.Acyclic l) (hr : s.Acyclic r) (hml : s.ArraysMade l)
    (hmr : s.ArraysMade r) :
    (∀ op, ∃ v t, Yolo.unary op r s = .ok v t) ∧
      ∀ op, (∃ v t, Yolo.binary op l r s = .ok v t) ∨
        (op = .divide ∨ op = .modulo) ∧ ∃ t, Yolo.binary op l r s =
          .error (.failed .divisionByZero) t := by
  refine ⟨fun op => ?_, fun op => ?_⟩
  · have h : Settled (fun _ => False) s (Yolo.unary op r s) := settles_yoloUnary op (hr.layered hmr)
    generalize Yolo.unary op r s = q at h ⊢
    cases h with
    | ok => exact ⟨_, _, rfl⟩
    | stop h => exact h.elim
  · have h : Settled (Fails op) s (Yolo.binary op l r s) := settles_yoloBinary hl hr hml hmr
    generalize Yolo.binary op l r s = q at h ⊢
    cases h with
    | ok => exact .inl ⟨_, _, rfl⟩
    | stop h =>
      obtain ⟨hop, rfl⟩ := h
      exact .inr ⟨hop, _, rfl⟩

theorem arraysMade_mirrored (v : Value) (h : ∀ a, v = .array a → a.index < 2) :
    Store.mirrored.ArraysMade v := by
  intro a ha
  obtain rfl | ⟨c, hc, -⟩ := Relation.ReflTransGen.cases_head ha
  · exact h a rfl
  · obtain ⟨-, h⟩ | ⟨-, h⟩ := Store.inside_mirrored hc
    · cases h
    · simp only [List.mem_cons, List.not_mem_nil, or_false, Value.array.injEq, reduceCtorEq,
        false_or] at h
      obtain rfl | rfl := h <;> decide

/-- An array with a dictionary that holds it, and divided by zero. -/
theorem operators_total_mirrored :
    (∀ v, Store.mirrored.Acyclic v) ∧ Store.mirrored.ArraysMade (.array ⟨0⟩) ∧
    Store.mirrored.ArraysMade (.dict ⟨0⟩) ∧ Store.mirrored.ArraysMade (.int 0) ∧
    (∀ op, ∃ v t, Yolo.unary op (.dict ⟨0⟩) Store.mirrored = .ok v t) ∧
    (∃ v t, Yolo.binary .times (.array ⟨0⟩) (.dict ⟨0⟩) Store.mirrored = .ok v t) ∧
    ∃ t, Yolo.binary .divide (.array ⟨0⟩) (.int 0) Store.mirrored =
      .error (.failed .divisionByZero) t := by
  have hac := Store.acyclic_mirrored
  have ha := arraysMade_mirrored (.array ⟨0⟩) fun a h => by cases h; decide
  have hd := arraysMade_mirrored (.dict ⟨0⟩) fun a h => by cases h
  have hi := arraysMade_mirrored (.int 0) fun a h => by cases h
  obtain ⟨hu, hb⟩ := operators_total (hac (.array ⟨0⟩)) (hac (.dict ⟨0⟩)) ha hd
  obtain ⟨-, hz⟩ := operators_total (hac (.array ⟨0⟩)) (hac (.int 0)) ha hi
  refine ⟨hac, ha, hd, hi, hu, (hb .times).resolve_right (by simp), ?_⟩
  obtain ⟨v, t, h⟩ | ⟨-, h⟩ := hz .divide
  · cases h
  · exact h

end Yolo

end YeetYoink
