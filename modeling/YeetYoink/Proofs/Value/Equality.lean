import Mathlib.Data.List.Perm.Subperm
import YeetYoink.Proofs.Dict.History
import YeetYoink.Proofs.Expr.Same
import YeetYoink.Proofs.Session.Runs
import YeetYoink.Proofs.Value.Nesting

/-!
# The laws of equality

Two values are equal if they are equal as leaves, are one container, or have equal parts
(`equalIn?_eq_true_iff`). Comparing acyclic values comes to an end. A dictionary equals another if
it is as large and each of its entries is covered by the other (`Dict.Covers`). This looks at the
entries of one side only, but the keys of an intact dictionary differ, so that both then have the
same keys.
-/

namespace YeetYoink

/-! ### Lists and entries -/

section

variable {eq? : Value → Value → Option Bool}

theorem equalLists?_eq_true_iff {xs ys : List Value} :
    equalLists? eq? xs ys = some true ↔ List.Forall₂ (fun x y => eq? x y = some true) xs ys := by
  induction xs generalizing ys with
  | nil => cases ys <;> simp [equalLists?]
  | cons x xs ih =>
    cases ys with
    | nil => simp [equalLists?]
    | cons y ys =>
      rw [equalLists?, List.forall₂_cons, ← ih]
      rcases eq? x y with _ | _ | _ <;> simp

theorem isSome_equalLists? {xs ys : List Value} (h : ∀ x ∈ xs, ∀ y ∈ ys, (eq? x y).isSome) :
    (equalLists? eq? xs ys).isSome := by
  fun_induction equalLists? eq? xs ys with
  | case2 x xs y ys _ ih =>
    exact ih fun a ha b hb => h a (List.mem_cons_of_mem _ ha) b (List.mem_cons_of_mem _ hb)
  | case3 x xs y ys => exact h x List.mem_cons_self y List.mem_cons_self
  | _ => rfl

theorem Store.entriesIn?_eq_true_iff {s : Store} {d : Dict} {es : List Entry} :
    s.entriesIn? eq? d es = some true ↔
      ∀ e ∈ es, ∃ v, d.get s e.key = .ok (some v) ∧ eq? v e.value = some true := by
  induction es with
  | nil => simp [entriesIn?]
  | cons e es ih =>
    rw [entriesIn?, List.forall_mem_cons, ← ih]
    rcases d.get s e.key with _ | _ | v
    · simp
    · simp
    · rcases he : eq? v e.value with _ | _ | _ <;> simp [he]

theorem Store.isSome_entriesIn? {s : Store} {d : Dict} {es : List Entry}
    (h : ∀ e ∈ es, ∀ v, d.get s e.key = .ok (some v) → (eq? v e.value).isSome) :
    (s.entriesIn? eq? d es).isSome := by
  fun_induction entriesIn? s eq? d es with
  | case2 e es v _ _ ih => exact ih fun f hf => h f (List.mem_cons_of_mem _ hf)
  | case3 e es v hv => exact h e List.mem_cons_self v hv
  | _ => rfl

end

/-! ### Dictionaries that cover each other -/

theorem Store.exists_key? {s : Store} {v : Value} (h : v.IsKey) : ∃ k, s.key? v = some k := by
  cases v with
  | int _ | bool _ | text _ => exact ⟨_, rfl⟩
  | _ => exact h.elim

namespace Dict

variable {s : Store} {R : Value → Value → Prop} {d d' d'' : Dict}

/-- Two dictionaries are of one size, and each entry of the first has a value in the second. -/
def Covers (s : Store) (R : Value → Value → Prop) (d d' : Dict) : Prop :=
  d.size = d'.size ∧ ∀ e ∈ d.entries, ∃ v, d'.get s e.key = .ok (some v) ∧ R v e.value

/-- The keys in a dictionary. -/
def keys (s : Store) (d : Dict) : List (Option Key) := d.entries.map fun e => s.key? e.key

theorem get_of_sameKey {a b : Value} (h : s.sameKey a b) : d.get s a = d.get s b := by
  obtain ⟨k, ha, hb⟩ := Store.sameKey_iff.1 h
  have hsame : (s.sameKey · a) = (s.sameKey · b) := by
    funext c
    rw [Bool.eq_iff_iff, Store.sameKey_iff_of_key? ha, Store.sameKey_iff_of_key? hb]
  obtain ⟨j, hj⟩ := Store.exists_hashKey? ha
  rw [get, get, ← Store.hashKey?_of_sameKey h, hj]
  simp only [hsame]

theorem exists_of_get {key v : Value} (h : d.get s key = .ok (some v)) :
    ∃ e ∈ d.entries, s.sameKey e.key key ∧ e.value = v := by
  rw [get] at h
  split at h
  · cases h
  next j _ =>
    obtain ⟨i, e, -, he, hs, hv⟩ := exists_of_find? (Except.ok.inj h)
    exact ⟨e, List.mem_of_getElem? he, hs, hv⟩

theorem get_eq_none_or {key : Value} (hk : key.IsKey) :
    d.get s key = .ok none ∨ ∃ v, d.get s key = .ok (some v) := by
  obtain ⟨h, hh⟩ := Option.isSome_iff_exists.1 (Store.isSome_hashKey?.2 hk)
  rw [get, hh]
  cases hf : d.find? h (s.sameKey · key) with
  | none => exact .inl (by simp [hf])
  | some v => exact .inr ⟨v, by simp [hf]⟩

theorem Filed.get_eq (hd : Filed s d) {e : Entry} (he : e ∈ d.entries) {key : Value}
    (h : s.sameKey e.key key) : d.get s key = .ok (some e.value) := by
  refine hd.intact.found e he key ?_
  rw [Store.equal?_of_isKey (hd.keyed.isKey e he), h]

theorem Filed.exists_key? (hd : Filed s d) {e : Entry} (he : e ∈ d.entries) :
    ∃ k, s.key? e.key = some k :=
  Store.exists_key? (hd.keyed.isKey e he)

theorem Filed.sameKey_self (hd : Filed s d) {e : Entry} (he : e ∈ d.entries) :
    s.sameKey e.key e.key := by
  obtain ⟨k, hk⟩ := hd.exists_key? he
  exact Store.sameKey_iff.2 ⟨k, hk, hk⟩

theorem Filed.nodup_keys (hd : Filed s d) : (d.keys s).Nodup := by
  rw [keys, List.Nodup, List.pairwise_map]
  refine hd.keyed.distinct.imp_of_mem fun {a b} ha _ hab hk => ?_
  obtain ⟨k, hka⟩ := hd.exists_key? ha
  rw [Store.sameKey_iff.2 ⟨k, hka, hk ▸ hka⟩] at hab
  cases hab

/-- The keys of a dictionary are those that have a value. -/
theorem Filed.key?_mem_keys (hd : Filed s d) {key : Value} {k : Key} (hk : s.key? key = some k) :
    some k ∈ d.keys s ↔ ∃ v, d.get s key = .ok (some v) := by
  constructor
  · intro hm
    obtain ⟨e, he, hek⟩ := List.mem_map.1 hm
    exact ⟨e.value, hd.get_eq he (Store.sameKey_iff.2 ⟨k, hek, hk⟩)⟩
  · rintro ⟨v, hv⟩
    obtain ⟨e, he, hs, -⟩ := exists_of_get hv
    exact List.mem_map.2 ⟨e, he, (Store.sameKey_iff_of_key? hk).1 hs⟩

theorem keys_subset (hd : Filed s d) (hd' : Filed s d')
    (h : ∀ e ∈ d.entries, ∃ v, d'.get s e.key = .ok (some v)) : d.keys s ⊆ d'.keys s := by
  intro k hk
  obtain ⟨e, he, rfl⟩ := List.mem_map.1 hk
  obtain ⟨j, hj⟩ := hd.exists_key? he
  rw [hj, hd'.key?_mem_keys hj]
  exact h e he

/-- There are as many keys on both sides and those of the first are all in the second, so that no
key of the second is left over. -/
theorem Covers.perm_keys (h : d.Covers s R d') (hd : Filed s d) (hd' : Filed s d') :
    (d.keys s).Perm (d'.keys s) := by
  have hsub : d.keys s ⊆ d'.keys s := keys_subset hd hd' fun e he => (h.2 e he).imp fun _ hv => hv.1
  refine (List.subperm_of_subset hd.nodup_keys hsub).perm_of_length_le ?_
  rw [keys, keys, List.length_map, List.length_map]
  exact Nat.le_of_eq h.1.symm

theorem Covers.symm (h : d.Covers s R d') (hd : Filed s d) (hd' : Filed s d')
    (hR : ∀ e ∈ d.entries, ∀ f ∈ d'.entries, R f.value e.value → R e.value f.value) :
    d'.Covers s R d := by
  refine ⟨h.1.symm, fun f hf => ?_⟩
  have hm : s.key? f.key ∈ d.keys s := (h.perm_keys hd hd').mem_iff.2 (List.mem_map_of_mem hf)
  obtain ⟨e, he, hek⟩ := List.mem_map.1 hm
  obtain ⟨k, hk⟩ := hd'.exists_key? hf
  have hs : s.sameKey e.key f.key := Store.sameKey_iff.2 ⟨k, hek.trans hk, hk⟩
  -- `f` is the only entry that the key of `e` can lead to.
  obtain ⟨v, hv, hR'⟩ := h.2 e he
  rw [get_of_sameKey hs, hd'.get_eq hf (hd'.sameKey_self hf)] at hv
  cases hv
  exact ⟨e.value, hd.get_eq he hs, hR e he f hf hR'⟩

theorem Covers.trans (h : d.Covers s R d') (h' : d'.Covers s R d'')
    (hR : ∀ u v w, R u v → R v w → R u w) : d.Covers s R d'' := by
  refine ⟨h.1.trans h'.1, fun e he => ?_⟩
  obtain ⟨v, hv, hve⟩ := h.2 e he
  obtain ⟨f, hf, hs, rfl⟩ := exists_of_get hv
  obtain ⟨w, hw, hwf⟩ := h'.2 f hf
  exact ⟨w, get_of_sameKey hs ▸ hw, hR _ _ _ hwf hve⟩

/-- A dictionary covers another if the same keys have a value in both, and related ones. -/
theorem covers_iff (hd : Filed s d) (hd' : Filed s d') :
    d.Covers s R d' ↔ ∀ key, key.IsKey → (d.get s key = .ok none ∧ d'.get s key = .ok none) ∨
      ∃ v w, d.get s key = .ok (some v) ∧ d'.get s key = .ok (some w) ∧ R w v := by
  constructor
  · intro h key hkey
    obtain ⟨k, hk⟩ := Store.exists_key? (s := s) hkey
    obtain hn | ⟨v, hv⟩ := get_eq_none_or (s := s) (d := d) hkey
    · obtain hn' | hv' := get_eq_none_or (s := s) (d := d') hkey
      · exact .inl ⟨hn, hn'⟩
      · have hm := (h.perm_keys hd hd').mem_iff.2 ((hd'.key?_mem_keys hk).2 hv')
        obtain ⟨v, hv⟩ := (hd.key?_mem_keys hk).1 hm
        rw [hn] at hv
        cases hv
    · obtain ⟨e, he, hs, rfl⟩ := exists_of_get hv
      obtain ⟨w, hw, hwe⟩ := h.2 e he
      exact .inr ⟨e.value, w, hv, get_of_sameKey hs ▸ hw, hwe⟩
  · intro h
    have hval : ∀ e ∈ d.entries, ∃ w, d'.get s e.key = .ok (some w) ∧ R w e.value := fun e he => by
      have hv := hd.get_eq he (hd.sameKey_self he)
      obtain ⟨hn, -⟩ | ⟨v, w, hv', hw, hR⟩ := h e.key (hd.keyed.isKey e he)
      · rw [hn] at hv
        cases hv
      · rw [hv] at hv'
        cases hv'
        exact ⟨w, hw, hR⟩
    have hsub : d.keys s ⊆ d'.keys s :=
      keys_subset hd hd' fun e he => (hval e he).imp fun _ hw => hw.1
    have hsub' : d'.keys s ⊆ d.keys s := keys_subset hd' hd fun f hf => by
      obtain ⟨-, hn⟩ | ⟨v, -, hv, -⟩ := h f.key (hd'.keyed.isKey f hf)
      · rw [hd'.get_eq hf (hd'.sameKey_self hf)] at hn
        cases hn
      · exact ⟨v, hv⟩
    have hperm : (d.keys s).Perm (d'.keys s) :=
      (List.perm_ext_iff_of_nodup hd.nodup_keys hd'.nodup_keys).2 fun k => ⟨@hsub k, @hsub' k⟩
    have hlen := hperm.length_eq
    rw [keys, keys, List.length_map, List.length_map] at hlen
    exact ⟨hlen, hval⟩

end Dict

namespace Store

variable {s : Store} {a b c : Value} {n : Nat}

/-! ### Values without parts -/

/-- Two values without parts are equal. -/
def SameLeaf (s : Store) : Value → Value → Prop
  | .int a, .int b => a = b
  | .num a, .num b => a == b
  | .bool a, .bool b => a = b
  | .text a, .text b => s.text a = s.text b
  | .null, .null => True
  | .range a b, .range c d => a = c ∧ b = d
  | .function f, .function g | .macroFn f, .macroFn g =>
    f.params = g.params ∧ f.identity = g.identity ∧ f.scope = g.scope
  | .builtin a, .builtin b => a = b
  | .quote a, .quote b => a.same b
  | _, _ => False

namespace SameLeaf

theorem symm (h : s.SameLeaf a b) : s.SameLeaf b a := by
  fun_cases SameLeaf s a b with
  | case2 x y => exact BEq.symm h
  | case10 x y => exact Expr.same_symm h
  | _ => simp_all [SameLeaf]

theorem trans (hab : s.SameLeaf a b) (hbc : s.SameLeaf b c) : s.SameLeaf a c := by
  fun_cases SameLeaf s a b with
  | case2 x y =>
    cases c with
    | num z => exact BEq.trans hab hbc
    | _ => exact hbc.elim
  | case10 x y =>
    cases c with
    | quote z => exact Expr.same_trans hab hbc
    | _ => exact hbc.elim
  | _ => cases c <;> simp_all [SameLeaf]

theorem not_isContainer (h : s.SameLeaf a b) : ¬ a.IsContainer ∧ ¬ b.IsContainer := by
  fun_cases SameLeaf s a b <;> simp_all [SameLeaf, Value.IsContainer]

end SameLeaf

/-! ### One step of a comparison -/

/-- Two containers of one kind have related parts. -/
inductive EqualParts (s : Store) (R : Value → Value → Prop) : Value → Value → Prop where
  | array {r q : Ref .array} (h : List.Forall₂ R (s.array r).toList (s.array q).toList) :
      EqualParts s R (.array r) (.array q)
  | dict {r q : Ref .dict} (h : (s.dict r).Covers s R (s.dict q)) :
    EqualParts s R (.dict r) (.dict q)

theorem equalIn?_eq_true_iff : s.equalIn? n a b = some true ↔
    s.SameLeaf a b ∨ (a = b ∧ a.IsContainer) ∨
      ∃ m, n = m + 1 ∧ s.EqualParts (fun x y => s.equalIn? m x y = some true) a b := by
  constructor
  · fun_cases equalIn? s n a b with
    | case11 | case13 | case16 | case18 => exact fun _ => .inr (.inl ⟨by simp_all, trivial⟩)
    | case14 m r q hne hsize =>
      exact fun h => .inr (.inr ⟨m, rfl, .array (equalLists?_eq_true_iff.1 h)⟩)
    | case19 m r q hne hsize =>
      exact fun h => .inr (.inr ⟨m, rfl, .dict ⟨hsize, entriesIn?_eq_true_iff.1 h⟩⟩)
    | _ => simp_all [SameLeaf]
  · rintro (h | ⟨rfl, ha⟩ | ⟨m, rfl, h⟩)
    · fun_cases SameLeaf s a b <;> simp_all [equalIn?, SameLeaf]
    · cases a with
      | array r | dict r => cases n <;> simp [equalIn?]
      | _ => exact ha.elim
    · cases h with
      | @array r q h =>
        have hsize : (s.array r).size = (s.array q).size := h.length_eq
        simp [equalIn?, hsize, equalLists?_eq_true_iff.2 h]
      | dict h => simp [equalIn?, h.1, entriesIn?_eq_true_iff.2 h.2]

theorem EqualParts.isContainer {R : Value → Value → Prop} (h : s.EqualParts R a b) :
    a.IsContainer ∧ b.IsContainer := by
  cases h <;> exact ⟨trivial, trivial⟩

/-- The parts of an array are compared in order, those of dictionaries the other way round. -/
theorem EqualParts.imp {R R' : Value → Value → Prop} (h : s.EqualParts R a b)
    (hR : ∀ x y, s.Inside x a ∧ s.Inside y b ∨ s.Inside x b ∧ s.Inside y a → R x y → R' x y) :
    s.EqualParts R' a b := by
  cases h with
  | @array r q h =>
    refine .array (List.forall₂_iff_get.2 ⟨h.length_eq, fun i hi hj => ?_⟩)
    exact hR _ _ (.inl ⟨List.get_mem _ ⟨i, hi⟩, List.get_mem _ ⟨i, hj⟩⟩) (h.get hi hj)
  | @dict r q h =>
    refine .dict ⟨h.1, fun e he => ?_⟩
    obtain ⟨v, hv, hve⟩ := h.2 e he
    obtain ⟨f, hf, -, rfl⟩ := Dict.exists_of_get hv
    exact ⟨f.value, hv, hR _ _ (.inr ⟨inside_value hf, inside_value he⟩) hve⟩

/-! ### Comparing acyclic values comes to an end -/

theorem isSome_equalIn? (h : s.Nests n a ∨ s.Nests n b) : (s.equalIn? n a b).isSome := by
  induction n using Nat.strongRecOn generalizing a b with
  | ind n ih =>
    fun_cases equalIn? s n a b with
    | case12 | case17 => exact h.elim (absurd trivial) (absurd trivial)
    | case14 n r q =>
      refine isSome_equalLists? fun x hx y hy => ih n n.lt_succ_self ?_
      exact h.imp (fun h => h x (inside_array hx)) fun h => h y (inside_array hy)
    | case19 n r q =>
      refine isSome_entriesIn? fun e he v hv => ih n n.lt_succ_self ?_
      obtain ⟨f, hf, -, rfl⟩ := Dict.exists_of_get hv
      exact h.symm.imp (fun h => h _ (inside_value hf)) fun h => h _ (inside_value he)
    | _ => rfl

/-- What does not nest deeper than the bound is compared the same with a higher one. -/
theorem equalIn?_succ_iff (h : s.Nests n a ∨ s.Nests n b) :
    s.equalIn? (n + 1) a b = some true ↔ s.equalIn? n a b = some true := by
  induction n generalizing a b with
  | zero =>
    rw [equalIn?_eq_true_iff, equalIn?_eq_true_iff]
    refine or_congr_right (or_congr_right ⟨?_, ?_⟩)
    · rintro ⟨m, -, hp⟩
      exact absurd h (not_or.2 ⟨not_not.2 hp.isContainer.1, not_not.2 hp.isContainer.2⟩)
    · rintro ⟨m, hm, -⟩
      cases hm
  | succ n ih =>
    have hpart : ∀ x y, s.Inside x a ∧ s.Inside y b ∨ s.Inside x b ∧ s.Inside y a →
        (s.equalIn? (n + 1) x y = some true ↔ s.equalIn? n x y = some true) := fun x y hxy => by
      refine ih ?_
      obtain ⟨hx, hy⟩ | ⟨hx, hy⟩ := hxy
      · exact h.imp (fun h => h x hx) fun h => h y hy
      · exact h.symm.imp (fun h => h x hx) fun h => h y hy
    rw [equalIn?_eq_true_iff, equalIn?_eq_true_iff]
    refine or_congr_right (or_congr_right ⟨?_, ?_⟩)
    · rintro ⟨m, ⟨⟩, hp⟩
      exact ⟨n, rfl, hp.imp fun x y hxy => (hpart x y hxy).1⟩
    · rintro ⟨m, ⟨⟩, hp⟩
      exact ⟨n + 1, rfl, hp.imp fun x y hxy => (hpart x y hxy).2⟩

/-! ### The laws -/

/-- Every dictionary in a value is intact. -/
def IntactIn (s : Store) (v : Value) : Prop := ∀ r, s.Within (.dict r) v → (s.dict r).Intact s

theorem IntactIn.part {u v : Value} (h : s.IntactIn v) (hu : s.Inside u v) : s.IntactIn u :=
  fun r hr => h r (hr.part hu)

theorem IntactIn.filed {r : Ref .dict} (h : s.IntactIn (.dict r)) : Dict.Filed s (s.dict r) :=
  (h r (.refl s _)).filed

theorem equalIn?_symm (ha : s.IntactIn a) (hb : s.IntactIn b) (h : s.equalIn? n a b = some true) :
    s.equalIn? n b a = some true := by
  -- The parts are compared with a lower bound, those of a dictionary from the other side.
  induction n using Nat.strongRecOn generalizing a b with
  | ind n ih =>
    rw [equalIn?_eq_true_iff] at h ⊢
    obtain h | ⟨rfl, hc⟩ | ⟨m, rfl, hp⟩ := h
    · exact .inl h.symm
    · exact .inr (.inl ⟨rfl, hc⟩)
    · refine .inr (.inr ⟨m, rfl, ?_⟩)
      cases hp with
      | array h =>
        refine .array (List.forall₂_iff_get.2 ⟨h.length_eq.symm, fun i hi hj => ?_⟩)
        exact ih m m.lt_succ_self (ha.part (List.get_mem _ ⟨i, hj⟩))
          (hb.part (List.get_mem _ ⟨i, hi⟩))
          (h.get hj hi)
      | dict h =>
        refine .dict (h.symm ha.filed hb.filed fun e he f hf => ?_)
        exact ih m m.lt_succ_self (hb.part (inside_value hf)) (ha.part (inside_value he))

theorem equalIn?_trans (hab : s.equalIn? n a b = some true) (hbc : s.equalIn? n b c = some true) :
    s.equalIn? n a c = some true := by
  induction n using Nat.strongRecOn generalizing a b c with
  | ind n ih =>
    rw [equalIn?_eq_true_iff] at hab hbc ⊢
    obtain hab | ⟨rfl, -⟩ | ⟨m, rfl, hab⟩ := hab
    · obtain hbc | ⟨rfl, -⟩ | ⟨m, -, hbc⟩ := hbc
      · exact .inl (hab.trans hbc)
      · exact .inl hab
      · exact absurd hbc.isContainer.1 hab.not_isContainer.2
    · exact hbc
    · refine .inr (.inr ⟨m, rfl, ?_⟩)
      obtain hbc | ⟨rfl, -⟩ | ⟨_, ⟨⟩, hbc⟩ := hbc
      · exact absurd hab.isContainer.2 hbc.not_isContainer.1
      · exact hab
      · cases hab with
        | array h =>
          cases hbc with
          | array h' =>
            exact .array (forall₂_trans_of_mem (fun _ _ _ _ => ih m m.lt_succ_self) h h')
        | dict h =>
          cases hbc with
          | dict h' => exact .dict (h.trans h' fun _ _ _ => ih m m.lt_succ_self)

end Store

/-- A value that is not, and does not quote, what is no number. -/
def Value.Numeric : Value → Prop
  | .num x => x.isNaN = false
  | .quote e => e.Numeric
  | _ => True

namespace Store

variable {s : Store} {a b : Value}

theorem equalIn?_self (h : a.Numeric) (n : Nat) : s.equalIn? n a a = some true := by
  rw [equalIn?_eq_true_iff]
  cases a with
  | num x => exact .inl (Decimal.beq_self h)
  | quote e => exact .inl (Expr.same_self h)
  | array | dict => exact .inr (.inl ⟨rfl, trivial⟩)
  | _ => exact .inl (by simp [SameLeaf])

theorem equal?_self (h : a.Numeric) : s.equal? a a = some true := equalIn?_self h _

theorem hashKey?_of_equal? (h : s.equal? a b = some true) : s.hashKey? a = s.hashKey? b := by
  obtain h | ⟨rfl, -⟩ | ⟨m, -, h⟩ := equalIn?_eq_true_iff.1 h
  · fun_cases SameLeaf s a b <;> simp_all [SameLeaf, hashKey?]
  · rfl
  · cases h <;> rfl

theorem equalDicts?_iff {d d' : Dict} : s.equalDicts? d d' = some true ↔
    d.Covers s (fun v w => s.equal? v w = some true) d' := by
  rw [equalDicts?, Dict.Covers, ← entriesIn?_eq_true_iff]
  split <;> simp_all

theorem equal?_dict_iff {r q : Ref .dict} (hne : r ≠ q) (h : s.Acyclic (.dict r)) :
    s.equal? (.dict r) (.dict q) = some true ↔ s.equalDicts? (s.dict r) (s.dict q) = some true := by
  have hpart : ∀ x y,
      s.Inside x (.dict r) ∧ s.Inside y (.dict q) ∨ s.Inside x (.dict q) ∧ s.Inside y (.dict r) →
      (s.equal? x y = some true ↔ s.equalIn? s.nesting x y = some true) := fun x y hxy =>
    equalIn?_succ_iff (hxy.imp (fun hx => h.nests x hx.1) fun hy => h.nests y hy.2)
  rw [equalDicts?_iff, equal?, equalIn?_eq_true_iff]
  constructor
  · rintro (hl | ⟨⟨⟩, -⟩ | ⟨_, ⟨⟩, hp⟩)
    · exact hl.elim
    · exact absurd rfl hne
    · cases hp.imp fun x y hxy => (hpart x y hxy).2 with
      | dict hc => exact hc
  · intro hc
    exact .inr (.inr ⟨s.nesting, rfl, (EqualParts.dict hc).imp fun x y hxy => (hpart x y hxy).1⟩)

/-- Values that do not contain themselves can be compared. Equality is symmetric on values with
intact dictionaries, and transitive; a value is equal to itself unless it is no number, and equal
keys are filed under the same hash key. Two dictionaries are equal if the same keys have a value in
both, and equal ones, in whatever order they were put in; comparing values compares them in this
way. -/
theorem equality_laws (s : Store) :
    (∀ a b, s.Acyclic a ∨ s.Acyclic b → (s.equal? a b).isSome) ∧
    (∀ a b, s.IntactIn a → s.IntactIn b → s.equal? a b = some true → s.equal? b a = some true) ∧
    (∀ a b c, s.equal? a b = some true → s.equal? b c = some true → s.equal? a c = some true) ∧
    (∀ a : Value, a.Numeric → s.equal? a a = some true) ∧
    (∀ a b, s.equal? a b = some true → s.hashKey? a = s.hashKey? b) ∧
    (∀ r q, r ≠ q → s.Acyclic (.dict r) →
      (s.equal? (.dict r) (.dict q) = some true ↔
        s.equalDicts? (s.dict r) (s.dict q) = some true)) ∧
    ∀ d d' hist hist' held held', Dict.History hist ⟨s, d, held⟩ →
      Dict.History hist' ⟨s, d', held'⟩ →
      (s.equalDicts? d d' = some true ↔ ∀ key, key.IsKey →
        (d.get s key = .ok none ∧ d'.get s key = .ok none) ∨
        ∃ v w, d.get s key = .ok (some v) ∧ d'.get s key = .ok (some w) ∧
        s.equal? w v = some true) := by
  refine ⟨fun a b h => ?_, fun a b => equalIn?_symm, fun a b c => equalIn?_trans,
    fun a => equal?_self,
    fun a b => hashKey?_of_equal?, fun r q => equal?_dict_iff, ?_⟩
  · exact isSome_equalIn? (h.imp Acyclic.nests Acyclic.nests)
  · intro d d' hist hist' held held' h h'
    exact equalDicts?_iff.trans (Dict.covers_iff h.kept.filed h'.kept.filed)

/-- Two dictionaries with the same keys, put in one way round and the other, over equal arrays. -/
def mirrored : Store where
  texts := #["$len$", "$len$", "$len$"]
  arrays := #[#[.int 1], #[.int 1]]
  dicts :=
    let text : HashKey := ⟨.text, Text.digest "$len$"⟩
    #[⟨[⟨.text ⟨1⟩, .array ⟨0⟩⟩, ⟨.bool true, .int 2⟩], [(text, [0]), (⟨.bool, 1⟩, [1])]⟩,
      ⟨[⟨.bool true, .int 2⟩, ⟨.text ⟨2⟩, .array ⟨1⟩⟩], [(⟨.bool, 1⟩, [0]), (text, [1])]⟩]

theorem history_mirrored :
    (∃ held, Dict.History [(.text "$len$", .array ⟨0⟩), (.bool true, .int 2)]
      ⟨mirrored, mirrored.dict ⟨0⟩, held⟩) ∧
    ∃ held, Dict.History [(.bool true, .int 2), (.text "$len$", .array ⟨1⟩)]
      ⟨mirrored, mirrored.dict ⟨1⟩, held⟩ := by
  have h₀ := (Dict.History.new { mirrored with texts := #["$len$"] }).insert
    (.text ⟨0⟩) (.array ⟨0⟩) rfl rfl
  have h₁ := h₀.insert (.bool true) (.int 2) rfl rfl
  have h₂ := (Dict.History.new { mirrored with texts := #["$len$", "$len$"] }).insert
    (.bool true) (.int 2) rfl rfl
  have h₃ := h₂.insert (.text ⟨0⟩) (.array ⟨1⟩) rfl rfl
  refine ⟨⟨_, h₁.change (t := mirrored) (by decide) fun r hr _ => ?_⟩, ⟨_, h₃⟩⟩
  obtain ⟨_ | _ | i⟩ := r
  · rfl
  · rfl
  · exact absurd hr (by simp [mirrored])

theorem intact_mirrored (r : Ref .dict) : (mirrored.dict r).Intact mirrored := by
  obtain ⟨⟨_, h⟩, _, h'⟩ := history_mirrored
  obtain ⟨_ | _ | i⟩ := r
  · exact h.kept.filed.intact
  · exact h'.kept.filed.intact
  · exact (Dict.filed_empty mirrored).intact

/-- The values that stand in an array or in a dictionary. -/
theorem inside_mirrored {u v : Value} (h : mirrored.Inside u v) :
    ((∃ r, v = .array r) ∧ u = .int 1) ∨
      (∃ r, v = .dict r) ∧ u ∈ [.text ⟨1⟩, .text ⟨2⟩, .bool true, .int 2, .array ⟨0⟩,
        .array ⟨1⟩] := by
  obtain ⟨r, rfl, hr⟩ | ⟨r, rfl, hr⟩ := exists_array_or_dict h
  · refine .inl ⟨⟨r, rfl⟩, ?_⟩
    obtain ⟨_ | _ | i⟩ := r
    · exact List.mem_singleton.1 h
    · exact List.mem_singleton.1 h
    · exact absurd hr (by simp [mirrored])
  · refine .inr ⟨⟨r, rfl⟩, ?_⟩
    obtain ⟨_ | _ | i⟩ := r
    · change u ∈ [.text ⟨1⟩, .array ⟨0⟩, .bool true, .int 2] at h
      grind
    · change u ∈ [.bool true, .int 2, .text ⟨2⟩, .array ⟨1⟩] at h
      grind
    · exact absurd hr (by simp [mirrored])

/-- Dictionaries rank above arrays, and these above all else. -/
def tier : Value → Nat
  | .dict _ => 2
  | .array _ => 1
  | _ => 0

theorem acyclic_mirrored (v : Value) : mirrored.Acyclic v := by
  refine acyclic_of_rank tier (fun u v hu => ?_) v
  obtain ⟨⟨r, rfl⟩, rfl⟩ | ⟨⟨r, rfl⟩, hm⟩ := inside_mirrored hu
  · simp [tier]
  · simp only [List.mem_cons, List.not_mem_nil, or_false] at hm
    obtain rfl | rfl | rfl | rfl | rfl | rfl := hm <;> simp [tier]

theorem equality_laws_mirrored :
    (∀ v, mirrored.Acyclic v) ∧ (∀ v, mirrored.IntactIn v) ∧
    mirrored.equal? (.dict ⟨0⟩) (.dict ⟨1⟩) = some true ∧
    mirrored.equal? (.dict ⟨1⟩) (.dict ⟨0⟩) = some true ∧
    (mirrored.equal? (.dict ⟨0⟩) (.array ⟨0⟩)).isSome ∧
    ∀ key, key.IsKey → ((mirrored.dict ⟨0⟩).get mirrored key = .ok none ∧
        (mirrored.dict ⟨1⟩).get mirrored key = .ok none) ∨
      ∃ v w, (mirrored.dict ⟨0⟩).get mirrored key = .ok (some v) ∧
        (mirrored.dict ⟨1⟩).get mirrored key = .ok (some w) ∧ mirrored.equal? w v = some true := by
  obtain ⟨hsome, hsymm, -, -, -, hdict, hcover⟩ := equality_laws mirrored
  obtain ⟨⟨held, h⟩, held', h'⟩ := history_mirrored
  have hin : ∀ v, mirrored.IntactIn v := fun v r _ => intact_mirrored r
  have heq : mirrored.equal? (.dict ⟨0⟩) (.dict ⟨1⟩) = some true := by decide +kernel
  have hac := acyclic_mirrored
  refine ⟨hac, hin, heq, hsymm _ _ (hin _) (hin _) heq, hsome _ _ (.inl (hac _)), ?_⟩
  exact (hcover _ _ _ _ _ _ h h').1 ((hdict _ _ (by decide) (hac _)).1 heq)

end Store

namespace Session

/-- Changes the key of a dictionary, the first one of the session, and makes the third one with that
key. -/
def lopsided : String :=
  "h := %\x7b\"ab\": \"x\"\x7d; yolo \x7b k := (-h)[\"x\"]; k[0] = \"z\" \x7d; " ++
    "g := %\x7b\"zb\": \"x\"\x7d"

/-- What is found of the changed dictionary in the other is not found the other way round. -/
theorem not_symm_lopsided :
    (new.runAll [lopsided]).2.store.equal? (.dict ⟨0⟩) (.dict ⟨2⟩) = some true ∧
      (new.runAll [lopsided]).2.store.equal? (.dict ⟨2⟩) (.dict ⟨0⟩) = some false := by
  decide +kernel

end Session

end YeetYoink
