import YeetYoink.Proofs.Value.Literal

/-!
# Negating twice

The opposites of integers, booleans, texts, ranges, arrays of these and dictionaries from keys to
keys are described outside of any store (`Datum.opposite`), where the opposite of the opposite is
what was there. A value of a store denotes such a datum (`Store.Denotes`), and goes on to do so in a
store that grows. Negating it gives a value that denotes the opposite and only adds to the store
(`negates_negate`). Two values that denote one datum are equal.

Exchanging keys and values keeps every entry if neither the keys nor the values repeat. An intact
dictionary has no key twice; one whose keys were changed may, and then negating twice loses an entry
(`Session.involution_merging`).
-/

namespace YeetYoink

/-! ### Data and their opposites -/

theorem Yolo.rot13_rot13 (c : Char) : rot13 (rot13 c) = c := by
  by_cases hc : c.toNat < 128
  · have hall : ∀ n : Fin 128, rot13 (rot13 (Char.ofNat n)) = Char.ofNat n := by decide
    simpa using hall ⟨c.toNat, hc⟩
  · -- No letter lies so high.
    have hlt : ∀ d : Char, d.toNat < 128 → ¬ c ≤ d := fun d hd hle => hc (Nat.lt_of_le_of_lt hle hd)
    have hsame : rot13 c = c := by
      rw [rot13, if_neg, if_neg]
      · rintro (⟨-, h⟩ | ⟨-, h⟩) <;> exact hlt _ (by decide) h
      · rintro (⟨-, h⟩ | ⟨-, h⟩) <;> exact hlt _ (by decide) h
    rw [hsame, hsame]

def Key.opposite : Key → Key
  | .int n => .int (-n)
  | .bool b => .bool (!b)
  | .text x => .text (String.ofList (x.toList.map Yolo.rot13))

theorem Key.opposite_opposite (k : Key) : k.opposite.opposite = k := by
  cases k with
  | int n => simp [opposite]
  | bool b => simp [opposite]
  | text x => simp [opposite, Function.comp_def, Yolo.rot13_rot13]

/-- Keys with keys as their values, none of them twice on either side. -/
structure Pairing where
  pairs : List (Key × Key)
  keys : (pairs.map Prod.fst).Nodup
  values : (pairs.map Prod.snd).Nodup

def Pairing.swap (p : Pairing) : Pairing where
  pairs := p.pairs.map Prod.swap
  keys := by simpa [Function.comp_def] using p.values
  values := by simpa [Function.comp_def] using p.keys

theorem Pairing.swap_swap (p : Pairing) : p.swap.swap = p := by
  simp [swap]

/-- What a value denotes, outside of any store. -/
inductive Datum where
  | key (k : Key)
  | range (first last : Int64)
  | array (ds : List Datum)
  | dict (p : Pairing)

namespace Datum

def opposite : Datum → Datum
  | .key k => .key k.opposite
  | .range first last => .range last first
  | .array ds => .array (ds.map opposite)
  | .dict p => .dict p.swap

theorem opposite_opposite (d : Datum) : d.opposite.opposite = d := by
  induction d using opposite.induct with
  | case1 k => rw [opposite, opposite, k.opposite_opposite]
  | case2 first last => rw [opposite, opposite]
  | case3 ds ih =>
    rw [opposite, opposite, List.map_map]
    exact congrArg array ((List.map_congr_left ih).trans (List.map_id ds))
  | case4 p => rw [opposite, opposite, p.swap_swap]

end Datum

/-! ### Lists side by side -/

section

variable {α β γ : Type} {R : γ → α → Prop} {S : γ → β → Prop} {xs : List α} {ys : List β}
    {ds : List γ}

theorem forall₂_of_left {T : α → β → Prop} (h : ∀ d ∈ ds, ∀ x ∈ xs, ∀ y, R d x → S d y → T x y)
    (hx : List.Forall₂ R ds xs) (hy : List.Forall₂ S ds ys) : List.Forall₂ T xs ys := by
  induction hx generalizing ys with
  | nil =>
    cases hy
    exact .nil
  | cons hx _ ih =>
    cases hy with
    | cons hy hys =>
      refine .cons (h _ List.mem_cons_self _ List.mem_cons_self _ hx hy)
        (ih (fun d hd x hx => ?_) hys)
      exact h d (List.mem_cons_of_mem _ hd) x (List.mem_cons_of_mem _ hx)

theorem exists_forall₂ (h : ∀ x ∈ xs, ∃ d, R d x) : ∃ ds, List.Forall₂ R ds xs := by
  induction xs with
  | nil => exact ⟨[], .nil⟩
  | cons x xs ih =>
    obtain ⟨⟨d, hd⟩, hxs⟩ := List.forall_mem_cons.1 h
    obtain ⟨ds, hds⟩ := ih hxs
    exact ⟨d :: ds, .cons hd hds⟩

end

/-! ### Values that denote a datum -/

namespace Store

/-- A value that can be a key, and which one it is. -/
inductive DenotesKey (s : Store) : Key → Value → Prop where
  | int (n : Int64) : DenotesKey s (.int n) (.int n)
  | bool (b : Bool) : DenotesKey s (.bool b) (.bool b)
  | text {x : String} {r : Ref .text} (hr : s.Made (.text r)) (h : s.text r = x) :
      DenotesKey s (.text x) (.text r)

structure DenotesPair (s : Store) (p : Key × Key) (e : Entry) : Prop where
  key : s.DenotesKey p.1 e.key
  value : s.DenotesKey p.2 e.value

structure DenotesPairs (s : Store) (ps : List (Key × Key)) (d : Dict) : Prop where
  filed : d.Filed s
  pairs : List.Forall₂ s.DenotesPair ps d.entries

inductive Denotes (s : Store) : Datum → Value → Prop where
  | key {k : Key} {v : Value} (h : s.DenotesKey k v) : Denotes s (.key k) v
  | range (first last : Int64) : Denotes s (.range first last) (.range first last)
  | array {ds : List Datum} {r : Ref .array} (hr : s.Made (.array r))
      (h : List.Forall₂ (Denotes s) ds (s.array r).toList) : Denotes s (.array ds) (.array r)
  | dict {p : Pairing} {r : Ref .dict} (hr : s.Made (.dict r))
      (h : s.DenotesPairs p.pairs (s.dict r)) : Denotes s (.dict p) (.dict r)

variable {s t : Store} {v w : Value} {k : Key} {d : Datum} {n : Nat}

theorem DenotesKey.key?_eq (h : s.DenotesKey k v) : s.key? v = some k := by
  cases h with
  | text _ h => rw [key?, h]
  | _ => rfl

theorem denotesKey_newText (s : Store) (x : String) :
    (s.newText x).2.DenotesKey (.text x) (.text (s.newText x).1) :=
  .text (by simp [Made, newText]) (s.text_newText x)

theorem exists_denotesKey (hk : v.IsKey) (hm : s.Made v) : ∃ k, s.DenotesKey k v := by
  cases v with
  | int n => exact ⟨_, .int n⟩
  | bool b => exact ⟨_, .bool b⟩
  | text r => exact ⟨_, .text hm rfl⟩
  | _ => exact hk.elim

/-! ### In a store that grows -/

namespace Adds

theorem text (h : s.Adds t) {r : Ref .text} (hr : s.Made (.text r)) : t.text r = s.text r := by
  rw [Store.text, h.texts.getElem? hr, Store.text]

theorem array (h : s.Adds t) {r : Ref .array} (hr : s.Made (.array r)) : t.array r = s.array r := by
  rw [Store.array, h.arrays.getElem? hr, Store.array]

theorem dict (h : s.Adds t) {r : Ref .dict} (hr : s.Made (.dict r)) : t.dict r = s.dict r := by
  rw [Store.dict, h.dicts.getElem? hr, Store.dict]

theorem made (h : s.Adds t) (hv : s.Made v) : t.Made v := by
  cases v with
  | text r => exact Nat.lt_of_lt_of_le hv h.texts.size_le
  | array r => exact Nat.lt_of_lt_of_le hv h.arrays.size_le
  | dict r => exact Nat.lt_of_lt_of_le hv h.dicts.size_le
  | _ => trivial

end Adds

theorem DenotesKey.adds (h : s.DenotesKey k v) (ht : s.Adds t) : t.DenotesKey k v := by
  cases h with
  | int n => exact .int n
  | bool b => exact .bool b
  | text hr h => exact .text (ht.made hr) ((ht.text hr).trans h)

theorem DenotesPair.adds {p : Key × Key} {e : Entry} (h : s.DenotesPair p e) (ht : s.Adds t) :
    t.DenotesPair p e where
  key := h.key.adds ht
  value := h.value.adds ht

theorem DenotesPairs.adds {ps : List (Key × Key)} {d : Dict} (h : s.DenotesPairs ps d)
    (ht : s.Adds t) : t.DenotesPairs ps d where
  filed := h.filed.congr_key fun e he => by
    obtain ⟨p, -, hp⟩ := exists_mem_left h.pairs he
    exact (hp.key.adds ht).key?_eq.trans hp.key.key?_eq.symm
  pairs := h.pairs.imp fun _ _ he => he.adds ht

theorem Denotes.adds (h : s.Denotes d v) (ht : s.Adds t) : t.Denotes d v := by
  induction d using Datum.opposite.induct generalizing v with
  | case1 k =>
    cases h with
    | key h => exact .key (h.adds ht)
  | case2 first last =>
    cases h
    exact .range first last
  | case3 ds ih =>
    cases h with
    | array hr h =>
      refine .array (ht.made hr) ?_
      rw [ht.array hr]
      exact ((List.forall₂_and_left _ _).2 ⟨ih, h⟩).imp fun d u hu => hu.1 hu.2
  | case4 p =>
    cases h with
    | dict hr h =>
      refine .dict (ht.made hr) ?_
      rw [ht.dict hr]
      exact h.adds ht

/-- The key that nobody else holds is the same one. -/
theorem DenotesKey.detach (h : s.DenotesKey k v) :
    ∃ w t, Dict.detach v s = .ok w t ∧ s.Adds t ∧ t.DenotesKey k w := by
  cases h with
  | int n => exact ⟨_, s, rfl, .refl s, .int n⟩
  | bool b => exact ⟨_, s, rfl, .refl s, .bool b⟩
  | text _ h =>
    subst h
    exact ⟨_, _, rfl, .newText s _, s.denotesKey_newText _⟩

/-! ### How deep they nest -/

theorem DenotesKey.acc (h : s.DenotesKey k v) : Acc s.Inside v := by
  cases h <;> exact .intro _ fun u hu => nomatch hu

theorem Denotes.acc (h : s.Denotes d v) : Acc s.Inside v := by
  induction d using Datum.opposite.induct generalizing v with
  | case1 k =>
    cases h with
    | key h => exact h.acc
  | case2 first last =>
    cases h
    exact .intro _ fun u hu => nomatch hu
  | case3 ds ih =>
    cases h with
    | array hr h =>
      refine .intro _ fun u hu => ?_
      obtain ⟨d, hd, hdu⟩ := exists_mem_left h hu
      exact ih d hd hdu
  | case4 p =>
    cases h with
    | dict hr h =>
      refine .intro _ fun u hu => ?_
      obtain ⟨e, he, hue⟩ := List.mem_flatMap.1 hu
      obtain ⟨q, -, hq⟩ := exists_mem_left h.pairs he
      simp only [List.mem_cons, List.not_mem_nil, or_false] at hue
      obtain rfl | rfl := hue
      · exact hq.key.acc
      · exact hq.value.acc

theorem Denotes.nests (h : s.Denotes d v) : s.Nests (s.nesting + 1) v :=
  (acyclic_of_acc h.acc).nests

/-! ### Values that denote the same -/

theorem DenotesKey.alike (hv : s.DenotesKey k v) (hw : t.DenotesKey k w) : s.Alike t v w := by
  cases hv with
  | int | bool =>
    cases hw
    exact .plain trivial
  | text _ hv =>
    cases hw with
    | text _ hw => exact .text (hw.trans hv.symm)

theorem DenotesPair.alike {p : Key × Key} {e f : Entry} (he : s.DenotesPair p e)
    (hf : t.DenotesPair p f) :
    s.AlikeEntry t e f :=
  .mk (he.key.alike hf.key) (he.value.alike hf.value)

theorem Denotes.alike (hv : s.Denotes d v) (hw : t.Denotes d w) : s.Alike t v w := by
  induction d using Datum.opposite.induct generalizing v w with
  | case1 k =>
    cases hv with
    | key hv =>
      cases hw with
      | key hw => exact hv.alike hw
  | case2 first last =>
    cases hv
    cases hw
    exact .plain trivial
  | case3 ds ih =>
    cases hv with
    | array _ hv =>
      cases hw with
      | array _ hw => exact .array (forall₂_of_left (fun d hd _ _ _ => ih d hd) hv hw)
  | case4 p =>
    cases hv with
    | dict _ hv =>
      cases hw with
      | dict _ hw =>
        refine alike_dict hv.filed hw.filed ?_
        exact forall₂_of_left (fun _ _ _ _ _ he hf => he.alike hf) hv.pairs hw.pairs

theorem nodup_iff_of_denotes {ks : List Key} {vs : List Value}
    (h : List.Forall₂ s.DenotesKey ks vs) :
    (vs.map s.key?).Nodup ↔ ks.Nodup := by
  have hmap : vs.map s.key? = ks.map some := by
    induction h with
    | nil => rfl
    | cons h _ ih => rw [List.map_cons, List.map_cons, h.key?_eq, ih]
  rw [hmap, List.nodup_map_iff (Option.some_injective Key)]

theorem nodup_keys_iff {ps : List (Key × Key)} {es : List Entry}
    (h : List.Forall₂ s.DenotesPair ps es) :
    (es.map fun e => s.key? e.key).Nodup ↔ (ps.map Prod.fst).Nodup := by
  have hkeys : List.Forall₂ s.DenotesKey (ps.map Prod.fst) (es.map Entry.key) :=
    List.forall₂_map_left_iff.2 (List.forall₂_map_right_iff.2 (h.imp fun _ _ he => he.key))
  rw [← nodup_iff_of_denotes hkeys, List.map_map, Function.comp_def]

theorem nodup_values_iff {ps : List (Key × Key)} {es : List Entry}
    (h : List.Forall₂ s.DenotesPair ps es) :
    (es.map fun e => s.key? e.value).Nodup ↔ (ps.map Prod.snd).Nodup := by
  have hvalues : List.Forall₂ s.DenotesKey (ps.map Prod.snd) (es.map Entry.value) :=
    List.forall₂_map_left_iff.2 (List.forall₂_map_right_iff.2 (h.imp fun _ _ he => he.value))
  rw [← nodup_iff_of_denotes hvalues, List.map_map, Function.comp_def]

theorem DenotesKey.sameKey (hv : s.DenotesKey k v) (hw : s.DenotesKey k w) : s.sameKey v w :=
  sameKey_iff.2 ⟨k, hv.key?_eq, hw.key?_eq⟩

theorem DenotesKey.equalIn? (hv : s.DenotesKey k v) (hw : s.DenotesKey k w) :
    s.equalIn? n v w = some true := by
  refine equalIn?_eq_true_iff.2 (.inl ?_)
  cases hv with
  | int | bool =>
    cases hw
    rfl
  | text _ hv =>
    cases hw with
    | text _ hw => exact hv.trans hw.symm

/-- Each entry of the one is found in the other, as no key is there twice. -/
theorem covers_of_denotes {ps : List (Key × Key)} {d d' : Dict} (h : s.DenotesPairs ps d)
    (h' : s.DenotesPairs ps d') : d.Covers s (fun x y => s.equalIn? n x y = some true) d' := by
  refine ⟨h.pairs.length_eq.symm.trans h'.pairs.length_eq, fun e he => ?_⟩
  obtain ⟨q, hq, hqe⟩ := exists_mem_left h.pairs he
  obtain ⟨f, hf, hqf⟩ := exists_mem_left (R := flip s.DenotesPair) h'.pairs.flip hq
  have hget := h'.filed.get_eq hf (hqf.key.sameKey hqe.key)
  exact ⟨f.value, hget, hqf.value.equalIn? hqe.value⟩

theorem Denotes.equalIn? (hv : s.Denotes d v) (hw : s.Denotes d w) (hn : s.Nests n v) :
    s.equalIn? n v w = some true := by
  induction d using Datum.opposite.induct generalizing v w n with
  | case1 k =>
    cases hv with
    | key hv =>
      cases hw with
      | key hw => exact hv.equalIn? hw
  | case2 first last =>
    cases hv
    cases hw
    exact equalIn?_eq_true_iff.2 (.inl ⟨rfl, rfl⟩)
  | case3 ds ih =>
    cases hv with
    | array _ hv =>
      cases hw with
      | array _ hw =>
        cases n with
        | zero => exact absurd trivial hn
        | succ n =>
          refine equalIn?_eq_true_iff.2 (.inr (.inr ⟨n, rfl, .array (forall₂_of_left ?_ hv hw)⟩))
          exact fun d hd x hx y hdx hdy => ih d hd hdx hdy (hn x hx)
  | case4 p =>
    cases hv with
    | dict _ hv =>
      cases hw with
      | dict _ hw =>
        cases n with
        | zero => exact absurd trivial hn
        | succ n =>
          exact equalIn?_eq_true_iff.2 (.inr (.inr ⟨n, rfl, .dict (covers_of_denotes hv hw)⟩))

theorem Denotes.equal? (hv : s.Denotes d v) (hw : s.Denotes d w) : s.equal? v w = some true :=
  hv.equalIn? hw hv.nests

end Store

/-! ### Negating -/

namespace Yolo

open Store

variable {s t : Store} {v : Value} {k : Key} {d : Datum} {n : Nat}

theorem exists_opposite_key {f : Value → Eval Value} (h : s.DenotesKey k v) :
    ∃ w t, Operator.unary (opposite f) .minus v s = .ok w t ∧ s.Adds t ∧
      t.DenotesKey k.opposite w := by
  cases h with
  | int n => exact ⟨_, s, rfl, .refl s, .int (-n)⟩
  | bool b => exact ⟨_, s, rfl, .refl s, .bool (!b)⟩
  | text _ h =>
    subst h
    exact ⟨_, _, rfl, .newText s _, s.denotesKey_newText _⟩

/-- A function finds the opposite of what a value denotes, and adds only to the store, which may
have grown. -/
def Negates (f : Value → Eval Value) (s : Store) (d : Datum) (v : Value) : Prop :=
  ∀ t, s.Adds t → ∃ w t', f v t = .ok w t' ∧ t.Adds t' ∧ t'.Denotes d.opposite w

theorem exists_mapM_negates {f : Value → Eval Value} {ds : List Datum} {vs : List Value}
    (h : List.Forall₂ (Negates f s) ds vs) (ht : s.Adds t) :
    ∃ ws t', vs.mapM f t = .ok ws t' ∧ t.Adds t' ∧
      List.Forall₂ t'.Denotes (ds.map Datum.opposite) ws := by
  induction h generalizing t with
  | nil => exact ⟨[], t, rfl, .refl t, .nil⟩
  | @cons d v ds vs hv _ ih =>
    obtain ⟨w, t₁, hw, ht₁, hden⟩ := hv t ht
    obtain ⟨ws, t₂, hws, ht₂, hdens⟩ := ih (ht.trans ht₁)
    refine ⟨w :: ws, t₂, ?_, ht₁.trans ht₂, .cons (hden.adds ht₂) hdens⟩
    rw [List.mapM_cons]
    exact Expr.bind_eq_ok.2 ⟨w, t₁, hw, Expr.bind_eq_ok.2 ⟨ws, t₂, hws, rfl⟩⟩

/-- Putting in a key that is not there yet. -/
theorem exists_insert_denotes {ps : List (Key × Key)} {x : Key} {d : Dict} {key value : Value}
    (hd : s.DenotesPairs ps d) (hk : s.DenotesKey k key) (hx : s.DenotesKey x value)
    (hnew : k ∉ ps.map Prod.fst) :
    ∃ d' t, d.insert key value s = .ok d' t ∧ s.Adds t ∧ t.DenotesPairs (ps ++ [(k, x)]) d' := by
  obtain ⟨h, hh⟩ := exists_hashKey? hk.key?_eq
  have hne : ∀ e ∈ d.entries, s.key? e.key ≠ some k := fun e he hek => by
    obtain ⟨p, hp, hpe⟩ := exists_mem_left hd.pairs he
    have hpk : p.1 = k := Option.some.inj (hpe.key.key?_eq.symm.trans hek)
    exact hnew (hpk ▸ List.mem_map_of_mem hp)
  have hn := (hd.filed.place?_eq_none_iff_key hk.key?_eq hh).2 hne
  obtain ⟨key', t, hdet, ht, hk'⟩ := hk.detach
  have hkey : t.key? key' = s.key? key := hk'.key?_eq.trans hk.key?_eq.symm
  refine ⟨_, t, Dict.insert_eq_of_detached hh hn hdet, ht, ?_, ?_⟩
  · refine (hd.adds ht).filed.push ((hashKey?_congr hkey).trans hh) fun e he => ?_
    obtain ⟨p, -, hp⟩ := exists_mem_left hd.pairs he
    rw [sameKey_congr ((hp.key.adds ht).key?_eq.trans hp.key.key?_eq.symm) hkey]
    exact (hd.filed.place?_eq_none_iff hh).1 hn e he
  · exact List.rel_append (hd.adds ht).pairs (.cons ⟨hk', hx.adds ht⟩ .nil)

/-- The entries are put in one after the other, each under what was its value. -/
theorem exists_swapEntries (before : List (Key × Key)) {ps : List (Key × Key)} {es : List Entry}
    {d : Dict}
    (hn : ((before ++ ps.map Prod.swap).map Prod.fst).Nodup) (hd : s.DenotesPairs before d)
    (h : List.Forall₂ s.DenotesPair ps es) :
    ∃ d' t, swapEntries d es s = .ok d' t ∧ s.Adds t ∧
      t.DenotesPairs (before ++ ps.map Prod.swap) d' := by
  -- On the entries still to come; those in `before` are already in `d`, the other way round.
  induction ps generalizing before es d s with
  | nil =>
    cases h
    exact ⟨d, s, rfl, .refl s, by simpa using hd⟩
  | cons p ps ih =>
    cases h with
    | @cons _ e _ es he hes =>
      have hnew : p.2 ∉ before.map Prod.fst := fun hm => by
        rw [List.map_append, List.nodup_append] at hn
        exact hn.2.2 _ hm _ List.mem_cons_self rfl
      obtain ⟨d₁, t, hi, ht, hd₁⟩ := exists_insert_denotes hd he.value he.key hnew
      rw [List.map_cons, List.append_cons] at hn
      obtain ⟨d₂, u, hs, hu, hd₂⟩ :=
        ih (before ++ [p.swap]) hn hd₁ (hes.imp fun q f hf => hf.adds ht)
      refine ⟨d₂, u, ?_, ht.trans hu, by simpa using hd₂⟩
      obtain ⟨k, hk⟩ := exists_hashKey? he.value.key?_eq
      rw [swapEntries, Eval.get_bind, hk, Option.isSome_some, if_pos rfl]
      exact Expr.bind_eq_ok.2 ⟨d₁, t, hi, hs⟩

theorem negates_negate (h : s.Denotes d v) (hn : s.Nests n v) : Negates (negate (n + 1)) s d v := by
  -- Only arrays are negated element by element, with a lower bound.
  induction d using Datum.opposite.induct generalizing v n with
  | case1 k =>
    intro t ht
    cases h with
    | key h =>
      obtain ⟨w, t', hw, ht', hden⟩ := exists_opposite_key (f := negate n) (h.adds ht)
      refine ⟨w, t', hw, ht', ?_⟩
      rw [Datum.opposite]
      exact .key hden
  | case2 first last =>
    intro t ht
    cases h
    refine ⟨_, t, rfl, .refl t, ?_⟩
    rw [Datum.opposite]
    exact .range last first
  | case3 ds ih =>
    intro t ht
    cases h with
    | @array ds r hr h =>
      cases n with
      | zero => exact absurd trivial hn
      | succ n =>
        have hparts : List.Forall₂ (Negates (negate (n + 1)) s) ds (s.array r).toList := by
          refine List.forall₂_iff_get.2 ⟨h.length_eq, fun i hi hj => ?_⟩
          exact ih _ (List.get_mem ds ⟨i, hi⟩) (h.get hi hj) (hn _ (List.get_mem _ ⟨i, hj⟩))
        obtain ⟨ws, t', hws, ht', hdens⟩ := exists_mapM_negates hparts ht
        refine ⟨.array (t'.newArray ws.toArray).1, (t'.newArray ws.toArray).2, ?_,
          ht'.trans (.newArray t' _), ?_⟩
        · rw [← ht.array hr] at hws
          exact Expr.bind_eq_ok.2 ⟨t, t, rfl, Expr.bind_eq_ok.2 ⟨ws, t', hws, rfl⟩⟩
        · rw [Datum.opposite]
          refine .array (by simp [Made, Store.newArray]) ?_
          rw [array_newArray]
          exact hdens.imp fun d w hd => hd.adds (.newArray t' _)
  | case4 p =>
    intro t ht
    cases h with
    | @dict p r hr h =>
      have hnodup : (([] ++ p.pairs.map Prod.swap).map Prod.fst).Nodup := p.swap.keys
      obtain ⟨d, t', hd, ht', hdens⟩ :=
        exists_swapEntries [] (d := {}) hnodup ⟨Dict.filed_empty t, .nil⟩ (h.adds ht).pairs
      refine ⟨.dict (t'.newDict d).1, (t'.newDict d).2, ?_, ht'.trans (.newDict t' d), ?_⟩
      · rw [← ht.dict hr] at hd
        exact Expr.bind_eq_ok.2 ⟨t, t, rfl, Expr.bind_eq_ok.2 ⟨d, t', hd, rfl⟩⟩
      · rw [Datum.opposite]
        refine .dict (by simp [Made, Store.newDict]) ?_
        rw [dict_newDict]
        exact hdens.adds (.newDict t' d)

theorem exists_unary_minus (h : s.Denotes d v) :
    ∃ w t, Yolo.unary .minus v s = .ok w t ∧ s.Adds t ∧ t.Denotes d.opposite w :=
  negates_negate h h.nests s (.refl s)

end Yolo

/-! ### Negating twice -/

namespace Store

variable {s : Store} {v : Value}

/-- The values that negating twice gives back, as far as their dictionaries are intact. -/
inductive Reversible (s : Store) : Value → Prop where
  | int (n : Int64) : Reversible s (.int n)
  | bool (b : Bool) : Reversible s (.bool b)
  | text (r : Ref .text) : Reversible s (.text r)
  | range (first last : Int64) : Reversible s (.range first last)
  | array {r : Ref .array} (h : ∀ u ∈ (s.array r).toList, Reversible s u) : Reversible s (.array r)
  | dict {r : Ref .dict} (hk : ∀ e ∈ (s.dict r).entries, e.value.IsKey)
      (h : (s.dict r).entries.Pairwise fun a b => s.equal? a.value b.value = some false) :
      Reversible s (.dict r)

/-- Values that are not equal are not the same key. -/
theorem nodup_of_unequal {es : List Entry} (hk : ∀ e ∈ es, e.value.IsKey)
    (h : es.Pairwise fun a b => s.equal? a.value b.value = some false) :
    (es.map fun e => s.key? e.value).Nodup := by
  refine List.pairwise_map.2 (h.imp_of_mem fun {a b} ha _ hab heq => ?_)
  obtain ⟨k, hka⟩ := exists_key? (s := s) (hk a ha)
  rw [equal?_of_isKey (hk a ha), sameKey_iff.2 ⟨k, hka, heq ▸ hka⟩] at hab
  cases hab

theorem exists_denotes_dict {r : Ref .dict} (hm : s.MadeIn (.dict r)) (hi : s.IntactIn (.dict r))
    (hk : ∀ e ∈ (s.dict r).entries, e.value.IsKey)
    (h : (s.dict r).entries.Pairwise fun a b => s.equal? a.value b.value = some false) :
    ∃ d, s.Denotes d (.dict r) := by
  have hpair : ∀ e ∈ (s.dict r).entries, ∃ p, s.DenotesPair p e := fun e he => by
    obtain ⟨k, hkey⟩ := exists_denotesKey (hi.filed.keyed.isKey e he) (hm.part (inside_key he)).made
    obtain ⟨x, hvalue⟩ := exists_denotesKey (hk e he) (hm.part (inside_value he)).made
    exact ⟨(k, x), hkey, hvalue⟩
  obtain ⟨ps, hps⟩ := exists_forall₂ hpair
  have hkeys := (nodup_keys_iff hps).1 hi.filed.nodup_keys
  have hvalues := (nodup_values_iff hps).1 (nodup_of_unequal hk h)
  exact ⟨.dict ⟨ps, hkeys, hvalues⟩, .dict hm.made ⟨hi.filed, hps⟩⟩

theorem Reversible.exists_denotes (h : s.Reversible v) (hm : s.MadeIn v) (hi : s.IntactIn v) :
    ∃ d, s.Denotes d v := by
  induction h with
  | int n => exact ⟨_, .key (.int n)⟩
  | bool b => exact ⟨_, .key (.bool b)⟩
  | text r => exact ⟨_, .key (.text hm.made rfl)⟩
  | range first last => exact ⟨_, .range first last⟩
  | @array r _ ih =>
    obtain ⟨ds, hds⟩ := exists_forall₂ fun u hu => ih u hu (hm.part hu) (hi.part hu)
    exact ⟨.array ds, .array hm.made hds⟩
  | dict hk h => exact exists_denotes_dict hm hi hk h

end Store

/-- Negating twice gives a value that shows the same, with the entries of dictionaries in the same
order, and that is equal to the one it came from. The store only grows. -/
theorem Yolo.unary_minus_involutive {s : Store} {v : Value} (hv : s.Reversible v) (hm : s.MadeIn v)
    (hi : s.IntactIn v) :
    ∃ w t x u, Yolo.unary .minus v s = .ok w t ∧ Yolo.unary .minus w t = .ok x u ∧ s.Adds u ∧
      s.Alike u v x ∧ u.equal? x v = some true ∧ u.equal? v x = some true := by
  obtain ⟨d, hd⟩ := hv.exists_denotes hm hi
  obtain ⟨w, t, hw, ht, hdw⟩ := exists_unary_minus hd
  obtain ⟨x, u, hx, hu, hdx⟩ := exists_unary_minus hdw
  rw [d.opposite_opposite] at hdx
  have hdv := hd.adds (ht.trans hu)
  exact ⟨w, t, x, u, hw, hx, ht.trans hu, hd.alike hdx, hdx.equal? hdv, hdv.equal? hdx⟩

/-- Arrays in an array, with a dictionary from a text and an integer to a boolean and a text. -/
def Store.bundle : Store where
  texts := #["Ñab", "k", "x"]
  arrays := #[#[.int Int64.minValue, .text ⟨0⟩, .dict ⟨0⟩, .array ⟨1⟩], #[.range 3 (-1)]]
  dicts := #[⟨[⟨.text ⟨1⟩, .bool true⟩, ⟨.int 7, .text ⟨2⟩⟩],
    [(⟨.text, Text.digest "k"⟩, [0]), (⟨.int, 7⟩, [1])]⟩]

namespace Store

theorem reversible_bundle : bundle.Reversible (.array ⟨0⟩) := by
  have hin : bundle.Reversible (.array ⟨1⟩) :=
    .array fun u hu => List.mem_singleton.1 hu ▸ .range 3 (-1)
  have hdict : bundle.Reversible (.dict ⟨0⟩) := by
    refine .dict (fun e he => ?_) (.cons (fun b hb => ?_) (List.pairwise_singleton _ _))
    · change e ∈ [_, _] at he
      simp only [List.mem_cons, List.not_mem_nil, or_false] at he
      obtain rfl | rfl := he <;> trivial
    · rw [List.mem_singleton.1 hb]
      rfl
  refine .array fun u hu => ?_
  change u ∈ [_, _, _, _] at hu
  simp only [List.mem_cons, List.not_mem_nil, or_false] at hu
  obtain rfl | rfl | rfl | rfl := hu
  · exact .int _
  · exact .text _
  · exact hdict
  · exact hin

theorem madeIn_bundle : bundle.MadeIn (.array ⟨0⟩) := by
  refine madeIn_of_parts (fun u v hu => ?_) (by simp [Made, bundle])
  obtain ⟨⟨_ | _ | i⟩, rfl, hr⟩ | ⟨⟨_ | i⟩, rfl, hr⟩ := exists_array_or_dict hu
  · change u ∈ [_, _, _, _] at hu
    simp only [List.mem_cons, List.not_mem_nil, or_false] at hu
    obtain rfl | rfl | rfl | rfl := hu <;> simp [Made, bundle]
  · rw [List.mem_singleton.1 hu]
    trivial
  · simp [bundle] at hr
  · change u ∈ [_, _, _, _] at hu
    simp only [List.mem_cons, List.not_mem_nil, or_false] at hu
    obtain rfl | rfl | rfl | rfl := hu <;> simp [Made, bundle]
  · simp [bundle] at hr

theorem filed_bundle : Dict.Filed bundle (bundle.dict ⟨0⟩) := by
  have hfirst := (Dict.filed_empty bundle).push (k := .text ⟨1⟩) (v := .bool true) rfl
    fun e he => absurd he List.not_mem_nil
  refine hfirst.push (k := .int 7) (v := .text ⟨2⟩) rfl fun e he => ?_
  rw [List.mem_singleton.1 he]
  rfl

theorem intactIn_bundle (v : Value) : bundle.IntactIn v := by
  rintro ⟨_ | i⟩ -
  · exact filed_bundle.intact
  · exact (Dict.filed_empty bundle).intact

end Store

theorem Yolo.unary_minus_involutive_bundle :
    Store.bundle.Reversible (.array ⟨0⟩) ∧ Store.bundle.MadeIn (.array ⟨0⟩) ∧
    Store.bundle.IntactIn (.array ⟨0⟩) ∧
    ∃ w t x u, Yolo.unary .minus (.array ⟨0⟩) Store.bundle = .ok w t ∧
      Yolo.unary .minus w t = .ok x u ∧
      Store.bundle.Adds u ∧ Store.bundle.Alike u (.array ⟨0⟩) x ∧
        u.equal? x (.array ⟨0⟩) = some true ∧
      u.equal? (.array ⟨0⟩) x = some true := by
  have hv := Store.reversible_bundle
  have hm := Store.madeIn_bundle
  have hi := Store.intactIn_bundle (.array ⟨0⟩)
  exact ⟨hv, hm, hi, Yolo.unary_minus_involutive hv hm hi⟩

namespace Session

/-- Two entries of the dictionary show the same key, and only the last of them is left. -/
theorem involution_merging :
    answer? (merging ++ "; yolo \x7b -(-h) \x7d") = some "%\x7b\"zb\": 2\x7d" ∧
      answer? (merging ++ "; yolo \x7b -(-h) == h \x7d") = some "false" := by
  decide +kernel

end Session

end YeetYoink
