import YeetYoink.Proofs.Dict.Keys
import YeetYoink.Proofs.Store.Updates

/-!
# Dictionaries as lists of what was put in

`Store.key?` says what a value is as a key, without hash keys or references. A history is the list
of the pairs that were put into a new dictionary with success; between the inserts, whoever holds a
text may change it, also one that was given as a key (`History.change`). Each of these steps keeps
the table of the dictionary in order and its entries in step with the history (`Kept.insert`,
`Kept.change`). So a dictionary shows its history: each key once, in the order in which the keys
came, with the value given last, and that is what the table finds (`History.shows_pairs`).
-/

namespace YeetYoink

/-- What a key is, whoever holds it. -/
inductive Key where
  | int (n : Int64)
  | bool (b : Bool)
  | text (t : String)
  deriving DecidableEq, Repr

namespace Store

/-- What a value is as a key; `none` if it cannot be one. -/
def key? (s : Store) : Value → Option Key
  | .int n => some (.int n)
  | .bool b => some (.bool b)
  | .text r => some (.text (s.text r))
  | _ => none

section

variable {s t : Store}

/-- Two values are the same key if they are the same as keys. -/
theorem sameKey_iff {a b : Value} : s.sameKey a b ↔ ∃ k, s.key? a = some k ∧ s.key? b = some k := by
  cases a <;> cases b <;> simp [sameKey, key?, eq_comm]

theorem sameKey_iff_of_key? {a b : Value} {k : Key} (hb : s.key? b = some k) :
    s.sameKey a b ↔ s.key? a = some k := by
  rw [sameKey_iff]
  constructor
  · rintro ⟨j, ha, hj⟩
    rwa [← hb, hj]
  · exact fun ha => ⟨k, ha, hb⟩

/-- What a value is as a key decides what it is filed under. -/
theorem hashKey?_congr {a b : Value} (h : t.key? b = s.key? a) : t.hashKey? b = s.hashKey? a := by
  cases a <;> cases b <;> simp_all [key?, hashKey?]

theorem exists_hashKey? {v : Value} {k : Key} (h : s.key? v = some k) :
    ∃ h, s.hashKey? v = some h := by
  cases v <;> simp_all [key?, hashKey?]

theorem hashKey?_eq_none_iff {v : Value} : s.hashKey? v = none ↔ s.key? v = none := by
  cases v <;> simp [key?, hashKey?]

theorem sameKey_congr {a a' b b' : Value} (ha : t.key? a' = s.key? a) (hb : t.key? b' = s.key? b) :
    t.sameKey a' b' = s.sameKey a b := by
  rw [Bool.eq_iff_iff, sameKey_iff, sameKey_iff, ha, hb]

theorem key?_congr {v : Value} (h : ∀ r, v = .text r → t.text r = s.text r) :
    t.key? v = s.key? v := by
  cases v with
  | text r => rw [key?, h r rfl, key?]
  | _ => rfl

end

end Store

namespace Dict

open Store (key?)

/-! ### Entries under a key -/

section

variable {s t : Store} {d : Dict} (hf : Filed s d)
include hf

/-- In a store in which every key is what it was. -/
theorem Filed.congr_key (h : ∀ e ∈ d.entries, t.key? e.key = s.key? e.key) : Filed t d :=
  hf.congr (fun e he => Store.hashKey?_congr (h e he))
    fun a ha b hb => Store.sameKey_congr (h a ha) (h b hb)

variable {key : Value} {k : Key} {h : HashKey} (hk : s.key? key = some k)
  (hh : s.hashKey? key = some h)
include hk hh

/-- The place that is found for a key is the one that has it. -/
theorem Filed.place?_eq_some_iff_key {i : Nat} : d.place? h (s.sameKey · key) = some i ↔
    ∃ e, d.entries[i]? = some e ∧ s.key? e.key = some k := by
  simp only [hf.place?_eq_some_iff hh, Store.sameKey_iff_of_key? hk]

theorem Filed.place?_eq_none_iff_key : d.place? h (s.sameKey · key) = none ↔
    ∀ e ∈ d.entries, s.key? e.key ≠ some k := by
  simp only [hf.place?_eq_none_iff hh, Bool.eq_false_iff, ne_eq, Store.sameKey_iff_of_key? hk]

/-- Only one entry is given another value. -/
theorem Filed.map_setValue {α : Type} {f g : Entry → α} {v : Value} {i : Nat}
    (hi : d.place? h (s.sameKey · key) = some i)
    (hp : ∀ e, s.key? e.key = some k → f { e with value := v } = g e)
    (hn : ∀ e, s.key? e.key ≠ some k → f e = g e) :
    (d.setValue i v).entries.map f = d.entries.map g := by
  obtain ⟨e, he, hek⟩ := (hf.place?_eq_some_iff_key hk hh).1 hi
  refine List.ext_getElem? fun j => ?_
  rw [List.getElem?_map, List.getElem?_map, getElem?_setValue, Option.map_map]
  refine Option.map_congr fun a ha => ?_
  rw [Function.comp_apply]
  split
  next hij =>
    subst hij
    rw [he, Option.some.injEq] at ha
    exact hp a (ha ▸ hek)
  next hij =>
    refine hn a fun hak => hij ?_
    exact hf.keyed.eq_of_sameKey he ha (Store.sameKey_iff.2 ⟨k, hek, hak⟩)

end

/-! ### What an insertion does -/

/-- A key and one like it that nobody held before. -/
structure Detached (s : Store) (key key' : Value) (t : Store) : Prop where
  key : t.key? key' = s.key? key
  size : s.texts.size ≤ t.texts.size
  same : ∀ r, r.index < s.texts.size → t.text r = s.text r
  fresh : ∀ r, key' = .text r → s.texts.size ≤ r.index ∧ r.index < t.texts.size

theorem exists_detached (s : Store) (key : Value) :
    ∃ key' t, detach key s = .ok key' t ∧ Detached s key key' t := by
  by_cases hr : ∃ r, key = .text r
  · obtain ⟨r, rfl⟩ := hr
    refine ⟨_, _, rfl, congrArg (fun t => some (Key.text t)) (s.text_newText _), ?_, ?_, ?_⟩
    · simp
    · exact fun q hq => s.text_newText_of_lt _ hq
    · intro q hq
      cases hq
      simp
  · refine ⟨key, s, ?_, rfl, Nat.le_refl _, fun _ _ => rfl, fun r h => absurd ⟨r, h⟩ hr⟩
    cases key with
    | text r => exact absurd ⟨r, rfl⟩ hr
    | _ => rfl

section

variable {d : Dict} {s : Store} {key : Value} {h : HashKey}

theorem bind_get (f : Store → Eval Dict) : (MonadState.get >>= f) s = f s s := rfl

theorem insert_eq_of_none (hh : s.hashKey? key = none) (v : Value) :
    d.insert key v s = .error (.failed (.keyNotHashable key.kind)) s := by
  rw [insert, bind_get, hh]
  rfl

theorem insert_eq_of_place? (hh : s.hashKey? key = some h) {v : Value} {i : Nat}
    (hi : d.place? h (s.sameKey · key) = some i) :
    d.insert key v s = .ok (d.setValue i v) s := by
  rw [insert, bind_get]
  simp only [hh, hi]
  rfl

theorem insert_eq_of_detached (hh : s.hashKey? key = some h) {v key' : Value} {t : Store}
    (hn : d.place? h (s.sameKey · key) = none) (hd : detach key s = .ok key' t) :
    d.insert key v s = .ok (d.push h key' v) t := by
  rw [insert, bind_get]
  simp only [hh, hn]
  change EStateM.bind (detach key) _ s = _
  rw [EStateM.bind, hd]
  rfl

/-- A key is put in at the place that is found, or else at a new one. -/
theorem insert_cases (hh : s.hashKey? key = some h) (v : Value) :
    (∃ i, d.place? h (s.sameKey · key) = some i ∧ d.insert key v s = .ok (d.setValue i v) s) ∨
      ∃ key' t, d.place? h (s.sameKey · key) = none ∧ detach key s = .ok key' t ∧
        Detached s key key' t ∧ d.insert key v s = .ok (d.push h key' v) t := by
  cases hf : d.place? h (s.sameKey · key) with
  | some i => exact .inl ⟨i, rfl, insert_eq_of_place? hh hf⟩
  | none =>
    obtain ⟨key', t, hdet, hkey⟩ := exists_detached s key
    exact .inr ⟨key', t, rfl, hdet, hkey, insert_eq_of_detached hh hf hdet⟩

theorem store_of_insert_error {v : Value} {e : Stop} {t : Store}
    (hi : d.insert key v s = .error e t) : t = s := by
  cases hh : s.hashKey? key with
  | none =>
    rw [insert_eq_of_none hh] at hi
    cases hi
    rfl
  | some h =>
    obtain ⟨i, -, hok⟩ | ⟨key', t, -, -, -, hok⟩ := insert_cases (d := d) hh v
    · rw [hok] at hi
      cases hi
    · rw [hok] at hi
      cases hi

end

/-! ### Histories -/

/-- A dictionary, the store around it, and the texts that anyone but the dictionary holds. -/
structure State where
  store : Store
  dict : Dict
  held : Ref .text → Prop

/-- A dictionary that was new and then had these pairs put in, one after the other. -/
inductive History : List (Key × Value) → State → Prop where
  | new (s : Store) : History [] ⟨s, {}, fun r => r.index < s.texts.size⟩
  | insert {hist : List (Key × Value)} {x : State} (key v : Value) {k : Key} {d : Dict} {t : Store}
      (h : History hist x) (hk : x.store.key? key = some k)
      (hi : x.dict.insert key v x.store = .ok d t) :
      History (hist ++ [(k, v)]) { x with store := t, dict := d }
  | refuse {hist : List (Key × Value)} {x : State} {key v : Value} {e : Stop} {t : Store}
      (h : History hist x) (hi : x.dict.insert key v x.store = .error e t) :
      History hist { x with store := t }
  /-- Anything happens elsewhere: what is held may change, and new texts are held. -/
  | change {hist : List (Key × Value)} {x : State} {t : Store} (h : History hist x)
      (size : x.store.texts.size ≤ t.texts.size)
      (same : ∀ r, r.index < x.store.texts.size → ¬ x.held r → t.text r = x.store.text r) :
      History hist ⟨t, x.dict, fun r =>
        x.held r ∨ x.store.texts.size ≤ r.index ∧ r.index < t.texts.size⟩

/-- The value that a key was given last. -/
def latest (hist : List (Key × Value)) (k : Key) : Option Value := hist.reverse.lookup k

/-- The keys of a history in the order in which they came, each with its last value. -/
def listing (hist : List (Key × Value)) : List (Option Key × Option Value) :=
  (hist.map (·.1)).eraseDups.map fun k => (some k, latest hist k)

/-- What can be seen of an entry. -/
def shown (s : Store) (e : Entry) : Option Key × Option Value := (s.key? e.key, some e.value)

section

variable (hist : List (Key × Value)) (k : Key) (v : Value)

theorem latest_concat (j : Key) :
    latest (hist ++ [(k, v)]) j = if j = k then some v else latest hist j := by
  rw [latest, List.reverse_append, List.reverse_singleton, List.singleton_append, List.lookup_cons]
  by_cases h : j = k
  · simp [h]
  · simp [h, beq_false_of_ne h, latest]

theorem latest_eq_none (h : k ∉ hist.map (·.1)) : latest hist k = none := by
  rw [latest, List.lookup_eq_none_iff]
  intro p hp
  rw [bne_iff_ne]
  rintro rfl
  exact h (List.mem_map_of_mem (List.mem_reverse.1 hp))

theorem mem_listing {p : Option Key × Option Value} :
    p ∈ listing hist ↔ ∃ k ∈ hist.map (·.1), p = (some k, latest hist k) := by
  simp only [listing, List.mem_map, List.mem_eraseDups, eq_comm (a := p)]

/-- A key that is there gets another value. -/
theorem listing_concat_of_mem (h : k ∈ hist.map (·.1)) : listing (hist ++ [(k, v)]) =
    (listing hist).map fun p => if p.1 = some k then (p.1, some v) else p := by
  have he : (hist.map (·.1) ++ [k]).eraseDups = (hist.map (·.1)).eraseDups := by
    rw [List.eraseDups_append, List.removeAll, List.filter_eq_nil_iff.2 (by simpa using h)]
    exact List.append_nil _
  rw [listing, List.map_append, List.map_singleton, he, listing, List.map_map]
  refine List.map_congr_left fun j _ => ?_
  rw [latest_concat]
  by_cases hj : j = k <;> simp [hj]

/-- A new key comes last. -/
theorem listing_concat_of_not_mem (h : k ∉ hist.map (·.1)) :
    listing (hist ++ [(k, v)]) = listing hist ++ [(some k, some v)] := by
  have he : (hist.map (·.1) ++ [k]).eraseDups = (hist.map (·.1)).eraseDups ++ [k] := by
    rw [List.eraseDups_append, List.removeAll, List.filter_eq_self.2 (by simpa using h)]
    rfl
  rw [listing, List.map_append, List.map_singleton, he, List.map_append, List.map_singleton,
    latest_concat, if_pos rfl, listing]
  congr 1
  refine List.map_congr_left fun j hj => ?_
  have hne : j ≠ k := fun hjk => h (hjk ▸ List.mem_eraseDups.1 hj)
  rw [latest_concat, if_neg hne]

end

/-- What holds of a dictionary all along its history. -/
structure Kept (hist : List (Key × Value)) (x : State) : Prop where
  held : ∀ r, x.held r → r.index < x.store.texts.size
  /-- Nobody else holds a key. -/
  keys : ∀ e ∈ x.dict.entries, ∀ r, e.key = .text r → r.index < x.store.texts.size ∧ ¬ x.held r
  filed : Filed x.store x.dict
  shows : x.dict.entries.map (shown x.store) = listing hist

namespace Kept

variable {hist : List (Key × Value)} {x : State}

theorem mem_iff (hx : Kept hist x) {k : Key} :
    k ∈ hist.map (·.1) ↔ ∃ e ∈ x.dict.entries, x.store.key? e.key = some k := by
  have hm : (∃ v, (some k, v) ∈ listing hist) ↔ k ∈ hist.map (·.1) := by
    simp only [mem_listing, Prod.mk.injEq, Option.some.injEq]
    constructor
    · rintro ⟨-, j, hj, rfl, -⟩
      exact hj
    · exact fun h => ⟨_, k, h, rfl, rfl⟩
  rw [← hm, ← hx.shows]
  simp only [List.mem_map, shown, Prod.mk.injEq]
  constructor
  · rintro ⟨-, e, he, hk, -⟩
    exact ⟨e, he, hk⟩
  · rintro ⟨e, he, hk⟩
    exact ⟨_, e, he, hk, rfl⟩

theorem latest_eq (hx : Kept hist x) {e : Entry} {k : Key} (he : e ∈ x.dict.entries)
    (hk : x.store.key? e.key = some k) : latest hist k = some e.value := by
  have hm : shown x.store e ∈ listing hist := hx.shows ▸ List.mem_map_of_mem he
  obtain ⟨j, -, hj⟩ := (mem_listing hist).1 hm
  rw [shown, hk, Prod.mk.injEq, Option.some.injEq] at hj
  rw [hj.1, hj.2]

theorem new (s : Store) : Kept [] ⟨s, {}, fun r => r.index < s.texts.size⟩ where
  held _ hr := hr
  keys _ he := absurd he List.not_mem_nil
  filed := filed_empty s
  shows := rfl

/-- In a store in which the keys are what they were, the dictionary shows what it showed. -/
theorem congr (hx : Kept hist x) {t : Store} {held : Ref .text → Prop}
    (hsize : x.store.texts.size ≤ t.texts.size)
    (hsame : ∀ r, r.index < x.store.texts.size → ¬ x.held r → t.text r = x.store.text r ∧ ¬ held r)
    (hheld : ∀ r, held r → r.index < t.texts.size) : Kept hist ⟨t, x.dict, held⟩ := by
  have hk : ∀ e ∈ x.dict.entries, t.key? e.key = x.store.key? e.key := fun e he =>
    Store.key?_congr fun r hr => (hsame r (hx.keys e he r hr).1 (hx.keys e he r hr).2).1
  refine ⟨hheld, fun e he r hr => ?_, hx.filed.congr_key hk, ?_⟩
  · obtain ⟨hlt, hn⟩ := hx.keys e he r hr
    exact ⟨Nat.lt_of_lt_of_le hlt hsize, (hsame r hlt hn).2⟩
  · rw [← hx.shows]
    exact List.map_congr_left fun e he => by rw [shown, hk e he, shown]

theorem change (hx : Kept hist x) {t : Store} (hsize : x.store.texts.size ≤ t.texts.size)
    (hsame : ∀ r, r.index < x.store.texts.size → ¬ x.held r → t.text r = x.store.text r) :
    Kept hist ⟨t, x.dict, fun r => x.held r ∨
      x.store.texts.size ≤ r.index ∧ r.index < t.texts.size⟩ := by
  refine hx.congr hsize (fun r hlt hn => ⟨hsame r hlt hn, ?_⟩) fun r hr => ?_
  · rintro (hr | hr)
    · exact hn hr
    · exact Nat.not_le_of_lt hlt hr.1
  · exact hr.elim (fun hr => Nat.lt_of_lt_of_le (hx.held r hr) hsize) fun hr => hr.2

/-- A key that is there gets another value. -/
theorem setValue (hx : Kept hist x) {key v : Value} {k : Key} {h : HashKey} {i : Nat}
    (hk : x.store.key? key = some k) (hh : x.store.hashKey? key = some h)
    (hi : x.dict.place? h (x.store.sameKey · key) = some i) :
    Kept (hist ++ [(k, v)]) { x with dict := x.dict.setValue i v } where
  held := hx.held
  keys f hf r hr := by
    obtain ⟨g, hg, hkey⟩ := key_of_mem_setValue hf
    exact hx.keys g hg r (hkey.trans hr)
  filed := hx.filed.setValue i v
  shows := by
    obtain ⟨e, he, hek⟩ := (hx.filed.place?_eq_some_iff_key hk hh).1 hi
    have hm : k ∈ hist.map (·.1) := hx.mem_iff.2 ⟨e, List.mem_of_getElem? he, hek⟩
    rw [listing_concat_of_mem hist k v hm, ← hx.shows, List.map_map]
    refine hx.filed.map_setValue hk hh hi (fun f hf => ?_) fun f hf => ?_
    · simp [shown, hf]
    · simp [shown, hf]

/-- A key that is not there comes last, as a value that nobody else holds. -/
theorem push (hx : Kept hist x) {key v key' : Value} {k : Key} {h : HashKey} {t : Store}
    (hk : x.store.key? key = some k) (hh : x.store.hashKey? key = some h)
    (hn : x.dict.place? h (x.store.sameKey · key) = none) (hkey : Detached x.store key key' t) :
    Kept (hist ++ [(k, v)]) ⟨t, x.dict.push h key' v, x.held⟩ := by
  have ht : Kept hist ⟨t, x.dict, x.held⟩ := hx.congr hkey.size
    (fun r hr hr' => ⟨hkey.same r hr, hr'⟩) fun r hr => Nat.lt_of_lt_of_le (hx.held r hr) hkey.size
  have hkt : t.key? key' = some k := hkey.key.trans hk
  have hht : t.hashKey? key' = some h := (Store.hashKey?_congr hkey.key).trans hh
  have hnew : ∀ e ∈ x.dict.entries, t.key? e.key ≠ some k := fun e he => by
    rw [Store.key?_congr fun r hr => hkey.same r (hx.keys e he r hr).1]
    exact (hx.filed.place?_eq_none_iff_key hk hh).1 hn e he
  have hm : k ∉ hist.map (·.1) := fun hm => by
    obtain ⟨e, he, hek⟩ := ht.mem_iff.1 hm
    exact hnew e he hek
  refine ⟨ht.held, ?_, ht.filed.push hht fun e he => ?_, ?_⟩
  · refine List.forall_mem_append.2 ⟨ht.keys, List.forall_mem_singleton.2 fun r hr => ?_⟩
    obtain ⟨hle, hlt⟩ := hkey.fresh r hr
    exact ⟨hlt, fun hc => Nat.not_le_of_lt (hx.held r hc) hle⟩
  · rw [Bool.eq_false_iff, ne_eq, Store.sameKey_iff_of_key? hkt]
    exact hnew e he
  · rw [listing_concat_of_not_mem hist k v hm, ← ht.shows, Dict.push, List.map_append,
      List.map_singleton, shown, hkt]

theorem insert (hx : Kept hist x) {key v : Value} {k : Key} {d : Dict} {t : Store}
    (hk : x.store.key? key = some k) (hi : x.dict.insert key v x.store = .ok d t) :
    Kept (hist ++ [(k, v)]) { x with store := t, dict := d } := by
  obtain ⟨h, hh⟩ := Store.exists_hashKey? hk
  obtain ⟨i, hf, hok⟩ | ⟨key', t', hf, -, hkey, hok⟩ := insert_cases (d := x.dict) hh v
  · rw [hok] at hi
    cases hi
    exact hx.setValue hk hh hf
  · rw [hok] at hi
    cases hi
    exact hx.push hk hh hf hkey

/-- The table has for a key what the history has. -/
theorem get_eq (hx : Kept hist x) {key : Value} {k : Key} (hk : x.store.key? key = some k) :
    x.dict.get x.store key = .ok (latest hist k) := by
  obtain ⟨h, hh⟩ := Store.exists_hashKey? hk
  have hsame : ∀ e : Entry, x.store.sameKey e.key key ↔ x.store.key? e.key = some k :=
    fun e => Store.sameKey_iff_of_key? hk
  simp only [get, hh, hx.filed.find?_eq hh]
  cases hf : x.dict.entries.find? fun e => x.store.sameKey e.key key with
  | some e =>
    have hek := (hsame e).1 (List.find?_some (p := fun e : Entry => x.store.sameKey e.key key) hf)
    rw [Option.map_some, hx.latest_eq (List.mem_of_find?_eq_some hf) hek]
  | none =>
    have hm : k ∉ hist.map (·.1) := fun hm => by
      obtain ⟨e, he, hek⟩ := hx.mem_iff.1 hm
      exact List.find?_eq_none.1 hf e he ((hsame e).2 hek)
    rw [Option.map_none, latest_eq_none hist k hm]

end Kept

theorem History.kept {hist : List (Key × Value)} {x : State} (h : History hist x) :
    Kept hist x := by
  induction h with
  | new s => exact .new s
  | insert _ _ _ hk hi ih => exact ih.insert hk hi
  | refuse _ hi ih =>
    rw [store_of_insert_error hi]
    exact ih
  | change _ size same ih => exact ih.change size same

/-- A dictionary shows its history. Asking for a key gives the value that it was given last, whether
or not the values that were keys have changed since; the entries are the different keys, in the
order in which they came; and the table has the place of each of them once, where the key is looked
for. What can be a key can be put in; what cannot is refused, and then nothing changes. -/
theorem History.shows_pairs {hist : List (Key × Value)} {x : State} (h : History hist x) :
    (∀ key k, x.store.key? key = some k → x.dict.get x.store key = .ok (latest hist k) ∧
      ∀ v, ∃ d t, x.dict.insert key v x.store = .ok d t) ∧
    x.dict.entries.map (fun e => (x.store.key? e.key, some e.value)) =
      (hist.map (·.1)).eraseDups.map (fun k => (some k, latest hist k)) ∧
    x.dict.size = (hist.map (·.1)).eraseDups.length ∧
    x.dict.Intact x.store ∧
    ∀ key, x.store.key? key = none → x.dict.get x.store key = .error (.keyNotHashable key.kind) ∧
      ∀ v, x.dict.insert key v x.store = .error (.failed (.keyNotHashable key.kind)) x.store := by
  have hx := h.kept
  refine ⟨fun key k hk => ⟨?_, fun v => ?_⟩, hx.shows, ?_, hx.filed.intact,
    fun key hn => ⟨?_, fun v => ?_⟩⟩
  · exact hx.get_eq hk
  · obtain ⟨h, hh⟩ := Store.exists_hashKey? hk
    obtain ⟨i, -, hok⟩ | ⟨key', t, -, -, -, hok⟩ := insert_cases (d := x.dict) hh v
    · exact ⟨_, _, hok⟩
    · exact ⟨_, _, hok⟩
  · have hl := congrArg List.length hx.shows
    rwa [List.length_map, listing, List.length_map] at hl
  · rw [get, Store.hashKey?_eq_none_iff.2 hn]
  · exact insert_eq_of_none (Store.hashKey?_eq_none_iff.2 hn) v

/-- Two texts with the same digest. -/
def twins : Store := { texts := #["8yn0iYCKYHlIj4-BwPqk", "GReLUrM4wMqfg9yzV3KQ"] }

/-- The first is put in and then changed, and after that the second is put in. -/
theorem history_twins :
    ∃ x, History [(.text (twins.text ⟨0⟩), .int 1), (.text (twins.text ⟨1⟩), .int 2)] x ∧
      x.store.text ⟨0⟩ = "z" ∧ x.store.text ⟨1⟩ = twins.text ⟨1⟩ ∧
      x.dict.slot ⟨.text, Text.digest (twins.text ⟨0⟩)⟩ = [0, 1] := by
  have h₁ := (History.new twins).insert (.text ⟨0⟩) (.int 1) rfl rfl
  have h₂ := h₁.change (t := (twins.newText (twins.text ⟨0⟩)).2.modifyText ⟨0⟩ fun _ => "z")
    (by decide) fun r _ hn => Store.text_modifyText_of_ne _ (fun h => hn (by rw [h]; decide)) _
  exact ⟨_, h₂.insert (.text ⟨1⟩) (.int 2) rfl rfl, rfl, rfl, by decide +kernel⟩

/-- The places of both are in one slot. -/
theorem shows_pairs_twins :
    ∃ x, History [(.text (twins.text ⟨0⟩), .int 1), (.text (twins.text ⟨1⟩), .int 2)] x ∧
      x.dict.slot ⟨.text, Text.digest (twins.text ⟨0⟩)⟩ = [0, 1] ∧ x.dict.size = 2 ∧
      x.dict.Intact x.store ∧
      x.store.text ⟨0⟩ = "z" ∧ x.dict.get x.store (.text ⟨0⟩) = .ok none ∧
      x.dict.get x.store (.text ⟨1⟩) = .ok (some (.int 2)) ∧
      ∀ key, x.store.key? key = some (.text (twins.text ⟨0⟩)) →
        x.dict.get x.store key = .ok (some (.int 1)) := by
  obtain ⟨x, h, h₀, h₁, hslot⟩ := history_twins
  obtain ⟨hget, -, hsize, hintact, -⟩ := h.shows_pairs
  refine ⟨x, h, hslot, hsize.trans (by decide), hintact, h₀, ?_, ?_,
    fun key hk => (hget key _ hk).1⟩
  · exact (hget (.text ⟨0⟩) (.text "z") (by rw [Store.key?, h₀])).1
  · exact (hget (.text ⟨1⟩) (.text (twins.text ⟨1⟩)) (by rw [Store.key?, h₁])).1

end Dict

end YeetYoink
