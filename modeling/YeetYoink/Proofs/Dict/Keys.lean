import Mathlib.Data.List.Nodup
import Mathlib.Data.List.Pairwise
import YeetYoink.Dict
import YeetYoink.Value.Equality

/-!
# Keys of dictionaries

A dictionary is searched through its table. It is `Filed` if its keys differ and each place stands
in the table once, under the hash key of the key that is there now. Then the table finds what a
search through all the entries would find (`Filed.find?_eq`). A change of a value keeps a dictionary
filed (`Filed.setValue`), and so does a new key (`Filed.push`). `Intact` says the same by equality
of values, and that asking for a key gives its value.
-/

namespace YeetYoink

namespace Value

/-- The values that can be keys. -/
def IsKey : Value → Prop
  | .int _ | .bool _ | .text _ => True
  | _ => False

end Value

namespace Store

variable {s : Store}

theorem isSome_hashKey? {v : Value} : (s.hashKey? v).isSome ↔ v.IsKey := by
  cases v <;> simp [hashKey?, Value.IsKey]

theorem isKey_of_hashKey? {v : Value} {h : HashKey} (hv : s.hashKey? v = some h) : v.IsKey :=
  isSome_hashKey?.1 (by rw [hv]; rfl)

theorem sameKey_comm (a b : Value) : s.sameKey a b = s.sameKey b a := by
  cases a <;> cases b <;> simp [sameKey, eq_comm]

theorem sameKey_trans {a b c : Value} (hab : s.sameKey a b) (hbc : s.sameKey b c) :
    s.sameKey a c := by
  cases a <;> cases b <;> cases c <;> simp_all [sameKey]

/-- The same key is filed under the same hash key. -/
theorem hashKey?_of_sameKey {a b : Value} (h : s.sameKey a b) : s.hashKey? a = s.hashKey? b := by
  cases a <;> cases b <;> simp_all [sameKey, hashKey?]

/-- Equality of a key with anything is being the same key. -/
theorem equal?_of_isKey {k : Value} (hk : k.IsKey) (v : Value) :
    s.equal? k v = some (s.sameKey k v) := by
  cases k with
  | int _ | bool _ | text _ => cases v <;> simp [equal?, equalIn?, sameKey]
  | _ => exact hk.elim

end Store

namespace Dict

variable {d : Dict} {s : Store} {h : HashKey} {p : Value → Bool} {i : Nat}

/-! ### The table -/

theorem lookup_file (h : HashKey) (i : Nat) (slots : List (HashKey × List Nat)) (g : HashKey) :
    ((file h i slots).lookup g).getD [] =
      (slots.lookup g).getD [] ++ if g = h then [i] else [] := by
  induction slots with
  | nil =>
    by_cases hg : g = h
    · simp [file, hg]
    · simp [file, List.lookup_cons, hg, beq_false_of_ne hg]
  | cons slot slots ih =>
    obtain ⟨k, is⟩ := slot
    rw [file]
    split
    next hk =>
      subst hk
      by_cases hg : g = k
      · simp [hg]
      · simp [List.lookup_cons, hg, beq_false_of_ne hg]
    next hk =>
      by_cases hg : g = k
      · subst hg
        simp [hk]
      · simp [List.lookup_cons, beq_false_of_ne hg, ih]

theorem map_fst_file (h : HashKey) (i : Nat) (slots : List (HashKey × List Nat)) :
    (file h i slots).map Prod.fst =
      if h ∈ slots.map Prod.fst then slots.map Prod.fst else slots.map Prod.fst ++ [h] := by
  induction slots with
  | nil => rfl
  | cons slot slots ih =>
    obtain ⟨k, is⟩ := slot
    by_cases hk : k = h
    · simp [file, hk]
    · have hk' : h ≠ k := fun e => hk e.symm
      simp only [file, if_neg hk, List.map_cons, ih, List.mem_cons, hk', false_or]
      split <;> rfl

/-- No hash key comes to have two slots. -/
theorem nodup_file {slots : List (HashKey × List Nat)} (hn : (slots.map Prod.fst).Nodup) :
    ((file h i slots).map Prod.fst).Nodup := by
  rw [map_fst_file]
  split
  next => exact hn
  next hh => exact List.concat_eq_append ▸ hn.concat hh

@[simp] theorem slot_push (d : Dict) (h : HashKey) (key v : Value) (g : HashKey) :
    (d.push h key v).slot g = d.slot g ++ if g = h then [d.size] else [] :=
  lookup_file h d.size d.slots g

@[simp] theorem slot_setValue (d : Dict) (i : Nat) (v : Value) (g : HashKey) :
    (d.setValue i v).slot g = d.slot g := rfl

/-! ### Places -/

theorem getElem?_setValue (d : Dict) (i : Nat) (v : Value) (j : Nat) :
    (d.setValue i v).entries[j]? =
      d.entries[j]?.map fun e => if i = j then { e with value := v } else e := by
  rw [setValue, List.getElem?_modify]
  rfl

theorem getElem?_push (d : Dict) (h : HashKey) (key v : Value) (j : Nat) :
    (d.push h key v).entries[j]? = if j = d.size then some ⟨key, v⟩ else d.entries[j]? := by
  rw [push, size]
  rcases Nat.lt_trichotomy j d.entries.length with hlt | rfl | hgt
  · rw [if_neg (Nat.ne_of_lt hlt), List.getElem?_append_left hlt]
  · rw [if_pos rfl, List.getElem?_concat_length]
  · rw [if_neg (Nat.ne_of_gt hgt), List.getElem?_eq_none (Nat.le_of_lt hgt)]
    refine List.getElem?_eq_none ?_
    rw [List.length_append]
    exact hgt

/-- The pair that is found has the key that is asked for. -/
theorem exists_of_place? (hp : d.place? h p = some i) :
    i ∈ d.slot h ∧ ∃ e, d.entries[i]? = some e ∧ p e.key := by
  refine ⟨List.mem_of_find?_eq_some hp, ?_⟩
  have hi := List.find?_some hp
  simpa [Option.any_eq_true] using hi

theorem place?_eq_none (hn : ∀ e ∈ d.entries, p e.key = false) : d.place? h p = none := by
  refine List.find?_eq_none.2 fun i _ hi => ?_
  obtain ⟨e, he, hp⟩ := (Option.any_eq_true _ _).1 hi
  rw [hn e (List.mem_of_getElem? he)] at hp
  cases hp

theorem exists_of_find? {v : Value} (hf : d.find? h p = some v) :
    ∃ i e, d.place? h p = some i ∧ d.entries[i]? = some e ∧ p e.key ∧ e.value = v := by
  obtain ⟨i, hi, hv⟩ := Option.bind_eq_some_iff.1 hf
  obtain ⟨e, he, rfl⟩ := Option.map_eq_some_iff.1 hv
  obtain ⟨-, e', he', hp⟩ := exists_of_place? hi
  rw [he, Option.some.injEq] at he'
  exact ⟨i, e, hi, he, he' ▸ hp, rfl⟩

theorem find?_eq_none_iff : d.find? h p = none ↔ d.place? h p = none := by
  rw [find?]
  cases hi : d.place? h p with
  | none => simp
  | some i =>
    obtain ⟨-, e, he, -⟩ := exists_of_place? hi
    simp [he]

@[simp] theorem place?_setValue (d : Dict) (i : Nat) (v : Value) :
    (d.setValue i v).place? h p = d.place? h p := by
  rw [place?, place?, slot_setValue]
  congr 1
  funext j
  rw [getElem?_setValue, Option.any_map]
  congr 1
  funext e
  by_cases hj : i = j <;> simp [hj]

theorem key_of_mem_setValue {v : Value} {e : Entry} (he : e ∈ (d.setValue i v).entries) :
    ∃ e' ∈ d.entries, e'.key = e.key := by
  obtain ⟨j, hj⟩ := List.mem_iff_getElem?.1 he
  rw [getElem?_setValue] at hj
  obtain ⟨e', he', rfl⟩ := Option.map_eq_some_iff.1 hj
  refine ⟨e', List.mem_of_getElem? he', ?_⟩
  split <;> rfl

theorem value_of_mem_setValue {v : Value} {e : Entry} (he : e ∈ (d.setValue i v).entries) :
    e.value = v ∨ e ∈ d.entries := by
  obtain ⟨j, hj⟩ := List.mem_iff_getElem?.1 he
  rw [getElem?_setValue] at hj
  obtain ⟨e', he', rfl⟩ := Option.map_eq_some_iff.1 hj
  split
  · exact .inl rfl
  · exact .inr (List.mem_of_getElem? he')

/-- A change of a value leaves the keys where they are. -/
theorem map_key_setValue (d : Dict) (i : Nat) (v : Value) :
    (d.setValue i v).entries.map Entry.key = d.entries.map Entry.key := by
  refine List.ext_getElem? fun j => ?_
  rw [List.getElem?_map, List.getElem?_map, getElem?_setValue, Option.map_map]
  congr 1
  funext e
  rw [Function.comp_apply]
  split <;> rfl

/-! ### Dictionaries that are filed -/

/-- What the key at a place is filed under now. -/
def hashAt? (d : Dict) (s : Store) (i : Nat) : Option HashKey :=
  d.entries[i]?.bind fun e => s.hashKey? e.key

theorem hashAt?_eq_join : d.hashAt? s i = (d.entries.map fun e => s.hashKey? e.key)[i]?.join := by
  rw [hashAt?, List.getElem?_map]
  cases d.entries[i]? <;> rfl

/-- Entries that are for different keys. -/
structure Keyed (s : Store) (es : List Entry) : Prop where
  isKey : ∀ e ∈ es, e.key.IsKey
  distinct : es.Pairwise fun a b => s.sameKey a.key b.key = false

/-- The keys differ, and each place stands once in the table, under the key that is there. -/
structure Filed (s : Store) (d : Dict) : Prop where
  keyed : Keyed s d.entries
  slots : (d.slots.map Prod.fst).Nodup
  placed : ∀ h i, (d.slot h).count i = if d.hashAt? s i = some h then 1 else 0

namespace Keyed

variable {es : List Entry} (hk : Keyed s es)
include hk

theorem sublist {es' : List Entry} (hs : es'.Sublist es) : Keyed s es' where
  isKey e he := hk.isKey e (hs.subset he)
  distinct := hk.distinct.sublist hs

/-- Only one place has a key. -/
theorem eq_of_sameKey {i j : Nat} {a b : Entry} (ha : es[i]? = some a) (hb : es[j]? = some b)
    (hab : s.sameKey a.key b.key) : i = j := by
  obtain ⟨hi, rfl⟩ := List.getElem?_eq_some_iff.1 ha
  obtain ⟨hj, rfl⟩ := List.getElem?_eq_some_iff.1 hb
  have hd := List.pairwise_iff_getElem.1 hk.distinct
  rcases Nat.lt_trichotomy i j with hlt | heq | hgt
  · rw [hd i j hi hj hlt] at hab
    cases hab
  · exact heq
  · rw [s.sameKey_comm, hd j i hj hi hgt] at hab
    cases hab

theorem setValue (i : Nat) (v : Value) : Keyed s (es.modify i ({ · with value := v })) := by
  have hkeys := map_key_setValue ⟨es, []⟩ i v
  refine ⟨fun e he => ?_, ?_⟩
  · obtain ⟨e', he', hkey⟩ := key_of_mem_setValue (d := ⟨es, []⟩) he
    exact hkey ▸ hk.isKey e' he'
  · have hd := hk.distinct
    rw [← List.pairwise_map (f := Entry.key) (R := fun a b => s.sameKey a b = false)] at hd ⊢
    rwa [← hkeys] at hd

theorem append {e : Entry} (he : e.key.IsKey) (hd : ∀ a ∈ es, s.sameKey a.key e.key = false) :
    Keyed s (es ++ [e]) where
  isKey := List.forall_mem_append.2 ⟨hk.isKey, by simpa using he⟩
  distinct := List.pairwise_append.2 ⟨hk.distinct, List.pairwise_singleton _ _, by simpa using hd⟩

end Keyed

theorem filed_empty (s : Store) : Filed s {} where
  keyed := ⟨by simp, .nil⟩
  slots := .nil
  placed h i := by simp [slot, hashAt?]

namespace Filed

variable (hf : Filed s d)
include hf

theorem mem_slot_iff : i ∈ d.slot h ↔ d.hashAt? s i = some h := by
  rw [← List.count_pos_iff, hf.placed]
  split <;> simp [*]

/-- The table has no place beyond the last entry. -/
theorem lt_size (hi : i ∈ d.slot h) : i < d.size := by
  obtain ⟨e, he, -⟩ := Option.bind_eq_some_iff.1 (hf.mem_slot_iff.1 hi)
  exact (List.getElem?_eq_some_iff.1 he).1

variable {key : Value} (hh : s.hashKey? key = some h)
include hh

/-- The place that is found for a key is the one where it is. -/
theorem place?_eq_some_iff :
    d.place? h (s.sameKey · key) = some i ↔ ∃ e, d.entries[i]? = some e ∧ s.sameKey e.key key := by
  refine ⟨fun hi => (exists_of_place? hi).2, ?_⟩
  rintro ⟨e, he, hs⟩
  have hi : i ∈ d.slot h := by
    rw [hf.mem_slot_iff, hashAt?, he, Option.bind_some, Store.hashKey?_of_sameKey hs, hh]
  have hsome : (d.place? h (s.sameKey · key)).isSome :=
    List.find?_isSome.2 ⟨i, hi, (Option.any_eq_true _ _).2 ⟨e, he, hs⟩⟩
  obtain ⟨j, hj⟩ := Option.isSome_iff_exists.1 hsome
  obtain ⟨-, e', he', hs'⟩ := exists_of_place? hj
  rw [hj, hf.keyed.eq_of_sameKey he he' (Store.sameKey_trans hs (by rwa [s.sameKey_comm]))]

/-- A key that is not found is not there. -/
theorem place?_eq_none_iff :
    d.place? h (s.sameKey · key) = none ↔ ∀ e ∈ d.entries, s.sameKey e.key key = false := by
  refine ⟨fun hn e he => ?_, fun hn => place?_eq_none hn⟩
  obtain ⟨i, hi⟩ := List.mem_iff_getElem?.1 he
  rw [Bool.eq_false_iff]
  intro hs
  rw [(hf.place?_eq_some_iff hh).2 ⟨e, hi, hs⟩] at hn
  cases hn

/-- The table finds what a search through the entries finds. -/
theorem find?_eq : d.find? h (s.sameKey · key) =
    (d.entries.find? fun e => s.sameKey e.key key).map (·.value) := by
  cases he : d.entries.find? fun e => s.sameKey e.key key with
  | none =>
    have hn := (hf.place?_eq_none_iff hh).2 fun e hm => by
      simpa using List.find?_eq_none.1 he e hm
    rw [find?_eq_none_iff.2 hn, Option.map_none]
  | some e =>
    obtain ⟨i, hi⟩ := List.mem_iff_getElem?.1 (List.mem_of_find?_eq_some he)
    have hs := List.find?_some (p := fun e : Entry => s.sameKey e.key key) he
    have hp := (hf.place?_eq_some_iff hh).2 ⟨e, hi, hs⟩
    rw [find?, hp, Option.bind_some, hi]

omit hh in
theorem setValue (i : Nat) (v : Value) : Filed s (d.setValue i v) where
  keyed := hf.keyed.setValue i v
  slots := hf.slots
  placed h j := by
    have hj : (d.setValue i v).hashAt? s j = d.hashAt? s j := by
      rw [hashAt?, getElem?_setValue, Option.bind_map, hashAt?]
      congr 1
      funext e
      rw [Function.comp_apply]
      split <;> rfl
    rw [slot_setValue, hf.placed, hj]

omit hh in
/-- A new key is filed at the place where it comes to stand. -/
theorem push {k v : Value} (hk : s.hashKey? k = some h)
    (hd : ∀ e ∈ d.entries, s.sameKey e.key k = false) : Filed s (d.push h k v) where
  keyed := hf.keyed.append (Store.isKey_of_hashKey? hk) hd
  slots := nodup_file hf.slots
  placed g i := by
    have hnew : d.entries[d.size]? = none := List.getElem?_eq_none (Nat.le_refl _)
    rw [slot_push, List.count_append, hf.placed, hashAt?, hashAt?, getElem?_push]
    by_cases hi : i = d.size
    · rw [if_pos hi, hi, hnew, Option.bind_some, hk]
      by_cases hg : g = h
      · simp [hg]
      · simp [hg, Ne.symm hg]
    · -- The new place is not this one.
      rw [if_neg hi]
      by_cases hg : g = h <;> simp [hg, Ne.symm hi]

omit hh in
/-- In a store in which the keys are what they were. -/
theorem congr {t : Store} (hhash : ∀ e ∈ d.entries, t.hashKey? e.key = s.hashKey? e.key)
    (hsame : ∀ a ∈ d.entries, ∀ b ∈ d.entries, t.sameKey a.key b.key = s.sameKey a.key b.key) :
    Filed t d where
  keyed :=
    { isKey := hf.keyed.isKey
      distinct := hf.keyed.distinct.imp_of_mem fun ha hb hab => (hsame _ ha _ hb).trans hab }
  slots := hf.slots
  placed h i := by
    have hi : d.hashAt? t i = d.hashAt? s i :=
      Option.bind_congr fun e he => hhash e (List.mem_of_getElem? he)
    rw [hf.placed, hi]

omit hh in
/-- What is filed under a hash key depends only on what the keys are filed under. -/
theorem slot_perm {t : Store} {d' : Dict} (hf' : Filed t d')
    (hkeys : d.entries.map (fun e => s.hashKey? e.key) = d'.entries.map fun e => t.hashKey? e.key)
    (g : HashKey) : (d.slot g).Perm (d'.slot g) := by
  refine List.perm_iff_count.2 fun i => ?_
  rw [hf.placed, hf'.placed, hashAt?_eq_join, hashAt?_eq_join, hkeys]

end Filed

/-! ### Dictionaries that are intact -/

/-- A dictionary in which every entry is found. -/
structure Intact (s : Store) (d : Dict) : Prop where
  distinct : d.entries.Pairwise fun a b => s.equal? a.key b.key = some false
  slots : (d.slots.map Prod.fst).Nodup
  within : ∀ h, ∀ i ∈ d.slot h, i < d.size
  placed : ∀ i e, d.entries[i]? = some e → ∃ h, s.hashKey? e.key = some h ∧
    ∀ g, (d.slot g).count i = if g = h then 1 else 0
  found : ∀ e ∈ d.entries, ∀ k, s.equal? e.key k = some true → d.get s k = .ok (some e.value)

theorem Filed.intact (hf : Filed s d) : d.Intact s where
  distinct := by
    refine hf.keyed.distinct.imp_of_mem fun ha _ hab => ?_
    rw [Store.equal?_of_isKey (hf.keyed.isKey _ ha), hab]
  slots := hf.slots
  within _ _ := hf.lt_size
  placed i e he := by
    have hkey := hf.keyed.isKey e (List.mem_of_getElem? he)
    obtain ⟨h, hh⟩ := Option.isSome_iff_exists.1 (Store.isSome_hashKey?.2 hkey)
    refine ⟨h, hh, fun g => ?_⟩
    rw [hf.placed, hashAt?, he, Option.bind_some, hh]
    exact if_congr (by rw [Option.some.injEq, eq_comm]) rfl rfl
  found e he k hk := by
    have hkey := hf.keyed.isKey e he
    rw [Store.equal?_of_isKey hkey, Option.some.injEq] at hk
    obtain ⟨h, hh⟩ := Option.isSome_iff_exists.1 (Store.isSome_hashKey?.2 hkey)
    rw [Store.hashKey?_of_sameKey hk] at hh
    obtain ⟨i, hi⟩ := List.mem_iff_getElem?.1 he
    have hp := (hf.place?_eq_some_iff hh).2 ⟨e, hi, hk⟩
    simp only [Dict.get, hh, Dict.find?, hp, Option.bind_some, hi, Option.map_some]

theorem Intact.filed (hd : d.Intact s) : Filed s d := by
  have hkey : ∀ e ∈ d.entries, e.key.IsKey := fun e he => by
    obtain ⟨i, hi⟩ := List.mem_iff_getElem?.1 he
    obtain ⟨h, hh, -⟩ := hd.placed i e hi
    exact Store.isKey_of_hashKey? hh
  refine ⟨⟨hkey, hd.distinct.imp_of_mem fun ha _ hab => ?_⟩, hd.slots, fun g i => ?_⟩
  · rwa [Store.equal?_of_isKey (hkey _ ha), Option.some.injEq] at hab
  · rw [hashAt?]
    cases he : d.entries[i]? with
    | none =>
      refine List.count_eq_zero_of_not_mem fun hi => ?_
      exact Nat.not_le_of_lt (hd.within g i hi) (List.getElem?_eq_none_iff.1 he)
    | some e =>
      obtain ⟨h, hh, hg⟩ := hd.placed i e he
      rw [hg, Option.bind_some, hh]
      exact if_congr (by rw [Option.some.injEq, eq_comm]) rfl rfl

end Dict

/-- Every entry of every dictionary is found. -/
def Store.Intact (s : Store) : Prop := ∀ r, (s.dict r).Intact s

end YeetYoink
