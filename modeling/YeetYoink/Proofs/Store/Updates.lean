import YeetYoink.Scope

/-!
# What a changed store holds

What a reference leads to after something new was made or something was changed, and looking a name
up one scope at a time. `Store.Holds` says something of all values and all dictionaries of a store;
a change keeps it if it holds of what is put in.
-/

namespace YeetYoink.Store

variable (s : Store)

theorem ref_eq {p : Pool} {r q : Ref p} (h : r.index = q.index) : r = q := by
  cases r
  cases q
  cases h
  rfl

theorem text_modifyText_of_ne {r q : Ref .text} (h : q ≠ r) (f : String → String) :
    (s.modifyText r f).text q = s.text q := by
  have hi : r.index ≠ q.index := fun hi => h (ref_eq hi.symm)
  simp [modifyText, text, Array.getElem?_modify, hi]

theorem array_newArray_eq (a : Array Value) (r : Ref .array) :
    (s.newArray a).2.array r = if r.index = s.arrays.size then a else s.array r := by
  simp only [newArray, array, Array.getElem?_push]
  split <;> simp

theorem dict_newDict_eq (d : Dict) (r : Ref .dict) :
    (s.newDict d).2.dict r = if r.index = s.dicts.size then d else s.dict r := by
  simp only [newDict, dict, Array.getElem?_push]
  split <;> simp

theorem array_setArray (r : Ref .array) (a : Array Value) (q : Ref .array) :
    (s.modifyArray r fun _ => a).array q =
      if q = r ∧ r.index < s.arrays.size then a else s.array q := by
  simp only [modifyArray, array, Array.getElem?_modify]
  by_cases h : q = r
  · subst h
    by_cases hi : q.index < s.arrays.size
    · simp [hi]
    · simp [hi]
  · have hi : r.index ≠ q.index := fun hi => h (ref_eq hi.symm)
    simp [hi, h]

theorem dict_setDict (r : Ref .dict) (d : Dict) (q : Ref .dict) :
    (s.modifyDict r fun _ => d).dict q =
      if q = r ∧ r.index < s.dicts.size then d else s.dict q := by
  simp only [modifyDict, dict, Array.getElem?_modify]
  by_cases h : q = r
  · subst h
    by_cases hi : q.index < s.dicts.size
    · simp [hi]
    · simp [hi]
  · have hi : r.index ≠ q.index := fun hi => h (ref_eq hi.symm)
    simp [hi, h]

/-! ### Scopes -/

theorem scope_newScope_eq (x : Scope) (r : Ref .scope) :
    (s.newScope x).2.scope r = if r.index = s.scopes.size then x else s.scope r := by
  simp only [newScope, scope, Array.getElem?_push]
  split <;> simp

theorem scope_bind {r : Ref .scope} (hr : r.index < s.scopes.size) (name : String) (v : Value)
    (q : Ref .scope) :
    (s.bind r name v).scope q = if q = r then (s.scope r).set name v else s.scope q := by
  simp only [bind, modifyScope, scope, Array.getElem?_modify]
  by_cases h : q = r
  · subst h
    simp [hr]
  · have hi : r.index ≠ q.index := fun hi => h (ref_eq hi.symm)
    simp [hi, h]

@[simp] theorem size_bind (r : Ref .scope) (name : String) (v : Value) :
    (s.bind r name v).scopes.size = s.scopes.size := by
  simp [bind, modifyScope]

theorem size_enclose (r : Ref .scope) : (s.enclose r).2.scopes.size = s.scopes.size + 1 :=
  Array.size_push _

/-- Binding a name in a scope that was never made changes nothing. -/
theorem bind_of_le {r : Ref .scope} (hr : s.scopes.size ≤ r.index) (name : String) (v : Value) :
    s.bind r name v = s := by
  have h : s.scopes.modify r.index (·.set name v) = s.scopes := by
    apply Array.ext_getElem?
    intro i
    rw [Array.getElem?_modify]
    split
    next h =>
      subst h
      simp [Array.getElem?_eq_none hr]
    next => rfl
  rw [bind, modifyScope, h]

theorem scope_bind_of_ne {r q : Ref .scope} (hq : q ≠ r) (name : String) (v : Value) :
    (s.bind r name v).scope q = s.scope q := by
  by_cases hr : r.index < s.scopes.size
  · rw [scope_bind s hr, if_neg hq]
  · rw [bind_of_le s (Nat.le_of_not_lt hr)]

theorem outer_bind (r : Ref .scope) (name : String) (v : Value) (q : Ref .scope) :
    ((s.bind r name v).scope q).outer = (s.scope q).outer := by
  by_cases hr : r.index < s.scopes.size
  · rw [scope_bind s hr]
    split
    next h => rw [h, Scope.outer_set]
    next => rfl
  · rw [bind_of_le s (Nat.le_of_not_lt hr)]

theorem get?_bind_of_ne (r : Ref .scope) {name k : String} (hk : k ≠ name) (v : Value)
    (q : Ref .scope) :
    ((s.bind r name v).scope q).get? k = (s.scope q).get? k := by
  by_cases hr : r.index < s.scopes.size
  · rw [scope_bind s hr]
    split
    next h => rw [h, Scope.get?_set, if_neg hk]
    next => rfl
  · rw [bind_of_le s (Nat.le_of_not_lt hr)]

/-- A bound name stays bound. -/
theorem binds_bind (r : Ref .scope) (name : String) (v : Value) {q : Ref .scope} {k : String}
    (h : (s.scope q).binds k) : ((s.bind r name v).scope q).binds k := by
  by_cases hk : k = name
  · subst hk
    by_cases hr : r.index < s.scopes.size
    · rw [scope_bind s hr]
      split
      · simp [Scope.binds, Scope.get?_set]
      · exact h
    · rwa [bind_of_le s (Nat.le_of_not_lt hr)]
  · rwa [Scope.binds, get?_bind_of_ne s r hk]

theorem binds_bind_of_ne {r q : Ref .scope} (hq : q ≠ r) (name : String) (v : Value) (k : String) :
    ((s.bind r name v).scope q).binds k = (s.scope q).binds k := by
  rw [scope_bind_of_ne s hq]

/-- Giving a bound name a value binds no other name. -/
theorem binds_bind_of_binds {r : Ref .scope} {name : String} (hb : (s.scope r).binds name)
    (v : Value)
    (q : Ref .scope) (k : String) : ((s.bind r name v).scope q).binds k = (s.scope q).binds k := by
  by_cases hq : q = r
  · subst hq
    by_cases hk : k = name
    · subst hk
      rw [s.binds_bind q k v hb, hb]
    · rw [Scope.binds, get?_bind_of_ne s q hk, Scope.binds]
  · exact s.binds_bind_of_ne hq name v k

@[simp] theorem size_bindAll (r : Ref .scope) (bs : List (String × Value)) :
    (s.bindAll r bs).scopes.size = s.scopes.size := by
  induction bs generalizing s with
  | nil => rfl
  | cons b bs ih => rw [bindAll, ih, size_bind]

theorem scope_bindAll_of_ne {r q : Ref .scope} (hr : r.index < s.scopes.size) (hq : q ≠ r)
    (bs : List (String × Value)) : (s.bindAll r bs).scope q = s.scope q := by
  induction bs generalizing s with
  | nil => rfl
  | cons b bs ih => rw [bindAll, ih _ (by simpa using hr), scope_bind s hr, if_neg hq]

/-- Different names have the values they were given. -/
theorem get?_bindAll {r : Ref .scope} (hr : r.index < s.scopes.size) {bs : List (String × Value)}
    (hb : (bs.map (·.1)).Nodup) (k : String) :
    ((s.bindAll r bs).scope r).get? k = (bs.lookup k).or ((s.scope r).get? k) := by
  induction bs generalizing s with
  | nil => rfl
  | cons b bs ih =>
    obtain ⟨name, v⟩ := b
    rw [List.map_cons, List.nodup_cons] at hb
    rw [bindAll, ih _ (by simpa using hr) hb.2, scope_bind s hr, if_pos rfl, Scope.get?_set,
      List.lookup_cons]
    by_cases hk : k = name
    · subst hk
      have hn : bs.lookup k = none := by
        refine List.lookup_eq_none_iff.2 fun p hp => bne_iff_ne.2 ?_
        rintro rfl
        exact hb.1 (List.mem_map.2 ⟨p, hp, rfl⟩)
      simp [hn]
    · simp [hk, beq_false_of_ne hk]

/-- A name has the value it was just given, or one that it had. -/
theorem get?_of_bind {r q : Ref .scope} {name k : String} {v u : Value}
    (h : ((s.bind r name v).scope q).get? k = some u) : u = v ∨ (s.scope q).get? k = some u := by
  by_cases hr : r.index < s.scopes.size
  · rw [scope_bind s hr] at h
    split at h
    next hq =>
      subst hq
      rw [Scope.get?_set] at h
      split at h
      · exact .inl (Option.some.inj h).symm
      · exact .inr h
    next => exact .inr h
  · rw [bind_of_le s (Nat.le_of_not_lt hr)] at h
    exact .inr h

/-- A new scope binds nothing. -/
theorem get?_of_enclose {r q : Ref .scope} {k : String} {u : Value}
    (h : ((s.enclose r).2.scope q).get? k = some u) : (s.scope q).get? k = some u := by
  rw [enclose, scope_newScope_eq] at h
  split at h
  · cases h
  · exact h

/-- The scope to ask after another one. -/
def next? (i : Nat) : Option (Ref .scope) := (s.scope ⟨i⟩).outer.filter (·.index < i)

theorem next?_eq_some {r o : Ref .scope} (h : (s.scope r).outer = some o)
    (hlt : o.index < r.index) :
    s.next? r.index = some o :=
  Option.filter_eq_some_iff.2 ⟨h, decide_eq_true hlt⟩

theorem lt_of_next? {s : Store} {i : Nat} {o : Ref .scope} (h : s.next? i = some o) : o.index < i :=
  of_decide_eq_true (Option.filter_eq_some_iff.1 h).2

theorem chainFrom_eq (i : Nat) :
    s.chainFrom i = ⟨i⟩ :: ((s.next? i).map (s.chainFrom ·.index)).getD [] := by
  rw [chainFrom, next?]
  cases (s.scope ⟨i⟩).outer with
  | none => rfl
  | some o =>
    by_cases h : o.index < i
    · simp [h, Option.filter_some]
    · simp [h, Option.filter_some]

theorem lookup?_eq (i : Nat) (name : String) :
    s.lookup? ⟨i⟩ name =
      ((s.scope ⟨i⟩).get? name).or ((s.next? i).bind (s.lookup? · name)) := by
  rw [lookup?, chain, chainFrom_eq, List.findSome?_cons]
  cases (s.scope ⟨i⟩).get? name with
  | some v => rfl
  | none => cases s.next? i <;> rfl

theorem holder?_eq (i : Nat) (name : String) :
    s.holder? ⟨i⟩ name =
      if (s.scope ⟨i⟩).binds name then some ⟨i⟩ else (s.next? i).bind (s.holder? · name) := by
  rw [holder?, chain, chainFrom_eq, List.find?_cons]
  cases (s.scope ⟨i⟩).binds name with
  | true => rfl
  | false => cases s.next? i <;> rfl

/-- The scope that gives a name its meaning binds it. -/
theorem binds_of_holder? {s : Store} {r q : Ref .scope} {name : String}
    (h : s.holder? r name = some q) :
    (s.scope q).binds name :=
  List.find?_some (p := fun x => (s.scope x).binds name) h

/-! ### All values of a store -/

/-- `V` holds of the values in arrays and scopes, and `D` of the dictionaries. -/
structure Holds (V : Value → Prop) (D : Dict → Prop) (s : Store) : Prop where
  arrays : ∀ r, ∀ v ∈ s.array r, V v
  dicts : ∀ r, D (s.dict r)
  scopes : ∀ r name v, (s.scope r).get? name = some v → V v

namespace Holds

variable {V : Value → Prop} {D : Dict → Prop} {s : Store} (h : s.Holds V D)
include h

theorem mono {V' : Value → Prop} {D' : Dict → Prop} (hV : ∀ v, V v → V' v) (hD : ∀ d, D d → D' d) :
    s.Holds V' D' where
  arrays r v hv := hV v (h.arrays r v hv)
  dicts r := hD _ (h.dicts r)
  scopes r name v hv := hV v (h.scopes r name v hv)

theorem newArray {a : Array Value} (ha : ∀ v ∈ a, V v) : (s.newArray a).2.Holds V D where
  arrays r v hv := by
    rw [array_newArray_eq] at hv
    split at hv
    · exact ha v hv
    · exact h.arrays r v hv
  dicts := h.dicts
  scopes := h.scopes

theorem setArray (r : Ref .array) {a : Array Value} (ha : ∀ v ∈ a, V v) :
    (s.modifyArray r fun _ => a).Holds V D where
  arrays q v hv := by
    rw [array_setArray] at hv
    split at hv
    · exact ha v hv
    · exact h.arrays q v hv
  dicts := h.dicts
  scopes := h.scopes

theorem newDict {d : Dict} (hd : D d) : (s.newDict d).2.Holds V D where
  arrays := h.arrays
  dicts r := by
    rw [dict_newDict_eq]
    split
    · exact hd
    · exact h.dicts r
  scopes := h.scopes

theorem setDict (r : Ref .dict) {d : Dict} (hd : D d) : (s.modifyDict r fun _ => d).Holds V D where
  arrays := h.arrays
  dicts q := by
    rw [dict_setDict]
    split
    · exact hd
    · exact h.dicts q
  scopes := h.scopes

theorem bind (r : Ref .scope) (name : String) {v : Value} (hv : V v) :
    (s.bind r name v).Holds V D where
  arrays := h.arrays
  dicts := h.dicts
  scopes q k u hu := by
    obtain rfl | hu := get?_of_bind s hu
    · exact hv
    · exact h.scopes q k u hu

theorem enclose (r : Ref .scope) : (s.enclose r).2.Holds V D where
  arrays := h.arrays
  dicts := h.dicts
  scopes q k u hu := h.scopes q k u (s.get?_of_enclose hu)

end Holds

end YeetYoink.Store
