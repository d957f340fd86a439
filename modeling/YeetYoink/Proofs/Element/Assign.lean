import YeetYoink.Element
import YeetYoink.Proofs.Eval.Calls
import YeetYoink.Proofs.Value.Equality

/-!
# Assigning to an element

An assignment to a place of a container changes this container and nothing else (`Store.SameBut`),
also if the value assigned is the container itself; one that fails changes nothing. Putting a key
into a dictionary needs no dictionary that is intact: only the entry that is found for the key
changes, and no other key finds it (`Dict.exists_inserted`).
-/

namespace YeetYoink

/-! ### Places -/

theorem position?_eq_some_iff {i : Int64} {size k : Nat} :
    position? i size = some k ↔ i.toInt = k ∧ k < size := by
  unfold position?
  split
  · rw [Option.some.injEq]
    omega
  · simp only [reduceCtorEq, false_iff]
    omega

theorem position?_eq_none_iff {i : Int64} {size : Nat} :
    position? i size = none ↔ i.toInt < 0 ∨ size ≤ i.toInt := by
  unfold position?
  split
  · simp only [reduceCtorEq, false_iff]
    omega
  · simp only [true_iff]
    omega

theorem toList_replaceAt (t : String) (i : Nat) (new : String) :
    (replaceAt t i new).toList = t.toList.take i ++ new.toList ++ t.toList.drop (i + 1) :=
  String.toList_ofList

/-! ### The rest of the store -/

namespace Store

/-- Two stores are the same but for what one container holds; there may be new texts. -/
structure SameBut (s : Store) (c : Value) (t : Store) : Prop where
  text : ∀ r, r.index < s.texts.size → .text r ≠ c → t.text r = s.text r
  array : ∀ r, .array r ≠ c → t.array r = s.array r
  dict : ∀ r, .dict r ≠ c → t.dict r = s.dict r
  texts : s.texts.size ≤ t.texts.size
  arrays : t.arrays.size = s.arrays.size
  dicts : t.dicts.size = s.dicts.size
  scopes : t.scopes = s.scopes
  bodies : t.bodies = s.bodies
  printed : t.printed = s.printed

variable (s : Store)

theorem SameBut.refl (c : Value) : s.SameBut c s :=
  ⟨fun _ _ _ => rfl, fun _ _ => rfl, fun _ _ => rfl, Nat.le_refl _, rfl, rfl, rfl, rfl, rfl⟩

theorem SameBut.modifyText (r : Ref .text) (f : String → String) :
    s.SameBut (.text r) (s.modifyText r f) :=
  { refl s _ with
    text := fun _ _ h => s.text_modifyText_of_ne (fun hq => h (congrArg Value.text hq)) f
    texts := Nat.le_of_eq Array.size_modify.symm }

theorem SameBut.modifyArray (r : Ref .array) (f : Array Value → Array Value) :
    s.SameBut (.array r) (s.modifyArray r f) :=
  { refl s _ with
    array := fun q h => by
      have hi : r.index ≠ q.index := fun hi => h (congrArg Value.array (ref_eq hi.symm))
      simp [Store.modifyArray, Store.array, Array.getElem?_modify, hi]
    arrays := Array.size_modify }

theorem SameBut.setDict (r : Ref .dict) (d : Dict) :
    s.SameBut (.dict r) (s.modifyDict r fun _ => d) :=
  { refl s _ with
    dict := fun q h => by rw [dict_setDict, if_neg fun hq => h (congrArg Value.dict hq.1)]
    dicts := Array.size_modify }

theorem SameBut.newText (c : Value) (x : String) : s.SameBut c (s.newText x).2 :=
  { refl s _ with
    text := fun _ hr _ => s.text_newText_of_lt x hr
    texts := Nat.le_of_lt (by simp [Store.newText]) }

variable {s}

theorem SameBut.trans {t u : Store} {c : Value} (h : s.SameBut c t) (h' : t.SameBut c u) :
    s.SameBut c u where
  text r hr hc := (h'.text r (Nat.lt_of_lt_of_le hr h.texts) hc).trans (h.text r hr hc)
  array r hc := (h'.array r hc).trans (h.array r hc)
  dict r hc := (h'.dict r hc).trans (h.dict r hc)
  texts := Nat.le_trans h.texts h'.texts
  arrays := h'.arrays.trans h.arrays
  dicts := h'.dicts.trans h.dicts
  scopes := h'.scopes.trans h.scopes
  bodies := h'.bodies.trans h.bodies
  printed := h'.printed.trans h.printed

theorem text_modifyText {r : Ref .text} (hr : r.index < s.texts.size) (f : String → String) :
    (s.modifyText r f).text r = f (s.text r) := by
  rw [modifyText, text, text, Array.getElem?_modify, if_pos rfl, Array.getElem?_eq_getElem hr]
  rfl

theorem array_modifyArray {r : Ref .array} (hr : r.index < s.arrays.size)
    (f : Array Value → Array Value) :
    (s.modifyArray r f).array r = f (s.array r) := by
  rw [modifyArray, array, array, Array.getElem?_modify, if_pos rfl, Array.getElem?_eq_getElem hr]
  rfl

/-- What is not empty was made. -/
theorem lt_of_lt_length {r : Ref .text} {k : Nat} (h : k < (s.text r).length) :
    r.index < s.texts.size := by
  by_contra hr
  rw [text, Array.getElem?_eq_none (Nat.le_of_not_lt hr)] at h
  exact absurd h (Nat.not_lt_zero k)

theorem lt_of_lt_size {r : Ref .array} {k : Nat} (h : k < (s.array r).size) :
    r.index < s.arrays.size := by
  by_contra hr
  rw [array, Array.getElem?_eq_none (Nat.le_of_not_lt hr)] at h
  exact absurd h (Nat.not_lt_zero k)

end Store

/-! ### Keys and values -/

namespace Dict

variable {s t : Store} {d : Dict} {h : HashKey} {p : Value → Bool}

theorem find?_congr {q : Value → Bool} (hpq : ∀ e ∈ d.entries, p e.key = q e.key) :
    d.find? h p = d.find? h q := by
  have hplace : d.place? h p = d.place? h q := by
    refine List.find?_congr fun i _ => ?_
    cases hi : d.entries[i]? with
    | none => rfl
    | some e => exact hpq e (List.mem_of_getElem? hi)
  rw [find?, find?, hplace]

theorem find?_setValue_self {i : Nat} (hi : d.place? h p = some i) (v : Value) :
    (d.setValue i v).find? h p = some v := by
  obtain ⟨-, e, he, -⟩ := exists_of_place? hi
  rw [find?, place?_setValue, hi, Option.bind_some, getElem?_setValue, he]
  simp

/-- A pair that is not the one looked for may change its value. -/
theorem find?_setValue_of_ne {i : Nat} (hi : d.place? h p ≠ some i) (v : Value) :
    (d.setValue i v).find? h p = d.find? h p := by
  rw [find?, place?_setValue, find?]
  refine Option.bind_congr fun j hj => ?_
  have hne : i ≠ j := fun hij => hi (hij ▸ hj)
  rw [getElem?_setValue, Option.map_map]
  congr 1
  funext e
  rw [Function.comp_apply, if_neg hne]

/-- A new pair with another key does not come in the way. -/
theorem find?_push_of_neg {k : Value} (hp : p k = false) (g : HashKey) (v : Value) :
    (d.push g k v).find? h p = d.find? h p := by
  have hnew : d.entries[d.size]? = none := List.getElem?_eq_none (Nat.le_refl _)
  have hany : ∀ i, ((d.push g k v).entries[i]?.any fun e : Entry => p e.key) =
      d.entries[i]?.any fun e : Entry => p e.key := fun i => by
    rw [getElem?_push]
    split
    next hi => rw [hi, hnew, Option.any_some, hp, Option.any_none]
    next => rfl
  have hplace : (d.push g k v).place? h p = d.place? h p := by
    rw [place?, place?, slot_push, List.find?_append]
    simp only [hany]
    split
    · simp [hnew]
    · simp
  rw [find?, hplace, find?]
  refine Option.bind_congr fun i hi => ?_
  obtain ⟨-, e, he, -⟩ := exists_of_place? hi
  have hlt : i < d.size := (List.getElem?_eq_some_iff.1 he).1
  rw [getElem?_push, if_neg (Nat.ne_of_lt hlt)]

/-- A new pair is found where no other one was. -/
theorem find?_push_of_pos {k : Value} (hp : p k) (hn : d.place? h p = none) (v : Value) :
    (d.push h k v).find? h p = some v := by
  have hsome : ((d.push h k v).place? h p).isSome := by
    refine List.find?_isSome.2 ⟨d.size, ?_, ?_⟩
    · rw [slot_push, if_pos rfl]
      exact List.mem_append_right _ List.mem_cons_self
    · rw [getElem?_push, if_pos rfl]
      exact hp
  obtain ⟨i, hi⟩ := Option.isSome_iff_exists.1 hsome
  obtain ⟨hslot, e, he, hpe⟩ := exists_of_place? hi
  rw [slot_push, if_pos rfl, List.mem_append, List.mem_singleton] at hslot
  rw [find?, hi, Option.bind_some, he]
  rw [getElem?_push] at he
  split at he
  next =>
    cases he
    rfl
  next hne =>
    -- Such a place was in the slot before, and would have been found.
    have hmem := hslot.resolve_right hne
    exact absurd ((Option.any_eq_true _ _).2 ⟨e, he, hpe⟩) (List.find?_eq_none.1 hn i hmem)

theorem get_of_hashKey? {key : Value} (hh : s.hashKey? key = some h) :
    d.get s key = .ok (d.find? h (s.sameKey · key)) := by
  rw [Dict.get, hh]

/-- Whoever holds a key finds the same under it. -/
theorem get_congr {a b : Value} {j : Key} (hd : ∀ e ∈ d.entries, t.key? e.key = s.key? e.key)
    (ha : s.key? a = some j) (hb : t.key? b = some j) : d.get t b = d.get s a := by
  have hab : t.key? b = s.key? a := hb.trans ha.symm
  obtain ⟨h, hh⟩ := Store.exists_hashKey? ha
  rw [get_of_hashKey? ((Store.hashKey?_congr hab).trans hh), get_of_hashKey? hh]
  exact congrArg Except.ok (find?_congr fun e he => Store.sameKey_congr (hd e he) hab)

theorem keys_setValue (i : Nat) (v : Value) : (d.setValue i v).keys s = d.keys s := by
  have hkeys := congrArg (List.map s.key?) (d.map_key_setValue i v)
  rwa [List.map_map, List.map_map] at hkeys

theorem sameBut_of_detach {key key' : Value} (h : detach key s = .ok key' t) (c : Value) :
    s.SameBut c t := by
  cases key with
  | text r =>
    cases h
    exact .newText s c _
  | _ =>
    cases h
    exact .refl s c

/-- What putting in a key does: it has the value now, every other key has the one it had, and the
keys stand as they stood, a new one behind them. -/
structure Inserted (s : Store) (d : Dict) (key v : Value) (k : Key) (t : Store) (d' : Dict) :
    Prop where
  get : ∀ a b j, s.key? a = some j → t.key? b = some j →
    d'.get t b = if j = k then .ok (some v) else d.get s a
  keys : (∃ u, d.get s key = .ok (some u)) ∧ d'.keys t = d.keys s ∨
    d.get s key = .ok none ∧ d'.keys t = d.keys s ++ [some k]

/-- A key that is found gets another value. -/
theorem inserted_setValue {key : Value} {k : Key} {i : Nat} (hk : s.key? key = some k)
    (hh : s.hashKey? key = some h) (hi : d.place? h (s.sameKey · key) = some i) (v : Value) :
    Inserted s d key v k s (d.setValue i v) := by
  obtain ⟨-, e, he, hek⟩ := exists_of_place? hi
  rw [Store.sameKey_iff_of_key? hk] at hek
  refine ⟨fun a b j ha hb => ?_, .inl ⟨⟨e.value, ?_⟩, keys_setValue i v⟩⟩
  · split
    next hj =>
      subst hj
      rw [get_congr (fun _ _ => rfl) hk hb, get_of_hashKey? hh, find?_setValue_self hi]
    next hj =>
      obtain ⟨g, hg⟩ := Store.exists_hashKey? ha
      rw [get_congr (fun _ _ => rfl) ha hb, get_of_hashKey? hg, get_of_hashKey? hg,
        find?_setValue_of_ne]
      -- A place is for one key only.
      intro hia
      obtain ⟨-, f, hf, hfk⟩ := exists_of_place? hia
      rw [he, Option.some.injEq] at hf
      rw [Store.sameKey_iff_of_key? ha, ← hf, hek, Option.some.injEq] at hfk
      exact hj hfk.symm
  · rw [get_of_hashKey? hh, find?, hi, Option.bind_some, he, Option.map_some]

/-- A key that is not found comes last, and only it finds the new entry. -/
theorem inserted_push {key key' : Value} {k : Key} (hk : s.key? key = some k)
    (hh : s.hashKey? key = some h) (hn : d.place? h (s.sameKey · key) = none)
    (hkey : Detached s key key' t) (hm : ∀ e ∈ d.entries, s.Made e.key) (v : Value) :
    Inserted s d key v k t (d.push h key' v) := by
  have hkt : t.key? key' = some k := hkey.key.trans hk
  have hsame : ∀ e ∈ d.entries, t.key? e.key = s.key? e.key := fun e he =>
    Store.key?_congr fun r hr => hkey.same r (by simpa [hr, Store.Made] using hm e he)
  have hnone : d.get s key = .ok none := by rw [get_of_hashKey? hh, find?_eq_none_iff.2 hn]
  refine ⟨fun a b j ha hb => ?_, .inr ⟨hnone, ?_⟩⟩
  · obtain ⟨g, hg⟩ := Store.exists_hashKey? hb
    have hold := get_congr hsame ha hb
    rw [get_of_hashKey? hg] at hold ⊢
    have hnew : t.sameKey key' b ↔ k = j := by
      rw [Store.sameKey_iff_of_key? hb, hkt, Option.some.injEq]
    split
    next hj =>
      subst hj
      have hgh : g = h := by
        rw [← Option.some.injEq, ← hg, ← hh, Store.hashKey?_congr (hb.trans hk.symm)]
      subst hgh
      rw [get_congr (fun _ _ => rfl) hk ha, hnone, Except.ok.injEq, find?_eq_none_iff] at hold
      rw [find?_push_of_pos (p := (t.sameKey · b)) (hnew.2 rfl) hold]
    next hj =>
      rw [find?_push_of_neg, hold]
      rw [Bool.eq_false_iff, ne_eq, hnew]
      exact fun hkj => hj hkj.symm
  · rw [keys, push, List.map_append, List.map_congr_left hsame, keys]
    simp [hkt]

theorem exists_inserted {key : Value} {k : Key} (hk : s.key? key = some k)
    (hm : ∀ e ∈ d.entries, s.Made e.key) (v : Value) :
    ∃ d' t, d.insert key v s = .ok d' t ∧ (∀ c, s.SameBut c t) ∧ Inserted s d key v k t d' := by
  obtain ⟨h, hh⟩ := Store.exists_hashKey? hk
  obtain ⟨i, hf, hi⟩ | ⟨key', t, hf, hdet, hkey, hi⟩ := insert_cases (d := d) hh v
  · exact ⟨_, s, hi, fun c => .refl s c, inserted_setValue hk hh hf v⟩
  · exact ⟨_, t, hi, sameBut_of_detach hdet, inserted_push hk hh hf hkey hm v⟩

end Dict

/-! ### Assignments -/

namespace Element

variable {s : Store} {v : Value} {printed : String} {i : Int64} {k : Nat}

theorem assign_array_of_some {a : Ref .array} (h : position? i (s.array a).size = some k) :
    assign (.array a) (.int i) v printed s = .ok v (s.modifyArray a (·.setIfInBounds k v)) := by
  simp only [assign, Eval.get_bind, h]
  rfl

theorem assign_array_of_none {a : Ref .array} (h : position? i (s.array a).size = none) :
    assign (.array a) (.int i) v printed s = .error (.failed (.outOfBounds .array printed)) s := by
  simp only [assign, Eval.get_bind, h]
  rfl

theorem assign_text_of_some {r : Ref .text} (h : position? i (s.text r).length = some k) :
    assign (.text r) (.int i) v printed s =
      .ok v (s.modifyText r (replaceAt · k (s.display v))) := by
  simp only [assign, Eval.get_bind, h]
  rfl

theorem assign_text_of_none {r : Ref .text} (h : position? i (s.text r).length = none) :
    assign (.text r) (.int i) v printed s = .error (.failed (.outOfBounds .text printed)) s := by
  simp only [assign, Eval.get_bind, h]
  rfl

theorem assign_dict_of_insert {d : Ref .dict} {key : Value} {j : Key} {d' : Dict} {t : Store}
    (hk : s.key? key = some j) (hi : (s.dict d).insert key v s = .ok d' t) :
    assign (.dict d) key v printed s = .ok v (t.modifyDict d fun _ => d') := by
  obtain ⟨h, hh⟩ := Store.exists_hashKey? hk
  simp only [assign, Eval.get_bind, hh, Option.isSome_some, if_true]
  rw [Eval.bind_ok hi]
  rfl

theorem assign_dict_of_none {d : Ref .dict} {key : Value} (hk : s.key? key = none) :
    assign (.dict d) key v printed s = .ok v s := by
  simp only [assign, Eval.get_bind, Store.hashKey?_eq_none_iff.2 hk, Option.isSome_none,
    Bool.false_eq_true, if_false]
  rfl

/-- Assigning to a key of a dictionary. -/
theorem exists_assign_dict {d : Ref .dict} (hd : s.MadeIn (.dict d)) {key : Value} {j : Key}
    (hk : s.key? key = some j) (v : Value) (printed : String) :
    ∃ t, assign (.dict d) key v printed s = .ok v t ∧ s.SameBut (.dict d) t ∧
      Dict.Inserted s (s.dict d) key v j t (t.dict d) := by
  have hm : ∀ e ∈ (s.dict d).entries, s.Made e.key :=
    fun e he => (hd.part (Store.inside_key he)).made
  obtain ⟨d', t, hi, hst, hins⟩ := Dict.exists_inserted hk hm v
  have hdt : (t.modifyDict d fun _ => d').dict d = d' := by
    rw [Store.dict_setDict, if_pos ⟨rfl, (hst .null).dicts ▸ hd.made⟩]
  refine ⟨_, assign_dict_of_insert hk hi, (hst _).trans (.setDict t d d'), ?_⟩
  rw [hdt]
  exact ⟨hins.get, hins.keys⟩

theorem store_of_assign_error {c key : Value} {e : Stop} {t : Store}
    (h : assign c key v printed s = .error e t) : t = s := by
  cases c with
  | array a =>
    cases key with
    | int i =>
      cases hp : position? i (s.array a).size with
      | some k =>
        rw [assign_array_of_some hp] at h
        cases h
      | none =>
        rw [assign_array_of_none hp] at h
        cases h
        rfl
    | _ => cases h; rfl
  | text r =>
    cases key with
    | int i =>
      cases hp : position? i (s.text r).length with
      | some k =>
        rw [assign_text_of_some hp] at h
        cases h
      | none =>
        rw [assign_text_of_none hp] at h
        cases h
        rfl
    | _ => cases h; rfl
  | dict d =>
    -- Putting in what can be a key does not fail.
    cases hk : s.key? key with
    | none =>
      rw [assign_dict_of_none hk] at h
      cases h
    | some j =>
      obtain ⟨g, hg⟩ := Store.exists_hashKey? hk
      obtain ⟨_, -, hi⟩ | ⟨_, _, -, -, -, hi⟩ := Dict.insert_cases (d := s.dict d) hg v
      · rw [assign_dict_of_insert hk hi] at h
        cases h
      · rw [assign_dict_of_insert hk hi] at h
        cases h
  | _ => cases h; rfl

theorem assign_array_eq_error_iff {a : Ref .array} :
    assign (.array a) (.int i) v printed s = .error (.failed (.outOfBounds .array printed)) s ↔
      i.toInt < 0 ∨ (s.array a).size ≤ i.toInt := by
  rw [← position?_eq_none_iff]
  cases hp : position? i (s.array a).size with
  | some k => simp [assign_array_of_some hp]
  | none => simp [assign_array_of_none hp]

theorem assign_text_eq_error_iff {r : Ref .text} :
    assign (.text r) (.int i) v printed s = .error (.failed (.outOfBounds .text printed)) s ↔
      i.toInt < 0 ∨ (s.text r).length ≤ i.toInt := by
  rw [← position?_eq_none_iff]
  cases hp : position? i (s.text r).length with
  | some k => simp [assign_text_of_some hp]
  | none => simp [assign_text_of_none hp]

/-- Assigning to a place of a container changes that container only. Past the ends of an array or a
text it fails; elsewhere the place has the value, or its characters, and all other places stay. In a
dictionary the key has the value, and all other keys the one they had, in their order; a value that
cannot be a key changes nothing, and neither does an assignment that fails. -/
theorem assign_local (s : Store) (v : Value) (printed : String) :
    (∀ a i,
      (assign (.array a) (.int i) v printed s = .error (.failed (.outOfBounds .array printed)) s ↔
        i.toInt < 0 ∨ (s.array a).size ≤ i.toInt) ∧
      ∀ k : Nat, i.toInt = k → k < (s.array a).size →
        ∃ t, assign (.array a) (.int i) v printed s = .ok v t ∧ s.SameBut (.array a) t ∧
          ∀ j, (t.array a)[j]? = if j = k then some v else (s.array a)[j]?) ∧
    (∀ r i,
      (assign (.text r) (.int i) v printed s = .error (.failed (.outOfBounds .text printed)) s ↔
        i.toInt < 0 ∨ (s.text r).length ≤ i.toInt) ∧
      ∀ k : Nat, i.toInt = k → k < (s.text r).length →
        ∃ t, assign (.text r) (.int i) v printed s = .ok v t ∧ s.SameBut (.text r) t ∧
          (t.text r).toList =
            (s.text r).toList.take k ++ (s.display v).toList ++ (s.text r).toList.drop (k + 1)) ∧
    (∀ d key k, s.MadeIn (.dict d) → s.key? key = some k →
      ∃ t, assign (.dict d) key v printed s = .ok v t ∧ s.SameBut (.dict d) t ∧
        (∀ a b j, s.key? a = some j → t.key? b = some j →
          (t.dict d).get t b = if j = k then .ok (some v) else (s.dict d).get s a) ∧
        ((∃ u, (s.dict d).get s key = .ok (some u)) ∧ (t.dict d).keys t = (s.dict d).keys s ∨
          (s.dict d).get s key = .ok none ∧ (t.dict d).keys t = (s.dict d).keys s ++ [some k])) ∧
    (∀ d key, s.key? key = none → assign (.dict d) key v printed s = .ok v s) ∧
    ∀ c key e t, assign c key v printed s = .error e t → t = s := by
  refine ⟨fun a i => ⟨assign_array_eq_error_iff, fun k hi hk => ?_⟩,
    fun r i => ⟨assign_text_eq_error_iff, fun k hi hk => ?_⟩, fun d key k hd hk => ?_,
    fun d key hk => assign_dict_of_none hk, fun c key e t => store_of_assign_error⟩
  · refine ⟨_, assign_array_of_some (position?_eq_some_iff.2 ⟨hi, hk⟩), .modifyArray s a _,
      fun j => ?_⟩
    rw [Store.array_modifyArray (Store.lt_of_lt_size hk), Array.getElem?_setIfInBounds, if_pos hk]
    exact if_congr eq_comm rfl rfl
  · refine ⟨_, assign_text_of_some (position?_eq_some_iff.2 ⟨hi, hk⟩), .modifyText s r _, ?_⟩
    rw [Store.text_modifyText (Store.lt_of_lt_length hk), toList_replaceAt]
  · obtain ⟨t, ht, hst, hins⟩ := exists_assign_dict hd hk v printed
    exact ⟨t, ht, hst, hins.get, hins.keys⟩

/-- An array that holds a text, and a dictionary that holds the array. -/
def shelf : Store where
  texts := #["añb", "k"]
  arrays := #[#[.int 1, .text ⟨0⟩]]
  dicts := #[⟨[⟨.text ⟨1⟩, .array ⟨0⟩⟩], [(⟨.text, Text.digest "k"⟩, [0])]⟩]

theorem madeIn_shelf : shelf.MadeIn (.dict ⟨0⟩) := by
  refine Store.madeIn_of_parts (fun u v hu => ?_) (by simp [Store.Made, shelf])
  obtain ⟨⟨_ | i⟩, rfl, hr⟩ | ⟨⟨_ | i⟩, rfl, hr⟩ := Store.exists_array_or_dict hu
  · change u ∈ [.int 1, .text ⟨0⟩] at hu
    simp only [List.mem_cons, List.not_mem_nil, or_false] at hu
    obtain rfl | rfl := hu <;> simp [Store.Made, shelf]
  · simp [shelf] at hr
  · change u ∈ [.text ⟨1⟩, .array ⟨0⟩] at hu
    simp only [List.mem_cons, List.not_mem_nil, or_false] at hu
    obtain rfl | rfl := hu <;> simp [Store.Made, shelf]
  · simp [shelf] at hr

/-- The array put into itself, the text into itself, a place past its end, and a new key. -/
theorem assign_local_shelf :
    (∃ t, assign (.array ⟨0⟩) (.int 1) (.array ⟨0⟩) "a" shelf = .ok (.array ⟨0⟩) t ∧
      (t.array ⟨0⟩)[0]? = some (.int 1) ∧ (t.array ⟨0⟩)[1]? = some (.array ⟨0⟩) ∧
      t.dict ⟨0⟩ = shelf.dict ⟨0⟩) ∧
    (∃ t, assign (.text ⟨0⟩) (.int 1) (.text ⟨0⟩) "s" shelf = .ok (.text ⟨0⟩) t ∧
      (t.text ⟨0⟩).toList = "aañbb".toList ∧ t.array ⟨0⟩ = shelf.array ⟨0⟩) ∧
    assign (.text ⟨0⟩) (.int 3) .null "s" shelf = .error (.failed (.outOfBounds .text "s")) shelf ∧
    shelf.MadeIn (.dict ⟨0⟩) ∧ shelf.key? (.text ⟨0⟩) = some (.text "añb") ∧
    ∃ t, assign (.dict ⟨0⟩) (.text ⟨0⟩) (.int 5) "h" shelf = .ok (.int 5) t ∧
      (∀ b, t.key? b = some (.text "añb") → (t.dict ⟨0⟩).get t b = .ok (some (.int 5))) ∧
      (∀ b, t.key? b = some (.text "k") → (t.dict ⟨0⟩).get t b = .ok (some (.array ⟨0⟩))) ∧
      (t.dict ⟨0⟩).keys t = [some (.text "k"), some (.text "añb")] := by
  obtain ⟨harray, -⟩ := assign_local shelf (.array ⟨0⟩) "a"
  obtain ⟨-, htext, -⟩ := assign_local shelf (.text ⟨0⟩) "s"
  obtain ⟨-, hnull, -⟩ := assign_local shelf .null "s"
  obtain ⟨-, -, hdict, -⟩ := assign_local shelf (.int 5) "h"
  refine ⟨?_, ?_, (hnull ⟨0⟩ 3).1.2 (.inr (by decide)), madeIn_shelf, rfl, ?_⟩
  · obtain ⟨t, ht, hst, hslots⟩ := (harray ⟨0⟩ 1).2 1 (by decide) (by decide)
    exact ⟨t, ht, hslots 0, hslots 1, hst.dict _ nofun⟩
  · obtain ⟨t, ht, hst, hchars⟩ := (htext ⟨0⟩ 1).2 1 (by decide) (by decide)
    exact ⟨t, ht, hchars, hst.array _ nofun⟩
  · obtain ⟨t, ht, -, hget, hkeys⟩ := hdict ⟨0⟩ (.text ⟨0⟩) _ madeIn_shelf rfl
    have hnone : (shelf.dict ⟨0⟩).get shelf (.text ⟨0⟩) = .ok none := by cbv
    refine ⟨t, ht, fun b hb => hget (.text ⟨0⟩) b _ rfl hb, fun b hb => ?_, ?_⟩
    · exact hget (.text ⟨1⟩) b _ rfl hb
    · obtain ⟨⟨u, hu⟩, -⟩ | ⟨-, hkeys⟩ := hkeys
      · rw [hnone] at hu
        cases hu
      · exact hkeys

end Element

end YeetYoink
