import YeetYoink.Proofs.Element.Yoink
import YeetYoink.Proofs.Text.Bytes
import YeetYoink.Proofs.Value.Literal

/-!
# Slices

The bounds of a slice are moved into the container, so that any two integers are bounds. Which
places a slice has, and where they are in the container, is said by `InSlice`; it is the same for
arrays and texts (`exists_position?_slice`). A slice up to the length of the container is all of it.
The length of a text is that of its bytes, of which there may be more than characters.
-/

namespace YeetYoink

/-- There is a place `k` in the slice from `i` to `j` of so many elements. -/
def InSlice (i j k : Int64) (size : Nat) : Prop :=
  0 ≤ k.toInt ∧ max 0 i.toInt + k.toInt < min j.toInt size

instance (i j k : Int64) (size : Nat) : Decidable (InSlice i j k size) :=
  inferInstanceAs (Decidable (_ ∧ _))

section

variable {α : Type} {i j k : Int64} {xs : List α}

theorem getElem?_slice (i j : Int64) (xs : List α) (n : Nat) :
    (slice i j xs)[n]? = if max 0 i.toInt + n <
      min j.toInt xs.length then xs[i.toInt.toNat + n]? else none := by
  rw [slice, List.getElem?_drop, List.getElem?_take, clamp, clamp]
  split
  · rw [if_pos (by omega), Nat.min_eq_left (by omega)]
  · rw [if_neg (by omega)]

/-- A place of a slice is a place of the container. -/
theorem exists_position?_slice (h : InSlice i j k xs.length) :
    ∃ m : Int64, ∃ x, m.toInt = max 0 i.toInt + k.toInt ∧
      position? m xs.length = some m.toInt.toNat ∧
      xs[m.toInt.toNat]? = some x ∧ position? k (slice i j xs).length = some k.toInt.toNat ∧
      (slice i j xs)[k.toInt.toNat]? = some x := by
  obtain ⟨hk, hlt⟩ := h
  have hj := j.toInt_lt
  -- The place is before the second bound, and so it does not overflow.
  obtain ⟨m, hm⟩ : ∃ m : Int64, m.toInt = max 0 i.toInt + k.toInt :=
    ⟨.ofInt _, Int64.toInt_ofInt_of_le (by omega) (by omega)⟩
  have hidx : i.toInt.toNat + k.toInt.toNat = m.toInt.toNat := by omega
  have hsize : m.toInt.toNat < xs.length := by omega
  have hslice : (slice i j xs)[k.toInt.toNat]? = some xs[m.toInt.toNat] := by
    rw [getElem?_slice, if_pos (by omega), hidx, List.getElem?_eq_getElem hsize]
  have hlen := (List.getElem?_eq_some_iff.1 hslice).1
  exact ⟨m, xs[m.toInt.toNat], hm, position?_eq_some_iff.2 ⟨by omega, hsize⟩,
    List.getElem?_eq_getElem hsize,
    position?_eq_some_iff.2 ⟨by omega, hlen⟩, hslice⟩

theorem position?_slice_eq_none (h : ¬ InSlice i j k xs.length) :
    position? k (slice i j xs).length = none := by
  rw [position?_eq_none_iff]
  by_cases hk : k.toInt < 0
  · exact .inl hk
  · have hnone : (slice i j xs)[k.toInt.toNat]? = none := by
      rw [getElem?_slice, if_neg]
      exact fun hlt => h ⟨by omega, by omega⟩
    have hlen := List.getElem?_eq_none_iff.1 hnone
    exact .inr (by omega)

/-- A slice that ends behind all elements has all of them. -/
theorem slice_all (h : xs.length ≤ j.toInt) : slice 0 j xs = xs := by
  have hfirst : clamp 0 xs.length = 0 := by simp [clamp]
  have hlast : clamp j xs.length = xs.length := Nat.min_eq_right (by omega)
  rw [slice, hfirst, hlast, List.drop_zero, List.take_length]

end

/-- There are at least as many bytes in a text as characters. -/
theorem Text.length_le_byteSize (cs : List Char) : cs.length ≤ byteSize cs := by
  induction cs with
  | nil => exact Nat.le_refl _
  | cons c cs ih =>
    have := c.utf8Size_pos
    rw [List.length_cons, byteSize]
    omega

namespace Element

variable {s : Store}

/-! ### Slices are new -/

theorem slice_nil {α : Type} (i j : Int64) : slice i j ([] : List α) = [] := by
  rw [slice, List.take_nil, List.drop_nil]

/-- The new array changes no other; what was no array before has no elements, and a slice of it has
none. -/
theorem array_newArray_slice (s : Store) (a : Ref .array) (i j : Int64) :
    (s.newArray (slice i j (s.array a).toList).toArray).2.array a = s.array a := by
  obtain ha | ha | ha := Nat.lt_trichotomy a.index s.arrays.size
  · exact s.array_newArray_of_lt _ ha
  · have hnone : s.array a = #[] := by simp [Store.array, ha]
    rw [hnone, slice_nil]
    simp [Store.newArray, Store.array, ha]
  · simp [Store.newArray, Store.array, Array.getElem?_push, ha.ne', Nat.le_of_lt ha]

theorem text_newText_slice (s : Store) (r : Ref .text) (i j : Int64) :
    (s.newText (String.ofList (slice i j (s.text r).toList))).2.text r = s.text r := by
  obtain hr | hr | hr := Nat.lt_trichotomy r.index s.texts.size
  · exact s.text_newText_of_lt _ hr
  · have hnone : s.text r = "" := by simp [Store.text, hr]
    rw [hnone, String.toList_empty, slice_nil]
    simp [Store.newText, Store.text, hr]
  · simp [Store.newText, Store.text, Array.getElem?_push, hr.ne', Nat.le_of_lt hr]

/-- Slicing an array. -/
theorem exists_array_slice (s : Store) (a : Ref .array) (i j : Int64) :
    ∃ b t, read (.array a) (.range i j) s = .ok (.array b) t ∧ ¬ s.Made (.array b) ∧ s.Adds t ∧
      t.array a = s.array a ∧ t.array b = (slice i j (s.array a).toList).toArray :=
  ⟨_, _, rfl, Nat.lt_irrefl _, .newArray s _, array_newArray_slice s a i j, s.array_newArray _⟩

theorem exists_text_slice (s : Store) (r : Ref .text) (i j : Int64) :
    ∃ b t, read (.text r) (.range i j) s = .ok (.text b) t ∧ ¬ s.Made (.text b) ∧ s.Adds t ∧
      t.text r = s.text r ∧ t.text b = String.ofList (slice i j (s.text r).toList) :=
  ⟨_, _, rfl, Nat.lt_irrefl _, .newText s _, text_newText_slice s r i j, s.text_newText _⟩

/-! ### Places of slices -/

section

variable {t : Store} {i j k : Int64}

theorem read_array_slice {a b : Ref .array}
    (hb : t.array b = (slice i j (s.array a).toList).toArray) (k : Int64) :
    (InSlice i j k (s.array a).size → ∃ m v, m.toInt = max 0 i.toInt + k.toInt ∧
      (s.array a)[m.toInt.toNat]? = some v ∧ read (.array a) (.int m) s = .ok v s ∧
      read (.array b) (.int k) t = .ok v t) ∧
    (¬ InSlice i j k (s.array a).size → read (.array b) (.int k) t = .ok .null t) := by
  have hvs : (t.array b).toList = slice i j (s.array a).toList := by rw [hb]
  rw [← Array.length_toList]
  refine ⟨fun h => ?_, fun h => ?_⟩
  · obtain ⟨m, v, hm, hp, hv, hq, hw⟩ := exists_position?_slice h
    rw [← hvs, Array.length_toList] at hq
    rw [← hvs, Array.getElem?_toList] at hw
    rw [Array.getElem?_toList] at hv
    exact ⟨m, v, hm, hv, read_array_of_some hp hv, read_array_of_some hq hw⟩
  · have hp := position?_slice_eq_none h
    rw [← hvs, Array.length_toList] at hp
    exact read_array_of_none hp

theorem read_text_slice {r b : Ref .text}
    (hb : t.text b = String.ofList (slice i j (s.text r).toList)) (k : Int64) :
    (InSlice i j k (s.text r).length → ∃ m c q u p w, m.toInt = max 0 i.toInt + k.toInt ∧
      (s.text r).toList[m.toInt.toNat]? = some c ∧ read (.text r) (.int m) s = .ok (.text q) u ∧
      u.text q = String.singleton c ∧ read (.text b) (.int k) t = .ok (.text p) w ∧
      w.text p = String.singleton c) ∧
    (¬ InSlice i j k (s.text r).length → read (.text b) (.int k) t = .ok .null t) := by
  have hchars : (t.text b).toList = slice i j (s.text r).toList := by rw [hb, String.toList_ofList]
  rw [← String.length_toList]
  refine ⟨fun h => ?_, fun h => ?_⟩
  · obtain ⟨m, c, hm, hp, hc, hq, hw⟩ := exists_position?_slice h
    obtain ⟨q, u, hread, hu⟩ := exists_read_text hp hc
    obtain ⟨p, w, hread', hw'⟩ := exists_read_text (hchars ▸ hq) (hchars ▸ hw)
    exact ⟨m, c, q, u, p, w, hm, hc, hread, hu, hread', hw'⟩
  · exact read_text_of_none (hchars ▸ position?_slice_eq_none h)

end

/-! ### All of a container -/

theorem length_array {a : Ref .array} (h : (s.array a).size < 2 ^ 63) :
    ∃ n : Int64, n.toInt = (s.array a).size ∧ Builtin.len.apply [.array a] s = .ok (.int n) s :=
  ⟨.ofNat _, Int64.toInt_ofNat_of_lt h, rfl⟩

theorem length_text {r : Ref .text} (h : (s.text r).utf8ByteSize < 2 ^ 63) :
    ∃ n : Int64, n.toInt = (s.text r).utf8ByteSize ∧
      Builtin.len.apply [.text r] s = .ok (.int n) s :=
  ⟨.ofNat _, Int64.toInt_ofNat_of_lt h, rfl⟩

/-- Arrays with the same elements are equal if each element is equal to itself. -/
theorem equal?_of_array_eq {a b : Ref .array} (h : s.array b = s.array a)
    (hn : ∀ v ∈ s.array a, v.Numeric) :
    s.equal? (.array b) (.array a) = some true := by
  refine Store.equalIn?_eq_true_iff.2 (.inr (.inr ⟨_, rfl, .array ?_⟩))
  rw [h]
  exact List.forall₂_same.2 fun v hv => Store.equalIn?_self (hn v (Array.mem_toList_iff.1 hv)) _

theorem equal?_of_text_eq {r q : Ref .text} (h : s.text q = s.text r) :
    s.equal? (.text q) (.text r) = some true :=
  Store.equalIn?_eq_true_iff.2 (.inl h)

/-- A slice of an array or a text is a new one, at any bounds, and changes nothing. At each place it
has what the container has there, counted from the first bound or the start, and null where it has
no place. The slice up to the length of a container has the same elements, and it is equal to the
container: a text always, an array if none of its elements is, or quotes, what is no number. -/
theorem slice_laws (s : Store) :
    (∀ a i j, ∃ b t, read (.array a) (.range i j) s = .ok (.array b) t ∧ ¬ s.Made (.array b) ∧
      s.Adds t ∧
      t.array a = s.array a ∧ ∀ k,
        (InSlice i j k (s.array a).size → ∃ m v, m.toInt = max 0 i.toInt + k.toInt ∧
          (s.array a)[m.toInt.toNat]? = some v ∧ read (.array a) (.int m) s = .ok v s ∧
          read (.array b) (.int k) t = .ok v t) ∧
        (¬ InSlice i j k (s.array a).size → read (.array b) (.int k) t = .ok .null t)) ∧
    (∀ r i j, ∃ b t, read (.text r) (.range i j) s = .ok (.text b) t ∧ ¬ s.Made (.text b) ∧
      s.Adds t ∧
      t.text r = s.text r ∧ ∀ k,
        (InSlice i j k (s.text r).length → ∃ m c q u p w, m.toInt = max 0 i.toInt + k.toInt ∧
          (s.text r).toList[m.toInt.toNat]? = some c ∧ read (.text r) (.int m) s = .ok (.text q) u ∧
          u.text q = String.singleton c ∧ read (.text b) (.int k) t = .ok (.text p) w ∧
          w.text p = String.singleton c) ∧
        (¬ InSlice i j k (s.text r).length → read (.text b) (.int k) t = .ok .null t)) ∧
    (∀ a, (s.array a).size < 2 ^ 63 →
      ∃ n b t, Builtin.len.apply [.array a] s = .ok (.int n) s ∧
        read (.array a) (.range 0 n) s = .ok (.array b) t ∧ t.array b = s.array a ∧
        t.array a = s.array a ∧
        ((∀ v ∈ s.array a, v.Numeric) → t.equal? (.array b) (.array a) = some true)) ∧
    ∀ r, (s.text r).utf8ByteSize < 2 ^ 63 →
      ∃ n b t, Builtin.len.apply [.text r] s = .ok (.int n) s ∧
        read (.text r) (.range 0 n) s = .ok (.text b) t ∧ t.text b = s.text r ∧
          t.text r = s.text r ∧
        t.equal? (.text b) (.text r) = some true := by
  refine ⟨fun a i j => ?_, fun r i j => ?_, fun a ha => ?_, fun r hr => ?_⟩
  · obtain ⟨b, t, hread, hnew, hadds, ha, hb⟩ := exists_array_slice s a i j
    exact ⟨b, t, hread, hnew, hadds, ha, read_array_slice hb⟩
  · obtain ⟨b, t, hread, hnew, hadds, hr, hb⟩ := exists_text_slice s r i j
    exact ⟨b, t, hread, hnew, hadds, hr, read_text_slice hb⟩
  · obtain ⟨n, hn, hlen⟩ := length_array ha
    obtain ⟨b, t, hread, -, -, hkept, hb⟩ := exists_array_slice s a 0 n
    rw [slice_all (by rw [hn]; exact Int.le_refl _), Array.toArray_toList] at hb
    refine ⟨n, b, t, hlen, hread, hb, hkept, fun hv => equal?_of_array_eq (hb.trans hkept.symm) ?_⟩
    rwa [hkept]
  · obtain ⟨n, hn, hlen⟩ := length_text hr
    obtain ⟨b, t, hread, -, -, hkept, hb⟩ := exists_text_slice s r 0 n
    have hsize := Text.length_le_byteSize (s.text r).toList
    rw [Text.byteSize_toList] at hsize
    rw [slice_all (by omega), String.ofList_toList] at hb
    exact ⟨n, b, t, hlen, hread, hb, hkept, equal?_of_text_eq (hb.trans hkept.symm)⟩

/-- All of an array by the widest bounds, a character of two bytes, inverted bounds, and lengths as
bounds. -/
theorem slice_laws_shelf :
    (InSlice Int64.minValue Int64.maxValue 1 (shelf.array ⟨0⟩).size ∧
      ∃ b t, read (.array ⟨0⟩) (.range Int64.minValue Int64.maxValue) shelf = .ok (.array b) t ∧
        read (.array b) (.int 1) t = .ok (.text ⟨0⟩) t ∧
        read (.array b) (.int (-1)) t = .ok .null t) ∧
    (InSlice 1 7 0 (shelf.text ⟨0⟩).length ∧
      ∃ b t p w, read (.text ⟨0⟩) (.range 1 7) shelf = .ok (.text b) t ∧ t.text ⟨0⟩ = "añb" ∧
        read (.text b) (.int 0) t = .ok (.text p) w ∧ w.text p = "ñ" ∧
        read (.text b) (.int 2) t = .ok .null t) ∧
    (∃ b t, read (.text ⟨0⟩) (.range 2 1) shelf = .ok (.text b) t ∧
      read (.text b) (.int 0) t = .ok .null t) ∧
    ((shelf.array ⟨0⟩).size < 2 ^ 63 ∧ (∀ v ∈ shelf.array ⟨0⟩, v.Numeric) ∧
      ∃ n b t, Builtin.len.apply [.array ⟨0⟩] shelf = .ok (.int n) shelf ∧
        read (.array ⟨0⟩) (.range 0 n) shelf = .ok (.array b) t ∧
        t.equal? (.array b) (.array ⟨0⟩) = some true) ∧
    (shelf.text ⟨0⟩).utf8ByteSize < 2 ^ 63 ∧
      ∃ n b t, Builtin.len.apply [.text ⟨0⟩] shelf = .ok (.int n) shelf ∧
        read (.text ⟨0⟩) (.range 0 n) shelf = .ok (.text b) t ∧ t.text b = "añb" := by
  obtain ⟨harray, htext, hallArray, hallText⟩ := slice_laws shelf
  have hn : ∀ v ∈ shelf.array ⟨0⟩, v.Numeric := by
    intro v hv
    change v ∈ #[.int 1, .text ⟨0⟩] at hv
    simp only [List.mem_toArray, List.mem_cons, List.not_mem_nil, or_false] at hv
    obtain rfl | rfl := hv <;> trivial
  refine ⟨⟨by decide, ?_⟩, ⟨by decide, ?_⟩, ?_, ⟨by decide, hn, ?_⟩, by decide, ?_⟩
  · obtain ⟨b, t, hread, -, -, -, hk⟩ := harray ⟨0⟩ Int64.minValue Int64.maxValue
    obtain ⟨m, v, hm, hv, -, hv'⟩ := (hk 1).1 (by decide)
    obtain rfl : .text ⟨0⟩ = v := by
      rw [hm] at hv
      exact Option.some.inj hv
    exact ⟨b, t, hread, hv', (hk (-1)).2 (by decide)⟩
  · obtain ⟨b, t, hread, -, -, hkept, hk⟩ := htext ⟨0⟩ 1 7
    obtain ⟨m, c, -, -, p, w, hm, hc, -, -, hread', hw⟩ := (hk 0).1 (by decide)
    obtain rfl : 'ñ' = c := by
      rw [hm] at hc
      exact Option.some.inj hc
    exact ⟨b, t, p, w, hread, hkept, hread', hw, (hk 2).2 (by decide)⟩
  · obtain ⟨b, t, hread, -, -, -, hk⟩ := htext ⟨0⟩ 2 1
    exact ⟨b, t, hread, (hk 0).2 (by decide)⟩
  · obtain ⟨n, b, t, hlen, hread, -, -, hequal⟩ := hallArray ⟨0⟩ (by decide)
    exact ⟨n, b, t, hlen, hread, hequal hn⟩
  · obtain ⟨n, b, t, hlen, hread, hb, -⟩ := hallText ⟨0⟩ (by decide)
    exact ⟨n, b, t, hlen, hread, hb⟩

end Element

end YeetYoink
