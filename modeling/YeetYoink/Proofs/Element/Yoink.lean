import YeetYoink.Builtin
import YeetYoink.Proofs.Element.Assign

/-!
# Taking out an element

`yoink` finds its place as reading does, so that it gives what reading gives there, and nothing
where reading finds nothing. What it leaves is the slice up to the place and all that comes behind
it. Without a place it takes the last one (`yoinkPosition?_none`).
-/

namespace YeetYoink

/-- The slice from the start up to a place. -/
theorem slice_zero {α : Type} {i : Int64} {k : Nat} (hi : i.toInt = k) {xs : List α}
    (hk : k ≤ xs.length) :
    slice 0 i xs = xs.take k := by
  have hfirst : clamp 0 xs.length = 0 := by simp [clamp]
  have hlast : clamp i xs.length = k := by
    rw [clamp, hi, Int.toNat_natCast, Nat.min_eq_left hk]
  rw [slice, hfirst, hlast, List.drop_zero]

namespace Element

variable {s : Store} {i : Int64} {k : Nat}

/-! ### Reading -/

theorem read_array_of_some {a : Ref .array} {v : Value} (h : position? i (s.array a).size = some k)
    (hv : (s.array a)[k]? = some v) : read (.array a) (.int i) s = .ok v s := by
  simp only [read, Eval.get_bind, h, hv, Option.getD_some]
  rfl

theorem read_array_of_none {a : Ref .array} (h : position? i (s.array a).size = none) :
    read (.array a) (.int i) s = .ok .null s := by
  simp only [read, Eval.get_bind, h]
  rfl

theorem exists_read_text {r : Ref .text} {c : Char}
    (h : position? i (s.text r).toList.length = some k) (hc : (s.text r).toList[k]? = some c) :
    ∃ q u, read (.text r) (.int i) s = .ok (.text q) u ∧ u.text q = String.singleton c := by
  refine ⟨(s.newText (String.singleton c)).1, (s.newText (String.singleton c)).2, ?_,
    s.text_newText _⟩
  simp only [read, Eval.get_bind, h, Option.bind_some, hc]
  rfl

theorem read_text_of_none {r : Ref .text} (h : position? i (s.text r).toList.length = none) :
    read (.text r) (.int i) s = .ok .null s := by
  simp only [read, Eval.get_bind, h, Option.bind_none]
  rfl

theorem exists_read_array_slice {a : Ref .array} (hi : i.toInt = k) (hk : k < (s.array a).size) :
    ∃ b u, read (.array a) (.range 0 i) s = .ok (.array b) u ∧
      (u.array b).toList = (s.array a).toList.take k := by
  refine ⟨_, _, rfl, ?_⟩
  rw [slice_zero hi (Nat.le_of_lt hk)]
  exact congrArg Array.toList (s.array_newArray _)

theorem exists_read_text_slice {r : Ref .text} (hi : i.toInt = k)
    (hk : k < (s.text r).toList.length) :
    ∃ b u, read (.text r) (.range 0 i) s = .ok (.text b) u ∧
      (u.text b).toList = (s.text r).toList.take k := by
  refine ⟨_, _, rfl, ?_⟩
  rw [slice_zero hi (Nat.le_of_lt hk)]
  exact (congrArg String.toList (s.text_newText _)).trans String.toList_ofList

/-! ### Taking out -/

variable {p : Option Int64}

theorem yoinkPosition?_none {size : Nat} (hi : i.toInt + 1 = size) :
    yoinkPosition? none size = yoinkPosition? (some i) size := by
  rw [yoinkPosition?, yoinkPosition?]
  split
  next h => exact (position?_eq_none_iff.2 (.inl (by omega))).symm
  next h => exact (position?_eq_some_iff.2 ⟨by omega, by omega⟩).symm

/-- Only the place that is found matters. -/
theorem yoink_array_congr {a : Ref .array} {q : Option Int64}
    (h : yoinkPosition? p (s.array a).size = yoinkPosition? q (s.array a).size) :
    yoink (.array a) p s = yoink (.array a) q s := by
  simp only [yoink, Eval.get_bind, h]

theorem yoink_text_congr {r : Ref .text} {q : Option Int64}
    (h : yoinkPosition? p (s.text r).toList.length = yoinkPosition? q (s.text r).toList.length) :
    yoink (.text r) p s = yoink (.text r) q s := by
  simp only [yoink, Eval.get_bind, h]

theorem yoink_array_of_none {a : Ref .array} (h : yoinkPosition? p (s.array a).size = none) :
    yoink (.array a) p s = .ok .null s := by
  simp only [yoink, Eval.get_bind, h]
  rfl

theorem yoink_text_of_none {r : Ref .text} (h : yoinkPosition? p (s.text r).toList.length = none) :
    yoink (.text r) p s = .ok .null s := by
  simp only [yoink, Eval.get_bind, h, Option.bind_none]
  rfl

theorem exists_yoink_array {a : Ref .array} {v : Value}
    (h : yoinkPosition? p (s.array a).size = some k) (hv : (s.array a)[k]? = some v) :
    ∃ t, yoink (.array a) p s = .ok v t ∧ (t.array a).toList = (s.array a).toList.eraseIdx k ∧
      s.SameBut (.array a) t := by
  have hk : k < (s.array a).size := (Array.getElem?_eq_some_iff.1 hv).1
  refine ⟨s.modifyArray a (·.eraseIdxIfInBounds k), ?_, ?_, .modifyArray s a _⟩
  · simp only [yoink, Eval.get_bind, h, hv, Option.getD_some]
    rfl
  · rw [Store.array_modifyArray (Store.lt_of_lt_size hk), Array.eraseIdxIfInBounds, dif_pos hk,
      Array.toList_eraseIdx]

theorem exists_yoink_text {r : Ref .text} {c : Char}
    (h : yoinkPosition? p (s.text r).toList.length = some k) (hc : (s.text r).toList[k]? = some c) :
    ∃ q t, yoink (.text r) p s = .ok (.text q) t ∧ t.text q = String.singleton c ∧
      (t.text r).toList = (s.text r).toList.eraseIdx k ∧ s.SameBut (.text r) t := by
  have hk : k < (s.text r).length := by
    rw [← String.length_toList]
    exact (List.getElem?_eq_some_iff.1 hc).1
  have hr := Store.lt_of_lt_length hk
  -- The text that is given comes behind the one it is taken from.
  let t := s.modifyText r fun _ => String.ofList ((s.text r).toList.eraseIdx k)
  have hrt : r.index < t.texts.size := by simpa [t, Store.modifyText] using hr
  refine ⟨(t.newText (String.singleton c)).1, (t.newText (String.singleton c)).2, ?_,
    t.text_newText _, ?_,
    (Store.SameBut.modifyText s r _).trans (.newText t _ _)⟩
  · simp only [yoink, Eval.get_bind, h, Option.bind_some, hc, Option.map_some]
    rfl
  · rw [t.text_newText_of_lt _ hrt, Store.text_modifyText hr, String.toList_ofList]

/-- `yoink` gives what indexing gives, null past the ends of an array or a text. It takes out the
one element at the place and leaves the slice before it and all that comes behind it; nothing else
changes. Without a place it takes the last element, and nothing if there is none. -/
theorem yoink_takes (s : Store) :
    (∀ (a : Ref .array) (i : Int64),
      (i.toInt < 0 ∨ (s.array a).size ≤ i.toInt → read (.array a) (.int i) s = .ok .null s ∧
        Builtin.yoink.apply [.array a, .int i] s = .ok .null s) ∧
      ∀ k : Nat, i.toInt = k → k < (s.array a).size →
        ∃ v b u t, (s.array a)[k]? = some v ∧ read (.array a) (.int i) s = .ok v s ∧
          Builtin.yoink.apply [.array a, .int i] s = .ok v t ∧
          read (.array a) (.range 0 i) s = .ok (.array b) u ∧
          (t.array a).toList = (u.array b).toList ++ (s.array a).toList.drop (k + 1) ∧
          s.SameBut (.array a) t) ∧
    (∀ (r : Ref .text) (i : Int64),
      (i.toInt < 0 ∨ (s.text r).length ≤ i.toInt → read (.text r) (.int i) s = .ok .null s ∧
        Builtin.yoink.apply [.text r, .int i] s = .ok .null s) ∧
      ∀ k : Nat, i.toInt = k → k < (s.text r).length →
        ∃ c q u₁ p t b u₂, (s.text r).toList[k]? = some c ∧
          read (.text r) (.int i) s = .ok (.text q) u₁ ∧ u₁.text q = String.singleton c ∧
          Builtin.yoink.apply [.text r, .int i] s = .ok (.text p) t ∧
          t.text p = String.singleton c ∧
          read (.text r) (.range 0 i) s = .ok (.text b) u₂ ∧
          (t.text r).toList = (u₂.text b).toList ++ (s.text r).toList.drop (k + 1) ∧
          s.SameBut (.text r) t) ∧
    (∀ a, ((s.array a).size = 0 → Builtin.yoink.apply [.array a] s = .ok .null s) ∧
      ∀ i : Int64, i.toInt + 1 = (s.array a).size →
        Builtin.yoink.apply [.array a] s = Builtin.yoink.apply [.array a, .int i] s) ∧
    ∀ r, ((s.text r).length = 0 → Builtin.yoink.apply [.text r] s = .ok .null s) ∧
      ∀ i : Int64, i.toInt + 1 = (s.text r).length →
        Builtin.yoink.apply [.text r] s = Builtin.yoink.apply [.text r, .int i] s := by
  have hlen : ∀ r, (s.text r).length = (s.text r).toList.length :=
    fun r => String.length_toList.symm
  refine ⟨fun a i => ⟨fun h => ?_, fun k hi hk => ?_⟩, fun r i => ⟨fun h => ?_, fun k hi hk => ?_⟩,
    fun a => ⟨fun h => yoink_array_of_none (if_pos h),
      fun i hi => yoink_array_congr (yoinkPosition?_none hi)⟩,
    fun r => ⟨fun h => yoink_text_of_none (if_pos (hlen r ▸ h)),
      fun i hi => yoink_text_congr (yoinkPosition?_none (hlen r ▸ hi))⟩⟩
  · have hp := position?_eq_none_iff.2 h
    exact ⟨read_array_of_none hp, yoink_array_of_none hp⟩
  · have hp : position? i (s.array a).size = some k := position?_eq_some_iff.2 ⟨hi, hk⟩
    obtain ⟨v, hv⟩ : ∃ v, (s.array a)[k]? = some v := ⟨_, Array.getElem?_eq_getElem hk⟩
    obtain ⟨t, hyoink, ht, hst⟩ := exists_yoink_array (p := some i) hp hv
    obtain ⟨b, u, hslice, hu⟩ := exists_read_array_slice hi hk
    refine ⟨v, b, u, t, hv, read_array_of_some hp hv, hyoink, hslice, ?_, hst⟩
    rw [ht, hu, List.eraseIdx_eq_take_drop_succ]
  · have hp := position?_eq_none_iff.2 (hlen r ▸ h)
    exact ⟨read_text_of_none hp, yoink_text_of_none hp⟩
  · rw [hlen r] at hk
    have hp : position? i (s.text r).toList.length = some k := position?_eq_some_iff.2 ⟨hi, hk⟩
    obtain ⟨c, hc⟩ : ∃ c, (s.text r).toList[k]? = some c := ⟨_, List.getElem?_eq_getElem hk⟩
    obtain ⟨q, u₁, hread, hq⟩ := exists_read_text hp hc
    obtain ⟨p, t, hyoink, hpt, ht, hst⟩ := exists_yoink_text (p := some i) hp hc
    obtain ⟨b, u₂, hslice, hu⟩ := exists_read_text_slice hi hk
    refine ⟨c, q, u₁, p, t, b, u₂, hc, hread, hq, hyoink, hpt, hslice, ?_, hst⟩
    rw [ht, hu, List.eraseIdx_eq_take_drop_succ]

/-- The first element, a character of two bytes, places past the ends, the last element, and empty
ones. -/
theorem yoink_takes_shelf :
    (∃ b u t, read (.array ⟨0⟩) (.int 0) shelf = .ok (.int 1) shelf ∧
      Builtin.yoink.apply [.array ⟨0⟩, .int 0] shelf = .ok (.int 1) t ∧
      read (.array ⟨0⟩) (.range 0 0) shelf = .ok (.array b) u ∧
      (t.array ⟨0⟩).toList = (u.array b).toList ++ [.text ⟨0⟩] ∧ t.dict ⟨0⟩ = shelf.dict ⟨0⟩) ∧
    (∃ p b u t, Builtin.yoink.apply [.text ⟨0⟩, .int 1] shelf = .ok (.text p) t ∧ t.text p = "ñ" ∧
      read (.text ⟨0⟩) (.range 0 1) shelf = .ok (.text b) u ∧
      (t.text ⟨0⟩).toList = (u.text b).toList ++ "b".toList ∧ t.array ⟨0⟩ = shelf.array ⟨0⟩) ∧
    Builtin.yoink.apply [.array ⟨0⟩, .int (-1)] shelf = .ok .null shelf ∧
    Builtin.yoink.apply [.text ⟨0⟩, .int 3] shelf = .ok .null shelf ∧
    Builtin.yoink.apply [.array ⟨0⟩] shelf = Builtin.yoink.apply [.array ⟨0⟩, .int 1] shelf ∧
    Builtin.yoink.apply [.text ⟨0⟩] shelf = Builtin.yoink.apply [.text ⟨0⟩, .int 2] shelf ∧
    Builtin.yoink.apply [.array ⟨0⟩] { arrays := #[#[]] } = .ok .null { arrays := #[#[]] } ∧
    Builtin.yoink.apply [.text ⟨0⟩] { texts := #[""] } = .ok .null { texts := #[""] } := by
  obtain ⟨harray, htext, hlastArray, hlastText⟩ := yoink_takes shelf
  obtain ⟨-, -, hnoArray, -⟩ := yoink_takes { arrays := #[#[]] }
  obtain ⟨-, -, -, hnoText⟩ := yoink_takes { texts := #[""] }
  refine ⟨?_, ?_, ((harray ⟨0⟩ (-1)).1 (.inl (by decide))).2,
    ((htext ⟨0⟩ 3).1 (.inr (by decide))).2,
    (hlastArray ⟨0⟩).2 1 (by decide), (hlastText ⟨0⟩).2 2 (by decide), (hnoArray ⟨0⟩).1 rfl,
    (hnoText ⟨0⟩).1 rfl⟩
  · obtain ⟨v, b, u, t, hv, hread, hyoink, hslice, ht, hst⟩ := (harray ⟨0⟩ 0).2 0 rfl (by decide)
    obtain rfl : .int 1 = v := Option.some.inj hv
    exact ⟨b, u, t, hread, hyoink, hslice, ht, hst.dict _ nofun⟩
  · obtain ⟨c, -, -, p, t, b, u, hc, -, -, hyoink, hp, hslice, ht, hst⟩ :=
      (htext ⟨0⟩ 1).2 1 rfl (by decide)
    obtain rfl : 'ñ' = c := Option.some.inj hc
    exact ⟨p, b, u, t, hyoink, hp, hslice, ht, hst.array _ nofun⟩

end Element

end YeetYoink
