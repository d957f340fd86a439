import Mathlib.Data.List.Nodup
import Mathlib.Data.List.Perm.Subperm
import Mathlib.Logic.Relation
import YeetYoink.Proofs.Store.Updates

/-!
# How deep values nest

The parts of an array or a dictionary are the values directly inside it. A value is acyclic if
nothing in it contains itself. A path of values each inside the one before has then no repetition,
and all but its last are arrays and dictionaries of the store; so no such value nests deeper than
`Store.nesting` (`Acyclic.nests`), which is the bound that comparing and writing down values have.
-/

namespace YeetYoink

/-- The values that hold others. -/
def Value.IsContainer : Value → Prop
  | .array _ | .dict _ => True
  | _ => False

namespace Store

/-- The values directly inside a value. -/
def parts (s : Store) : Value → List Value
  | .array r => (s.array r).toList
  | .dict r => (s.dict r).entries.flatMap fun e => [e.key, e.value]
  | _ => []

def Inside (s : Store) (u v : Value) : Prop := u ∈ s.parts v

/-- A value is another one or inside it, however deep. -/
def Within (s : Store) : Value → Value → Prop := Relation.ReflTransGen s.Inside

/-- A reference leads to something. -/
def Made (s : Store) : Value → Prop
  | .text r => r.index < s.texts.size
  | .array r => r.index < s.arrays.size
  | .dict r => r.index < s.dicts.size
  | _ => True

/-- Every reference in a value leads to something. -/
def MadeIn (s : Store) (v : Value) : Prop := ∀ u, s.Within u v → s.Made u

/-- Nothing in a value contains itself. -/
def Acyclic (s : Store) (v : Value) : Prop := ∀ u, s.Within u v → ¬ Relation.TransGen s.Inside u u

/-- The containers in a value lie at most so many deep. -/
def Nests (s : Store) : Nat → Value → Prop
  | 0, v => ¬ v.IsContainer
  | n + 1, v => ∀ u, s.Inside u v → s.Nests n u

variable {s : Store} {u v : Value}

theorem inside_array {r : Ref .array} (h : u ∈ (s.array r).toList) : s.Inside u (.array r) := h

theorem inside_key {r : Ref .dict} {e : Entry} (h : e ∈ (s.dict r).entries) :
    s.Inside e.key (.dict r) :=
  List.mem_flatMap.2 ⟨e, h, List.mem_cons_self⟩

theorem inside_value {r : Ref .dict} {e : Entry} (h : e ∈ (s.dict r).entries) :
    s.Inside e.value (.dict r) :=
  List.mem_flatMap.2 ⟨e, h, List.mem_cons_of_mem _ List.mem_cons_self⟩

theorem Within.refl (s : Store) (v : Value) : s.Within v v := Relation.ReflTransGen.refl

theorem Within.part {w : Value} (h : s.Within w u) (hu : s.Inside u v) : s.Within w v :=
  Relation.ReflTransGen.tail h hu

theorem MadeIn.made (h : s.MadeIn v) : s.Made v := h v (.refl s v)

theorem MadeIn.part (h : s.MadeIn v) (hu : s.Inside u v) : s.MadeIn u :=
  fun w hw => h w (hw.part hu)

/-- A value is made with all that is in it, if whatever is inside anything is. -/
theorem madeIn_of_parts (h : ∀ u v, s.Inside u v → s.Made u) (hv : s.Made v) : s.MadeIn v := by
  intro u hu
  obtain rfl | ⟨w, hw, -⟩ := Relation.ReflTransGen.cases_head hu
  · exact hv
  · exact h u w hw

theorem Acyclic.part (h : s.Acyclic v) (hu : s.Inside u v) : s.Acyclic u :=
  fun w hw => h w (hw.part hu)

/-- A value is acyclic in a store in which every part ranks below what it is in. -/
theorem acyclic_of_rank (rank : Value → Nat) (h : ∀ u v, s.Inside u v → rank u < rank v)
    (v : Value) :
    s.Acyclic v := by
  have hlt : ∀ {u v}, Relation.TransGen s.Inside u v → rank u < rank v := fun huv => by
    induction huv with
    | single hu => exact h _ _ hu
    | tail _ hu ih => exact Nat.lt_trans ih (h _ _ hu)
  exact fun u _ hu => Nat.lt_irrefl _ (hlt hu)

/-- A value is acyclic if no way down from it is without an end. -/
theorem acyclic_of_acc (h : Acc s.Inside v) : s.Acyclic v := by
  intro u hu
  have hacc : Acc (Relation.TransGen s.Inside) u := by
    induction hu using Relation.ReflTransGen.head_induction_on with
    | refl => exact h.transGen
    | head hu _ ih => exact ih.inv (.single hu)
  clear hu
  induction hacc with
  | intro u _ ih => exact fun huu => ih u huu huu

/-! ### Paths of containers -/

/-- A number for each array and each dictionary of the store. -/
def place (s : Store) : Value → Nat
  | .array r => r.index
  | .dict r => s.arrays.size + r.index
  | _ => 0

theorem exists_array_or_dict (h : s.Inside u v) :
    (∃ r, v = .array r ∧ r.index < s.arrays.size) ∨ ∃ r, v = .dict r ∧ r.index < s.dicts.size := by
  cases v with
  | array r =>
    refine .inl ⟨r, rfl, Nat.lt_of_not_le fun hr => ?_⟩
    simp [Inside, parts, array, Array.getElem?_eq_none hr] at h
  | dict r =>
    refine .inr ⟨r, rfl, Nat.lt_of_not_le fun hr => ?_⟩
    simp [Inside, parts, dict, Array.getElem?_eq_none hr] at h
  | _ => cases h

theorem place_lt (h : s.Inside u v) : s.place v < s.nesting := by
  obtain ⟨r, rfl, hr⟩ | ⟨r, rfl, hr⟩ := exists_array_or_dict h
  · exact Nat.lt_of_lt_of_le hr (Nat.le_add_right _ _)
  · exact Nat.add_lt_add_left hr _

theorem place_injective {u' v' : Value} (h : s.Inside u v) (h' : s.Inside u' v')
    (hp : s.place v = s.place v') : v = v' := by
  obtain ⟨r, rfl, hr⟩ | ⟨r, rfl, hr⟩ := exists_array_or_dict h <;>
  obtain ⟨q, rfl, hq⟩ | ⟨q, rfl, hq⟩ := exists_array_or_dict h' <;>
  simp only [place] at hp
  · rw [ref_eq hp]
  · omega
  · omega
  · rw [ref_eq (Nat.add_left_cancel hp)]

theorem length_le_nesting {path : List Value} (hn : path.Nodup)
    (hc : ∀ c ∈ path, ∃ u, s.Inside u c) :
    path.length ≤ s.nesting := by
  have hm : (path.map s.place).Nodup := by
    refine hn.map_on fun a ha b hb hab => ?_
    obtain ⟨u, hu⟩ := hc a ha
    obtain ⟨w, hw⟩ := hc b hb
    exact place_injective hu hw hab
  have hsub : path.map s.place ⊆ List.range s.nesting := by
    intro i hi
    obtain ⟨c, hcp, rfl⟩ := List.mem_map.1 hi
    obtain ⟨u, hu⟩ := hc c hcp
    exact List.mem_range.2 (place_lt hu)
  simpa using (List.subperm_of_subset hm hsub).length_le

/-- Below a path of containers there is room for what is left of the bound. -/
theorem Acyclic.nests_of_path (hv : s.Acyclic v) (path : List Value) (hn : path.Nodup)
    (hp : ∀ c ∈ path, Relation.TransGen s.Inside v c) {n : Nat}
    (hlt : s.nesting < path.length + n) :
    s.Nests n v := by
  have hfull : ∀ c ∈ path, ∃ u, s.Inside u c := fun c hc => by
    obtain ⟨u, -, hu⟩ := Relation.TransGen.tail'_iff.1 (hp c hc)
    exact ⟨u, hu⟩
  induction n generalizing v path with
  | zero => exact absurd (length_le_nesting hn hfull) (Nat.not_le_of_lt hlt)
  | succ n ih =>
    intro u hu
    have hnew : v ∉ path := fun hc => hv v (.refl s v) (hp v hc)
    refine ih (hv.part hu) (v :: path) (List.nodup_cons.2 ⟨hnew, hn⟩) ?_ ?_ ?_
    · exact List.forall_mem_cons.2 ⟨.single hu, fun c hc => .head hu (hp c hc)⟩
    · simp only [List.length_cons]
      omega
    · exact List.forall_mem_cons.2 ⟨⟨u, hu⟩, hfull⟩

theorem Acyclic.nests (hv : s.Acyclic v) : s.Nests (s.nesting + 1) v :=
  hv.nests_of_path [] List.nodup_nil (by simp) (by simp)

end Store

end YeetYoink
