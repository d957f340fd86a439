import Mathlib.Data.List.InsertIdx
import YeetYoink.Builtin
import YeetYoink.Proofs.Eval.Changes

/-!
# Elements and builtin functions under a discipline

Reading, assigning and taking out elements, and every builtin function, relate to themselves.
-/

namespace YeetYoink

theorem Element.map_swapIfInBounds {α β : Type} (f : α → β) (a : Array α) (i j : Nat) :
    (a.map f).swapIfInBounds i j = (a.swapIfInBounds i j).map f := by
  grind [Array.swapIfInBounds]

theorem Element.mem_of_mem_swapIfInBounds {α : Type} {a : Array α} {i j : Nat} {v : α}
    (h : v ∈ a.swapIfInBounds i j) : v ∈ a := by
  unfold Array.swapIfInBounds at h
  split at h
  · split at h
    · exact (Array.swap_perm _ _).mem_iff.1 h
    · exact h
  · exact h

namespace Discipline.Steady

variable {D : Discipline} (hD : D.Steady) {w : D.World}
include hD

/-! ### Elements -/

omit hD in
theorem same_getD {vs us : List Value} (h : D.SameAll w vs us) (i : Nat) :
    D.Same w (vs[i]?.getD .null) (us[i]?.getD .null) := by
  obtain ⟨hv, rfl⟩ := h
  cases hi : vs[i]? with
  | none => simpa [hi] using ⟨trivial, rfl⟩
  | some v => simpa [hi] using ⟨hv v (List.mem_of_getElem? hi), rfl⟩

theorem same_element (r : Ref .array) (i : Nat) :
    D.Same w (((D.left w).array r)[i]?.getD .null) (((D.right w).array r)[i]?.getD .null) := by
  simpa using same_getD (hD.sameAll_array r) i

theorem relates_read {c c' k k' : Value} (hc : D.Same w c c') (hk : D.Same w k k') :
    D.Relates w (Element.read c k) (Element.read c' k') D.Same := by
  obtain ⟨-, rfl⟩ := hc
  obtain ⟨-, rfl⟩ := hk
  have hr := hD.renamed w
  refine relates_get ?_
  cases c with
  | array a =>
    cases k with
    | int i =>
      simp only [Value.rename_array, Value.rename_int, hr.array, Array.size_map]
      cases position? i ((D.left w).array a).size with
      | none => exact hD.relates_pure ⟨trivial, rfl⟩
      | some i => simpa only [← hr.array] using hD.relates_pure (hD.same_element a i)
    | range first last =>
      have h := hD.sameAll_array (w := w) a
      refine hD.relates_newArray_of_list ⟨fun v hv => ?_, ?_⟩
      · exact h.1 v (List.mem_of_mem_take (List.mem_of_mem_drop hv))
      · simp [slice, h.2, List.map_take, List.map_drop]
    | _ => exact hD.relates_fail id
  | text t =>
    cases k with
    | int i =>
      simp only [Value.rename_text, Value.rename_int, hr.text]
      cases (position? i ((D.left w).text t).toList.length).bind
        (((D.left w).text t).toList[·]?) with
      | none => exact hD.relates_pure ⟨trivial, rfl⟩
      | some c => exact hD.relates_newText _
    | range first last =>
      simp only [Value.rename_text, Value.rename_range, hr.text]
      exact hD.relates_newText _
    | _ => exact hD.relates_fail id
  | dict d =>
    simp only [Value.rename_dict, hr.dict, hr.get]
    cases hg : ((D.left w).dict d).get (D.left w) k with
    | error e =>
      have he : ¬ e.IsMalformed := by
        unfold Dict.get at hg
        split at hg <;> cases hg
        exact id
      exact hD.relates_fail he
    | ok v =>
      cases v with
      | none => exact hD.relates_pure ⟨trivial, rfl⟩
      | some v => exact hD.relates_pure ⟨hD.valid_of_get (hD.dict d) hg, rfl⟩
  | _ => exact hD.relates_fails (by simp only [Value.kind_rename]) id

theorem relates_assign {c c' k k' v v' : Value} (hc : D.Same w c c') (hk : D.Same w k k')
    (hv : D.Same w v v') (printed : String) :
    D.Relates w (Element.assign c k v printed) (Element.assign c' k' v' printed) D.Same := by
  obtain ⟨hc, rfl⟩ := hc
  have hr := hD.renamed w
  have hk' := hk
  obtain ⟨-, rfl⟩ := hk'
  have hv' := hv
  obtain ⟨hval, rfl⟩ := hv'
  refine relates_get ?_
  cases c with
  | array a =>
    cases k with
    | int i =>
      simp only [Value.rename_array, Value.rename_int, hr.array, Array.size_map]
      cases position? i ((D.left w).array a).size with
      | none => exact hD.relates_fail id
      | some i =>
        refine hD.relates_bind (hD.relates_modifyArray ?_ ?_) fun w' _ _ hle _ =>
          hD.relates_pure (hD.same_mono hle hv)
        · intro u hu
          obtain hu | rfl := Array.mem_or_eq_of_mem_setIfInBounds hu
          · exact hD.array hu
          · exact hval
        · rw [hr.array, Array.map_setIfInBounds]
    | _ => exact hD.relates_fail id
  | text t =>
    cases k with
    | int i =>
      simp only [Value.rename_text, Value.rename_int, hr.text, hr.display]
      cases position? i ((D.left w).text t).length with
      | none => exact hD.relates_fail id
      | some i =>
        exact hD.relates_bind (relates_modify (hD.modifyText _ hc)) fun w' _ _ hle _ =>
          hD.relates_pure (hD.same_mono hle hv)
    | _ => exact hD.relates_fail id
  | dict d =>
    simp only [Value.rename_dict, hr.hashKey?]
    split
    · refine hD.relates_bind (hD.relates_insert (hD.sameDict_dict d) hk hv) fun w₁ d₁ e₁ h₁ hd => ?_
      obtain ⟨hd, rfl⟩ := hd
      refine hD.relates_bind (relates_modify (hD.setDict d hd)) fun w₂ _ _ h₂ _ => ?_
      exact hD.relates_pure (hD.same_mono (hD.trans h₁ h₂) hv)
    · exact hD.relates_pure hv
  | _ => exact hD.relates_fails (by simp only [Value.kind_rename]) id

theorem relates_yoink {c c' : Value} (hc : D.Same w c c') (i : Option Int64) :
    D.Relates w (Element.yoink c i) (Element.yoink c' i) D.Same := by
  obtain ⟨hc, rfl⟩ := hc
  have hr := hD.renamed w
  refine relates_get ?_
  cases c with
  | array a =>
    simp only [Value.rename_array, hr.array, Array.size_map]
    cases Element.yoinkPosition? i ((D.left w).array a).size with
    | none => exact hD.relates_pure ⟨trivial, rfl⟩
    | some i =>
      refine hD.relates_bind (hD.relates_modifyArray ?_ ?_) fun w' _ _ hle _ => hD.relates_pure ?_
      · exact fun v hv => hD.array
          (Array.mem_def.2 (List.mem_of_mem_eraseIdx (by simpa [Array.mem_def] using hv)))
      · rw [hr.array]
        apply Array.toList_inj.1
        simp [List.eraseIdx_map]
      · simpa only [← hr.array] using hD.same_mono hle (hD.same_element a i)
  | text t =>
    simp only [Value.rename_text, hr.text]
    split
    · exact hD.relates_bind (relates_modify (hD.modifyText _ hc)) fun w' _ _ _ _ =>
        hD.relates_newText _
    · exact hD.relates_pure ⟨trivial, rfl⟩
  | _ => exact hD.relates_fails (by simp only [Value.kind_rename]) id

theorem relates_swap (a : Ref .array) (i j : Int64) :
    D.Relates w (Element.swap a i j) (Element.swap a i j) fun _ _ _ => True := by
  have hr := hD.renamed w
  refine relates_get ?_
  simp only [hr.array, Array.size_map]
  split
  · refine hD.relates_modifyArray (fun v hv => ?_) ?_
    · exact hD.array (Element.mem_of_mem_swapIfInBounds hv)
    · rw [hr.array, Element.map_swapIfInBounds]
  · exact hD.relates_pure trivial

theorem relates_items {v v' : Value} (hv : D.Same w v v') :
    D.Relates w (Items.of v) (Items.of v') fun w' a b =>
      (∃ vs us, a = .listed vs ∧ b = .listed us ∧ D.SameAll w' vs us) ∨
        ∃ first step n, a = .counted first step n ∧ b = a := by
  obtain ⟨-, rfl⟩ := hv
  have hr := hD.renamed w
  refine relates_get ?_
  cases v with
  | array a => exact hD.relates_pure (.inl ⟨_, _, rfl, rfl, hD.sameAll_array a⟩)
  | text t =>
    simp only [Value.rename_text, hr.text]
    exact hD.relates_bind (hD.relates_newChars _) fun w' vs us _ h =>
      hD.relates_pure (.inl ⟨vs, us, rfl, rfl, h⟩)
  | range first last => exact hD.relates_pure (.inr ⟨_, _, _, rfl, rfl⟩)
  | int n =>
    refine hD.relates_pure (.inr ?_)
    split <;> exact ⟨_, _, _, rfl, rfl⟩
  | _ => exact hD.relates_fails (by simp only [Value.kind_rename]) id

/-! ### Builtin functions -/

theorem relates_unsupported (b : Builtin) (v : Value) {Q : D.World → Value → Value → Prop} :
    D.Relates w (Builtin.unsupported b v) (Builtin.unsupported b (v.rename D.rename)) Q :=
  hD.relates_fails (by rw [Value.kind_rename]) id

theorem relates_wrongCount (b : Builtin) (vs : List Value) (least most : Nat)
    {Q : D.World → Value → Value → Prop} :
    D.Relates w (Builtin.wrongCount b vs least most)
      (Builtin.wrongCount b (vs.map (Value.rename D.rename)) least most) Q :=
  hD.relates_fails (by rw [List.length_map]) id

theorem relates_length (v : Value) :
    D.Relates w (Builtin.length v) (Builtin.length (v.rename D.rename)) D.Same := by
  have hr := hD.renamed w
  refine relates_get ?_
  cases v with
  | text r =>
    simp only [Value.rename_text, hr.text]
    exact hD.relates_pure ⟨trivial, rfl⟩
  | array r =>
    simp only [Value.rename_array, hr.array, Array.size_map]
    exact hD.relates_pure ⟨trivial, rfl⟩
  | dict r =>
    simp only [Value.rename_dict, hr.dict, Dict.size_rename]
    exact hD.relates_pure ⟨trivial, rfl⟩
  | range a b =>
    have hd := hr.display (.range a b)
    simp only [Value.rename_range] at hd ⊢
    split
    · exact hD.relates_pure ⟨trivial, rfl⟩
    · exact hD.relates_fails (by rw [hd]) id
  | _ => exact hD.relates_unsupported _ _

theorem relates_lastOf (v : Value) :
    D.Relates w (Builtin.lastOf v) (Builtin.lastOf (v.rename D.rename)) D.Same := by
  cases v with
  | array r =>
    refine relates_get (hD.relates_pure ?_)
    have hs : ((D.right w).array r).size = ((D.left w).array r).size := by
      rw [(hD.renamed w).array, Array.size_map]
    rw [Array.back?, Array.back?, hs]
    exact hD.same_element r _
  | _ => exact hD.relates_unsupported _ _

theorem relates_restOf (v : Value) :
    D.Relates w (Builtin.restOf v) (Builtin.restOf (v.rename D.rename)) D.Same := by
  cases v with
  | array r =>
    refine relates_get ?_
    obtain ⟨hv, hu⟩ := hD.sameAll_array (w := w) r
    simp only [hu]
    cases hl : ((D.left w).array r).toList with
    | nil => exact hD.relates_pure ⟨trivial, rfl⟩
    | cons v vs =>
      rw [hl] at hv
      exact hD.relates_newArray_of_list ⟨(List.forall_mem_cons.1 hv).2, rfl⟩
  | _ => exact hD.relates_unsupported _ _

theorem relates_pushed (v : Value) {x : Value} (hx : D.Valid w x) :
    D.Relates w (Builtin.pushed v x) (Builtin.pushed (v.rename D.rename) (x.rename D.rename))
      D.Same := by
  cases v with
  | array r =>
    refine relates_get (hD.relates_newArray (fun u hu => ?_) ?_)
    · obtain hu | rfl := Array.mem_push.1 hu
      · exact hD.array hu
      · exact hx
    · rw [(hD.renamed w).array, Array.map_push]
  | _ => exact hD.relates_unsupported _ _

theorem relates_yoinkFrom {v : Value} (hv : D.Valid w v) (i : Option Value) :
    D.Relates w (Builtin.yoinkFrom v i)
      (Builtin.yoinkFrom (v.rename D.rename) (i.map (Value.rename D.rename))) D.Same := by
  cases i with
  | none => exact hD.relates_yoink ⟨hv, rfl⟩ none
  | some i =>
    cases i with
    | int i => exact hD.relates_yoink ⟨hv, rfl⟩ (some i)
    | _ => exact hD.relates_unsupported _ _

theorem relates_swapIn (v i j : Value) :
    D.Relates w (Builtin.swapIn v i j)
      (Builtin.swapIn (v.rename D.rename) (i.rename D.rename) (j.rename D.rename)) D.Same := by
  cases i with
  | int i =>
    cases j with
    | int j =>
      cases v with
      | array r =>
        exact hD.relates_bind (hD.relates_swap r i j)
          fun _ _ _ _ _ => hD.relates_pure ⟨trivial, rfl⟩
      | _ => exact hD.relates_unsupported _ _
    | _ => exact hD.relates_unsupported _ _
  | _ => exact hD.relates_unsupported _ _

theorem relates_say (change : String → String) (vs : List Value) :
    D.Relates w (Builtin.say change vs)
      (Builtin.say change (vs.map (Value.rename D.rename))) D.Same := by
  have hj : Builtin.joined (D.right w) (vs.map (Value.rename D.rename)) =
      Builtin.joined (D.left w) vs := by
    simp only [Builtin.joined, List.map_map, Function.comp_def, (hD.renamed w).display]
  have hp := hD.print (w := w) (change (Builtin.joined (D.left w) vs))
  refine hD.relates_bind (relates_modify (P := fun _ => True) ?_) fun _ _ _ _ _ =>
    hD.relates_pure ⟨trivial, rfl⟩
  simpa only [hj] using hp

theorem relates_assertTrue (v : Value) (message : Option Value) :
    D.Relates w (Builtin.assertTrue v message)
      (Builtin.assertTrue (v.rename D.rename) (message.map (Value.rename D.rename))) D.Same := by
  have hr := hD.renamed w
  refine relates_get ?_
  simp only [hr.truthy, Option.map_map, Function.comp_def, hr.display]
  split
  · exact hD.relates_pure ⟨trivial, rfl⟩
  · exact hD.relates_fail id

theorem relates_textOf (v : Value) :
    D.Relates w (Builtin.textOf v) (Builtin.textOf (v.rename D.rename)) D.Same := by
  refine relates_get ?_
  rw [(hD.renamed w).display]
  exact hD.relates_newText _

theorem relates_character (v : Value) :
    D.Relates w (Builtin.character v) (Builtin.character (v.rename D.rename)) D.Same := by
  cases v with
  | int n =>
    simp only [Builtin.character, Value.rename_int]
    split
    · exact hD.relates_newText _
    · exact hD.relates_fail id
  | _ => exact hD.relates_unsupported _ _

theorem relates_toInteger (v : Value) :
    D.Relates w (Builtin.toInteger v) (Builtin.toInteger (v.rename D.rename)) D.Same := by
  cases v with
  | int _ | num _ | bool _ => exact hD.relates_pure ⟨trivial, rfl⟩
  | text r =>
    refine relates_get ?_
    simp only [(hD.renamed w).text]
    split
    · exact hD.relates_pure ⟨trivial, rfl⟩
    · exact hD.relates_fail id
  | _ => exact hD.relates_unsupported _ _

theorem relates_toNumber (v : Value) :
    D.Relates w (Builtin.toNumber v) (Builtin.toNumber (v.rename D.rename)) D.Same := by
  cases v with
  | int _ | num _ | bool _ => exact hD.relates_pure ⟨trivial, rfl⟩
  | text r =>
    refine relates_get ?_
    simp only [(hD.renamed w).text]
    split
    · exact hD.relates_pure ⟨trivial, rfl⟩
    · exact hD.relates_fail id
  | _ => exact hD.relates_unsupported _ _

theorem relates_builtin (b : Builtin) {vs us : List Value} (h : D.SameAll w vs us) :
    D.Relates w (b.apply vs) (b.apply us) D.Same := by
  obtain ⟨hv, rfl⟩ := h
  cases b with
  | yell | yelp | yap => exact hD.relates_say _ vs
  | push =>
    rcases vs with _ | ⟨v, _ | ⟨x, _ | ⟨y, vs⟩⟩⟩
    case cons.cons.nil => exact hD.relates_pushed v (hv x (by simp))
    all_goals exact hD.relates_wrongCount _ _ _ _
  | yoink =>
    rcases vs with _ | ⟨v, _ | ⟨i, _ | ⟨y, vs⟩⟩⟩
    case cons.nil => exact hD.relates_yoinkFrom (hv v (by simp)) none
    case cons.cons.nil => exact hD.relates_yoinkFrom (hv v (by simp)) (some i)
    all_goals exact hD.relates_wrongCount _ _ _ _
  | swap =>
    rcases vs with _ | ⟨v, _ | ⟨i, _ | ⟨j, _ | ⟨y, vs⟩⟩⟩⟩
    case cons.cons.cons.nil => exact hD.relates_swapIn v i j
    all_goals exact hD.relates_wrongCount _ _ _ _
  | yassert =>
    rcases vs with _ | ⟨v, _ | ⟨m, _ | ⟨y, vs⟩⟩⟩
    case cons.nil => exact hD.relates_assertTrue v none
    case cons.cons.nil => exact hD.relates_assertTrue v (some m)
    all_goals exact hD.relates_wrongCount _ _ _ _
  | len =>
    rcases vs with _ | ⟨v, _ | ⟨y, vs⟩⟩
    exacts [hD.relates_wrongCount _ _ _ _, hD.relates_length v, hD.relates_wrongCount _ _ _ _]
  | last =>
    rcases vs with _ | ⟨v, _ | ⟨y, vs⟩⟩
    exacts [hD.relates_wrongCount _ _ _ _, hD.relates_lastOf v, hD.relates_wrongCount _ _ _ _]
  | rest =>
    rcases vs with _ | ⟨v, _ | ⟨y, vs⟩⟩
    exacts [hD.relates_wrongCount _ _ _ _, hD.relates_restOf v, hD.relates_wrongCount _ _ _ _]
  | yarn =>
    rcases vs with _ | ⟨v, _ | ⟨y, vs⟩⟩
    exacts [hD.relates_wrongCount _ _ _ _, hD.relates_textOf v, hD.relates_wrongCount _ _ _ _]
  | chr =>
    rcases vs with _ | ⟨v, _ | ⟨y, vs⟩⟩
    exacts [hD.relates_wrongCount _ _ _ _, hD.relates_character v, hD.relates_wrongCount _ _ _ _]
  | int =>
    rcases vs with _ | ⟨v, _ | ⟨y, vs⟩⟩
    exacts [hD.relates_wrongCount _ _ _ _, hD.relates_toInteger v, hD.relates_wrongCount _ _ _ _]
  | float =>
    rcases vs with _ | ⟨v, _ | ⟨y, vs⟩⟩
    exacts [hD.relates_wrongCount _ _ _ _, hD.relates_toNumber v, hD.relates_wrongCount _ _ _ _]

end Discipline.Steady

end YeetYoink
