import YeetYoink.Proofs.Store.Updates

/-!
# What a run leaves of the scopes it finds

`Extends s t` says that the scopes of `s` are still there in `t`, each inside the same scope as
before, so a scope is asked for names along the same chain. On top of that, `Stable` says that their
yolo marks are as they were, and `Frame` that only certain scopes have new names.
-/

namespace YeetYoink.Store

/-- Scopes stay where they are. -/
structure Extends (s t : Store) : Prop where
  size : s.scopes.size ≤ t.scopes.size
  outer : ∀ r, r.index < s.scopes.size → (t.scope r).outer = (s.scope r).outer

namespace Extends

variable {s t u : Store}

theorem of_eq (h : t.scopes = s.scopes) : Extends s t where
  size := Nat.le_of_eq (by rw [h])
  outer r _ := by rw [scope, h, scope]

theorem trans (h₁ : Extends s t) (h₂ : Extends t u) : Extends s u where
  size := Nat.le_trans h₁.size h₂.size
  outer r hr := (h₂.outer r (Nat.lt_of_lt_of_le hr h₁.size)).trans (h₁.outer r hr)

theorem enclose (s : Store) (r : Ref .scope) : Extends s (s.enclose r).2 where
  size := by simp [Store.enclose, newScope]
  outer q hq := by rw [Store.enclose, scope_newScope_of_lt s _ hq]

theorem bind (s : Store) (r : Ref .scope) (name : String) (v : Value) :
    Extends s (s.bind r name v) where
  size := Nat.le_of_eq (s.size_bind r name v).symm
  outer q _ := s.outer_bind r name v q

theorem next? (h : Extends s t) {i : Nat} (hi : i < s.scopes.size) : t.next? i = s.next? i := by
  rw [Store.next?, h.outer ⟨i⟩ hi, Store.next?]

theorem chain (h : Extends s t) {r : Ref .scope} (hr : r.index < s.scopes.size) :
    t.chain r = s.chain r := by
  obtain ⟨i⟩ := r
  simp only [Store.chain]
  induction i using Nat.strongRecOn with
  | ind i ih =>
    rw [chainFrom_eq, chainFrom_eq s, h.next? hr]
    cases ho : s.next? i with
    | none => rfl
    | some o =>
      have hlt : o.index < i := lt_of_next? ho
      rw [Option.map_some, Option.map_some, ih o.index hlt (Nat.lt_trans hlt hr)]

end Extends

/-- The scopes on a chain lie before the one it starts from. -/
theorem index_le_of_mem_chain {s : Store} {r q : Ref .scope} (h : q ∈ s.chain r) :
    q.index ≤ r.index := by
  obtain ⟨i⟩ := r
  simp only [chain] at h
  induction i using Nat.strongRecOn with
  | ind i ih =>
    rw [chainFrom_eq] at h
    obtain rfl | h := List.mem_cons.1 h
    · exact Nat.le_refl _
    · cases ho : s.next? i with
      | none => simp [ho] at h
      | some o =>
        have hlt : o.index < i := lt_of_next? ho
        rw [ho] at h
        exact Nat.le_trans (ih o.index hlt h) (Nat.le_of_lt hlt)

theorem isYolo_iff {s : Store} {r : Ref .scope} :
    s.isYolo r ↔ ∃ q ∈ s.chain r, ((s.scope q).get? yoloMark).isSome := by
  rw [isYolo, lookup?, List.isSome_findSome?, List.any_eq_true]

/-! ### Marks -/

/-- No scope is marked that was there before, and none loses its mark. -/
structure Stable (s t : Store) : Prop extends Extends s t where
  mark : ∀ r, r.index < s.scopes.size → (t.scope r).get? yoloMark = (s.scope r).get? yoloMark

namespace Stable

variable {s t u : Store}

theorem of_eq (h : t.scopes = s.scopes) : Stable s t where
  toExtends := .of_eq h
  mark r _ := by rw [scope, h, scope]

theorem trans (h₁ : Stable s t) (h₂ : Stable t u) : Stable s u where
  toExtends := h₁.toExtends.trans h₂.toExtends
  mark r hr := (h₂.mark r (Nat.lt_of_lt_of_le hr h₁.size)).trans (h₁.mark r hr)

theorem enclose (s : Store) (r : Ref .scope) : Stable s (s.enclose r).2 where
  toExtends := .enclose s r
  mark q hq := by rw [Store.enclose, scope_newScope_of_lt s _ hq]

/-- The scope of a yolo block is new. -/
theorem encloseYolo (s : Store) (r : Ref .scope) :
    Stable s ((s.enclose r).2.markYolo (s.enclose r).1) where
  toExtends := (Extends.enclose s r).trans (.bind _ _ _ _)
  mark q hq := by
    have hne : q ≠ (s.enclose r).1 := by
      rintro rfl
      exact Nat.lt_irrefl _ hq
    have hlt : (s.enclose r).1.index < (s.enclose r).2.scopes.size := by
      simp [Store.enclose, newScope]
    rw [markYolo, scope_bind _ hlt, if_neg hne, Store.enclose, scope_newScope_of_lt s _ hq]

theorem bind (s : Store) (r : Ref .scope) {name : String} (hn : name ≠ yoloMark) (v : Value) :
    Stable s (s.bind r name v) where
  toExtends := .bind s r name v
  mark q _ := s.get?_bind_of_ne r hn.symm v q

theorem isYolo (h : Stable s t) {r : Ref .scope} (hr : r.index < s.scopes.size) :
    t.isYolo r = s.isYolo r := by
  rw [Bool.eq_iff_iff, isYolo_iff, isYolo_iff, h.chain hr]
  have hq : ∀ q ∈ s.chain r, (t.scope q).get? yoloMark = (s.scope q).get? yoloMark := fun q hq =>
    h.mark q (Nat.lt_of_le_of_lt (index_le_of_mem_chain hq) hr)
  constructor
  · rintro ⟨q, hm, h⟩
    exact ⟨q, hm, by rwa [← hq q hm]⟩
  · rintro ⟨q, hm, h⟩
    exact ⟨q, hm, by rwa [hq q hm]⟩

end Stable

/-! ### Names -/

/-- Names stay bound, and only in scopes that `Free` holds of there may be new ones. -/
structure Frame (Free : Ref .scope → Prop) (s t : Store) : Prop extends Extends s t where
  grows : ∀ r, r.index < s.scopes.size → ∀ name, (s.scope r).binds name → (t.scope r).binds name
  same : ∀ r, r.index < s.scopes.size → ¬ Free r → ∀ name,
    (t.scope r).binds name = (s.scope r).binds name

namespace Frame

variable {Free : Ref .scope → Prop} {s t u : Store}

theorem of_eq (h : t.scopes = s.scopes) : Frame Free s t where
  toExtends := .of_eq h
  grows r _ name hb := by rwa [scope, h]
  same r _ _ name := by rw [scope, h, scope]

/-- What is done to scopes that came after `s` does not matter. -/
theorem trans (h₁ : Frame Free s t) (h₂ : Frame (fun r => Free r ∨ s.scopes.size ≤ r.index) t u) :
    Frame Free s u where
  toExtends := h₁.toExtends.trans h₂.toExtends
  grows r hr name hb := h₂.grows r (Nat.lt_of_lt_of_le hr h₁.size) name (h₁.grows r hr name hb)
  same r hr hf name := by
    have hf' : ¬ (Free r ∨ s.scopes.size ≤ r.index) := by
      rintro (h | h)
      · exact hf h
      · omega
    exact (h₂.same r (Nat.lt_of_lt_of_le hr h₁.size) hf' name).trans (h₁.same r hr hf name)

theorem enclose (s : Store) (r : Ref .scope) : Frame Free s (s.enclose r).2 where
  toExtends := .enclose s r
  grows q hq name hb := by rwa [Store.enclose, scope_newScope_of_lt s _ hq]
  same q hq _ name := by rw [Store.enclose, scope_newScope_of_lt s _ hq]

theorem declare (s : Store) {r : Ref .scope} (hr : Free r) (name : String) (v : Value) :
    Frame Free s (s.bind r name v) where
  toExtends := .bind s r name v
  grows _ _ _ hb := s.binds_bind r name v hb
  same q _ hf k := by
    refine s.binds_bind_of_ne ?_ name v k
    rintro rfl
    exact hf hr

theorem rebind (s : Store) {r : Ref .scope} {name : String} (hb : (s.scope r).binds name)
    (v : Value) :
    Frame Free s (s.bind r name v) where
  toExtends := .bind s r name v
  grows _ _ _ hk := s.binds_bind r name v hk
  same q _ _ k := s.binds_bind_of_binds hb v q k

end Frame

end YeetYoink.Store
