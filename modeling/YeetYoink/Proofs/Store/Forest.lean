import YeetYoink.Proofs.Store.Updates

/-!
# Many scopes that share their outer ones

A forest is what comes of opening scopes, alone or inside one another, and of giving names values in
them. `Resolves` is the rule by which a name is looked up, one scope at a time; `resolves_iff` says
that `holder?` follows it. Whoever looks from wherever in the forest, a change of one binding
(`Rebound`) is seen exactly where the name resolves to that binding.
-/

namespace YeetYoink.Store

/-- The scope that a name is found in, from a scope outward. -/
inductive Resolves (s : Store) (name : String) : Ref .scope → Ref .scope → Prop where
  | here {r : Ref .scope} (h : (s.scope r).binds name) : Resolves s name r r
  | outer {r o q : Ref .scope} (h : ¬ (s.scope r).binds name) (ho : (s.scope r).outer = some o)
      (hq : Resolves s name o q) : Resolves s name r q

/-- The stores whose scopes were opened and filled one after the other. -/
inductive Forest : Store → Prop where
  | bare {s : Store} (h : s.scopes = #[]) : Forest s
  | openRoot {s : Store} (h : Forest s) : Forest s.openRoot.2
  | enclose {s : Store} {r : Ref .scope} (h : Forest s) (hr : r.index < s.scopes.size) :
      Forest (s.enclose r).2
  | bind {s : Store} {r : Ref .scope} (h : Forest s) (hr : r.index < s.scopes.size) (name : String)
      (v : Value) : Forest (s.bind r name v)
  | update {s : Store} {r : Ref .scope} (h : Forest s) (hr : r.index < s.scopes.size)
      (name : String) (v : Value) : Forest (s.update r name v).2

/-- All that `t` has different from `s` is that a scope gives a name this value. -/
structure Rebound (s t : Store) (q : Ref .scope) (name : String) (v : Value) : Prop where
  rest : t = { s with scopes := t.scopes }
  size : t.scopes.size = s.scopes.size
  outer : ∀ r, (t.scope r).outer = (s.scope r).outer
  given : (t.scope q).get? name = some v
  others : ∀ r k, ¬ (r = q ∧ k = name) → (t.scope r).get? k = (s.scope r).get? k

/-! ### Looking names up -/

theorem lookup?_eq_holder? (s : Store) (r : Ref .scope) (name : String) :
    s.lookup? r name = (s.holder? r name).bind fun q => (s.scope q).get? name := by
  unfold lookup? holder?
  induction s.chain r with
  | nil => rfl
  | cons x xs ih =>
    rw [List.findSome?_cons, List.find?_cons]
    cases h : (s.scope x).get? name with
    | some v => simp [Scope.binds, h]
    | none => simp [Scope.binds, h, ih]

/-- Every scope lies inside one that came before it. -/
def Ordered (s : Store) : Prop := ∀ r o, (s.scope r).outer = some o → o.index < r.index

theorem update_eq_of_holder? {s : Store} {r q : Ref .scope} {name : String}
    (h : s.holder? r name = some q) (v : Value) : s.update r name v = (true, s.bind q name v) := by
  simp [update, rebind?, h]

theorem update_eq_of_none {s : Store} {r : Ref .scope} {name : String} (h : s.holder? r name = none)
    (v : Value) : s.update r name v = (false, s) := by
  simp [update, rebind?, h]

namespace Ordered

variable {s : Store}

theorem bind (hs : s.Ordered) (r : Ref .scope) (name : String) (v : Value) :
    (s.bind r name v).Ordered := by
  intro x o ho
  rw [outer_bind] at ho
  exact hs x o ho

theorem newScope (hs : s.Ordered) {x : Scope}
    (hx : ∀ o, x.outer = some o → o.index < s.scopes.size) :
    (s.newScope x).2.Ordered := by
  intro r o ho
  rw [scope_newScope_eq] at ho
  split at ho
  next hr => exact hr ▸ hx o ho
  next => exact hs r o ho

theorem next? (hs : s.Ordered) (i : Nat) : s.next? i = (s.scope ⟨i⟩).outer := by
  rw [Store.next?]
  cases ho : (s.scope ⟨i⟩).outer with
  | none => rfl
  | some o => simp [Option.filter_some, hs ⟨i⟩ o ho]

/-- A name is found in the scope that it resolves to. -/
theorem resolves_iff (hs : s.Ordered) {name : String} {r q : Ref .scope} :
    s.Resolves name r q ↔ s.holder? r name = some q := by
  constructor
  · intro h
    induction h with
    | @here r h => rw [holder?_eq s r.index, if_pos h]
    | @outer r o q h ho _ ih =>
      rw [holder?_eq s r.index, if_neg h, hs.next?, ho, Option.bind_some, ih]
  · obtain ⟨i⟩ := r
    induction i using Nat.strongRecOn with
    | ind i ih =>
      intro h
      rw [holder?_eq, hs.next?] at h
      split at h
      next hb =>
        cases h
        exact .here hb
      next hb =>
        obtain ⟨o, ho, hq⟩ := Option.bind_eq_some_iff.1 h
        exact .outer hb ho (ih o.index (hs ⟨i⟩ o ho) hq)

theorem lookup?_eq_some_iff (hs : s.Ordered) {name : String} {r : Ref .scope} {v : Value} :
    s.lookup? r name = some v ↔ ∃ q, s.Resolves name r q ∧ (s.scope q).get? name = some v := by
  rw [lookup?_eq_holder?, Option.bind_eq_some_iff]
  simp only [hs.resolves_iff]

end Ordered

theorem Forest.ordered {s : Store} (hs : s.Forest) : s.Ordered := by
  induction hs with
  | bare h =>
    intro r o ho
    simp [scope, h] at ho
  | openRoot _ ih => exact ih.newScope (fun o ho => by cases ho)
  | enclose _ hr ih =>
    refine ih.newScope fun o ho => ?_
    cases ho
    exact hr
  | bind _ _ name v ih => exact ih.bind _ name v
  | @update s r _ _ name v ih =>
    cases hq : s.holder? r name with
    | some q => rw [update_eq_of_holder? hq]; exact ih.bind q name v
    | none => rwa [update_eq_of_none hq]

/-! ### Changing one binding -/

theorem lt_size_of_binds {s : Store} {r : Ref .scope} {name : String} (h : (s.scope r).binds name) :
    r.index < s.scopes.size := by
  refine Nat.lt_of_not_le fun hr => ?_
  simp [scope, Array.getElem?_eq_none hr, Scope.binds, Scope.get?] at h

theorem rebound_bind {s : Store} {q : Ref .scope} (hq : q.index < s.scopes.size) (name : String)
    (v : Value) :
    s.Rebound (s.bind q name v) q name v where
  rest := rfl
  size := s.size_bind q name v
  outer := s.outer_bind q name v
  given := by rw [scope_bind s hq, if_pos rfl, Scope.get?_set, if_pos rfl]
  others r k h := by
    rw [scope_bind s hq]
    split
    next hr =>
      have hk : k ≠ name := fun hk => h ⟨hr, hk⟩
      rw [Scope.get?_set, if_neg hk, hr]
    next => rfl

namespace Rebound

variable {s t : Store} {q : Ref .scope} {name : String} {v : Value} (h : s.Rebound t q name v)
include h

theorem ordered (hs : s.Ordered) : t.Ordered := fun r o ho => hs r o (h.outer r ▸ ho)

theorem chain (r : Ref .scope) : t.chain r = s.chain r := by
  obtain ⟨i⟩ := r
  simp only [Store.chain]
  induction i using Nat.strongRecOn with
  | ind i ih =>
    have hn : t.next? i = s.next? i := by rw [Store.next?, h.outer, Store.next?]
    rw [chainFrom_eq, chainFrom_eq s, hn]
    cases ho : s.next? i with
    | none => rfl
    | some o =>
      have hlt : o.index < i := lt_of_next? ho
      rw [Option.map_some, Option.map_some, ih o.index hlt]

theorem lookup?_of_holder? {r : Ref .scope} (hr : t.holder? r name = some q) :
    t.lookup? r name = some v := by
  rw [lookup?_eq_holder?, hr, Option.bind_some, h.given]

/-- What does not resolve to the changed binding has the meaning that it had. -/
theorem lookup?_of_not_holder? {r : Ref .scope} {k : String}
    (hr : ¬ (k = name ∧ t.holder? r k = some q)) :
    t.lookup? r k = s.lookup? r k := by
  unfold lookup?
  unfold holder? at hr
  rw [h.chain] at hr ⊢
  -- Along the chain every scope up to the one that is found gives the name what it gave.
  generalize s.chain r = xs at hr ⊢
  induction xs with
  | nil => rfl
  | cons x xs ih =>
    have hx : ¬ (x = q ∧ k = name) := by
      rintro ⟨rfl, rfl⟩
      have hb : (t.scope x).binds k = true := by rw [Scope.binds, h.given]; rfl
      exact hr ⟨rfl, List.find?_cons_of_pos hb⟩
    rw [List.findSome?_cons, List.findSome?_cons, h.others x k hx]
    cases hg : (s.scope x).get? k with
    | some w => rfl
    | none =>
      have hb : ¬ (t.scope x).binds k = true := by rw [Scope.binds, h.others x k hx, hg]; simp
      have hf := List.find?_cons_of_neg (p := fun x => (t.scope x).binds k) (l := xs) hb
      exact ih fun hc => hr ⟨hc.1, hf.trans hc.2⟩

/-- If the name was bound there already, it resolves to the same scopes as before. -/
theorem holder? (hb : (s.scope q).binds name) (r : Ref .scope) :
    t.holder? r name = s.holder? r name := by
  have hx : (fun x => (t.scope x).binds name) = fun x => (s.scope x).binds name := by
    funext x
    by_cases hx : x = q
    · rw [hx, hb, Scope.binds, h.given]
      rfl
    · rw [Scope.binds, h.others x name fun hc => hx hc.1, Scope.binds]
  rw [Store.holder?, h.chain, hx, Store.holder?]

end Rebound

/-- Reading a name gives what the scope it resolves to says. Updating it succeeds if it has a
meaning, and then changes that one binding, which is seen from wherever the name resolves to it and
from nowhere else; if it fails, nothing changes. Setting it in a scope is seen from where the name
then resolves to that scope. -/
theorem scope_laws {s : Store} (hs : s.Forest) {e : Ref .scope} (he : e.index < s.scopes.size)
    (name : String) (v : Value) :
    (∀ r k u, s.lookup? r k = some u ↔ ∃ q, s.Resolves k r q ∧ (s.scope q).get? k = some u) ∧
      ((s.update e name v).1 = true ↔ (s.lookup? e name).isSome) ∧
      ((s.update e name v).1 = false → (s.update e name v).2 = s) ∧
      (∀ q, s.Resolves name e q → s.Rebound (s.update e name v).2 q name v ∧ ∀ r k,
        (k = name ∧ s.Resolves name r q → (s.update e name v).2.lookup? r k = some v) ∧
          (¬ (k = name ∧ s.Resolves name r q) →
            (s.update e name v).2.lookup? r k = s.lookup? r k)) ∧
      s.Rebound (s.bind e name v) e name v ∧ ∀ r k,
        (k = name ∧ (s.bind e name v).Resolves name r e → (s.bind e name v).lookup? r k = some v) ∧
          (¬ (k = name ∧ (s.bind e name v).Resolves name r e) →
            (s.bind e name v).lookup? r k = s.lookup? r k) := by
  have ho := hs.ordered
  refine ⟨fun r k u => ho.lookup?_eq_some_iff, ?_, ?_, fun q hq => ?_, rebound_bind he name v,
    fun r k => ?_⟩
  · rw [lookup?_eq_holder?]
    cases hq : s.holder? e name with
    | some q => exact iff_of_true (by rw [update_eq_of_holder? hq]) (binds_of_holder? hq)
    | none => simp [update_eq_of_none hq]
  · cases hq : s.holder? e name with
    | some q => simp [update_eq_of_holder? hq]
    | none => simp [update_eq_of_none hq]
  · have hq := ho.resolves_iff.1 hq
    have hb := binds_of_holder? hq
    have h := s.rebound_bind (lt_size_of_binds hb) name v
    rw [update_eq_of_holder? hq]
    refine ⟨h, fun r k => ⟨?_, fun hr => ?_⟩⟩
    · rintro ⟨rfl, hr⟩
      exact h.lookup?_of_holder? ((h.holder? hb r).trans (ho.resolves_iff.1 hr))
    · refine h.lookup?_of_not_holder? ?_
      rintro ⟨rfl, hc⟩
      exact hr ⟨rfl, ho.resolves_iff.2 ((h.holder? hb r).symm.trans hc)⟩
  · have h := s.rebound_bind he name v
    have ho' := h.ordered ho
    refine ⟨?_, fun hr => h.lookup?_of_not_holder? ?_⟩
    · rintro ⟨rfl, hr⟩
      exact h.lookup?_of_holder? (ho'.resolves_iff.1 hr)
    · rintro ⟨rfl, hc⟩
      exact hr ⟨rfl, ho'.resolves_iff.2 hc⟩

/-- A root with a name, two scopes in it of which the second has the name too, and one inside the
first. -/
def grove : Store :=
  let s := ({} : Store).openRoot.2.bind ⟨0⟩ "x" (.int 1)
  let s := ((s.enclose ⟨0⟩).2.enclose ⟨0⟩).2.bind ⟨2⟩ "x" (.int 2)
  (s.enclose ⟨1⟩).2

theorem forest_grove : grove.Forest := by
  have h₀ : ({} : Store).openRoot.2.Forest := .openRoot (.bare rfl)
  have h₁ := h₀.bind (r := ⟨0⟩) (by decide) "x" (.int 1)
  have h₂ := (h₁.enclose (r := ⟨0⟩) (by decide)).enclose (r := ⟨0⟩) (by decide)
  exact (h₂.bind (r := ⟨2⟩) (by decide) "x" (.int 2)).enclose (by decide)

theorem scope_laws_grove :
    grove.Forest ∧ (⟨3⟩ : Ref .scope).index < grove.scopes.size ∧ grove.Resolves "x" ⟨3⟩ ⟨0⟩ ∧
      (grove.update ⟨3⟩ "x" (.int 5)).2.lookup? ⟨0⟩ "x" = some (.int 5) ∧
      (grove.update ⟨3⟩ "x" (.int 5)).2.lookup? ⟨2⟩ "x" = grove.lookup? ⟨2⟩ "x" ∧
      (grove.update ⟨3⟩ "y" (.int 5)).2 = grove ∧
      (grove.bind ⟨3⟩ "x" (.int 5)).lookup? ⟨1⟩ "x" = grove.lookup? ⟨1⟩ "x" := by
  have he : (⟨3⟩ : Ref .scope).index < grove.scopes.size := by decide
  have h₀ : grove.Resolves "x" ⟨0⟩ ⟨0⟩ := .here (by decide)
  have h₃ : grove.Resolves "x" ⟨3⟩ ⟨0⟩ := .outer (by decide) rfl (.outer (by decide) rfl h₀)
  have h₂ : ¬ ("x" = "x" ∧ grove.Resolves "x" ⟨2⟩ ⟨0⟩) := by
    rintro ⟨-, h⟩
    cases h with
    | outer h => exact h (by decide)
  have h₁ : ¬ ("x" = "x" ∧ (grove.bind ⟨3⟩ "x" (.int 5)).Resolves "x" ⟨1⟩ ⟨3⟩) := by
    rintro ⟨-, h⟩
    cases h with
    | outer _ ho h =>
      cases ho
      cases h with
      | outer h => exact h (by decide)
  obtain ⟨-, -, -, hu, -, hb⟩ := scope_laws forest_grove he "x" (.int 5)
  obtain ⟨-, -, hn, -⟩ := scope_laws forest_grove he "y" (.int 5)
  exact ⟨forest_grove, he, h₃, ((hu _ h₃).2 _ _).1 ⟨rfl, h₀⟩, ((hu _ h₃).2 _ _).2 h₂,
    hn (by decide +kernel), (hb _ _).2 h₁⟩

end YeetYoink.Store
