import Mathlib
import YeetYoink.Expr.Same
import YeetYoink.Proofs.Expr.Traversal

/-!
# Sameness is an equivalence, but for what is no number

An expression is the same as another if the other is that very node over the same children, and a
literal if the numbers are equal (`same_withChildren`, `exists_of_same`). So sameness is symmetric
and transitive, as equality of floating-point numbers is, and every expression without a literal
that is no number is the same as itself.
-/

namespace YeetYoink

theorem Decimal.beq_self {x : Float} (h : x.isNaN = false) : x == x := by
  rw [Float.isNaN_eq_decide_eq_nan, decide_eq_false_iff_not] at h
  exact Float.beq_self_iff.2 h

/-- Two lists that relate to a third in the middle, member by member. -/
theorem forall₂_trans_of_mem {α : Type} {R : α → α → Prop} {xs ys zs : List α}
    (h : ∀ x ∈ xs, ∀ y z, R x y → R y z → R x z) (hxy : List.Forall₂ R xs ys)
    (hyz : List.Forall₂ R ys zs) :
    List.Forall₂ R xs zs := by
  induction hxy generalizing zs with
  | nil => exact hyz
  | cons hx _ ih =>
    cases hyz with
    | cons hy hyz =>
      rw [List.forall_mem_cons] at h
      exact .cons (h.1 _ _ hx hy) (ih h.2 hyz)

namespace Expr

/-! ### The same node over other children -/

/-- A node over other children is over as many, so it can take the first ones back. -/
theorem withChildren_withChildren {e : Expr} {ys zs : List Expr}
    (hy : ys.length = e.children.length)
    (hz : zs.length = e.children.length) :
    (e.withChildren ys).withChildren zs = e.withChildren zs := by
  cases e with
  | range | binary | and | or | index | assign =>
    match ys, hy with
    | [_, _], _ => match zs, hz with
      | [_, _], _ => rfl
  | unary | yeet =>
    match ys, hy with
    | [_], _ => match zs, hz with
      | [_], _ => rfl
  | call | yoyo | yall =>
    match ys, hy with
    | _ :: _, _ => match zs, hz with
      | _ :: _, _ => rfl
  | yif condition body otherwise =>
    cases otherwise with
    | none =>
      match ys, hy with
      | _ :: _, _ => match zs, hz with
        | _ :: _, _ => rfl
    | some otherwise =>
      match ys, hy with
      | _ :: ys, hy => match zs, hz with
        | _ :: _, _ =>
          have hlen : min body.length ys.length = body.length := by simp [children] at hy; omega
          simp [withChildren, hlen]
  | _ => rfl

/-! ### Comparing two nodes -/

theorem sameAll_iff {xs ys : List Expr} :
    sameAll xs ys ↔ List.Forall₂ (fun x y => x.same y) xs ys := by
  induction xs generalizing ys with
  | nil => cases ys <;> simp [sameAll]
  | cons x xs ih => cases ys <;> simp [sameAll, ih]

theorem samePairs_iff {ps qs : List (Expr × Expr)} : samePairs ps qs ↔
    List.Forall₂ (fun x y => x.same y) (ps.flatMap fun p => [p.1, p.2])
      (qs.flatMap fun p => [p.1, p.2]) := by
  induction ps generalizing qs with
  | nil => cases qs <;> simp [samePairs]
  | cons p ps ih => cases qs <;> simp [samePairs, ih, and_assoc]

/-- A number literal. -/
def IsNum (e : Expr) : Prop := ∃ x, e = .num x

theorem same_withChildren {e : Expr} (he : ¬ e.IsNum) {ys : List Expr}
    (h : List.Forall₂ (fun x y => x.same y) e.children ys) : e.same (e.withChildren ys) := by
  cases e with
  | num x => exact absurd ⟨x, rfl⟩ he
  | template | array | block | yolo | lambda | macroLit =>
    have hs := sameAll_iff.2 h
    simp only [children] at hs
    simp [same, withChildren, hs]
  | dict pairs =>
    rw [withChildren, same, samePairs_iff, flatMap_pairUp h.length_eq.symm]
    exact h
  | range | binary | and | or | index | assign =>
    obtain _ | ⟨hx, _ | ⟨hy, _ | _⟩⟩ := h
    simp [same, withChildren, hx, hy]
  | unary | yeet =>
    obtain _ | ⟨hx, _ | _⟩ := h
    simp [same, withChildren, hx]
  | call | yoyo | yall =>
    obtain _ | ⟨hx, hys⟩ := h
    simp [same, withChildren, hx, sameAll_iff.2 hys]
  | yif condition body otherwise =>
    cases otherwise with
    | none =>
      obtain _ | ⟨hx, hys⟩ := h
      simp [same, withChildren, hx, sameAll_iff.2 hys]
    | some otherwise =>
      obtain _ | ⟨hx, hys⟩ := h
      have hb := List.forall₂_take body.length hys
      have ho := List.forall₂_drop body.length hys
      rw [List.take_left] at hb
      rw [List.drop_left] at ho
      simp [same, withChildren, hx, sameAll_iff.2 hb, sameAll_iff.2 ho]
  | _ => simp [same, withChildren]

/-- What is the same as a node that is no number is that node over the same children. -/
theorem exists_of_same {a b : Expr} : a.same b → (∃ x y, a = .num x ∧ b = .num y ∧ x == y) ∨
    ¬ a.IsNum ∧ List.Forall₂ (fun x y => x.same y) a.children b.children ∧
      b = a.withChildren b.children := by
  fun_cases Expr.same a b with
  | case3 x y => exact fun h => .inl ⟨x, y, rfl, rfl, h⟩
  | case9 ps qs =>
    intro h
    exact .inr ⟨nofun, samePairs_iff.1 h, (withChildren_children (.dict qs)).symm⟩
  | case19 a xs u b ys v =>
    intro h
    simp only [Bool.and_eq_true, sameAll_iff] at h
    obtain ⟨⟨h₁, h₂⟩, h₃⟩ := h
    refine .inr ⟨nofun, ?_⟩
    match u, v with
    | none, none => exact ⟨.cons h₁ h₂, rfl⟩
    | some us, some vs =>
      refine ⟨.cons h₁ (List.rel_append h₂ (sameAll_iff.1 h₃)), ?_⟩
      simp [children, withChildren, h₂.length_eq]
    | none, some vs | some us, none => cases h₃
  | case27 => exact fun h => by cases h
  | _ =>
    intro h
    simp_all [sameAll_iff, IsNum, children, withChildren]

theorem isNum_of_same {a b : Expr} (h : a.same b) (hb : b.IsNum) : a.IsNum := by
  obtain ⟨y, rfl⟩ := hb
  obtain ⟨x, _, rfl, -⟩ | ⟨ha, -, hb⟩ := exists_of_same h
  · exact ⟨x, rfl⟩
  · cases a with
    | num x => exact ⟨x, rfl⟩
    | yif condition body otherwise => cases otherwise <;> cases hb
    | _ => cases hb

theorem same_symm {a b : Expr} (h : a.same b) : b.same a := by
  induction a using inductChildren generalizing b with
  | step a ih =>
    obtain ⟨x, y, rfl, rfl, hxy⟩ | ⟨ha, hc, hb⟩ := exists_of_same h
    · exact BEq.symm hxy
    · have hc' : List.Forall₂ (fun x y => x.same y) b.children a.children :=
        (((List.forall₂_and_left _ _).2 ⟨ih, hc⟩).imp fun x y hxy => hxy.1 hxy.2).flip
      have hab : b.withChildren a.children = a := by
        rw [hb, withChildren_withChildren hc.length_eq.symm rfl, withChildren_children]
      exact hab ▸ same_withChildren (fun hn => ha (isNum_of_same h hn)) hc'

theorem same_trans {a b c : Expr} (hab : a.same b) (hbc : b.same c) : a.same c := by
  induction a using inductChildren generalizing b c with
  | step a ih =>
    obtain ⟨x, y, rfl, rfl, hxy⟩ | ⟨ha, h₁, hb⟩ := exists_of_same hab
    · obtain ⟨_, z, ⟨⟩, rfl, hyz⟩ | ⟨hn, -⟩ := exists_of_same hbc
      · exact BEq.trans hxy hyz
      · exact absurd ⟨y, rfl⟩ hn
    · obtain ⟨y, _, rfl, -⟩ | ⟨-, h₂, hc⟩ := exists_of_same hbc
      · exact absurd (isNum_of_same hab ⟨y, rfl⟩) ha
      · have h₃ := forall₂_trans_of_mem (fun x hx y z => ih x hx) h₁ h₂
        have hac : a.withChildren c.children = c := by
          rw [← withChildren_withChildren h₁.length_eq.symm h₃.length_eq.symm, ← hb, ← hc]
        exact hac ▸ same_withChildren ha h₃

/-- No literal in the expression is one that is no number. -/
def Numeric (e : Expr) : Prop := e.Throughout fun x => ∀ y, x = .num y → y.isNaN = false

theorem same_self {e : Expr} (h : e.Numeric) : e.same e := by
  induction e using inductChildren with
  | step e ih =>
    by_cases he : e.IsNum
    · obtain ⟨x, rfl⟩ := he
      exact Decimal.beq_self (h.here x rfl)
    · have hs := same_withChildren he (List.forall₂_same.2 fun c hc => ih c hc (h.child hc))
      rwa [withChildren_children] at hs

end Expr

end YeetYoink
