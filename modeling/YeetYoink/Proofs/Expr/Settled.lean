import YeetYoink.Proofs.Decimal.Bits
import YeetYoink.Proofs.Expr.Spelling
import YeetYoink.Proofs.Expr.Transform

/-!
# Infinite numbers as names

An infinite number is printed as `inf`, which is read as a name. `settle` puts the name in the place
of the number. The text stays the same, and what is left is finite.
-/

namespace YeetYoink.Expr

def settleNumber : Expr → Expr
  | .num x => if x.isInf then .ident (Decimal.ofFloat x) else .num x
  | e => e

def settle (e : Expr) : Expr := e.transform settleNumber

theorem settle_eq (e : Expr) : e.settle = settleNumber (e.mapChildren settle) := transform_eq _ e

theorem print_settleNumber (e : Expr) : e.settleNumber.print = e.print := by
  cases e with
  | num x =>
    rw [settleNumber]
    split <;> rfl
  | _ => rfl

theorem print_settle (e : Expr) : e.settle.print = e.print := by
  induction e using Expr.inductChildren with
  | step e ih => rw [settle_eq, print_settleNumber, print_mapChildren ih]

theorem children_settleNumber (e : Expr) : e.settleNumber.children = e.children := by
  cases e with
  | num x =>
    rw [settleNumber]
    split <;> rfl
  | _ => rfl

theorem throughout_settle {p : Expr → Prop} {e : Expr} :
    e.settle.Throughout p ↔ e.Throughout fun x => p x.settle := by
  induction e using Expr.inductChildren with
  | step e ih =>
    have hc : e.settle.children = e.children.map settle := by
      rw [settle_eq, children_settleNumber, children_mapChildren]
    rw [throughout_iff, throughout_iff, hc, List.forall_mem_map]
    exact and_congr_left fun _ => forall₂_congr ih

theorem opensBlock_settle (e : Expr) : e.settle.opensBlock = e.opensBlock := by
  induction e using Expr.inductChildren with
  | step e ih =>
    rw [settle_eq]
    cases e with
    | call callee args => exact ih callee (List.mem_cons_self ..)
    | num x =>
      simp only [mapChildren, settleNumber]
      split <;> rfl
    | _ => rfl

theorem finite_settle (e : Expr) : Finite e.settle := by
  rw [settle_eq]
  cases e with
  | num x =>
    simp only [mapChildren, settleNumber]
    split
    · trivial
    · rename_i h
      exact Bool.eq_false_iff.2 h
  | _ => trivial

theorem holesGuarded_settle {e : Expr} (h : HolesGuarded e) : HolesGuarded e.settle := by
  rw [settle_eq]
  cases e with
  | template text values =>
    intro v hv
    obtain ⟨w, hw, rfl⟩ := List.mem_map.1 hv
    rw [opensBlock_settle, h w hw]
  | num x =>
    simp only [mapChildren, settleNumber]
    split <;> trivial
  | _ => trivial

theorem loopGuarded_settle {e : Expr} : LoopGuarded e.settle ↔ LoopGuarded e := by
  rw [settle_eq]
  cases e with
  | yoyo condition body =>
    simp only [mapChildren, settleNumber, LoopGuarded, opensBlock_settle]
  | num x =>
    simp only [mapChildren, settleNumber]
    split <;> rfl
  | _ => rfl

theorem isName_inf : IsName (Decimal.ofFloat (1.0 / 0.0)) := by
  have h : Decimal.ofFloat (1.0 / 0.0) = "inf" := by with_unfolding_all rfl
  rw [h]
  exact ⟨⟨'i', ['n', 'f'], rfl, by decide, List.all_eq_true.1 (by decide)⟩, by decide⟩

theorem readable_settle {e : Expr} (h : Readable e) : Readable e.settle := by
  rw [settle_eq]
  cases e with
  | num x =>
    simp only [mapChildren, settleNumber]
    split
    · rename_i hx
      obtain rfl | ⟨b, hb, -⟩ := h
      · exact isName_inf
      · exact absurd (Decimal.Binary.isInf_of_decode hb) (by simp [hx])
    · exact h
  | template text values => simpa [Readable, mapChildren, settleNumber] using h
  | assign kind target value =>
    cases target with
    | ident name => exact h
    | index container key => cases kind <;> exact h
    | _ => cases kind <;> exact h.elim
  | _ => exact h

end YeetYoink.Expr
