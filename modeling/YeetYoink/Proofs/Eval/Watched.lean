import YeetYoink.Proofs.Eval.Nodes

/-!
# Watched runs

`Watched.evaluate R alarm` evaluates like `evaluate`, but each time it has evaluated an expression,
however deep inside a run that is, it compares the store with the one before, and stops with the
alarm if `R` does not hold of the two. The alarm is an error of one's choice. So if a run goes on
the same whatever the alarm is, `R` holds all along it.
-/

namespace YeetYoink

open Classical in
noncomputable def Eval.watched {α : Type} (R : Store → Store → Prop) (alarm : EvalError)
    (x : Eval α) :
    Eval α := fun s =>
  match x s with
  | .ok a t => if R s t then .ok a t else .error (.failed alarm) t
  | .error e t => if R s t then .error e t else .error (.failed alarm) t

noncomputable def Watched.evaluate (R : Store → Store → Prop) (alarm : EvalError) : Nat → Evaluator
  | 0, _, _ => Eval.exhausted
  | n + 1, x, scope => Eval.watched R alarm (Evaluator.node (evaluate R alarm n) n x scope)

/-- A watch that lets everything pass. -/
theorem Watched.evaluate_true (alarm : EvalError) (n : Nat) :
    evaluate (fun _ _ => True) alarm n = YeetYoink.evaluate n := by
  induction n with
  | zero => rfl
  | succ n ih =>
    funext x r s
    rw [evaluate, evaluate_succ, ih, Eval.watched]
    split
    next h => rw [h, if_pos trivial]
    next h => rw [h, if_pos trivial]

namespace Discipline

variable {D : Discipline} {R : Store → Store → Prop}
    (hR : ∀ w w', D.Le w w' → R (D.right w) (D.right w'))
  (alarm : EvalError)
include hR

/-- A computation may be watched for what holds of every world and a later one. -/
theorem Relates.watched {α β : Type} {w : D.World} {x : Eval α} {y : Eval β}
    {Q : D.World → α → β → Prop} (h : D.Relates w x y Q) :
    D.Relates w x (Eval.watched R alarm y) Q := by
  unfold Relates Eval.watched at *
  generalize x (D.left w) = r, y (D.right w) = q at h ⊢
  cases h with
  | ok hle h =>
    simp only [if_pos (hR _ _ hle)]
    exact .ok hle h
  | yeet hle h =>
    simp only [if_pos (hR _ _ hle)]
    exact .yeet hle h
  | failed hle h =>
    simp only [if_pos (hR _ _ hle)]
    exact .failed hle h
  | exhausted hle =>
    simp only [if_pos (hR _ _ hle)]
    exact .exhausted hle
  | ignored h => exact .ignored h

theorem Sound.follows_watched (hD : D.Sound)
    (hk : ∀ w r, ∀ e ∈ ((D.left w).dict r).entries, D.Valid w e.key) (hy : D.OpensYolo (.bool true))
    (n : Nat) : D.Follows (evaluate n) (Watched.evaluate R alarm n) := by
  induction n with
  | zero => exact fun w x r q _ _ => hD.relates_exhausted
  | succ n ih =>
    intro w x r q hx hr
    rw [evaluate_succ, Watched.evaluate]
    refine Relates.watched hR alarm (hD.relates_node ih n hr hx ?_ ?_)
    · rintro y rfl
      refine hD.relates_bind (ih (hx.child (by simp [Expr.children])) hr) fun w₁ v u h₁ hv => ?_
      exact hD.relates_applyMinus hk (hD.scope_mono h₁ hr) hv
    · rintro body rfl
      obtain ⟨ho, rfl⟩ := hr
      exact hD.relates_yolo ih hy n (hD.known_of_open ho) (Expr.throughout_iff.1 hx).1

end Discipline

end YeetYoink
