import Mathlib.Data.List.Induction
import YeetYoink.Proofs.Expr.Transform

/-!
# The order of a transformation

A function that gives every node back as it was, or fails, is handed the nodes of an expression in
post-order, each of them once, up to the first one on which it fails (`transformM_postorder`).
Post-order is said of positions: `at?` finds the node at a position, and the nodes are those at all
positions, what is inside before what it is in and what is to the left before what is to the right
(`InPostorder`).
-/

namespace YeetYoink.Expr

/-! ### Positions -/

/-- The node at a position, which says child by child where to go. -/
def at? : Expr → List Nat → Option Expr
  | e, [] => some e
  | e, i :: p => e.children[i]?.bind (at? · p)

/-- The node at a position in one of several expressions. -/
def atOf? (xs : List Expr) : List Nat → Option Expr
  | [] => none
  | i :: p => xs[i]?.bind (at? · p)

/-- One position comes before another: it is inside it, or to the left of it. -/
inductive Precedes : List Nat → List Nat → Prop
  | inside {i : Nat} {p : List Nat} : Precedes (i :: p) []
  | left {i j : Nat} {p q : List Nat} (h : i < j) : Precedes (i :: p) (j :: q)
  | within {i : Nat} {p q : List Nat} (h : Precedes p q) : Precedes (i :: p) (i :: q)

/-- The nodes at all positions there are, each once, in post-order. -/
def InPostorder (look : List Nat → Option Expr) (xs : List Expr) : Prop :=
  ∃ ps : List (List Nat), ps.Pairwise Precedes ∧ (∀ p, p ∈ ps ↔ (look p).isSome) ∧
    ps.map look = xs.map some

theorem atOf?_append_singleton (xs : List Expr) (x : Expr) (i : Nat) (p : List Nat) :
    atOf? (xs ++ [x]) (i :: p) = if i = xs.length then x.at? p else atOf? xs (i :: p) := by
  simp only [atOf?]
  obtain h | rfl | h := Nat.lt_trichotomy i xs.length
  · rw [List.getElem?_append_left h, if_neg (Nat.ne_of_lt h)]
  · simp
  · have hlen : (xs ++ [x]).length ≤ i := by simpa using Nat.succ_le_of_lt h
    rw [List.getElem?_eq_none hlen, List.getElem?_eq_none (Nat.le_of_lt h), if_neg (Nat.ne_of_gt h)]

/-- A position in one of several expressions starts with its number. -/
theorem lt_length_of_atOf? {xs : List Expr} {p : List Nat} (h : (atOf? xs p).isSome) :
    ∃ i q, p = i :: q ∧ i < xs.length := by
  cases p with
  | nil => cases h
  | cons i q =>
    refine ⟨i, q, rfl, Nat.lt_of_not_le fun hi => ?_⟩
    rw [atOf?, List.getElem?_eq_none hi] at h
    cases h

theorem inPostorder_append {xs ys : List Expr} {x : Expr} (hxs : InPostorder (atOf? xs) ys)
    (hx : InPostorder x.at? x.nodes) : InPostorder (atOf? (xs ++ [x])) (ys ++ x.nodes) := by
  obtain ⟨ps, hps, hmem, hmap⟩ := hxs
  obtain ⟨qs, hqs, hmemx, hmapx⟩ := hx
  have hfirst : ∀ p ∈ ps, ∃ i q, p = i :: q ∧ i < xs.length :=
    fun p hp => lt_length_of_atOf? ((hmem p).1 hp)
  refine ⟨ps ++ qs.map (xs.length :: ·), ?_, fun p => ?_, ?_⟩
  · refine List.pairwise_append.2 ⟨hps, List.pairwise_map.2 (hqs.imp .within), fun p hp q hq => ?_⟩
    obtain ⟨i, p, rfl, hi⟩ := hfirst p hp
    obtain ⟨q, -, rfl⟩ := List.mem_map.1 hq
    exact .left hi
  · cases p with
    | nil =>
      have hnil : [] ∉ ps := fun h => nomatch (hmem []).1 h
      simpa [atOf?] using hnil
    | cons i p =>
      rw [atOf?_append_singleton, List.mem_append, hmem]
      by_cases hi : i = xs.length
      · subst hi
        simp [atOf?, hmemx]
      · simp [hi, Ne.symm hi]
  · rw [List.map_append, List.map_append, List.map_map, ← hmap, ← hmapx]
    congr 1
    · refine List.map_congr_left fun p hp => ?_
      obtain ⟨i, p, rfl, hi⟩ := hfirst p hp
      rw [atOf?_append_singleton, if_neg (Nat.ne_of_lt hi)]
    · refine List.map_congr_left fun p _ => ?_
      rw [Function.comp_apply, atOf?_append_singleton, if_pos rfl]

theorem inPostorder_nodesAll {xs : List Expr} (h : ∀ x ∈ xs, InPostorder x.at? x.nodes) :
    InPostorder (atOf? xs) (nodesAll xs) := by
  -- The last expression is the one to split off: the numbers of the others stay as they are.
  induction xs using List.reverseRecOn with
  | nil =>
    refine ⟨[], .nil, fun p => ?_, rfl⟩
    cases p <;> simp [atOf?]
  | append_singleton xs x ih =>
    rw [List.forall_mem_append, List.forall_mem_singleton] at h
    rw [nodesAll_eq, List.flatMap_append, ← nodesAll_eq, List.flatMap_singleton]
    exact inPostorder_append (ih h.1) h.2

theorem inPostorder_nodes (e : Expr) : InPostorder e.at? e.nodes := by
  induction e using inductChildren with
  | step e ih =>
    obtain ⟨ps, hps, hmem, hmap⟩ := inPostorder_nodesAll ih
    have hcons : ∀ p ∈ ps, ∃ i q, p = i :: q := fun p hp => by
      obtain ⟨i, q, rfl, -⟩ := lt_length_of_atOf? ((hmem p).1 hp)
      exact ⟨i, q, rfl⟩
    refine ⟨ps ++ [[]], ?_, fun p => ?_, ?_⟩
    · refine List.pairwise_append.2 ⟨hps, List.pairwise_singleton .., fun p hp q hq => ?_⟩
      obtain ⟨i, p, rfl⟩ := hcons p hp
      obtain rfl := List.mem_singleton.1 hq
      exact .inside
    · cases p with
      | nil => simp [at?]
      | cons i p =>
        rw [List.mem_append, hmem]
        simp [at?, atOf?]
    · rw [nodes_eq, ← nodesAll_eq, List.map_append, List.map_append, ← hmap]
      congr 1
      refine List.map_congr_left fun p hp => ?_
      obtain ⟨i, p, rfl⟩ := hcons p hp
      rfl

/-! ### Handing nodes over -/

section

variable {m : Type → Type} [Monad m] {f : Expr → m Expr}

/-- Hands expressions to a function, one after another. -/
def handOver (f : Expr → m Expr) : List Expr → m Unit
  | [] => pure ()
  | x :: xs => do
    let _ ← f x
    handOver f xs

/-- The function gives a node back as it was, whatever else it does. -/
def Keeps (f : Expr → m Expr) : Prop := ∀ x, f x = f x >>= fun _ => pure x

variable [LawfulMonad m]

theorem handOver_append (xs ys : List Expr) :
    handOver f (xs ++ ys) = handOver f xs >>= fun _ => handOver f ys := by
  induction xs with
  | nil => simp [handOver]
  | cons x xs ih => simp [handOver, ih]

theorem transformAllM_of_keeps {xs : List Expr}
    (h : ∀ x ∈ xs, x.transformM f = handOver f x.nodes >>= fun _ => pure x) :
    transformAllM f xs = handOver f (nodesAll xs) >>= fun _ => pure xs := by
  induction xs with
  | nil => simp [transformAllM, nodesAll, handOver]
  | cons x xs ih =>
    obtain ⟨hx, hxs⟩ := List.forall_mem_cons.1 h
    simp [transformAllM, nodesAll, handOver_append, hx, ih hxs]

/-- A transformation that keeps the nodes is nothing but handing them over. -/
theorem transformM_of_keeps (hf : Keeps f) (e : Expr) :
    e.transformM f = handOver f e.nodes >>= fun _ => pure e := by
  induction e using inductChildren with
  | step e ih =>
    calc e.transformM f
        = handOver f (nodesAll e.children) >>= fun _ => f e := by
          rw [transformM_eq_bind, transformAllM_of_keeps ih, bind_assoc]
          simp only [pure_bind, withChildren_children]
      _ = handOver f (nodesAll e.children) >>= fun _ => f e >>= fun _ => pure e := by rw [← hf e]
      _ = handOver f e.nodes >>= fun _ => pure e := by
          rw [nodes_eq, ← nodesAll_eq, handOver_append]
          simp [handOver]

end

section

variable {m n : Type → Type} [Monad m] [Monad n] {f : Expr → m Expr} {c : {α : Type} → m α → n α}
  (hpure : ∀ {α : Type} (a : α), c (pure a) = pure a)
  (hbind : ∀ {α β : Type} (x : m α) (k : α → m β), c (x >>= k) = c x >>= fun a => c (k a))
include hpure hbind

theorem transformAllM_comm {xs : List Expr}
    (h : ∀ x ∈ xs, c (x.transformM f) = x.transformM fun y => c (f y)) :
    c (transformAllM f xs) = transformAllM (fun y => c (f y)) xs := by
  induction xs with
  | nil => exact hpure []
  | cons x xs ih =>
    obtain ⟨hx, hxs⟩ := List.forall_mem_cons.1 h
    simp only [transformAllM, hpure, hbind, hx, ih hxs]

/-- Effects may be carried over to others before a transformation or after it. -/
theorem transformM_comm [LawfulMonad m] [LawfulMonad n] (e : Expr) :
    c (e.transformM f) = e.transformM fun y => c (f y) := by
  induction e using inductChildren with
  | step e ih =>
    rw [transformM_eq_bind, transformM_eq_bind, hbind, transformAllM_comm hpure hbind ih]

end

section

variable {ε σ α : Type} {f : Expr → EStateM ε σ Expr} {xs : List Expr} {s t u : σ}

/-- The function gives the nodes back as they were, one after another, from the first state to the
last. -/
def Passes (f : Expr → EStateM ε σ Expr) : List Expr → σ → σ → Prop
  | [], s, t => s = t
  | x :: xs, s, t => ∃ u, f x s = .ok x u ∧ Passes f xs u t

/-- The function, with the nodes noted down that are handed to it. -/
def noting (f : Expr → EStateM ε σ Expr) (x : Expr) : EStateM ε (σ × List Expr) Expr := fun s =>
  match f x s.1 with
  | .ok y t => .ok y (t, s.2 ++ [x])
  | .error e t => .error e (t, s.2 ++ [x])

/-- Nodes are handed to a function in their order, in a run and in one where they are noted down.
Either it passes all of them, or they are handed over up to and with the first on which it fails,
and the failure is the outcome. -/
def HandsOver (f : Expr → EStateM ε σ Expr) (xs : List Expr) (a : α) (s : σ)
    (run : EStateM.Result ε σ α) (noted : EStateM.Result ε (σ × List Expr) α) : Prop :=
  (∃ t, Passes f xs s t ∧ run = .ok a t ∧ noted = .ok a (t, xs)) ∨
    ∃ before x after u e t, xs = before ++ x :: after ∧ Passes f before s u ∧ f x u = .error e t ∧
      run = .error e t ∧ noted = .error e (t, before ++ [x])

/-- The function fails on a node or returns it unchanged. -/
def Checks (f : Expr → EStateM ε σ Expr) : Prop :=
  ∀ x s, (∃ t, f x s = .ok x t) ∨ ∃ e t, f x s = .error e t

theorem Checks.keeps (hf : Checks f) : Keeps f := by
  intro x
  funext s
  obtain ⟨t, h⟩ | ⟨e, t, h⟩ := hf x s
  · simp only [bind, EStateM.bind, h, pure, EStateM.pure]
  · simp only [bind, EStateM.bind, h]

theorem noting_ok {x y : Expr} (h : f x s = .ok y t) (seen : List Expr) :
    noting f x (s, seen) = .ok y (t, seen ++ [x]) := by
  simp only [noting, h]

theorem noting_error {x : Expr} {e : ε} (h : f x s = .error e t) (seen : List Expr) :
    noting f x (s, seen) = .error e (t, seen ++ [x]) := by
  simp only [noting, h]

theorem Checks.noting (hf : Checks f) : Checks (noting f) := by
  rintro x ⟨s, seen⟩
  obtain ⟨t, h⟩ | ⟨e, t, h⟩ := hf x s
  · exact .inl ⟨_, noting_ok h seen⟩
  · exact .inr ⟨e, _, noting_error h seen⟩

theorem Passes.noting (h : Passes f xs s t) (seen : List Expr) :
    Passes (noting f) xs (s, seen) (t, seen ++ xs) := by
  induction xs generalizing s seen with
  | nil =>
    obtain rfl := h
    simp [Passes]
  | cons x xs ih =>
    obtain ⟨u, hx, hxs⟩ := h
    refine ⟨(u, seen ++ [x]), noting_ok hx seen, ?_⟩
    simpa using ih hxs (seen ++ [x])

theorem Checks.passes_or_fails (hf : Checks f) (xs : List Expr) (s : σ) :
    (∃ t, Passes f xs s t) ∨
      ∃ before x after u e t, xs = before ++ x :: after ∧ Passes f before s u ∧
        f x u = .error e t := by
  induction xs generalizing s with
  | nil => exact .inl ⟨s, rfl⟩
  | cons x xs ih =>
    obtain ⟨u, hx⟩ | ⟨e, t, hx⟩ := hf x s
    · obtain ⟨t, hxs⟩ | ⟨before, y, after, v, e, t, rfl, hb, hy⟩ := ih u
      · exact .inl ⟨t, u, hx, hxs⟩
      · exact .inr ⟨x :: before, y, after, v, e, t, rfl, ⟨u, hx, hb⟩, hy⟩
    · exact .inr ⟨[], x, xs, s, e, t, rfl, rfl, hx⟩

theorem Passes.handOver_append (h : Passes f xs s u) (ys : List Expr) :
    handOver f (xs ++ ys) s = handOver f ys u := by
  induction xs generalizing s with
  | nil =>
    obtain rfl := h
    rfl
  | cons x xs ih =>
    obtain ⟨v, hx, hxs⟩ := h
    rw [← ih hxs]
    simp only [List.cons_append, handOver, bind, EStateM.bind, hx]

theorem Passes.handOver_eq_ok (h : Passes f xs s t) : handOver f xs s = .ok () t := by
  rw [← List.append_nil xs, h.handOver_append]
  rfl

theorem Passes.handOver_eq_error (h : Passes f xs s u) {x : Expr} {e : ε} (hx : f x u = .error e t)
    (ys : List Expr) : handOver f (xs ++ x :: ys) s = .error e t := by
  rw [h.handOver_append]
  simp only [handOver, bind, EStateM.bind, hx]

theorem Checks.handsOver (hf : Checks f) {a : α} {run : EStateM ε σ α}
    {noted : EStateM ε (σ × List Expr) α}
    (hrun : run = handOver f xs >>= fun _ => pure a)
    (hnoted : noted = handOver (Expr.noting f) xs >>= fun _ => pure a)
    (s : σ) : HandsOver f xs a s (run s) (noted (s, [])) := by
  subst hrun hnoted
  obtain ⟨t, h⟩ | ⟨before, x, after, u, e, t, rfl, h, hx⟩ := hf.passes_or_fails xs s
  · refine .inl ⟨t, h, ?_, ?_⟩
    · simp only [bind, EStateM.bind, h.handOver_eq_ok, pure, EStateM.pure]
    · simp only [bind, EStateM.bind, (h.noting []).handOver_eq_ok, pure, EStateM.pure,
        List.nil_append]
  · have hx' := noting_error hx ([] ++ before)
    refine .inr ⟨before, x, after, u, e, t, rfl, h, hx, ?_, ?_⟩
    · simp only [bind, EStateM.bind, h.handOver_eq_error hx]
    · simp only [bind, EStateM.bind, (h.noting []).handOver_eq_error hx', List.nil_append]

/-- What has a state and cannot fail, among what can. -/
def unfailing (x : StateM σ α) : EStateM ε σ α := fun s => .ok (x.run s).1 (x.run s).2

end

/-- A transformation that fails on a node or leaves it as it is visits the nodes in post-order, each
once, up to the first failure. One that cannot fail is the same among those that can. -/
theorem transformM_postorder {ε σ : Type} :
    (∀ e : Expr, InPostorder e.at? e.nodes) ∧
    (∀ p : Program, InPostorder (atOf? p) (nodesAll p)) ∧
    (∀ f : Expr → EStateM ε σ Expr, Checks f →
      (∀ (e : Expr) s, HandsOver f e.nodes e s (e.transformM f s)
        (e.transformM (noting f) (s, []))) ∧
      ∀ (p : Program) s, HandsOver f (nodesAll p) p s (transformAllM f p s)
      (transformAllM (noting f) p (s, []))) ∧
    (∀ f : Expr → Expr,
      (∀ e : Expr, e.transformM (fun x => pure (f x)) = (pure (e.transform f) : EStateM ε σ Expr)) ∧
      ∀ p : Program, transformAllM (fun x => pure (f x)) p =
      (pure (p.map (transform f)) : EStateM ε σ Program)) ∧
    ∀ f : Expr → StateM σ Expr,
      (∀ e : Expr, e.transformM (fun x => unfailing (f x)) =
        (unfailing (e.transformM f) : EStateM ε σ Expr)) ∧
      ∀ p : Program,
        transformAllM (fun x => unfailing (f x)) p =
          (unfailing (transformAllM f p) : EStateM ε σ Program) := by
  refine ⟨inPostorder_nodes, fun p => inPostorder_nodesAll fun x _ => inPostorder_nodes x,
    fun f hf => ?_, fun f => ?_,
    fun f => ?_⟩
  · have hrun := transformM_of_keeps hf.keeps
    have hnoted := transformM_of_keeps hf.noting.keeps
    refine ⟨fun e => hf.handsOver (hrun e) (hnoted e), fun p => hf.handsOver ?_ ?_⟩
    · exact transformAllM_of_keeps fun x _ => hrun x
    · exact transformAllM_of_keeps fun x _ => hnoted x
  · have h : ∀ e : Expr, pure (e.transform f) = e.transformM fun x =>
        (pure (f x) : EStateM ε σ Expr) :=
      transformM_comm (c := fun x => pure (Id.run x)) (fun _ => rfl) fun _ _ => rfl
    refine ⟨fun e => (h e).symm, fun p => ?_⟩
    rw [← transformAllM_eq]
    exact (transformAllM_comm (c := fun x => pure (Id.run x)) (fun _ => rfl) (fun _ _ => rfl)
      fun x _ => h x).symm
  · have h : ∀ e : Expr, unfailing (e.transformM f) = e.transformM fun x =>
        (unfailing (f x) : EStateM ε σ Expr) :=
      transformM_comm (c := unfailing) (fun _ => rfl) fun _ _ => rfl
    refine ⟨fun e => (h e).symm, fun p => ?_⟩
    exact (transformAllM_comm (c := unfailing) (fun _ => rfl) (fun _ _ => rfl) fun x _ => h x).symm

/-- Counts the nodes that are handed to it, and fails on a bad one. -/
def countToBad : Expr → EStateM Token Nat Expr
  | .bad t => fun n => .error t (n + 1)
  | x => fun n => .ok x (n + 1)

/-- An assignment of an array whose second element could not be read. -/
def gapped : Expr :=
  .assign .update (.ident "a") (.array [.int 1, .bad ⟨.symbol .comma, 8, 9⟩, .null])

theorem transformM_postorder_gapped :
    Checks countToBad ∧
    HandsOver countToBad gapped.nodes gapped 0 (gapped.transformM countToBad 0)
      (gapped.transformM (noting countToBad) (0, [])) ∧
    gapped.transformM (noting countToBad) (0, []) =
      .error ⟨.symbol .comma, 8, 9⟩ (3, [.ident "a", .int 1, .bad ⟨.symbol .comma, 8, 9⟩]) := by
  have hf : Checks countToBad := by
    intro x s
    cases x with
    | bad t => exact .inr ⟨t, s + 1, rfl⟩
    | _ => exact .inl ⟨s + 1, rfl⟩
  exact ⟨hf, (transformM_postorder.2.2.1 countToBad hf).1 gapped 0, rfl⟩

end YeetYoink.Expr
