import Mathlib.Data.List.SplitBy
import YeetYoink.Proofs.Diagnostic.Lines
import YeetYoink.Proofs.Expr.Readable
import YeetYoink.Proofs.Program.Statements
import YeetYoink.Proofs.Token.Spans

/-!
# Errors and bad nodes

Errors are told where a run of bad statements starts, and nowhere else: a bad node is a statement of
its own, and there are as many errors as runs of them. An error lies at the start of a token or at
the end of the source, later errors lie further on, and so each is shown with a line of the source
(`read_errors`).
-/

namespace YeetYoink

def Expr.isBad : Expr → Bool
  | .bad _ => true
  | _ => false

theorem Expr.Formed.isBad_eq_false {V : Token.Kind → Prop} {e : Expr} (h : e.Formed V) :
    e.isBad = false := by
  cases e with
  | bad => exact h.elim
  | _ => rfl

/-- There is no bad node in what was read without an error. -/
theorem Written.not_bad {ts : List Token} {e : Expr} (h : Written ts e) :
    e.Throughout (·.isBad = Bool.false) :=
  (h.formed (V := fun _ => True) fun _ _ => trivial).mono fun _ => Expr.Formed.isBad_eq_false

namespace Program

open YeetYoink.Parser
open scoped List

/-! ### Runs of bad statements -/

/-- The number of longest runs of neighbouring bad statements. -/
def badRuns (p : Program) : Nat :=
  (p.splitBy fun a b => a.isBad == b.isBad).countP (·.any Expr.isBad)

/-- The number of runs that start behind a statement that was bad or not. -/
def runsAfter : Bool → Program → Nat
  | _, [] => 0
  | bad, e :: p => (if e.isBad && !bad then 1 else 0) + runsAfter e.isBad p

theorem any_isBad_of_forall {e : Expr} {g : List Expr} (h : ∀ x ∈ g, x.isBad = e.isBad) :
    (e :: g).reverse.any Expr.isBad = e.isBad := by
  rw [List.any_reverse, List.any_cons]
  cases he : e.isBad with
  | true => rfl
  | false => simpa [he] using h

/-- A group that is being collected counts if its statements are bad; the runs behind it are yet to
come. -/
theorem countP_splitBy_loop (p : Program) {e : Expr} {g : List Expr}
    (h : ∀ x ∈ g, x.isBad = e.isBad) (groups : List (List Expr)) :
    (List.splitBy.loop (fun a b => a.isBad == b.isBad) p e g groups).countP (·.any Expr.isBad) =
      groups.countP (·.any Expr.isBad) + e.isBad.toNat + runsAfter e.isBad p := by
  induction p generalizing e g groups with
  | nil =>
    simp only [List.splitBy.loop, runsAfter, List.countP_reverse, List.countP_cons,
      any_isBad_of_forall h]
    cases e.isBad <;> rfl
  | cons x p ih =>
    rw [List.splitBy.loop, runsAfter]
    -- The next statement joins the group, or the group is closed and counted.
    cases hx : e.isBad == x.isBad with
    | true =>
      rw [beq_iff_eq] at hx
      have hg : ∀ y ∈ e :: g, y.isBad = x.isBad :=
        List.forall_mem_cons.2 ⟨hx, fun y hy => (h y hy).trans hx⟩
      rw [ih hg, hx]
      cases x.isBad <;> simp
    | false =>
      rw [beq_eq_false_iff_ne] at hx
      rw [ih (by simp), List.countP_cons, any_isBad_of_forall h]
      revert hx
      cases e.isBad <;> cases x.isBad <;> simp [Nat.add_assoc]

theorem badRuns_eq (p : Program) : badRuns p = runsAfter false p := by
  cases p with
  | nil => rfl
  | cons e p =>
    rw [badRuns, List.splitBy, countP_splitBy_loop p (by simp), runsAfter]
    cases e.isBad <;> simp

theorem runsAfter_eq_zero_iff {p : Program} : runsAfter false p = 0 ↔ ∀ e ∈ p, e.isBad = false := by
  induction p with
  | nil => simp [runsAfter]
  | cons e p ih =>
    rw [runsAfter, List.forall_mem_cons, Nat.add_eq_zero_iff]
    cases he : e.isBad with
    | true => simp
    | false => simp [ih]

theorem length_errors {n : Nat} {ts : List Token} (hn : ts.length < n) (recovering : Bool) :
    (statements n recovering ts).errors.length =
      runsAfter recovering (statements n recovering ts).program := by
  refine statements_induct (motive := fun recovering _ r =>
    r.errors.length = runsAfter recovering r.program)
    (fun _ => rfl) (fun _ ih => ih) ?ok ?failed hn recovering
  case ok =>
    intro recovering t ts taken rest x r ht htaken hw hx ih
    have hbad : x.isBad = false := (Expr.throughout_iff.1 hw.not_bad).2
    simp [runsAfter, hbad, ih]
  case failed =>
    intro recovering t ts taken rest e r ht htaken hb hx ih
    cases recovering <;> simp [runsAfter, Expr.isBad, ih, Nat.add_comm]

theorem bad_or_whole {n : Nat} {ts : List Token} (hn : ts.length < n) (recovering : Bool) :
    ∀ e ∈ (statements n recovering ts).program, e.isBad = true ∨
      e.Throughout (·.isBad = false) := by
  refine statements_induct
    (motive := fun _ _ r => ∀ e ∈ r.program, e.isBad = true ∨ e.Throughout (·.isBad = false))
    (fun _ => by simp) (fun _ ih => ih) ?ok ?failed hn recovering
  case ok =>
    intro recovering t ts taken rest x r ht htaken hw hx ih
    exact List.forall_mem_cons.2 ⟨.inr hw.not_bad, ih⟩
  case failed =>
    intro recovering t ts taken rest e r ht htaken hb hx ih
    exact List.forall_mem_cons.2 ⟨.inl rfl, ih⟩

/-! ### Offsets of errors -/

/-- Errors lie at starts of different tokens, in their order, and the last one may lie at the end.
-/
theorem offsets_sublist {n : Nat} {ts : List Token} (hn : ts.length < n) (recovering : Bool)
    (size : Nat) :
    (statements n recovering ts).errors.map (·.offset size) <+ ts.map (·.start) ++ [size] := by
  -- An error at the end leaves no tokens, and there is nothing to tell about no tokens.
  suffices h : (ts = [] → (statements n recovering ts).errors = []) ∧
      (statements n recovering ts).errors.map (·.offset size) <+ ts.map (·.start) ++ [size] from h.2
  refine statements_induct
    (motive := fun _ ts r => (ts = [] → r.errors = []) ∧
      r.errors.map (·.offset size) <+ ts.map (·.start) ++ [size])
    (fun _ => ⟨fun _ => rfl, by simp⟩) ?semicolon ?ok ?failed hn recovering
  case semicolon =>
    intro recovering t ts r ht ih
    exact ⟨by simp, ih.2.cons _⟩
  case ok =>
    intro recovering t ts taken rest x r ht htaken hw hx ih
    refine ⟨by simp, ih.2.trans ?_⟩
    rw [htaken, List.map_append, List.append_assoc]
    exact List.sublist_append_right ..
  case failed =>
    intro recovering t ts taken rest e r ht htaken hb hx ih
    refine ⟨by simp, ?_⟩
    have hrest : r.errors.map (·.offset size) <+ rest.map (·.start) ++ [size] :=
      ih.2.trans (((recover_suffix rest).sublist.map _).append_right _)
    rw [htaken, List.map_append, List.append_assoc]
    cases recovering with
    | true => exact hrest.trans (List.sublist_append_right ..)
    | false =>
      obtain ⟨⟨x, rfl⟩, rfl⟩ | ⟨u, hu, ho⟩ := hb
      · have hnone : r.errors = [] := ih.1 rfl
        simp [hnone, ParseError.offset]
      · obtain ⟨us, rfl⟩ := List.getLast?_eq_some_iff.1 hu
        simp only [List.map_append, List.map_cons, List.map_nil, List.append_assoc,
          Bool.false_eq_true, if_false, ho size]
        exact (hrest.cons_cons _).trans (List.sublist_append_right ..)

variable (source : String)

theorem pairwise_starts :
    ((Token.lex source).map (·.start) ++ [source.utf8ByteSize]).Pairwise (· < ·) := by
  have h : Tiling 0 source.toList (Token.lex source) := Lexer.tiling_tokens (Lexer.ofString source)
  refine List.pairwise_append.2 ⟨List.pairwise_map.2 ?_, List.pairwise_singleton .., ?_⟩
  · exact h.pairwise.imp_of_mem fun ha _ hab => (h.start_lt_stop _ ha).trans_le hab
  · have hsize := Text.byteSize_toList source
    simpa [hsize] using h.start_lt

theorem isBoundary_start :
    ∀ offset ∈ (Token.lex source).map (·.start) ++ [source.utf8ByteSize],
      Text.IsBoundary source offset := by
  have h : Tiling 0 source.toList (Token.lex source) := Lexer.tiling_tokens (Lexer.ofString source)
  have hend : Text.IsBoundary source source.utf8ByteSize := by
    rw [← Text.byteSize_toList]
    exact Text.isBoundary_byteSize (List.append_nil _).symm
  refine List.forall_mem_append.2 ⟨List.forall_mem_map.2
    fun t ht => ?_, List.forall_mem_singleton.2 hend⟩
  exact (h.spans (List.nil_append _).symm rfl t ht).1

/-- Bad nodes are whole statements, and each run of them has one error. Errors are in the order of
the source, at places that can be shown. -/
theorem read_errors :
    (∀ e ∈ (read source).program, e.isBad = true ∨ e.Throughout (·.isBad = false)) ∧
    (read source).errors.length = badRuns (read source).program ∧
    ((read source).errors = [] ↔ ∀ e ∈ (read source).program, e.Throughout (·.isBad = false)) ∧
    ((read source).errors.map (·.offset source.utf8ByteSize)).Pairwise (· < ·) ∧
    ∀ e ∈ (read source).errors, e.offset source.utf8ByteSize ≤ source.utf8ByteSize ∧
      Text.IsBoundary source (e.offset source.utf8ByteSize) ∧
      Diagnostic.Shows source (e.offset source.utf8ByteSize) e.message (e.render source) := by
  have hn := Nat.lt_succ_self (Token.lex source).length
  have hwhole := bad_or_whole hn false
  have hlen := length_errors hn false
  have hsub := offsets_sublist hn false source.utf8ByteSize
  refine ⟨hwhole, hlen.trans (badRuns_eq _).symm, ?_, (pairwise_starts source).sublist hsub,
    fun e he => ?_⟩
  · rw [← List.length_eq_zero_iff]
    refine (Eq.congr_left hlen).trans (runsAfter_eq_zero_iff.trans (forall₂_congr fun e he => ?_))
    exact ⟨fun hb => (hwhole e he).resolve_left (by simp [hb]),
      fun h => (Expr.throughout_iff.1 h).2⟩
  · have hb := isBoundary_start source _ (hsub.subset (List.mem_map_of_mem he))
    refine ⟨hb.le, hb, ?_⟩
    rw [ParseError.render, Text.byteSize_toList]
    exact Diagnostic.shows_render hb e.message

end Program

end YeetYoink
