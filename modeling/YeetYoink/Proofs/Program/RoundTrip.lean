import YeetYoink.Proofs.Expr.Loops
import YeetYoink.Proofs.Expr.Settled
import YeetYoink.Proofs.Program.Reading
import YeetYoink.Proofs.Program.Reparse

/-!
# Printing and reading again

A program that was read from a source is read again from its printed form, unless it has an infinite
number, or a block where the printer leaves out the parentheses that the block needs
(`parse_print_of_parse`). An infinite number changes the program but not its text. A condition of
`yoyo` that is printed with a brace first always changes the text (`print_stable_iff`), since the
brace is taken for the body and `true` is filled in.
-/

namespace YeetYoink.Program

open YeetYoink.Expr (Guarded HolesGuarded Legible LoopGuarded Printable Readable)

theorem parse_print_of_parse {source : String} {p : Program} (h : parse source = .ok p)
    (finite : ∀ e ∈ p, e.Throughout Expr.Finite) (guarded : ∀ e ∈ p, e.Throughout Guarded) :
    parse p.print = .ok p := by
  refine parse_print fun e he x hx => ?_
  have hr : Readable x := readable_of_parse h e he x hx
  have hg : Guarded x := guarded e he x hx
  exact ⟨⟨hr, finite e he x hx, hg.1⟩, hg.2⟩

theorem parse_print_of_parse_counting :
    ∃ p, parse "x += 1; yoyo x < 3 \x7b \x60a\x7by[0]\x7db\x60 yeet \x7d" = .ok p ∧
      parse p.print = .ok p := by
  have h : parse "x += 1; yoyo x < 3 \x7b \x60a\x7by[0]\x7db\x60 yeet \x7d" = .ok
      [.assign .update (.ident "x") (.binary .plus (.ident "x") (.int 1)),
        .yoyo (.binary .less (.ident "x") (.int 3))
          [.template "a%sb" [.index (.ident "y") (.int 0)], .yeet .null]] := by
    with_unfolding_all rfl
  refine ⟨_, h, parse_print_of_parse h ?_ ?_⟩
  · simp [Expr.Throughout, Expr.nodes, Expr.nodesAll, Expr.Finite]
  · simp [Expr.Throughout, Expr.nodes, Expr.nodesAll, Guarded, HolesGuarded, LoopGuarded,
      Expr.opensBlock]

/-! ### The same text -/

def settle (p : Program) : Program := p.map Expr.settle

theorem print_settle (p : Program) : p.settle.print = p.print := by
  simp [settle, print, Expr.print_settle, Function.comp_def]

theorem legible_settle {p : Program} (hr : ∀ e ∈ p, e.Throughout Readable)
    (hh : ∀ e ∈ p, e.Throughout HolesGuarded) : ∀ e ∈ p.settle, e.Throughout Legible := by
  rw [settle, List.forall_mem_map]
  intro e he
  refine Expr.throughout_settle.2 fun x hx => ?_
  exact ⟨Expr.readable_settle (hr e he x hx), Expr.finite_settle x,
    Expr.holesGuarded_settle (hh e he x hx)⟩

theorem loopGuarded_settle {p : Program} :
    (∀ e ∈ p.settle, e.Throughout LoopGuarded) ↔ ∀ e ∈ p, e.Throughout LoopGuarded := by
  rw [settle, List.forall_mem_map]
  simp only [Expr.throughout_settle, Expr.loopGuarded_settle]

/-! ### More letters -/

theorem letters_print {p : Program} (h : ∀ e ∈ p, e.Throughout Readable) :
    letters p.print = kindLetters (kinds p) := by
  induction p with
  | nil => rfl
  | cons e p ih =>
    rw [List.forall_mem_cons] at h
    have hp : print (e :: p) = e.print ++ ";\n" ++ print p := by simp [print, String.join_cons]
    have hend : letters ";\n" = 0 := rfl
    have ih := ih h.2
    rw [kinds] at ih
    simp [hp, kinds, Expr.letters_print h.1, hend, ih]

theorem IsWritten.cost_le {ts : List Token} {p : Program} (h : IsWritten ts p) :
    cost ts ≤ kindLetters (kinds p) := by
  induction h with
  | nil => rfl
  | semicolon hc _ ih => rwa [cost_symbol hc]
  | cons he _ ih =>
    rw [cost_append he.fits.closed]
    rw [kinds] at ih ⊢
    simpa using Nat.add_le_add he.fits.cost_le ih

theorem lt_cost_lex_print {p : Program} (hl : ∀ e ∈ p, e.Throughout Legible)
    (h : ¬ ∀ e ∈ p, e.Throughout LoopGuarded) :
    kindLetters (kinds p) < cost (Token.lex p.print) := by
  rw [not_forall] at h
  obtain ⟨e, h⟩ := h
  rw [Classical.not_imp] at h
  have hloop := Expr.infix_of_not_loopGuarded ((hl e h.1).mono fun _ hx => hx.1) h.2
  have hkinds : e.kinds ++ [.symbol .semicolon] <:+: kinds p :=
    List.infix_of_mem_flatten (List.mem_map_of_mem h.1)
  have hpos := loops_pos_of_infix ((List.infix_append_of_infix_left hloop).trans hkinds)
  rw [cost, kinds_lex_print hl]
  omega

theorem print_stable_iff {source : String} {p : Program} (h : parse source = .ok p)
    (holes : ∀ e ∈ p, e.Throughout HolesGuarded) :
    (∃ q, parse p.print = .ok q ∧ q.print = p.print) ↔ ∀ e ∈ p, e.Throughout LoopGuarded := by
  have hl := legible_settle (readable_of_parse h) holes
  rw [← print_settle p, ← loopGuarded_settle]
  constructor
  · rintro ⟨q, hq, heq⟩
    by_contra hg
    have hlt := lt_cost_lex_print hl hg
    have hle := (written_of_parse hq).cost_le
    rw [← letters_print (readable_of_parse hq), heq,
      letters_print fun e he => (hl e he).mono fun _ hx => hx.1] at hle
    omega
  · intro hg
    refine ⟨p.settle, parse_print fun e he x hx => ⟨hl e he x hx, hg e he x hx⟩, rfl⟩

theorem print_stable_iff_yoyo :
    ∃ p, parse "yoyo (\x7b1\x7d) \x7b2\x7d" = .ok p ∧
      ¬ ∃ q, parse p.print = .ok q ∧ q.print = p.print := by
  have h : parse "yoyo (\x7b1\x7d) \x7b2\x7d" = .ok [.yoyo (.block [.int 1]) [.int 2]] := by
    with_unfolding_all rfl
  have holes : ∀ e ∈ [Expr.yoyo (.block [.int 1]) [.int 2]], e.Throughout HolesGuarded := by
    simp [Expr.Throughout, Expr.nodes, Expr.nodesAll, HolesGuarded]
  refine ⟨_, h, fun hs => ?_⟩
  have hg := (print_stable_iff h holes).1 hs
  simp [Expr.Throughout, Expr.nodes, Expr.nodesAll, LoopGuarded, Expr.opensBlock] at hg

/-- In a hole, a block becomes text, and the text may come out the same or not. -/
example : (parse (print [.template "%s" [.block [.int 1]]])).map print =
    .ok (print [.template "%s" [.block [.int 1]]]) := by with_unfolding_all rfl

example : print [.template "%s" [.block [.template "x" []]]] =
      "\x60\x7b\x7b \x60x\x60 \x7d\x7d\x60;\n" ∧
    (parse "\x60\x7b\x7b \x60x\x60 \x7d\x7d\x60;\n").map print =
      .ok "\x60\x7b\x7b \x60;\nx;\n\x60 \x7d\x7d\x60;\n" := by
  constructor <;> with_unfolding_all rfl

end YeetYoink.Program
