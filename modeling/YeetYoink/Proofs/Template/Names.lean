import YeetYoink.Proofs.Expr.Parsing
import YeetYoink.Proofs.Template.Filling

/-!
# Names in string literals and in templates

A string literal with `$name` in it and the template with the same texts and the name in a hole give
the same text, or fail at the same name. The literal is scanned when it is evaluated, and a name
ends where no character of a name follows (`Interpolation.pieces_dollared`); the template has its
texts and names from the parser. Both ask for the names from left to right, and asking changes
nothing.
-/

namespace YeetYoink

open YeetYoink.Parser YeetYoink.Template

/-- A text, and then names with a dollar sign, each with the text after it. -/
def dollared (head : String) (holes : List (String × String)) : String :=
  woven head (holes.map fun h => ("$" ++ h.1, h.2))

/-- The names can be told from the texts: no text has a dollar sign, and none goes on with the name
before. -/
structure Apart (head : String) (holes : List (String × String)) : Prop where
  names : ∀ h ∈ holes, Lexer.IsWord h.1.toList
  head : '$' ∉ head.toList
  tails : ∀ h ∈ holes, '$' ∉ h.2.toList ∧ ∀ c ∈ h.2.toList.head?, isNameChar c = false

/-! ### The pieces of a literal -/

namespace Interpolation

theorem pieces_chars {cs : List Char} (h : '$' ∉ cs) (rest : List Char) :
    pieces (cs ++ rest) = cs.map .char ++ pieces rest := by
  induction cs with
  | nil => rfl
  | cons c cs ih =>
    obtain ⟨hc, hcs⟩ := not_or.1 (mt List.mem_cons.2 h)
    rw [List.cons_append, pieces, ih hcs, List.map_cons, List.cons_append]
    all_goals simp [Ne.symm hc]

theorem pieces_name {name rest : List Char} (h : Lexer.IsWord name)
    (hr : ∀ c ∈ rest.head?, isNameChar c = false) :
    pieces ('$' :: name ++ rest) = .name (String.ofList name) :: pieces rest := by
  obtain ⟨c, cs, rfl, hc, hcs⟩ := h
  have hne : c ≠ '$' := by
    rintro rfl
    exact absurd hc (by decide)
  obtain ⟨htake, hdrop⟩ := takeWhile_stop hcs hr
  rw [List.cons_append, List.cons_append, pieces, if_pos hc, htake, hdrop]
  simpa using hne

/-- What follows a name: the text after it, and the names still to come. Where the text is empty, a
dollar sign or the end follows. -/
theorem not_nameChar_of_head? {tail : List Char} (ht : ∀ c ∈ tail.head?, isNameChar c = false)
    (holes : List (String × String)) :
    ∀ c ∈ (tail ++ holes.flatMap fun h => '$' :: h.1.toList ++ h.2.toList).head?,
      isNameChar c = false := by
  cases tail with
  | cons d tail => exact ht
  | nil =>
    cases holes with
    | nil => exact nofun
    | cons h holes =>
      rintro c ⟨⟩
      decide

theorem toList_dollared (head : String) (holes : List (String × String)) :
    (dollared head holes).toList = head.toList ++ holes.flatMap fun h =>
      '$' :: h.1.toList ++ h.2.toList := by
  rw [dollared, toList_woven, List.flatMap_map]
  simp

theorem pieces_dollared {head : String} {holes : List (String × String)} (ha : Apart head holes) :
    pieces (dollared head holes).toList =
      head.toList.map .char ++ holes.flatMap fun h => .name h.1 :: h.2.toList.map .char := by
  obtain ⟨hnames, hhead, htails⟩ := ha
  rw [toList_dollared, pieces_chars hhead]
  congr 1
  -- A name ends where its text or the next dollar sign starts, so the pieces of the rest come by
  -- themselves.
  induction holes with
  | nil => rw [List.flatMap_nil, List.flatMap_nil, pieces]
  | cons h holes ih =>
    rw [List.forall_mem_cons] at hnames htails
    rw [List.flatMap_cons, List.append_assoc,
      pieces_name hnames.1 (not_nameChar_of_head? htails.1.2 holes), pieces_chars htails.1.1,
      ih hnames.2 htails.2, String.ofList_toList, List.flatMap_cons, List.cons_append]

end Interpolation

/-! ### What the names mean -/

namespace Store

variable {s : Store} {scope : Ref .scope}

theorem eq_unknownName_of_resolve {name : String} {e : EvalError}
    (h : s.resolve scope name = .error e) :
    e = .unknownName name := by
  unfold resolve at h
  split at h
  · cases h
  · split at h
    · cases h
    · cases h
      rfl

/-- The values that names have. -/
def meanings (s : Store) (scope : Ref .scope) (holes : List (String × String)) :
    Except EvalError (List Value) :=
  holes.mapM fun h => s.resolve scope h.1

theorem meanings_cons (h : String × String) (holes : List (String × String)) :
    s.meanings scope (h :: holes) = do
      let v ← s.resolve scope h.1
      let vs ← s.meanings scope holes
      return v :: vs := List.mapM_cons

/-- The text of a template with names in its holes. -/
def namedText (s : Store) (scope : Ref .scope) (head : String) (holes : List (String × String)) :
    Except EvalError String :=
  (s.meanings scope holes).map fun vs => woven head ((vs.map s.display).zip (holes.map (·.2)))

theorem interpolatePieces_append (cs : List Char) (ps : List Interpolation.Piece) :
    s.interpolatePieces scope (cs.map .char ++ ps) =
      (s.interpolatePieces scope ps).map (cs ++ ·) := by
  induction cs with
  | nil => cases h : s.interpolatePieces scope ps <;> simp [h, Except.map]
  | cons c cs ih =>
    rw [List.map_cons, List.cons_append, interpolatePieces, ih]
    cases s.interpolatePieces scope ps <;> rfl

theorem interpolatePieces_names (holes : List (String × String)) :
    s.interpolatePieces scope (holes.flatMap fun h => .name h.1 :: h.2.toList.map .char) =
      (s.meanings scope holes).map fun vs =>
        ((vs.map s.display).zip (holes.map (·.2))).flatMap fun h => h.1.toList ++ h.2.toList := by
  induction holes with
  | nil => rfl
  | cons h holes ih =>
    rw [List.flatMap_cons, List.cons_append, interpolatePieces, interpolatePieces_append, ih,
      meanings_cons]
    cases s.resolve scope h.1 with
    | error e => rfl
    | ok v =>
      cases s.meanings scope holes with
      | error e => rfl
      | ok vs =>
        exact congrArg Except.ok (List.append_assoc _ _ _).symm

/-- A literal is interpolated to the text of the template with the same names. -/
theorem interpolate_dollared {head : String} {holes : List (String × String)}
    (ha : Apart head holes) :
    s.interpolate scope (dollared head holes) = s.namedText scope head holes := by
  rw [interpolate, Interpolation.pieces_dollared ha, interpolatePieces_append,
    interpolatePieces_names, namedText]
  cases s.meanings scope holes with
  | error e => rfl
  | ok vs =>
    refine congrArg Except.ok (String.toList_injective ?_)
    simp [toList_woven]

end Store

/-! ### The template with names -/

/-- The template with these names in its holes. -/
def Expr.ofNames (head : String) (holes : List (String × String)) : Expr :=
  .ofHoles head (holes.map fun h => (.ident h.1, h.2))

/-- The tokens of a template with these names in its holes. -/
def Expr.nameKinds (head : String) (holes : List (String × String)) : List Token.Kind :=
  templateKinds head.toList (holes.map (·.2.toList)) (holes.map fun h => [.ident h.1])

namespace Parser

variable {n : Nat} {ts rest : List Token}

theorem expression_ident {t u : Token} {name : String} (ht : t.kind = .ident name)
    (hu : Expr.Ends .lowest u.kind) (hn : (t :: u :: rest).length < n) :
    expression n .lowest (t :: u :: rest) = .ok (.ident name) (u :: rest) := by
  have hreads : (Expr.ident name).Reads := (Expr.isOperand_ident name).continues.reads
  refine hreads (by decide) [t] (u :: rest) (by rw [Expr.kinds, ← ht]; rfl) ?_ hn
  rintro _ ⟨⟩
  exact hu

theorem holesRead_names {h : String × String} {holes : List (String × String)}
    (hk : ts.map (·.kind) =
      Expr.holeKinds ((h :: holes).map (·.2.toList)) ((h :: holes).map fun h => [.ident h.1]))
    (hn : (ts ++ rest).length < n) :
    HolesRead n (ts ++ rest) ((h :: holes).map fun h => (.ident h.1, h.2)) rest ∧
      holes.length < ts.length := by
  induction holes generalizing h ts with
  | nil =>
    obtain ⟨t, ts, rfl, ht, hk⟩ := List.map_eq_cons_iff.1 hk
    obtain ⟨u, ts, rfl, hu, hk⟩ := List.map_eq_cons_iff.1 hk
    obtain rfl := List.map_eq_nil_iff.1 hk
    rw [String.ofList_toList] at hu
    have hx := expression_ident ht (by rw [hu]; exact ⟨by simp, nofun⟩) hn
    exact ⟨.last hx hu, Nat.succ_pos _⟩
  | cons g holes ih =>
    -- The name and the text after it are one token each.
    obtain ⟨t, ts, rfl, ht, hk⟩ := List.map_eq_cons_iff.1 hk
    obtain ⟨u, ts, rfl, hu, hk⟩ := List.map_eq_cons_iff.1 hk
    rw [String.ofList_toList] at hu
    have hx := expression_ident ht (by rw [hu]; exact ⟨by simp, nofun⟩) hn
    obtain ⟨hread, hlen⟩ := ih hk (Nat.lt_of_succ_lt (Nat.lt_of_succ_lt hn))
    exact ⟨.cons hx hu hread, Nat.succ_lt_succ (Nat.lt_succ_of_lt hlen)⟩

theorem operand_names {t : Token} {head : String} {holes : List (String × String)}
    (hk : (t :: ts).map (·.kind) = Expr.nameKinds head holes) (hn : (ts ++ rest).length < n) :
    operand (expression n) n t (ts ++ rest) = .ok (.ofNames head holes) rest := by
  cases holes with
  | nil =>
    obtain ⟨ht, hk⟩ := List.cons.inj hk
    obtain rfl := List.map_eq_nil_iff.1 hk
    rw [String.ofList_toList] at ht
    exact (operand_template_iff (.inl ht)).2 ⟨[], .plain ht, n.zero_le, rfl⟩
  | cons h holes =>
    obtain ⟨ht, hk⟩ := List.cons.inj hk
    rw [String.ofList_toList] at ht
    obtain ⟨hread, hlen⟩ := holesRead_names hk hn
    refine (operand_template_iff (.inr ht)).2 ⟨_, .holes ht hread, ?_, rfl⟩
    rw [List.length_append] at hn
    rw [List.length_map, List.length_cons]
    omega

end Parser

/-! ### Evaluating both -/

namespace Evaluator

variable {s : Store} {scope : Ref .scope} {n : Nat}

theorem values_names (holes : List (String × String)) :
    values (evaluate (n + 1)) scope (holes.map fun h => .ident h.1) s =
      Eval.ofExcept (s.meanings scope holes) s := by
  induction holes with
  | nil => rfl
  | cons h holes ih =>
    -- Asking for a name leaves the store as it is, so `ih` is about the same store.
    have hname : evaluate (n + 1) (.ident h.1) scope s = Eval.ofExcept (s.resolve scope h.1) s := by
      rw [evaluate_succ, node]
      rfl
    rw [List.map_cons, values_cons, Store.meanings_cons]
    cases hr : s.resolve scope h.1 with
    | error e =>
      rw [hr] at hname
      exact Eval.bind_error hname
    | ok v =>
      rw [hr] at hname
      rw [Eval.bind_ok hname]
      cases hm : s.meanings scope holes with
      | error e =>
        rw [hm] at ih
        exact Eval.bind_error ih
      | ok vs =>
        rw [hm] at ih
        exact Eval.bind_ok ih

theorem evaluate_ofNames (head : String) (holes : List (String × String)) :
    evaluate (n + 2) (.ofNames head holes) scope s =
      (Eval.ofExcept (s.namedText scope head holes) >>= Eval.newText) s := by
  have hvalues : values (evaluate (n + 1)) scope
    ((holes.map fun h => (Expr.ident h.1, h.2)).map (·.1)) s =
      Eval.ofExcept (s.meanings scope holes) s := by
    rw [List.map_map]
    exact values_names holes
  rw [Store.namedText]
  cases hm : s.meanings scope holes with
  | error e =>
    rw [hm] at hvalues
    rw [evaluate_succ]
    exact Eval.bind_error hvalues
  | ok vs =>
    rw [hm] at hvalues
    rw [Expr.ofNames, evaluate_ofHoles hvalues, List.map_map]
    rfl

theorem evaluate_dollared {head : String} {holes : List (String × String)} (ha : Apart head holes) :
    evaluate (n + 1) (.str (dollared head holes)) scope s =
      (Eval.ofExcept (s.namedText scope head holes) >>= Eval.newText) s := by
  rw [evaluate_succ, node, Eval.get_bind, Store.interpolate_dollared ha]

end Evaluator

/-- The template that the parser makes of the texts and names, and the literal with the names after
dollar signs: both give the text with what the names mean, or fail with the first name that means
nothing. -/
theorem interpolation_agrees {head : String} {holes : List (String × String)}
    (ha : Apart head holes) :
    (∀ n t ts rest, (t :: ts).map (·.kind) = Expr.nameKinds head holes → (ts ++ rest).length < n →
      operand (expression n) n t (ts ++ rest) = .ok (.ofNames head holes) rest) ∧
    ∀ n scope s,
      evaluate (n + 2) (.str (dollared head holes)) scope s =
        evaluate (n + 2) (.ofNames head holes) scope s ∧
      ((∃ vs, List.Forall₂ (fun h v => s.resolve scope h.1 = .ok v) holes vs ∧
          evaluate (n + 2) (.ofNames head holes) scope s =
            Eval.newText (woven head ((vs.map s.display).zip (holes.map (·.2)))) s) ∨
        ∃ before h after, holes = before ++ h :: after ∧
          (∀ g ∈ before, ∃ v, s.resolve scope g.1 = .ok v) ∧
          s.resolve scope h.1 = .error (.unknownName h.1) ∧
          evaluate (n + 2) (.ofNames head holes) scope s =
          .error (.failed (.unknownName h.1)) s) := by
  refine ⟨fun n t ts rest => operand_names, fun n scope s => ⟨?_, ?_⟩⟩
  · rw [Evaluator.evaluate_dollared ha, Evaluator.evaluate_ofNames]
  · rw [Evaluator.evaluate_ofNames, Store.namedText]
    obtain ⟨vs, hvs, hall⟩ | ⟨before, h, after, e, hholes, hbefore, hh, he⟩ :=
      mapM_cases (fun h => s.resolve scope h.1) holes
    · rw [Store.meanings, hvs]
      exact .inl ⟨vs, hall, rfl⟩
    · obtain rfl := Store.eq_unknownName_of_resolve hh
      rw [Store.meanings, he]
      exact .inr ⟨before, h, after, hholes, hbefore, hh, rfl⟩

/-- A scope with one name in it. -/
def desk : Store where
  scopes := #[{ bindings := [("_x1", .null)] }]

/-- A builtin function and a name side by side, between percent signs, where the name is bound and
where it is not. -/
theorem interpolation_agrees_desk :
    Apart "50%" [("len", ""), ("_x1", "%s")] ∧
    dollared "50%" [("len", ""), ("_x1", "%s")] = "50%$len$_x1%s" ∧
    operand (expression 9) 9 ⟨.templateHead "50%", 0, 5⟩
      [⟨.ident "len", 5, 8⟩, ⟨.templateMiddle "", 8, 10⟩,
      ⟨.ident "_x1", 10, 13⟩, ⟨.templateTail "%s", 13, 17⟩] =
        .ok (.ofNames "50%" [("len", ""), ("_x1", "%s")]) [] ∧
    evaluate 2 (.str "50%$len$_x1%s") ⟨0⟩ desk = Eval.newText "50%builtin lennull%s" desk ∧
    evaluate 2 (.str "50%$len$_x1%s") ⟨0⟩ {} = .error (.failed (.unknownName "_x1")) {} := by
  have ha : Apart "50%" [("len", ""), ("_x1", "%s")] := by
    refine ⟨?_, by decide, by simp; decide⟩
    rw [List.forall_mem_cons, List.forall_mem_singleton]
    exact ⟨⟨'l', ['e', 'n'], rfl, rfl, by simp; decide⟩,
      ⟨'_', ['x', '1'], rfl, rfl, by simp; decide⟩⟩
  have htext : dollared "50%" [("len", ""), ("_x1", "%s")] = "50%$len$_x1%s" := by decide +kernel
  obtain ⟨hparse, heval⟩ := interpolation_agrees ha
  rw [htext] at heval
  refine ⟨ha, htext, hparse 9 _ [_, _, _, _] [] rfl (Nat.le_of_ble_eq_true rfl), ?_, ?_⟩
  · rw [(heval 0 ⟨0⟩ desk).1, Evaluator.evaluate_ofNames, Store.namedText]
    have hnames : desk.meanings ⟨0⟩ [("len", ""), ("_x1", "%s")] = .ok [.builtin .len, .null] := by
      cbv
    rw [hnames]
    rfl
  · rw [(heval 0 ⟨0⟩ {}).1, Evaluator.evaluate_ofNames, Store.namedText]
    have hnames : Store.meanings {} ⟨0⟩ [("len", ""), ("_x1", "%s")] =
        .error (.unknownName "_x1") := by
      cbv
    rw [hnames]
    rfl

end YeetYoink
