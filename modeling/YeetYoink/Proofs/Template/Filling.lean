import YeetYoink.Evaluate
import YeetYoink.Expr.Parse
import YeetYoink.Proofs.Eval.Calls
import YeetYoink.Proofs.Expr.Traversal
import YeetYoink.Proofs.Parser.Yields
import YeetYoink.Proofs.Template.Segments

/-!
# Filling a template

A template is read as its texts with the values between them: the text before the first hole, and
after each value the text up to the next (`Parser.TemplateRead`). The texts are kept as one text
with holes, from which they come out again (`Template.segments_encode`), so filling the holes puts
the values between the texts (`Template.fill_encode`). What a value shows is not looked at.
-/

namespace YeetYoink

namespace Template

/-- A text, and then values each with the text after it. -/
def woven (head : String) (holes : List (String × String)) : String :=
  head ++ String.join (holes.map fun h => h.1 ++ h.2)

theorem toList_woven (head : String) (holes : List (String × String)) :
    (woven head holes).toList = head.toList ++ holes.flatMap fun h => h.1.toList ++ h.2.toList := by
  rw [woven, String.toList_append]
  congr 1
  induction holes with
  | nil => rfl
  | cons h holes ih =>
    rw [List.map_cons, String.join_cons, String.toList_append, String.toList_append, ih,
      List.flatMap_cons]

theorem fillPieces_chars (cs : List Char) (ps : List Piece) (values : List String) :
    fillPieces (cs.map .char ++ ps) values = cs ++ fillPieces ps values := by
  induction cs with
  | nil => rfl
  | cons c cs ih => rw [List.map_cons, List.cons_append, fillPieces, ih, List.cons_append]

theorem fillPieces_tails (holes : List (String × String)) :
    fillPieces (pieces ((holes.map (String.toList ∘ Prod.snd)).flatMap fun t => hole ++ literal t))
        (holes.map Prod.fst) =
      holes.flatMap fun h => h.1.toList ++ h.2.toList := by
  induction holes with
  | nil => rfl
  | cons h holes ih =>
    rw [List.map_cons, List.map_cons, List.flatMap_cons, List.append_assoc, pieces_hole_append,
      pieces_literal_append, fillPieces, fillPieces_chars, ih, List.flatMap_cons, List.append_assoc,
      Function.comp_apply]

/-- The values come between the texts, whatever they are. -/
theorem fill_encode (head : String) {tails values : List String}
    (h : values.length = tails.length) :
    fill (String.ofList (encode head.toList (tails.map String.toList))) values =
      woven head (values.zip tails) := by
  have htails := fillPieces_tails (values.zip tails)
  rw [List.map_fst_zip (Nat.le_of_eq h), ← List.map_map,
    List.map_snd_zip (Nat.le_of_eq h.symm)] at htails
  rw [fill, String.toList_ofList, encode, pieces_literal_append, fillPieces_chars, htails,
    ← toList_woven, String.ofList_toList]

theorem count_hole_chars (cs : List Char) : (cs.map Piece.char).count .hole = 0 := by
  rw [List.count_eq_zero, List.mem_map]
  exact nofun

theorem count_hole_encode (head : List Char) (tails : List (List Char)) :
    (pieces (encode head tails)).count .hole = tails.length := by
  rw [encode, pieces_literal_append, List.count_append, count_hole_chars, Nat.zero_add]
  induction tails with
  | nil => rfl
  | cons t tails ih =>
    rw [List.flatMap_cons, List.append_assoc, pieces_hole_append, pieces_literal_append,
      List.count_cons_self, List.count_append, count_hole_chars, Nat.zero_add, ih, List.length_cons]

end Template

/-- The template with these texts and values. -/
def Expr.ofHoles (head : String) (holes : List (Expr × String)) : Expr :=
  .template (String.ofList (Template.encode head.toList ((holes.map (·.2)).map String.toList)))
    (holes.map (·.1))

theorem Expr.ofHoles_nil (head : String) :
    ofHoles head [] = .template (String.ofList (Template.literal head.toList)) [] := by
  simp [ofHoles, Template.encode]

namespace Parser

/-- Tokens from a hole on, read as values each with the text after it. The last text ends the
template. -/
inductive HolesRead (n : Nat) : List Token → List (Expr × String) → List Token → Prop where
  | last {ts rest : List Token} {t : Token} {x : Expr} {text : String}
      (hx : expression n .lowest ts = .ok x (t :: rest)) (ht : t.kind = .templateTail text) :
      HolesRead n ts [(x, text)] rest
  | cons {ts us rest : List Token} {t : Token} {x : Expr} {text : String}
      {holes : List (Expr × String)}
      (hx : expression n .lowest ts = .ok x (t :: us)) (ht : t.kind = .templateMiddle text)
      (h : HolesRead n us holes rest) : HolesRead n ts ((x, text) :: holes) rest

/-- A token and those after it, read as the texts and values of a template. -/
inductive TemplateRead (n : Nat) (t : Token) (ts : List Token) (head : String) :
    List (Expr × String) → List Token → Prop where
  | plain (ht : t.kind = .template head) : TemplateRead n t ts head [] ts
  | holes {holes : List (Expr × String)} {rest : List Token} (ht : t.kind = .templateHead head)
      (h : HolesRead n ts holes rest) : TemplateRead n t ts head holes rest

variable {n m : Nat} {ts us rest : List Token} {x : Expr} {r : List Expr × List Char}

/-- The tokens do not start with a text that goes on or ends a template. -/
def StartsValue (ts : List Token) : Prop :=
  ∀ t ∈ ts.head?, ∀ text, t.kind ≠ .templateMiddle text ∧ t.kind ≠ .templateTail text

theorem startsValue_of_ok {α : Type} {p : Parser α} {a : α} (h : p ts = .ok a rest)
    (hp : ∀ i j us text, p (⟨.templateMiddle text, i, j⟩ :: us) ≠ .ok a rest ∧
      p (⟨.templateTail text, i, j⟩ :: us) ≠ .ok a rest) : StartsValue ts := by
  rintro ⟨k, i, j⟩ ht text
  obtain ⟨us, rfl⟩ := List.head?_eq_some_iff.1 ht
  constructor
  · rintro rfl
    exact (hp i j us text).1 h
  · rintro rfl
    exact (hp i j us text).2 h

theorem startsValue_of_expression (h : expression n .lowest ts = .ok x us) : StartsValue ts := by
  cases n with
  | zero => cases h
  | succ n => exact startsValue_of_ok h fun _ _ _ _ => ⟨nofun, nofun⟩

theorem startsValue_of_templateRest (h : templateRest (expression n) m ts = .ok r rest) :
    StartsValue ts := by
  cases m with
  | zero => cases h
  | succ m => exact startsValue_of_ok h fun _ _ _ _ => ⟨nofun, nofun⟩

/-- What the token after a value makes of it. -/
def afterValue (n m : Nat) (x : Expr) : Option Token → Parser (List Expr × List Char)
  | some ⟨.templateMiddle text, _, _⟩ => do
    let q ← templateRest (expression n) m
    return (x :: q.1, Template.hole ++ Template.literal text.toList ++ q.2)
  | some ⟨.templateTail text, _, _⟩ => return ([x], Template.hole ++ Template.literal text.toList)
  | t => unexpected .templateContinuation t

theorem templateRest_succ (h : StartsValue ts) : templateRest (expression n) (m + 1) ts =
    (expression n .lowest >>= fun x => next? >>= afterValue n m x) ts := by
  cases ts with
  | nil => rfl
  | cons t ts =>
    obtain ⟨k, i, j⟩ := t
    cases k with
    | templateMiddle text => exact absurd rfl (h _ rfl text).1
    | templateTail text => exact absurd rfl (h _ rfl text).2
    | _ => rfl

/-- The rest of a template is a value and a text, which ends it or goes on. -/
theorem templateRest_succ_eq_ok :
    templateRest (expression n) (m + 1) ts = .ok r rest ↔
      ∃ x t us text, expression n .lowest ts = .ok x (t :: us) ∧
        (t.kind = .templateTail text ∧ r = ([x], Template.hole ++ Template.literal text.toList) ∧
          rest = us ∨
          ∃ q, t.kind = .templateMiddle text ∧ templateRest (expression n) m us = .ok q rest ∧
            r = (x :: q.1, Template.hole ++ Template.literal text.toList ++ q.2)) := by
  constructor
  · intro h
    rw [templateRest_succ (startsValue_of_templateRest h)] at h
    obtain ⟨x, us, hx, h⟩ := Expr.bind_eq_ok.1 h
    rw [bind_ok (show next? us = .ok us.head? us.tail from rfl)] at h
    cases us with
    | nil => cases h
    | cons t us =>
      obtain ⟨k, i, j⟩ := t
      cases k with
      | templateTail text =>
        cases h
        exact ⟨x, _, us, text, hx, .inl ⟨rfl, rfl, rfl⟩⟩
      | templateMiddle text =>
        obtain ⟨q, vs, hq, h⟩ := Expr.bind_eq_ok.1 h
        cases h
        exact ⟨x, _, us, text, hx, .inr ⟨q, rfl, hq, rfl⟩⟩
      | _ => cases h
  · rintro ⟨x, t, us, text, hx, h⟩
    rw [templateRest_succ (startsValue_of_expression hx), bind_ok hx,
      bind_ok (show next? (t :: us) = .ok (some t) us from rfl)]
    obtain ⟨k, i, j⟩ := t
    obtain ⟨rfl, rfl, rfl⟩ | ⟨q, rfl, hq, rfl⟩ := h
    · rfl
    · exact Expr.bind_eq_ok.2 ⟨q, rest, hq, rfl⟩

/-- The values and the texts with the holes, as they are read. -/
theorem templateRest_eq_ok_iff :
    templateRest (expression n) m ts = .ok r rest ↔
      ∃ holes : List (Expr × String), HolesRead n ts holes rest ∧ holes.length ≤ m ∧
        r = (holes.map (·.1),
        ((holes.map (·.2)).map String.toList).flatMap
          fun t => Template.hole ++ Template.literal t) := by
  -- The bound drops by one at every hole, whatever the value in it takes.
  induction m generalizing ts r with
  | zero =>
    refine ⟨nofun, ?_⟩
    rintro ⟨holes, hread, hlen, -⟩
    cases hread <;> cases hlen
  | succ m ih =>
    rw [templateRest_succ_eq_ok]
    constructor
    · rintro ⟨x, t, us, text, hx, ⟨ht, rfl, rfl⟩ | ⟨q, ht, hq, rfl⟩⟩
      · exact ⟨[(x, text)], .last hx ht, Nat.succ_le_succ m.zero_le, by simp⟩
      · obtain ⟨holes, hread, hlen, rfl⟩ := ih.1 hq
        exact ⟨(x, text) :: holes, .cons hx ht hread, Nat.succ_le_succ hlen, by simp⟩
    · rintro ⟨holes, hread, hlen, rfl⟩
      cases hread with
      | last hx ht => exact ⟨_, _, _, _, hx, .inl ⟨ht, by simp, rfl⟩⟩
      | @cons _ us _ t x text holes hx ht hread =>
        refine ⟨x, t, us, text, hx,
          .inr ⟨_, ht, ih.2 ⟨holes, hread, Nat.le_of_succ_le_succ hlen, rfl⟩, ?_⟩⟩
        simp

/-- The parser builds a template from the texts and values that it reads, and from nothing else. -/
theorem operand_template_iff {t : Token} {head : String}
    (ht : t.kind = .template head ∨ t.kind = .templateHead head) :
    operand (expression n) n t ts = .ok x rest ↔
      ∃ holes, TemplateRead n t ts head holes rest ∧ holes.length ≤ n ∧
        x = .ofHoles head holes := by
  obtain ht | ht := ht
  · simp only [operand, ht]
    constructor
    · intro h
      cases h
      exact ⟨[], .plain ht, n.zero_le, (Expr.ofHoles_nil head).symm⟩
    · rintro ⟨holes, hread, -, rfl⟩
      cases hread with
      | plain => rw [Expr.ofHoles_nil]; rfl
      | holes ht' => rw [ht] at ht'; cases ht'
  · simp only [operand, ht, template]
    rw [Expr.bind_eq_ok]
    constructor
    · rintro ⟨q, us, hq, h⟩
      obtain ⟨holes, hread, hlen, rfl⟩ := templateRest_eq_ok_iff.1 hq
      cases h
      exact ⟨holes, .holes ht hread, hlen, rfl⟩
    · rintro ⟨holes, hread, hlen, rfl⟩
      cases hread with
      | plain ht' => rw [ht] at ht'; cases ht'
      | holes _ hread => exact ⟨_, rest, templateRest_eq_ok_iff.2 ⟨holes, hread, hlen, rfl⟩, rfl⟩

end Parser

theorem Evaluator.values_cons (ev : Evaluator) (scope : Ref .scope) (x : Expr) (xs : List Expr) :
    values ev scope (x :: xs) = do
      let v ← ev x scope
      let vs ← values ev scope xs
      return v :: vs := List.mapM_cons

theorem Evaluator.length_values {ev : Evaluator} {scope : Ref .scope} {xs : List Expr}
    {vs : List Value}
    {s t : Store} (h : values ev scope xs s = .ok vs t) : vs.length = xs.length := by
  induction xs generalizing vs s with
  | nil => cases h; rfl
  | cons x xs ih =>
    rw [values_cons] at h
    obtain ⟨v, u, -, h⟩ := Expr.bind_eq_ok.1 h
    obtain ⟨ws, w, hws, h⟩ := Expr.bind_eq_ok.1 h
    cases h
    rw [List.length_cons, ih hws, List.length_cons]

open YeetYoink.Parser YeetYoink.Template

theorem evaluate_ofHoles {n : Nat} {head : String} {holes : List (Expr × String)}
    {scope : Ref .scope}
    {s t : Store} {vs : List Value}
    (h : Evaluator.values (evaluate n) scope (holes.map (·.1)) s = .ok vs t) :
    evaluate (n + 1) (.ofHoles head holes) scope s =
      Eval.newText (woven head ((vs.map t.display).zip (holes.map (·.2)))) t := by
  have hv := Evaluator.length_values h
  rw [evaluate_succ, Expr.ofHoles, Evaluator.node, Evaluator.template, Eval.bind_ok h,
    Eval.get_bind, fill_encode head (by simpa using hv)]

/-- From whatever texts and values are read, the parser builds a text with one hole for each value.
Filling it puts what the values show between the texts, percent signs and all, and this is what a
template gives. -/
theorem template_laws {t : Token} {head : String}
    (ht : t.kind = .template head ∨ t.kind = .templateHead head) (n : Nat) (ts : List Token) :
    (∀ x rest, operand (expression n) n t ts = .ok x rest →
      ∃ holes, TemplateRead n t ts head holes rest ∧ holes.length ≤ n) ∧
    ∀ holes rest, TemplateRead n t ts head holes rest → holes.length ≤ n → ∃ text,
      operand (expression n) n t ts = .ok (.template text (holes.map (·.1))) rest ∧
      (pieces text.toList).count .hole = holes.length ∧
      (∀ values : List String, values.length = holes.length →
        fill text values = woven head (values.zip (holes.map (·.2)))) ∧
      ∀ k scope s vs s', Evaluator.values (evaluate k) scope (holes.map (·.1)) s = .ok vs s' →
        evaluate (k + 1) (.template text (holes.map (·.1))) scope s =
          Eval.newText (woven head ((vs.map s'.display).zip (holes.map (·.2)))) s' := by
  refine ⟨fun x rest h => ?_, fun holes rest hread hlen => ?_⟩
  · obtain ⟨holes, hread, hlen, -⟩ := (operand_template_iff ht).1 h
    exact ⟨holes, hread, hlen⟩
  · refine ⟨_, (operand_template_iff ht).2 ⟨holes, hread, hlen, rfl⟩, ?_, fun values hv => ?_,
      fun k scope s vs s' hvs => evaluate_ofHoles hvs⟩
    · rw [String.toList_ofList, count_hole_encode, List.length_map, List.length_map]
    · exact fill_encode head (by rw [hv, List.length_map])

/-- Percent signs on both sides of a hole, and in the values. -/
theorem template_laws_percents :
    TemplateRead 9 ⟨.templateHead "50%", 0, 5⟩ [⟨.ident "x", 5, 6⟩, ⟨.templateMiddle "s%s", 6, 11⟩,
      ⟨.ident "y", 11, 12⟩, ⟨.templateTail "%%", 12, 16⟩] "50%"
        [(.ident "x", "s%s"), (.ident "y", "%%")] [] ∧
    ∃ text, operand (expression 9) 9 ⟨.templateHead "50%", 0, 5⟩ [⟨.ident "x", 5, 6⟩,
        ⟨.templateMiddle "s%s", 6, 11⟩, ⟨.ident "y", 11, 12⟩, ⟨.templateTail "%%", 12, 16⟩] =
          .ok (.template text [.ident "x", .ident "y"]) [] ∧
      (pieces text.toList).count .hole = 2 ∧ fill text ["%s", "%"] = "50%%ss%s%%%" := by
  have hread : TemplateRead 9 ⟨.templateHead "50%", 0, 5⟩ [⟨.ident "x", 5, 6⟩,
      ⟨.templateMiddle "s%s", 6, 11⟩, ⟨.ident "y", 11, 12⟩, ⟨.templateTail "%%", 12, 16⟩] "50%"
      [(.ident "x", "s%s"), (.ident "y", "%%")] [] :=
    .holes rfl (.cons rfl rfl (.last rfl rfl))
  obtain ⟨text, hbuilt, hcount, hfill, -⟩ := (template_laws (.inr rfl) 9 _).2 _ _ hread (by decide)
  exact ⟨hread, text, hbuilt, hcount, (hfill ["%s", "%"] rfl).trans (by decide)⟩

end YeetYoink
