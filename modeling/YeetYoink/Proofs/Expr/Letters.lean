import YeetYoink.Proofs.Expr.Lexing

/-!
# Counting letters

To tell the texts of two programs apart it is enough to count one letter in them. The letter is `u`,
since it is in `true`, which is what the parser fills in for the condition of a `yoyo` that has
none. It is in no symbol, number, blank or escape, so the letters of a printed expression are those
of its tokens (`letters_print`).
-/

namespace YeetYoink

def letters (s : String) : Nat := s.toList.count 'u'

@[simp] theorem letters_append (s t : String) : letters (s ++ t) = letters s + letters t := by
  simp [letters]

theorem letters_ofList (cs : List Char) : letters (String.ofList cs) = cs.count 'u' := by
  simp [letters]

def Token.Kind.letters : Token.Kind → Nat
  | .ident text | .string text | .template text | .templateHead text | .templateMiddle text
  | .templateTail text => YeetYoink.letters text
  | .keyword k => YeetYoink.letters k.text
  | _ => 0

def kindLetters (ks : List Token.Kind) : Nat := (ks.map (·.letters)).sum

@[simp] theorem kindLetters_nil : kindLetters [] = 0 := rfl

@[simp] theorem kindLetters_cons (k : Token.Kind) (ks : List Token.Kind) :
    kindLetters (k :: ks) = k.letters + kindLetters ks := rfl

@[simp] theorem kindLetters_append (ks ls : List Token.Kind) :
    kindLetters (ks ++ ls) = kindLetters ks + kindLetters ls := by simp [kindLetters]

@[simp] theorem letters_symbol (s : Symbol) : (Token.Kind.symbol s).letters = 0 := rfl

theorem count_digits {cs : List Char} (h : ∀ c ∈ cs, isDigit c = true) : cs.count 'u' = 0 :=
  List.count_eq_zero_of_not_mem fun hu => absurd (h _ hu) (by decide)

namespace Expr

theorem kindLetters_joinKinds {α : Type} (s : Symbol) (f : α → List Token.Kind) (items : List α) :
    kindLetters (joinKinds s (items.map f)) = (items.map fun x => kindLetters (f x)).sum := by
  induction items with
  | nil => rfl
  | cons x items ih =>
    cases items with
    | nil => simp [joinKinds]
    | cons y items =>
      simp only [joinKinds, List.map_cons, List.intercalate_cons_cons, List.sum_cons] at ih ⊢
      simp [ih]

theorem letters_intercalate {α : Type} {sep : String} (hs : letters sep = 0) (f : α → String)
    (items : List α) :
    letters (sep.intercalate (items.map f)) = (items.map fun x => letters (f x)).sum := by
  induction items with
  | nil => rfl
  | cons x items ih =>
    cases items with
    | nil => simp
    | cons y items =>
      simp only [List.map_cons, String.intercalate_cons_cons, List.sum_cons] at ih ⊢
      simp [ih, hs]

theorem count_flatMap_of_eq {f : Char → List Char} (hf : ∀ c, (f c).count 'u' = [c].count 'u')
    (cs : List Char) : (cs.flatMap f).count 'u' = cs.count 'u' := by
  induction cs with
  | nil => rfl
  | cons c cs ih =>
    rw [List.flatMap_cons, List.count_append, hf, ih, ← List.count_append]
    rfl

theorem count_stringChar (c : Char) : (stringChar c).count 'u' = [c].count 'u' := by
  unfold stringChar
  split <;> rfl

theorem count_templateChar (c : Char) : (templateChar c).count 'u' = [c].count 'u' := by
  unfold templateChar
  split <;> rfl

theorem letters_commas {α : Type} (f : α → String) (items : List α) :
    letters (commas (items.map f)) = (items.map fun x => letters (f x)).sum :=
  letters_intercalate rfl f items

/-- Lists of expressions, whatever is put between them. -/
theorem sum_letters {items : List Expr} (h : ∀ x ∈ items, letters x.print = kindLetters x.kinds) :
    (items.map fun x => letters x.print).sum = (items.map fun x => kindLetters x.kinds).sum :=
  congrArg List.sum (List.map_congr_left h)

theorem letters_commas_eq {items : List Expr}
    (h : ∀ x ∈ items, letters x.print = kindLetters x.kinds) :
    letters (commas (printAll items)) = kindLetters (joinKinds .comma (kindsAll items)) := by
  rw [printAll_eq, kindsAll_eq, letters_commas, kindLetters_joinKinds, sum_letters h]

theorem letters_blockText_intercalate (items : List String) :
    letters (blockText items) = letters ("; ".intercalate items) := by
  cases items with
  | nil => rfl
  | cons x items =>
    have hl : letters "\x7b " = 0 := rfl
    have hr : letters " \x7d" = 0 := rfl
    simp [blockText, hl, hr]

theorem letters_blockText {body : List Expr}
    (h : ∀ x ∈ body, letters x.print = kindLetters x.kinds) :
    letters (blockText (printAll body)) = kindLetters (blockKinds (kindsAll body)) := by
  rw [letters_blockText_intercalate, printAll_eq, kindsAll_eq, letters_intercalate rfl,
    sum_letters h]
  simp [blockKinds, kindLetters_joinKinds]

theorem letters_paramsText (params : List String) :
    letters (paramsText params) = kindLetters (paramKinds params) := by
  have hj := letters_commas id params
  rw [List.map_id] at hj
  rw [paramKinds, kindLetters_joinKinds]
  cases params with
  | nil => rfl
  | cons p params =>
    simp only [paramsText, letters_append, hj]
    simp [letters, Token.Kind.letters]

theorem count_tailsText {tails : List (List Char)} {values : List Expr}
    (h : ∀ v ∈ values, letters v.print = kindLetters v.kinds) (hl : tails.length = values.length) :
    (tailsText tails (values.map print)).count 'u' =
      kindLetters (holeKinds tails (values.map kinds)) := by
  induction tails generalizing values with
  | nil => rfl
  | cons t tails ih =>
    obtain ⟨v, values, rfl⟩ := List.exists_cons_of_length_pos (l := values) (by simp at hl; omega)
    rw [List.forall_mem_cons] at h
    have ih := ih h.2 (by simpa using hl)
    have hv := h.1
    rw [letters] at hv
    cases tails with
    | nil =>
      simp [tailsText, holeKinds, hv, Token.Kind.letters, letters,
        count_flatMap_of_eq count_templateChar]
    | cons t' tails =>
      simp only [tailsText, List.map_cons, List.zip_cons_cons, List.flatMap_cons] at ih ⊢
      simp only [holeKinds, kindLetters_append, kindLetters_cons] at ih ⊢
      simp only [List.count_append, ih]
      simp [hv, Token.Kind.letters, letters, count_flatMap_of_eq count_templateChar]
      omega

theorem letters_templateLiteral {text : String} {values : List Expr}
    (ht : IsTemplate text values.length) (h : ∀ v ∈ values, letters v.print = kindLetters v.kinds) :
    letters (templateLiteral text (printAll values)) =
      kindLetters (Expr.template text values).kinds := by
  obtain ⟨head, tails, rfl, hl, -, -⟩ := ht
  have hseg := Template.segments_encode head tails
  have hp : templatePieces (Template.pieces (Template.encode head tails)) (values.map print) = _ :=
    templatePieces_eq (by rw [hseg, List.length_map, hl])
  rw [hseg] at hp
  have htails := count_tailsText h hl
  rw [kinds, String.toList_ofList, hseg, kindsAll_eq, printAll_eq, templateLiteral,
    String.toList_ofList, hp, letters_ofList]
  simp only [List.cons_append, List.count_cons, List.count_append, htails,
    count_flatMap_of_eq count_templateChar]
  cases tails <;> simp [templateKinds, Token.Kind.letters, letters, holeKinds]

theorem letters_pairs {pairs : List (Expr × Expr)}
    (h : ∀ c ∈ (dict pairs).children, letters c.print = kindLetters c.kinds) :
    letters (commas (printPairs pairs)) = kindLetters (joinKinds .comma (kindsPairs pairs)) := by
  have hm : ∀ p ∈ pairs, p.1 ∈ (dict pairs).children ∧ p.2 ∈ (dict pairs).children :=
    fun p hp => ⟨List.mem_flatMap.2 ⟨p, hp, by simp⟩, List.mem_flatMap.2 ⟨p, hp, by simp⟩⟩
  rw [printPairs_eq, kindsPairs_eq, letters_commas, kindLetters_joinKinds]
  refine congrArg List.sum (List.map_congr_left fun p hp => ?_)
  simp only [letters_append, h _ (hm p hp).1, h _ (hm p hp).2]
  simp [letters]

theorem letters_ofFloat {x : Float} (h : Readable (.num x)) : letters (Decimal.ofFloat x) = 0 := by
  obtain rfl | ⟨b, hb, hneg⟩ := h
  · with_unfolding_all rfl
  · obtain ⟨cs, ds, hx, -, hcs, -, hds⟩ := Decimal.ofFloat_digits hb hneg
    rw [letters, hx, List.count_append, List.count_cons, count_digits hcs, count_digits hds]
    rfl

theorem letters_print {e : Expr} (h : e.Throughout Readable) :
    letters e.print = kindLetters e.kinds := by
  induction e using Expr.inductChildren with
  | step e ih =>
    have hc : ∀ c ∈ e.children, letters c.print = kindLetters c.kinds :=
      fun c hc => ih c hc (h.child hc)
    have hr : Readable e := h.here
    clear ih h
    cases e with
    | ident name => simp [print, kinds, Token.Kind.letters]
    | int n =>
      rw [print, letters, count_digits (Decimal.ofInt64_digits hr).2]
      simp [kinds, Token.Kind.letters]
    | num x => simp [print, kinds, Token.Kind.letters, letters_ofFloat hr]
    | bool b => cases b <;> rfl
    | null => rfl
    | str text =>
      rw [print, stringLiteral, letters_ofList]
      simp [count_flatMap_of_eq count_stringChar, kinds, Token.Kind.letters, letters]
    | template text values => exact letters_templateLiteral hr hc
    | array items =>
      rw [children] at hc
      simp only [print, letters_append, letters_commas_eq hc]
      simp [kinds, letters]
    | dict pairs =>
      simp only [print, letters_append, letters_pairs hc]
      simp [kinds, letters]
    | range first last | and left right | or left right | index container key =>
      simp only [children, List.forall_mem_cons] at hc
      simp only [print, letters_append, hc.1, hc.2.1]
      simp [kinds, letters]
    | unary op operand =>
      simp only [children, List.forall_mem_cons] at hc
      simp only [print, letters_append, hc.1]
      cases op <;> simp [kinds, letters, UnaryOp.text]
    | binary op left right =>
      simp only [children, List.forall_mem_cons] at hc
      simp only [print, letters_append, hc.1, hc.2.1]
      cases op <;> simp [kinds, letters, BinaryOp.text]
    | assign kind target value =>
      simp only [children, List.forall_mem_cons] at hc
      simp only [print, letters_append, hc.1, hc.2.1]
      cases kind <;> simp [kinds, letters, AssignKind.text]
    | call callee args =>
      simp only [children, List.forall_mem_cons] at hc
      simp only [print, letters_append, hc.1, letters_commas_eq hc.2]
      simp [kinds, letters]
    | block body =>
      rw [children] at hc
      simp only [print, kinds, letters_blockText hc]
    | yif condition body otherwise =>
      cases otherwise with
      | none =>
        simp only [children, List.forall_mem_cons] at hc
        simp only [print, letters_append, hc.1, letters_blockText hc.2]
        simp [kinds, letters, Token.Kind.letters, Keyword.text]
      | some otherwise =>
        simp only [children, List.forall_mem_cons, List.forall_mem_append] at hc
        simp only [print, letters_append, hc.1, letters_blockText hc.2.1, letters_blockText hc.2.2]
        simp [kinds, letters, Token.Kind.letters, Keyword.text]
        omega
    | yoyo condition body =>
      simp only [children, List.forall_mem_cons] at hc
      simp only [print, letters_append, hc.1, letters_blockText hc.2]
      simp [kinds, letters, Token.Kind.letters, Keyword.text]
    | yall key source body =>
      simp only [children, List.forall_mem_cons] at hc
      simp only [print, letters_append, hc.1, letters_blockText hc.2]
      simp [kinds, letters, Token.Kind.letters, Keyword.text]
      omega
    | yeet value =>
      simp only [children, List.forall_mem_cons] at hc
      simp only [print, letters_append, hc.1]
      simp [kinds, letters, Token.Kind.letters, Keyword.text]
    | yolo body =>
      rw [children] at hc
      simp only [print, letters_append, letters_blockText hc]
      simp [kinds, letters, Token.Kind.letters, Keyword.text]
    | lambda params body | macroLit params body =>
      rw [children] at hc
      simp only [print, letters_append, letters_blockText hc, letters_paramsText]
      simp [kinds, letters]
    | bad token => exact hr.elim

end Expr

end YeetYoink
