import YeetYoink.Expr.Print
import YeetYoink.Proofs.Decimal.RoundTrip
import YeetYoink.Proofs.Expr.Spelling

/-!
# Reading the text of an expression

A printed expression is read as its tokens (`Expr.spells_print`) wherever a boundary follows it,
that is, a character that cannot go on with a name or a number. Only two characters of the text
matter to what stands before it: an equals sign would join an operator, and a brace an opening brace
of a hole (`FirstChar`).
-/

namespace YeetYoink

open Lexer (Boundary)

namespace Lexer

section

variable (holes : List Nat) (cs : List Char)

/-- An operator between operands has a space on either side. -/
theorem kinds_binaryOp (op : BinaryOp) :
    Lexer.kinds holes (op.text.toList ++ ' ' :: cs) =
      .symbol op.symbol :: Lexer.kinds holes cs := by
  cases op <;> exact (kinds_symbol rfl rfl rfl).trans (congrArg _ (kinds_space holes cs))

theorem kinds_assignKind (kind : AssignKind) :
    Lexer.kinds holes (kind.text.toList ++ ' ' :: cs) =
      .symbol kind.symbol :: Lexer.kinds holes cs := by
  cases kind <;> exact (kinds_symbol rfl rfl rfl).trans (congrArg _ (kinds_space holes cs))

/-- The sign of an operator before its operand, which never starts with an equals sign. -/
theorem kinds_unaryOp (op : UnaryOp) {c : Char} (hc : c ≠ '=') :
    Lexer.kinds holes (op.text.toList ++ c :: cs) =
      .symbol op.symbol :: Lexer.kinds holes (c :: cs) := by
  cases op with
  | minus =>
    change kinds holes ('-' :: c :: cs) = _
    refine kinds_symbol rfl rfl ?_
    simp [symbol?, Symbol.all, Symbol.text, hc.symm, UnaryOp.symbol]
  | bang =>
    change kinds holes ('!' :: c :: cs) = _
    refine kinds_symbol rfl rfl ?_
    simp [symbol?, Symbol.all, Symbol.text, hc.symm, UnaryOp.symbol]

/-! ### Strings -/

theorem stringSegment_stringChar (c : Char) (cs : List Char) :
    stringSegment (Expr.stringChar c ++ cs) = (stringSegment cs).cons [c] (Expr.stringChar c) := by
  unfold Expr.stringChar
  split
  · simp [stringSegment, unescape]
  · simp [stringSegment, unescape]
  · simp [stringSegment, unescape]
  · simp [stringSegment, unescape]
  · simp [stringSegment, unescape]
  · next h1 h2 _ _ _ =>
    rw [List.singleton_append, stringSegment]
    · exact h1
    · exact fun h => absurd h h2
    · exact fun _ _ h => absurd h h2

theorem stringSegment_quoted (text rest : List Char) :
    (stringSegment (text.flatMap Expr.stringChar ++ '"' :: rest)).closer = some '"' ∧
      (stringSegment (text.flatMap Expr.stringChar ++ '"' :: rest)).text = text ∧
      (stringSegment (text.flatMap Expr.stringChar ++ '"' :: rest)).rest = rest := by
  induction text with
  | nil => simp [stringSegment]
  | cons c text ih =>
    rw [List.flatMap_cons, List.append_assoc, stringSegment_stringChar]
    simpa [Segment.cons] using ih

theorem kinds_string (text : String) :
    Lexer.kinds holes ((Expr.stringLiteral text).toList ++ cs) =
      .string text :: Lexer.kinds holes cs := by
  have h := stringSegment_quoted text.toList cs
  have : (Expr.stringLiteral text).toList ++ cs =
      '"' :: (text.toList.flatMap Expr.stringChar ++ '"' :: cs) := by simp [Expr.stringLiteral]
  rw [this, kinds_cons rfl]
  simp [scan, scanString, h]

/-! ### Templates -/

theorem templateSegment_char {c : Char} (hc : c ≠ '\x60') (cs : List Char) :
    templateSegment (Expr.templateChar c ++ cs) =
      (templateSegment cs).cons [c] (Expr.templateChar c) := by
  unfold Expr.templateChar
  split
  · simp [templateSegment]
  · simp [templateSegment]
  · next h1 h2 =>
    rw [List.singleton_append, templateSegment]
    · exact hc
    · exact fun _ h => absurd h h1
    · exact h1
    · exact fun _ h => absurd h h2

/-- Escaped text is read up to what stops it. -/
theorem templateSegment_escaped {text : List Char} (h : '\x60' ∉ text) {s : Segment}
    {rest : List Char} (hs : templateSegment rest = s) :
    (templateSegment (text.flatMap Expr.templateChar ++ rest)).closer = s.closer ∧
      (templateSegment (text.flatMap Expr.templateChar ++ rest)).text = text ++ s.text ∧
      (templateSegment (text.flatMap Expr.templateChar ++ rest)).rest = s.rest := by
  induction text with
  | nil => simp [hs]
  | cons c text ih =>
    rw [List.mem_cons, not_or] at h
    rw [List.flatMap_cons, List.append_assoc, templateSegment_char (Ne.symm h.1)]
    simpa [Segment.cons] using ih h.2

theorem templateSegment_hole {cs : List Char} (h : cs.head? ≠ some '\x7b') :
    templateSegment ('\x7b' :: cs) = ⟨some '\x7b', [], ['\x7b'], cs⟩ := by
  rw [templateSegment]
  rintro cs' rfl
  exact h rfl

theorem kinds_template {text : List Char} (h : '\x60' ∉ text) :
    kinds holes ('\x60' :: (text.flatMap Expr.templateChar ++ '\x60' :: cs)) =
      .template (String.ofList text) :: kinds holes cs := by
  have hs := templateSegment_escaped h (show templateSegment ('\x60' :: cs) = _ from rfl)
  rw [kinds_cons rfl]
  simp [scan, scanTemplate, hs, templateSegment]

theorem kinds_templateHead {text : List Char} (h : '\x60' ∉ text) {cs : List Char}
    (hc : cs.head? ≠ some '\x7b') :
    kinds holes ('\x60' :: (text.flatMap Expr.templateChar ++ '\x7b' :: cs)) =
      .templateHead (String.ofList text) :: kinds (0 :: holes) cs := by
  have hs := templateSegment_escaped h (templateSegment_hole hc)
  rw [kinds_cons rfl]
  simp [scan, scanTemplate, hs]

theorem kinds_templateTail {text : List Char} (h : '\x60' ∉ text) :
    kinds (0 :: holes) ('\x7d' :: (text.flatMap Expr.templateChar ++ '\x60' :: cs)) =
      .templateTail (String.ofList text) :: kinds holes cs := by
  have hs := templateSegment_escaped h (show templateSegment ('\x60' :: cs) = _ from rfl)
  rw [kinds_cons rfl]
  simp [scan, scanTemplate, hs, templateSegment, isNameStart, isDigit]

theorem kinds_templateMiddle {text : List Char} (h : '\x60' ∉ text) {cs : List Char}
    (hc : cs.head? ≠ some '\x7b') :
    kinds (0 :: holes) ('\x7d' :: (text.flatMap Expr.templateChar ++ '\x7b' :: cs)) =
      .templateMiddle (String.ofList text) :: kinds (0 :: holes) cs := by
  have hs := templateSegment_escaped h (templateSegment_hole hc)
  rw [kinds_cons rfl]
  simp [scan, scanTemplate, hs, isNameStart, isDigit]

end

end Lexer

namespace Expr

theorem printAll_eq (xs : List Expr) : printAll xs = xs.map print := by
  induction xs with
  | nil => rfl
  | cons x xs ih => rw [printAll, ih, List.map_cons]

theorem printPairs_eq (ps : List (Expr × Expr)) :
    printPairs ps = ps.map fun p => p.1.print ++ ": " ++ p.2.print := by
  induction ps with
  | nil => rfl
  | cons p ps ih => rw [printPairs, ih, List.map_cons]

/-- A text that is read as these tokens wherever it stands, if a boundary follows. -/
def Spells (text : String) (ks : List Token.Kind) : Prop :=
  ∀ holes rest, Boundary rest →
    Lexer.kinds holes (text.toList ++ rest) = ks ++ Lexer.kinds holes rest

theorem spells_join {α : Type} {items : List α} {text : α → String} {ks : α → List Token.Kind}
    (h : ∀ x ∈ items, Spells (text x) (ks x)) {sep : Char} {s : Symbol}
    (hs : ∀ holes cs, Lexer.kinds holes (sep :: ' ' :: cs) = .symbol s :: Lexer.kinds holes cs)
    (hb : ∀ cs, Boundary (sep :: cs)) :
    Spells (String.intercalate (String.ofList [sep, ' ']) (items.map text))
      (joinKinds s (items.map ks)) := by
  intro holes rest hr
  rw [String.toList_intercalate, List.map_map, String.toList_ofList]
  induction items with
  | nil => rfl
  | cons x items ih =>
    have hx := h x (List.mem_cons_self ..)
    have ih := ih fun y hy => h y (List.mem_cons_of_mem _ hy)
    cases items with
    | nil => simpa [joinKinds] using hx holes rest hr
    | cons y items =>
      simp only [List.map_cons, joinKinds, List.intercalate_cons_cons] at ih ⊢
      simp only [List.append_assoc, Function.comp_apply, List.cons_append, List.nil_append] at ih ⊢
      rw [hx holes _ (hb _), hs, ih]

theorem spells_commas {α : Type} {items : List α} {text : α → String} {ks : α → List Token.Kind}
    (h : ∀ x ∈ items, Spells (text x) (ks x)) :
    Spells (commas (items.map text)) (joinKinds .comma (items.map ks)) :=
  spells_join h (fun holes cs => by simp) Lexer.boundary_comma

/-- A block ends by itself, so anything may follow it. -/
theorem kinds_blockText {items : List Expr} (h : ∀ x ∈ items, Spells x.print x.kinds)
    (holes : List Nat) (rest : List Char) :
    Lexer.kinds holes ((blockText (printAll items)).toList ++ rest) =
      blockKinds (kindsAll items) ++ Lexer.kinds holes rest := by
  have hj : Spells (String.intercalate "; " (items.map print))
      (joinKinds .semicolon (items.map kinds)) :=
    spells_join h (fun holes cs => by simp) Lexer.boundary_semicolon
  rw [printAll_eq, kindsAll_eq]
  cases items with
  | nil =>
    simp only [List.map_nil, blockText, blockKinds, joinKinds]
    exact (Lexer.kinds_lbrace ..).trans (congrArg _
      ((Lexer.kinds_space ..).trans (Lexer.kinds_rbrace ..)))
  | cons x items =>
    have hj := hj (Lexer.countBrace .lbrace holes) (' ' :: '\x7d' :: rest) (Lexer.boundary_space _)
    simp only [blockText, List.map_cons, blockKinds] at hj ⊢
    simp only [String.toList_append, List.append_assoc, List.cons_append]
    refine (Lexer.kinds_lbrace ..).trans (congrArg _ ?_)
    refine (Lexer.kinds_space ..).trans ?_
    refine hj.trans ?_
    simp

theorem kinds_keyword (k : Keyword) (holes : List Nat) {rest : List Char} (hr : Boundary rest) :
    Lexer.kinds holes (k.text.toList ++ rest) = .keyword k :: Lexer.kinds holes rest := by
  have hw : Lexer.IsWord k.text.toList := by
    cases k <;> exact ⟨_, _, rfl, by decide, List.all_eq_true.1 (by decide)⟩
  rw [Lexer.kinds_word hw hr]
  cases k <;> rfl

theorem kinds_keyword_space (k : Keyword) (holes : List Nat) (cs : List Char) :
    Lexer.kinds holes (k.text.toList ++ ' ' :: cs) = .keyword k :: Lexer.kinds holes cs := by
  rw [kinds_keyword k holes (Lexer.boundary_space cs), Lexer.kinds_space]

section

variable (holes : List Nat) (cs : List Char)

@[simp] theorem kinds_yif : Lexer.kinds holes ('y' :: 'i' :: 'f' :: ' ' :: cs) =
    .keyword .yif :: Lexer.kinds holes cs := kinds_keyword_space .yif holes cs

@[simp] theorem kinds_yels : Lexer.kinds holes ('y' :: 'e' :: 'l' :: 's' :: ' ' :: cs) =
    .keyword .yels :: Lexer.kinds holes cs := kinds_keyword_space .yels holes cs

@[simp] theorem kinds_yeet : Lexer.kinds holes ('y' :: 'e' :: 'e' :: 't' :: ' ' :: cs) =
    .keyword .yeet :: Lexer.kinds holes cs := kinds_keyword_space .yeet holes cs

@[simp] theorem kinds_yoyo : Lexer.kinds holes ('y' :: 'o' :: 'y' :: 'o' :: ' ' :: cs) =
    .keyword .yoyo :: Lexer.kinds holes cs := kinds_keyword_space .yoyo holes cs

@[simp] theorem kinds_yall : Lexer.kinds holes ('y' :: 'a' :: 'l' :: 'l' :: ' ' :: cs) =
    .keyword .yall :: Lexer.kinds holes cs := kinds_keyword_space .yall holes cs

@[simp] theorem kinds_yolo : Lexer.kinds holes ('y' :: 'o' :: 'l' :: 'o' :: ' ' :: cs) =
    .keyword .yolo :: Lexer.kinds holes cs := kinds_keyword_space .yolo holes cs

end

theorem spells_name {name : String} (h : IsName name) : Spells name [.ident name] := by
  intro holes rest hr
  rw [Lexer.kinds_word h.1 hr, String.ofList_toList, Lexer.wordKind, h.2]
  rfl

/-- Parameters have a space after them, and so anything may follow. -/
theorem kinds_paramsText {params : List String} (h : ∀ p ∈ params, IsName p) (holes : List Nat)
    (cs : List Char) :
    Lexer.kinds holes ((paramsText params).toList ++ cs) =
      paramKinds params ++ Lexer.kinds holes cs := by
  have hj : Spells (commas (params.map id)) (paramKinds params) :=
    spells_commas fun p hp => spells_name (h p hp)
  cases params with
  | nil => simp [paramsText, paramKinds, joinKinds]
  | cons p params =>
    have hj := hj holes (' ' :: cs) (Lexer.boundary_space _)
    simpa [paramsText, paramKinds] using hj

/-! ### The first character -/

/-- A text whose first character satisfies the property. -/
def Starts (p : Char → Prop) (text : String) : Prop := ∃ c cs, text.toList = c :: cs ∧ p c

theorem Starts.append {p : Char → Prop} {s : String} (h : Starts p s) (t : String) :
    Starts p (s ++ t) := by
  obtain ⟨c, cs, hs, hc⟩ := h
  exact ⟨c, cs ++ t.toList, by rw [String.toList_append, hs, List.cons_append], hc⟩

theorem Starts.head?_ne {c : Char} {s : String} (h : Starts (· ≠ c) s) (rest : List Char) :
    (s.toList ++ rest).head? ≠ some c := by
  obtain ⟨d, cs, hs, hd⟩ := h
  simpa [hs] using hd

/-- The first characters of printed expressions: no equals sign, and a brace only where a block is.
-/
def FirstChar (e : Expr) (c : Char) : Prop := c ≠ '=' ∧ (c = '\x7b' → e.opensBlock = true)

theorem firstChar_of_ne {c : Char} (h : c ≠ '=') (h' : c ≠ '\x7b') (e : Expr) : FirstChar e c :=
  ⟨h, fun hc => absurd hc h'⟩

theorem firstChar_digit {c : Char} (h : isDigit c = true) (e : Expr) : FirstChar e c := by
  have hn := isDigit_iff.1 h
  refine firstChar_of_ne ?_ ?_ e <;> exact ne_of_apply_ne Char.toNat (by simp; omega)

theorem firstChar_nameStart {c : Char} (h : isNameStart c = true) (e : Expr) : FirstChar e c := by
  have hn := isNameStart_iff.1 h
  refine firstChar_of_ne ?_ ?_ e <;> exact ne_of_apply_ne Char.toNat (by simp; omega)

theorem starts_print {e : Expr} (h : e.Throughout Legible) : Starts (FirstChar e) e.print := by
  induction e using Expr.induct with
  | ident name =>
    obtain ⟨c, cs, hname, hc, -⟩ := h.here.1.1
    exact ⟨c, cs, hname, firstChar_nameStart hc _⟩
  | int n =>
    obtain ⟨hne, hd⟩ := Decimal.ofInt64_digits h.here.1
    obtain ⟨c, cs, hcs⟩ := List.exists_cons_of_ne_nil hne
    exact ⟨c, cs, hcs, firstChar_digit (hd c (by simp [hcs])) _⟩
  | num x =>
    obtain ⟨b, hb, hneg⟩ := h.here.decode
    obtain ⟨cs, ds, hx, hne, hd, -⟩ := Decimal.ofFloat_digits hb hneg
    obtain ⟨c, cs, rfl⟩ := List.exists_cons_of_ne_nil hne
    exact ⟨c, _, hx, firstChar_digit (hd c (List.mem_cons_self ..)) _⟩
  | bool b => cases b <;> exact ⟨_, _, rfl, firstChar_nameStart (by decide) _⟩
  | null => exact ⟨_, _, rfl, firstChar_nameStart (by decide) _⟩
  | str text => exact ⟨'"', _, String.toList_ofList, firstChar_of_ne (by decide) (by decide) _⟩
  | template text values =>
    exact ⟨'\x60', _, String.toList_ofList, firstChar_of_ne (by decide) (by decide) _⟩
  | call callee args ihc _ =>
    obtain ⟨c, cs, hcs, hc⟩ := ihc (h.child (List.mem_cons_self ..))
    have h : Starts (FirstChar (.call callee args)) callee.print := ⟨c, cs, hcs, hc.1, hc.2⟩
    exact ((h.append _).append _).append _
  | block body =>
    have h : Starts (FirstChar (.block body)) "\x7b " := ⟨_, _, rfl, by decide, fun _ => rfl⟩
    rw [print]
    cases printAll body with
    | nil => exact h.append "\x7d"
    | cons x xs => exact (h.append _).append _
  | bad token => exact h.here.1.elim
  | _ =>
    rw [print]
    try simp only [String.append_assoc]
    refine Starts.append ?_ _
    exact ⟨_, _, rfl, firstChar_of_ne (by decide) (by decide) _⟩

/-! ### Holes -/

/-- The text from a hole on: the values between braces, each with the escaped text after it. -/
def tailsText (tails : List (List Char)) (values : List String) : List Char :=
  (tails.zip values).flatMap fun p => '\x7b' :: p.2.toList ++ '\x7d' :: p.1.flatMap templateChar

theorem templatePieces_eq {ps : List Template.Piece} {values : List String}
    (h : (Template.segments ps).2.length = values.length) :
    templatePieces ps values = (Template.segments ps).1.flatMap templateChar ++
      tailsText (Template.segments ps).2 values := by
  induction ps generalizing values with
  | nil => simp [templatePieces, Template.segments, tailsText]
  | cons p ps ih =>
    cases p with
    | char c =>
      simp only [Template.segments] at h ⊢
      rw [templatePieces, ih h, List.flatMap_cons, List.append_assoc]
    | hole =>
      simp only [Template.segments, List.length_cons] at h ⊢
      obtain ⟨v, values, rfl⟩ := List.exists_cons_of_length_pos (l := values) (by omega)
      rw [List.length_cons, Nat.add_right_cancel_iff] at h
      rw [templatePieces, ih h]
      simp [tailsText]

/-- A value in a hole: read as its tokens, and not taken for an escaped brace. -/
def Fills (v : Expr) : Prop := Spells v.print v.kinds ∧ Starts (· ≠ '\x7b') v.print

/-- Inside a hole, the rest of the template is read as the tokens of its values and segments. -/
theorem kinds_tails {t : List Char} {tails : List (List Char)} {v : Expr} {values : List Expr}
    (ht : '\x60' ∉ t) (hts : ∀ t ∈ tails, '\x60' ∉ t) (hv : Fills v) (hvs : ∀ v ∈ values, Fills v)
    (hl : tails.length = values.length) (holes : List Nat) (rest : List Char) :
    Lexer.kinds (0 :: holes) (v.print.toList ++ '\x7d' :: (t.flatMap templateChar ++
        (tailsText tails (values.map print) ++ '\x60' :: rest))) =
      holeKinds (t :: tails) (v.kinds :: values.map kinds) ++ Lexer.kinds holes rest := by
  rw [hv.1 _ _ (Lexer.boundary_rbrace _)]
  induction tails generalizing t v values with
  | nil =>
    obtain rfl := List.eq_nil_of_length_eq_zero hl.symm
    simp [tailsText, holeKinds, Lexer.kinds_templateTail _ _ ht]
  | cons t' tails ih =>
    obtain ⟨v', values, rfl⟩ := List.exists_cons_of_length_pos (l := values) (by simp at hl; omega)
    rw [List.forall_mem_cons] at hts hvs
    have ih := ih hts.1 hts.2 hvs.1 hvs.2 (by simpa using hl)
    -- The value in the next hole does not start with a brace, so its brace opens a hole.
    have hmid := Lexer.kinds_templateMiddle holes ht (hvs.1.2.head?_ne ('\x7d' ::
      (t'.flatMap templateChar ++ (tailsText tails (values.map print) ++ '\x60' :: rest))))
    rw [hvs.1.1 _ _ (Lexer.boundary_rbrace _), ih] at hmid
    simp only [List.map_cons, holeKinds, List.append_assoc, List.cons_append] at hmid ⊢
    rw [← hmid]
    simp [tailsText]

theorem kinds_templateLiteral {text : String} {values : List Expr}
    (ht : IsTemplate text values.length) (hv : ∀ v ∈ values, Fills v) (holes : List Nat)
    (rest : List Char) :
    Lexer.kinds holes ((templateLiteral text (printAll values)).toList ++ rest) =
      (Expr.template text values).kinds ++ Lexer.kinds holes rest := by
  obtain ⟨head, tails, rfl, hl, hh, hts⟩ := ht
  have hseg := Template.segments_encode head tails
  have hp : templatePieces (Template.pieces (Template.encode head tails)) (values.map print) = _ :=
    templatePieces_eq (by rw [hseg, List.length_map, hl])
  rw [hseg] at hp
  have htext : (templateLiteral (String.ofList (Template.encode head tails))
      (printAll values)).toList ++ rest = '\x60' :: (head.flatMap templateChar ++
        (tailsText tails (values.map print) ++ '\x60' :: rest)) := by
    simp [templateLiteral, hp, printAll_eq]
  rw [htext, kinds, String.toList_ofList, hseg, kindsAll_eq]
  cases tails with
  | nil => simp [tailsText, templateKinds, Lexer.kinds_template _ _ hh]
  | cons t tails =>
    obtain ⟨v, values, rfl⟩ := List.exists_cons_of_length_pos (l := values) (by simp at hl; omega)
    rw [List.forall_mem_cons] at hts hv
    have htail := kinds_tails hts.1 hts.2 hv.1 hv.2 (by simpa using hl) holes rest
    have hhead := Lexer.kinds_templateHead holes hh (hv.1.2.head?_ne ('\x7d' ::
      (t.flatMap templateChar ++ (tailsText tails (values.map print) ++ '\x60' :: rest))))
    rw [htail] at hhead
    simp only [List.map_cons, templateKinds, List.cons_append]
    rw [← hhead]
    simp [tailsText]

/-! ### All expressions -/

/-- A printed expression is read as its tokens, in whatever holes it stands. -/
theorem spells_print {e : Expr} (h : e.Throughout Legible) : Spells e.print e.kinds := by
  induction e using Expr.induct with
  | ident name => exact spells_name h.here.1
  | int n =>
    obtain ⟨hne, hd⟩ := Decimal.ofInt64_digits h.here.1
    intro holes rest hb
    rw [print, Lexer.kinds_digits hne hd hb, String.ofList_toList, kinds]
    rfl
  | num x =>
    obtain ⟨b, hb, hneg⟩ := h.here.decode
    obtain ⟨cs, ds, hx, hne, hd, hne', hd'⟩ := Decimal.ofFloat_digits hb hneg
    intro holes rest hb
    rw [print, hx, Lexer.kinds_point hne hd hne' hd' hb, ← hx, String.ofList_toList, kinds]
    rfl
  | bool b =>
    intro holes rest hb
    cases b with
    | false => exact kinds_keyword .false holes hb
    | true => exact kinds_keyword .true holes hb
  | null => exact fun holes rest hb => kinds_keyword .null holes hb
  | str text => exact fun holes rest _ => Lexer.kinds_string holes rest text
  | template text values ih =>
    intro holes rest _
    refine kinds_templateLiteral h.here.1 (fun v hv => ?_) holes rest
    obtain ⟨c, cs, hcs, -, hc⟩ := starts_print (h.child hv)
    refine ⟨ih v hv (h.child hv), c, cs, hcs, fun h' => ?_⟩
    exact absurd (hc h') (by simp [h.here.2.2 v hv])
  | array items ih =>
    intro holes rest _
    have hj := spells_commas fun x hx => ih x hx (h.child hx)
    simp [print, kinds, printAll_eq, kindsAll_eq, hj _ _ (Lexer.boundary_rbracket _)]
  | dict pairs ih =>
    intro holes rest _
    have hp : ∀ p ∈ pairs, Spells (p.1.print ++ ": " ++ p.2.print)
        (p.1.kinds ++ .symbol .colon :: p.2.kinds) := by
      intro p hp holes rest hb
      have h1 := (ih p hp).1 (h.child (List.mem_flatMap.2 ⟨p, hp, by simp⟩))
      have h2 := (ih p hp).2 (h.child (List.mem_flatMap.2 ⟨p, hp, by simp⟩))
      simp [h1 _ _ (Lexer.boundary_colon _), h2 _ _ hb]
    have hj := spells_commas hp
    simp [print, kinds, printPairs_eq, kindsPairs_eq, hj _ _ (Lexer.boundary_rbrace _)]
  | range first last ih1 ih2 =>
    intro holes rest _
    have h1 := ih1 (h.child (by simp [children]))
    have h2 := ih2 (h.child (by simp [children]))
    simp [print, kinds, h1 _ _ (Lexer.boundary_dotDot _), h2 _ _ (Lexer.boundary_rparen _)]
  | unary op operand ih =>
    intro holes rest _
    have hc : operand.Throughout Legible := h.child (by simp [children])
    obtain ⟨c, cs, hcs, hne, -⟩ := starts_print hc
    have h1 := ih hc holes (')' :: rest) (Lexer.boundary_rparen _)
    have hop := Lexer.kinds_unaryOp holes (cs ++ ')' :: rest) op hne
    rw [hcs, List.cons_append] at h1
    simp [print, kinds, hcs, hop, h1]
  | binary op left right ih1 ih2 =>
    intro holes rest _
    have h1 := ih1 (h.child (by simp [children]))
    have h2 := ih2 (h.child (by simp [children]))
    simp [print, kinds, h1 _ _ (Lexer.boundary_space _), h2 _ _ (Lexer.boundary_rparen _),
      Lexer.kinds_binaryOp]
  | and left right ih1 ih2 =>
    intro holes rest _
    have h1 := ih1 (h.child (by simp [children]))
    have h2 := ih2 (h.child (by simp [children]))
    simp [print, kinds, h1 _ _ (Lexer.boundary_space _), h2 _ _ (Lexer.boundary_rparen _)]
  | or left right ih1 ih2 =>
    intro holes rest _
    have h1 := ih1 (h.child (by simp [children]))
    have h2 := ih2 (h.child (by simp [children]))
    simp [print, kinds, h1 _ _ (Lexer.boundary_space _), h2 _ _ (Lexer.boundary_rparen _)]
  | index container key ih1 ih2 =>
    intro holes rest _
    have h1 := ih1 (h.child (by simp [children]))
    have h2 := ih2 (h.child (by simp [children]))
    simp [print, kinds, h1 _ _ (Lexer.boundary_lbracket _), h2 _ _ (Lexer.boundary_rbracket _)]
  | call callee args ihc ih =>
    intro holes rest _
    have h1 := ihc (h.child (by simp [children]))
    have hj := spells_commas fun x hx => ih x hx (h.child (List.mem_cons_of_mem _ hx))
    simp [print, kinds, printAll_eq, kindsAll_eq, h1 _ _ (Lexer.boundary_lparen _),
      hj _ _ (Lexer.boundary_rparen _)]
  | assign kind target value ih1 ih2 =>
    intro holes rest _
    have h1 := ih1 (h.child (by simp [children]))
    have h2 := ih2 (h.child (by simp [children]))
    simp [print, kinds, h1 _ _ (Lexer.boundary_space _), h2 _ _ (Lexer.boundary_rparen _),
      Lexer.kinds_assignKind]
  | block body ih =>
    intro holes rest _
    rw [print, kinds]
    exact kinds_blockText (fun x hx => ih x hx (h.child hx)) holes rest
  | yif condition body ihc ih =>
    intro holes rest _
    have h1 := ihc (h.child (by simp [children]))
    have hb := kinds_blockText fun x hx => ih x hx (h.child (List.mem_cons_of_mem _ hx))
    simp [print, kinds, h1 _ _ (Lexer.boundary_space _), hb]
  | yifElse condition body otherwise ihc ih ih' =>
    intro holes rest _
    have h1 := ihc (h.child (by simp [children]))
    have hb := kinds_blockText fun x hx => ih x hx (h.child (by simp [children, hx]))
    have hb' := kinds_blockText fun x hx => ih' x hx (h.child (by simp [children, hx]))
    simp [print, kinds, h1 _ _ (Lexer.boundary_space _), hb, hb']
  | yoyo condition body ihc ih =>
    intro holes rest _
    have h1 := ihc (h.child (by simp [children]))
    have hb := kinds_blockText fun x hx => ih x hx (h.child (List.mem_cons_of_mem _ hx))
    simp [print, kinds, h1 _ _ (Lexer.boundary_space _), hb]
  | yall key source body ihs ih =>
    intro holes rest _
    have h1 := ihs (h.child (by simp [children]))
    have hb := kinds_blockText fun x hx => ih x hx (h.child (List.mem_cons_of_mem _ hx))
    have hk : Spells key [.ident key] := spells_name h.here.1
    simp [print, kinds, hk _ _ (Lexer.boundary_colon _), h1 _ _ (Lexer.boundary_space _), hb]
  | yeet value ih =>
    intro holes rest _
    have h1 := ih (h.child (by simp [children]))
    simp [print, kinds, h1 _ _ (Lexer.boundary_rparen _)]
  | yolo body ih =>
    intro holes rest _
    have hb := kinds_blockText fun x hx => ih x hx (h.child hx)
    simp [print, kinds, hb]
  | lambda params body ih =>
    intro holes rest _
    have hb := kinds_blockText fun x hx => ih x hx (h.child hx)
    simp [print, kinds, kinds_paramsText h.here.1, hb]
  | macroLit params body ih =>
    intro holes rest _
    have hb := kinds_blockText fun x hx => ih x hx (h.child hx)
    simp [print, kinds, kinds_paramsText h.here.1, hb]
  | bad token => exact h.here.1.elim

end Expr

end YeetYoink
