import YeetYoink.Proofs.Parser.Meets

/-!
# The parser follows the grammar

Whatever an expression parser takes is a way to write the expression it gives (`meets_expression`),
and a bound above the number of tokens is never too low. Each construct is treated over an inner
parser that follows the grammar; the induction on the bound comes last.
-/

namespace YeetYoink.Parser

/-- The values in the holes of a template and the text after its head, as they are written. -/
def WrittenHoles (ts : List Token) (r : List Expr × List Char) : Prop :=
  ∃ holes : List Hole, (∀ h ∈ holes, Written h.tokens h.value) ∧ Holed holes ∧
    (ts = holes.flatMap fun h => h.tokens ++ [h.closer]) ∧ r.1 = holes.map (·.value) ∧
    r.2 = (holes.map (·.text.toList)).flatMap fun t => Template.hole ++ Template.literal t

theorem WrittenHoles.last {us : List Token} {x : Expr} {text : String} (hx : Written us x)
    {t : Token} (ht : t.kind = .templateTail text) :
    WrittenHoles (us ++ [t]) ([x], Template.hole ++ Template.literal text.toList) :=
  ⟨[⟨us, x, t, text⟩], List.forall_mem_singleton.2 hx, .last ht, by simp⟩

theorem WrittenHoles.cons {us vs : List Token} {x : Expr} {text : String}
    {r : List Expr × List Char} (h : WrittenHoles vs r) (hx : Written us x) {t : Token}
    (ht : t.kind = .templateMiddle text) :
    WrittenHoles (us ++ t :: vs) (x :: r.1,
      Template.hole ++ Template.literal text.toList ++ r.2) := by
  obtain ⟨holes, hw, hc, hts, hv, hs⟩ := h
  refine ⟨⟨us, x, t, text⟩ :: holes, List.forall_mem_cons.2 ⟨hx, hw⟩, .cons ht hc, ?_⟩
  simp [hts, hv, hs]

theorem isTarget_of_validTarget {kind : AssignKind} {x : Expr} {s : Symbol}
    (h : validTarget s x = true) (hk : kind = .declare → s = .walrus) : Expr.IsTarget kind x := by
  cases x with
  | ident name => trivial
  | index c k =>
    cases kind with
    | declare => simp [validTarget, hk rfl] at h
    | update => trivial
  | _ => simp [validTarget] at h

theorem eq_symbol_of_ofSymbol? {s : Symbol} {op : BinaryOp} (h : BinaryOp.ofSymbol? s = some op) :
    s = op.symbol := by
  cases s <;> simp [BinaryOp.ofSymbol?] at h <;> subst h <;> rfl

/-- The operators that are left when the others have been told apart. -/
theorem assigns_of_ofSymbol? {s : Symbol} (hl : Level.ofSymbol s ≠ .lowest)
    (hb : BinaryOp.ofSymbol? s = none)
    (hs : s ∉ [.lparen, .lbracket, .dotDot, .ampAmp, .pipePipe]) :
    s = .walrus ∨ s = .assign ∨ ∃ op, BinaryOp.ofCompound? s = some op := by
  cases s <;> simp_all [Level.ofSymbol, BinaryOp.ofSymbol?, BinaryOp.ofCompound?]

section Constructs

variable {inner : Inner} {n m : Nat} (hi : ∀ level, Meets (inner level) m [] Written)
include hi

theorem meets_items (close : Symbol) (hn : n ≤ m) :
    Meets (sequence (inner .lowest) close n) n [] (Gathers Written (Listed close)) :=
  meets_sequence (hi _) close hn

theorem meets_body (hn : n ≤ m) :
    Meets (bracedBlock (inner .lowest) n) (n + 1) [] (Gathers Written Braced) :=
  meets_bracedBlock (hi _) (fun _ _ => Written.ne_nil) hn

theorem meets_templateValue (hn : n + 1 ≤ m) (h : Meets (templateRest inner n) n [] WrittenHoles) :
    Meets (templateValue inner n) (n + 1) [] WrittenHoles := by
  rw [templateValue]
  refine .bind (hi _) (by simpa using hn) fun us x hx => ?_
  refine .next (x := .templateContinuation) rfl fun t => ?_
  obtain ⟨k, i, j⟩ := t
  cases k with
  | templateMiddle text =>
    refine .bind h (by simp) fun vs r hr => .pure ?_
    simpa using hr.cons hx (t := ⟨.templateMiddle text, i, j⟩) rfl
  | templateTail text =>
    refine .pure ?_
    simpa using WrittenHoles.last hx (t := ⟨.templateTail text, i, j⟩) rfl
  | _ => exact .unexpected _ _

theorem meets_templateRest (hn : n ≤ m) : Meets (templateRest inner n) n [] WrittenHoles := by
  induction n with
  | zero => exact fun ts hl => absurd hl (Nat.not_lt_zero _)
  | succ n ih =>
    have hvalue := meets_templateValue hi hn (ih (by omega))
    rw [templateRest]
    refine .peek (fun hl => hvalue [] hl) fun t ts hl => ?_
    obtain ⟨k, i, j⟩ := t
    cases k with
    | templateMiddle text => exact ⟨[_], rfl, .inr ⟨_, rfl, fun _ => rfl⟩⟩
    | templateTail text => exact ⟨[_], rfl, .inr ⟨_, rfl, fun _ => rfl⟩⟩
    | _ => exact hvalue _ hl

theorem meets_dictPair : Meets (dictPair inner) m [] fun ts p => ∃ q : WrittenPair,
    ts = q.tokens ∧ p = (q.key, q.value) ∧ Written q.keyTokens q.key ∧
      q.colon.kind = .symbol .colon ∧ Written q.valueTokens q.value := by
  rw [dictPair]
  refine .bind (hi _) (by simp) fun us k hk => ?_
  refine .expect fun c hc => ?_
  refine .bind (hi _) (by simp) fun vs v hv => ?_
  exact .pure ⟨⟨us, k, c, vs, v⟩, by simp [WrittenPair.tokens], rfl, hk, hc, hv⟩

theorem meets_paramsAndBody : Meets (paramsAndBody inner m) m [] fun ts r => ∃ us vs,
    ts = us ++ vs ∧ Params r.1 us ∧ Gathers Written Braced vs r.2 := by
  rw [paramsAndBody]
  refine .accept (fun l hl => ?_) ?_
  · refine .bind (meets_names .rparen true) (by simp) fun us xs hx => ?_
    refine .expect fun r hr => ?_
    refine .bind (meets_body hi m.le_refl) (by simp +arith) fun vs body hb => ?_
    exact .pure ⟨l :: us ++ [r], vs, by simp, .paren hl hx hr, hb⟩
  · refine .bind (meets_names .lbrace true) (by simp) fun us xs hx => ?_
    refine .bind (meets_body hi m.le_refl) (by simp +arith) fun vs body hb => ?_
    exact .pure ⟨us, vs, by simp, .plain hx, hb⟩

/-- A conditional after its `yif`, which may have been the second word of `yels yif`. -/
theorem meets_conditional (hn : n ≤ m) {t : Token} (ht : t.kind = .keyword .yif) :
    Meets (conditional inner n) n [] fun ts x => Written (t :: ts) x := by
  induction n generalizing t with
  | zero => exact fun ts hl => absurd hl (Nat.not_lt_zero _)
  | succ n ih =>
    rw [conditional]
    refine .bind (hi _) (by simpa using hn) fun us x hx => ?_
    refine .bind (meets_body hi (by omega)) (by simp) ?_
    rintro bs body ⟨items, rfl, hb, hs⟩
    refine .accept (fun e he => ?_) (.pure (.yif ht hx hb hs))
    refine .accept (fun y hy => ?_) ?_
    · refine .bind (ih (by omega) hy) (by simp +arith) fun vs z hz => .pure ?_
      simpa using Written.yelsYif ht hx hb hs he hz
    · refine .bind (meets_body hi (by omega)) (by simp +arith) ?_
      rintro vs otherwise ⟨items', rfl, hb', hs'⟩
      refine .pure ?_
      simpa using Written.yels ht hx hb hs he hb' hs'

theorem meets_loop {t : Token} (ht : t.kind = .keyword .yoyo) :
    Meets (loop inner m) m [] fun ts x => Written (t :: ts) x := by
  rw [loop]
  refine .nextIs ?_ ?_
  · simp only [if_true, pure_bind]
    refine .bind (meets_body hi m.le_refl) (by simp) ?_
    rintro bs body ⟨items, rfl, hb, hs⟩
    exact .pure (.forever ht hb hs)
  · simp only [Bool.false_eq_true, if_false]
    refine .bind (hi _) (by simp) fun us x hx => ?_
    refine .bind (meets_body hi m.le_refl) (by simp +arith) ?_
    rintro bs body ⟨items, rfl, hb, hs⟩
    refine .pure fun hl => .yoyo ht hx (fun u hu => hl u ?_) hb hs
    simpa [List.head?_append] using Or.inl hu

theorem meets_iteration {t : Token} (ht : t.kind = .keyword .yall) :
    Meets (iteration inner m) m [] fun ts x => Written (t :: ts) x := by
  rw [iteration]
  refine .bind (hi _) (by simp) fun us x hx => ?_
  have hdefault : Meets (do
      let body ← bracedBlock (inner .lowest) m
      return .yall defaultKey x body) m ([] ++ us) fun ts x => Written (t :: ts) x := by
    refine .bind (meets_body hi m.le_refl) (by simp +arith) ?_
    rintro bs body ⟨items, rfl, hb, hs⟩
    exact .pure (.yall ht hx hb hs)
  cases x with
  | ident key =>
    refine .accept (fun c hc => ?_) hdefault
    refine .bind (hi _) (by simp +arith) fun vs x hx' => ?_
    refine .bind (meets_body hi m.le_refl) (by simp +arith) ?_
    rintro bs body ⟨items, rfl, hb, hs⟩
    refine .pure ?_
    simpa using Written.yallKey ht hx hc hx' hb hs
  | _ => exact hdefault

theorem meets_yeet {t : Token} (ht : t.kind = .keyword .yeet) :
    Meets (yeet inner) m [] fun ts x => Written (t :: ts) x := by
  rw [yeet]
  have hvalue : Meets (do return .yeet (← inner .lowest)) m [] fun ts x => Written (t :: ts) x :=
    .bind (hi _) (by simp) fun us x hx => .pure (.yeet ht hx)
  have hnull : Meets (pure (.yeet .null)) m [] fun ts x => Written (t :: ts) x :=
    .pure (.yeetNull ht)
  refine .peek (fun hl => hnull [] hl) fun u ts hl => ?_
  cases hu : endsYeet u.kind with
  | true => simpa [hu] using hnull _ hl
  | false => simpa [hu] using hvalue _ hl

theorem meets_operand (t : Token) : Meets (operand inner m t) (m + 1) [t] Written := by
  rw [operand]
  split
  case h_1 name ht => exact .pure (.ident ht)
  case h_2 text ht =>
    cases hn : Decimal.toInt64? text.toList with
    | some k => exact .pure (.int ht hn)
    | none => exact .fail rfl fun _ => rfl
  case h_3 text ht =>
    cases hx : Decimal.toFloat? text.toList with
    | some x => exact .pure (.num ht hx)
    | none => exact .fail rfl fun _ => rfl
  case h_4 text ht => exact .pure (.str ht)
  case h_5 text ht => exact .pure (.template ht)
  case h_6 head ht =>
    rw [template]
    refine .bind (meets_templateRest hi m.le_refl) (by simp) ?_
    rintro us ⟨values, rest⟩ ⟨holes, hv, hc, rfl, rfl, rfl⟩
    exact .pure (.templateHoles ht hv hc)
  case h_7 ht => exact .pure (.true ht)
  case h_8 ht => exact .pure (.false ht)
  case h_9 ht => exact .pure (.null ht)
  case h_10 ht => exact .bind (hi _) (by simp) fun us x hx => .pure (.unary (by exact ht) hx)
  case h_11 ht => exact .bind (hi _) (by simp) fun us x hx => .pure (.unary (by exact ht) hx)
  case h_12 ht =>
    refine .bind (hi _) (by simp) fun us x hx => .expect fun r hr => .pure ?_
    exact .paren ht hx hr
  case h_13 ht =>
    refine .bind (meets_items hi .rbracket m.le_refl) (by simp) ?_
    rintro us _ ⟨items, rfl, hx, hl⟩
    exact .pure (.array ht hx hl)
  case h_14 ht =>
    refine .bind (meets_sequence (meets_dictPair hi) .rbrace m.le_refl) (by simp) fun us xs hx => ?_
    obtain ⟨pairs, rfl, hp, hl⟩ := hx.lift
    exact .pure (.dict ht (fun p h => (hp p h).1) (fun p h => (hp p h).2.1)
      (fun p h => (hp p h).2.2) hl)
  case h_15 ht =>
    refine .bind (meets_block (hi _) (fun _ _ => Written.ne_nil) m.le_refl) (by simp) ?_
    rintro us _ ⟨items, rfl, hx, hl⟩
    exact .pure (.block hx (.mk ht hl))
  case h_16 ht => exact (meets_conditional hi m.le_refl ht).mono (by simp) fun us x hx => hx
  case h_17 ht => exact (meets_loop hi ht).mono (by simp) fun us x hx => hx
  case h_18 ht => exact (meets_iteration hi ht).mono (by simp) fun us x hx => hx
  case h_19 ht =>
    refine .bind (meets_body hi m.le_refl) (by simp) ?_
    rintro us _ ⟨items, rfl, hx, hl⟩
    exact .pure (.yolo ht hx hl)
  case h_20 ht => exact (meets_yeet hi ht).mono (by simp) fun us x hx => hx
  case h_21 ht =>
    refine .bind (meets_paramsAndBody hi) (by simp) ?_
    rintro _ ⟨params, _⟩ ⟨us, vs, rfl, hp, items, rfl, hb, hs⟩
    refine .pure ?_
    simpa using Written.lambda ht hp hb hs
  case h_22 ht =>
    refine .bind (meets_paramsAndBody hi) (by simp) ?_
    rintro _ ⟨params, _⟩ ⟨us, vs, rfl, hp, items, rfl, hb, hs⟩
    refine .pure ?_
    simpa using Written.macroLit ht hp hb hs
  case h_23 => exact .fail rfl fun _ => rfl
  case h_24 => exact .fail rfl fun _ => rfl

theorem meets_assignment {t : Token} {s : Symbol} {us : List Token} {x : Expr}
    (ht : t.kind = .symbol s) (hx : Written us x) (hn : n ≤ m + us.length + 1)
    (hs : s = .walrus ∨ s = .assign ∨ ∃ op, BinaryOp.ofCompound? s = some op) :
    Meets (assignment inner t s x) n (us ++ [t]) Written := by
  rw [assignment]
  by_cases hv : validTarget s x = true
  · rw [if_pos hv]
    refine .bind (hi _) (by simp; omega) fun vs y hy => ?_
    obtain rfl | rfl | ⟨op, hop⟩ := hs
    · refine .pure ?_
      simpa using Written.assign hx (isTarget_of_validTarget hv fun _ => rfl) ht hy
    · refine .pure ?_
      have hk : Expr.IsTarget .update x := isTarget_of_validTarget hv nofun
      simpa using Written.assign hx hk ht hy
    · have hw : s ≠ .walrus := by rintro rfl; simp [BinaryOp.ofCompound?] at hop
      simp only [hop]
      refine .pure ?_
      simpa using Written.compound hx (isTarget_of_validTarget hv nofun) ht hop hy
  · rw [if_neg hv]
    exact .fail (by simp) fun _ => rfl

theorem meets_operation {t : Token} {s : Symbol} {us : List Token} {x : Expr}
    (ht : t.kind = .symbol s)
    (hx : Written us x) (hl : Level.ofSymbol s ≠ .lowest) {N : Nat} (hn : n ≤ m)
    (hN : N ≤ n + us.length + 1) : Meets (operation inner n t s x) N (us ++ [t]) Written := by
  have hm : N ≤ m + (us ++ [t]).length := by simp; omega
  unfold operation
  split
  · refine .bind (meets_items hi .rparen hn) (by simp; omega) ?_
    rintro vs _ ⟨items, rfl, hi, hl⟩
    refine .pure ?_
    simpa using Written.call hx ht hi hl
  · refine .bind (hi _) hm fun vs y hy => .expect fun r hr => .pure ?_
    simpa using Written.index hx ht hy hr
  · refine .bind (hi _) hm fun vs y hy => .pure ?_
    simpa using Written.range hx ht hy
  · refine .bind (hi _) hm fun vs y hy => .pure ?_
    simpa using Written.and hx ht hy
  · refine .bind (hi _) hm fun vs y hy => .pure ?_
    simpa using Written.or hx ht hy
  · rename_i h1 h2 h3 h4 h5
    cases hb : BinaryOp.ofSymbol? s with
    | some op =>
      refine .bind (hi _) hm fun vs y hy => .pure ?_
      simpa using Written.binary hx (eq_symbol_of_ofSymbol? hb ▸ ht) hy
    | none =>
      refine meets_assignment hi ht hx (by omega) (assigns_of_ofSymbol? hl hb ?_)
      simpa using ⟨h1, h2, h3, h4, h5⟩

theorem meets_operations {level : Level} {us : List Token} {x : Expr} (hx : Written us x)
    (hn : n ≤ m)
    {N : Nat} (hN : N ≤ n + us.length) : Meets (operations inner level n x) N us Written := by
  induction n generalizing us x with
  | zero =>
    intro ts hl
    simp only [List.length_append] at hl
    omega
  | succ n ih =>
    have hstop : ∀ ts, Outcome us ts Written ((pure x : Parser Expr) ts) :=
      fun ts => ⟨[], rfl, by simpa⟩
    rw [operations]
    refine .peek (fun _ => hstop []) fun t ts hl => ?_
    obtain ⟨k, i, j⟩ := t
    cases k with
    | symbol s =>
      simp only
      by_cases hs : level.rank < (Level.ofSymbol s).rank
      · rw [if_pos hs]
        have hne : Level.ofSymbol s ≠ .lowest := by
          intro h
          rw [h] at hs
          exact absurd hs (Nat.not_lt_zero _)
        have hop : Meets (operation inner n ⟨.symbol s, i, j⟩ s x >>= operations inner level n) N
            (us ++ [⟨.symbol s, i, j⟩]) Written := by
          refine (meets_operation hi rfl hx hne (by omega) (by omega)).andThen fun vs y hy => ?_
          exact ih hy (by omega) (by simp; omega)
        change Outcome us ([_] ++ ts) Written _
        exact (hop ts (by simpa using hl)).of_append
      · rw [if_neg hs]
        exact hstop _
    | _ => exact hstop _

end Constructs

theorem meets_expression (n : Nat) (level : Level) : Meets (expression n level) n [] Written := by
  induction n generalizing level with
  | zero => exact fun ts hl => absurd hl (Nat.not_lt_zero _)
  | succ n ih =>
    rw [expression]
    refine .next (x := .expression) rfl fun t => ?_
    refine (meets_operand ih t).andThen fun us x hx => ?_
    have hu := List.length_pos_iff.2 hx.ne_nil
    exact meets_operations ih hx n.le_refl (by omega)

end YeetYoink.Parser
