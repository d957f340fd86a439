import YeetYoink.Proofs.Expr.Letters
import YeetYoink.Proofs.Expr.Written

/-!
# Loops without a condition

A brace after `yoyo` is its body, and the condition filled in is printed as `true`. So every such
place in the tokens of an expression adds a letter to its text (`Written.cost_le`).
-/

namespace YeetYoink

/-- How often a brace follows `yoyo`. -/
def loops : List Token.Kind → Nat
  | .keyword .yoyo :: .symbol .lbrace :: ks => loops ks + 1
  | _ :: ks => loops ks
  | [] => 0

theorem loops_cons {k : Token.Kind} (h : k ≠ .keyword .yoyo) (ks : List Token.Kind) :
    loops (k :: ks) = loops ks := by
  rw [loops]
  rintro ks' rfl
  exact absurd rfl h

theorem loops_yoyo {ks : List Token.Kind} (h : ks.head? ≠ some (.symbol .lbrace)) :
    loops (.keyword .yoyo :: ks) = loops ks := by
  rw [loops]
  rintro ks' _ rfl
  exact h rfl

theorem loops_append {ks : List Token.Kind} (h : ks.getLast? ≠ some (.keyword .yoyo))
    (ls : List Token.Kind) : loops (ks ++ ls) = loops ks + loops ls := by
  fun_induction loops ks with
  | case1 ks ih =>
    have hl : ks.getLast? ≠ some (.keyword .yoyo) := fun hk => h (by simp [List.getLast?_cons, hk])
    simp only [List.cons_append, loops, ih hl]
    omega
  | case2 k ks hk ih =>
    cases ks with
    | nil => simpa [loops] using loops_cons (by simpa using h) ls
    | cons k' ks =>
      have hcons : loops (k :: (k' :: ks ++ ls)) = loops (k' :: ks ++ ls) := by
        rw [List.cons_append, loops]
        rintro ks' rfl heq
        exact hk ks rfl (by rw [(List.cons.inj heq).1])
      exact hcons.trans (ih (by simpa using h))
  | case3 => simp

/-! ### Tokens -/

/-- The letters of the tokens, and one for each loop without a condition. -/
def cost (ts : List Token) : Nat := kindLetters (ts.map (·.kind)) + loops (ts.map (·.kind))

/-- Tokens that a brace may follow without being the body of a loop. -/
def Closed (ts : List Token) : Prop := ∀ t ∈ ts.getLast?, t.kind ≠ .keyword .yoyo

@[simp] theorem cost_nil : cost [] = 0 := rfl

theorem cost_cons {t : Token} (h : t.kind ≠ .keyword .yoyo) (ts : List Token) :
    cost (t :: ts) = t.kind.letters + cost ts := by
  simp only [cost, List.map_cons, kindLetters_cons, loops_cons h]
  omega

theorem cost_yoyo {t : Token} (ht : t.kind = .keyword .yoyo) {ts : List Token}
    (h : ∀ u ∈ ts.head?, u.kind ≠ .symbol .lbrace) : cost (t :: ts) = cost ts := by
  have hk : (ts.map (·.kind)).head? ≠ some (.symbol .lbrace) := by
    rw [List.head?_map]
    intro hk
    obtain ⟨u, hu, hl⟩ := Option.map_eq_some_iff.1 hk
    exact h u hu hl
  rw [cost, cost, List.map_cons, ht, loops_yoyo hk, kindLetters_cons]
  exact Nat.zero_add _ ▸ rfl

theorem cost_yoyo_le {t : Token} (ht : t.kind = .keyword .yoyo) (ts : List Token) :
    cost (t :: ts) ≤ cost ts + 1 := by
  have hl : ∀ ks, loops (.keyword .yoyo :: ks) ≤ loops ks + 1 := by
    intro ks
    by_cases hk : ks.head? = some (.symbol .lbrace)
    · obtain ⟨ks, rfl⟩ := List.head?_eq_some_iff.1 hk
      rw [loops, loops_cons (by simp)]
    · rw [loops_yoyo hk]
      exact Nat.le_succ _
  have hz : (Token.Kind.keyword .yoyo).letters = 0 := rfl
  have := hl (ts.map (·.kind))
  rw [cost, cost, List.map_cons, ht, kindLetters_cons]
  omega

/-- A symbol costs nothing. -/
theorem cost_symbol {t : Token} {s : Symbol} (h : t.kind = .symbol s) (ts : List Token) :
    cost (t :: ts) = cost ts := by
  rw [cost_cons (by simp [h]), h, letters_symbol, Nat.zero_add]

theorem cost_append {us : List Token} (h : Closed us) (vs : List Token) :
    cost (us ++ vs) = cost us + cost vs := by
  have hk : (us.map (·.kind)).getLast? ≠ some (.keyword .yoyo) := by
    rw [List.getLast?_map]
    intro hk
    obtain ⟨t, ht, hy⟩ := Option.map_eq_some_iff.1 hk
    exact h t ht hy
  simp only [cost, List.map_append, kindLetters_append, loops_append hk]
  omega

theorem closed_nil : Closed [] := nofun

theorem closed_append (us : List Token) {vs : List Token} (h : Closed vs) (hne : vs ≠ []) :
    Closed (us ++ vs) := by
  rwa [Closed, List.getLast?_append_of_ne_nil _ hne]

theorem closed_cons {t : Token} {ts : List Token} (h : Closed ts) (hne : ts ≠ []) :
    Closed (t :: ts) :=
  closed_append [t] h hne

theorem closed_single {t : Token} (h : t.kind ≠ .keyword .yoyo) : Closed [t] := by
  rintro _ ⟨⟩
  exact h

theorem closed_symbol {t : Token} {s : Symbol} (h : t.kind = .symbol s) : Closed [t] :=
  closed_single (by simp [h])

/-! ### Lists of parts -/

theorem Listed.closed {close : Symbol} {parts : List (List Token)} {ts : List Token}
    (h : Listed close parts ts) : Closed ts ∧ ts ≠ [] := by
  induction h with
  | nil hc => exact ⟨closed_symbol hc, by simp⟩
  | last hc => exact ⟨closed_append _ (closed_symbol hc) (by simp), by simp⟩
  | cons _ _ ih => exact ⟨closed_append _ (closed_cons ih.1 ih.2) (by simp), by simp⟩

theorem Lined.closed {parts : List (List Token)} {ts : List Token} (h : Lined parts ts) :
    Closed ts ∧ ts ≠ [] := by
  induction h with
  | nil hc => exact ⟨closed_symbol hc, by simp⟩
  | semicolon _ _ ih => exact ⟨closed_cons ih.1 ih.2, by simp⟩
  | cons _ ih => exact ⟨closed_append _ ih.1 ih.2, by simp [ih.2]⟩

theorem Braced.closed {parts : List (List Token)} {ts : List Token} (h : Braced parts ts) :
    Closed ts := by
  cases h with
  | mk _ h => exact closed_cons h.closed.1 h.closed.2

theorem Listed.cost_eq {close : Symbol} {parts : List (List Token)} {ts : List Token}
    (h : Listed close parts ts) (hp : ∀ us ∈ parts, Closed us) :
    cost ts = (parts.map cost).sum := by
  induction h with
  | nil hc => simp [cost_symbol hc]
  | last hc => simp [cost_append (hp _ (.head _)), cost_symbol hc]
  | cons hc _ ih =>
    rw [List.forall_mem_cons] at hp
    rw [cost_append hp.1, cost_symbol hc, ih hp.2, List.map_cons, List.sum_cons]

theorem Lined.cost_eq {parts : List (List Token)} {ts : List Token} (h : Lined parts ts)
    (hp : ∀ us ∈ parts, Closed us) : cost ts = (parts.map cost).sum := by
  induction h with
  | nil hc => simp [cost_symbol hc]
  | semicolon hc _ ih => rw [cost_symbol hc, ih hp]
  | cons _ ih =>
    rw [List.forall_mem_cons] at hp
    rw [cost_append hp.1, ih hp.2, List.map_cons, List.sum_cons]

/-- Tokens that cost no more than the text of the expression. -/
structure Fits (ts : List Token) (e : Expr) : Prop where
  closed : Closed ts
  cost_le : cost ts ≤ kindLetters e.kinds

section

variable {items : List (List Token × Expr)} {ts : List Token}

theorem closed_items (h : ∀ p ∈ items, Fits p.1 p.2) : ∀ us ∈ items.map (·.1), Closed us := by
  intro us hu
  obtain ⟨p, hp, rfl⟩ := List.mem_map.1 hu
  exact (h p hp).closed

theorem cost_items_le (h : ∀ p ∈ items, Fits p.1 p.2) (s : Symbol) :
    ((items.map (·.1)).map cost).sum ≤
      kindLetters (Expr.joinKinds s (Expr.kindsAll (items.map (·.2)))) := by
  rw [Expr.kindsAll_eq, Expr.kindLetters_joinKinds, List.map_map, List.map_map]
  exact List.sum_le_sum fun p hp => (h p hp).cost_le

theorem Listed.cost_le {close : Symbol} (hl : Listed close (items.map (·.1)) ts)
    (h : ∀ p ∈ items, Fits p.1 p.2) :
    cost ts ≤ kindLetters (Expr.joinKinds .comma (Expr.kindsAll (items.map (·.2)))) :=
  (hl.cost_eq (closed_items h)).trans_le (cost_items_le h .comma)

theorem Braced.cost_le (hb : Braced (items.map (·.1)) ts) (h : ∀ p ∈ items, Fits p.1 p.2) :
    cost ts ≤ kindLetters (Expr.blockKinds (Expr.kindsAll (items.map (·.2)))) := by
  cases hb with
  | mk hl hb =>
    have hle := cost_items_le h .semicolon
    rw [← hb.cost_eq (closed_items h)] at hle
    rw [cost_symbol hl]
    simpa [Expr.blockKinds] using hle

end

theorem Named.closed {xs : List String} {ts : List Token} (h : Named xs ts) : Closed ts := by
  induction h with
  | nil => exact closed_nil
  | @comma c ts xs hc h ih =>
    cases ts with
    | nil => exact closed_symbol hc
    | cons u us => exact closed_cons ih (by simp)
  | @cons t x ts xs ht h ih =>
    cases ts with
    | nil => exact closed_single (by simp [ht])
    | cons u us => exact closed_cons ih (by simp)

theorem Named.cost_eq {xs : List String} {ts : List Token} (h : Named xs ts) :
    cost ts = kindLetters (Expr.paramKinds xs) := by
  rw [Expr.paramKinds, Expr.kindLetters_joinKinds]
  induction h with
  | nil => rfl
  | comma hc h ih => rw [cost_symbol hc, ih]
  | cons ht h ih =>
    rw [cost_cons (by simp [ht]), ih, ht]
    simp

theorem Params.fits {xs : List String} {ts : List Token} (h : Params xs ts) :
    Closed ts ∧ cost ts = kindLetters (Expr.paramKinds xs) := by
  cases h with
  | plain h => exact ⟨h.closed, h.cost_eq⟩
  | paren hl h hr =>
    refine ⟨closed_append _ (closed_symbol hr) (by simp), ?_⟩
    rw [List.cons_append, cost_symbol hl, cost_append h.closed, cost_symbol hr, cost_nil, h.cost_eq,
      Nat.add_zero]

/-! ### Expressions -/

/-- Two operands with a symbol between them. -/
theorem Fits.operator {us vs : List Token} {x y : Expr} {t : Token} {s : Symbol} (hx : Fits us x)
    (hy : Fits vs y) (hne : vs ≠ []) (ht : t.kind = .symbol s) :
    Closed (us ++ t :: vs) ∧ cost (us ++ t :: vs) ≤ kindLetters x.kinds + kindLetters y.kinds := by
  refine ⟨closed_append _ (closed_cons hy.closed hne) (by simp), ?_⟩
  rw [cost_append hx.closed, cost_symbol ht]
  exact Nat.add_le_add hx.cost_le hy.cost_le

/-- A condition or a source in front of a block. -/
theorem Fits.headed {us ts : List Token} {x : Expr} {body : List (List Token × Expr)}
    (hx : Fits us x) (hs : Braced (body.map (·.1)) ts) (hb : ∀ p ∈ body, Fits p.1 p.2) :
    Closed (us ++ ts) ∧ cost (us ++ ts) ≤
      kindLetters x.kinds + kindLetters (Expr.blockKinds (Expr.kindsAll (body.map (·.2)))) := by
  refine ⟨closed_append _ hs.closed hs.ne_nil, ?_⟩
  rw [cost_append hx.closed]
  exact Nat.add_le_add hx.cost_le (hs.cost_le hb)

theorem Hole.IsClosed.letters {h : Hole} (hc : h.IsClosed) :
    h.closer.kind ≠ .keyword .yoyo ∧ h.closer.kind.letters = letters h.text := by
  rcases hc with hk | hk <;> exact ⟨by simp [hk], by rw [hk]; rfl⟩

theorem closed_holes {t : Token} (ht : t.kind ≠ .keyword .yoyo) {holes : List Hole}
    (hc : ∀ h ∈ holes, h.IsClosed) :
    Closed (t :: holes.flatMap fun h => h.tokens ++ [h.closer]) := by
  induction holes generalizing t with
  | nil => exact closed_single ht
  | cons h holes ih =>
    rw [List.forall_mem_cons] at hc
    have hrest := closed_append (t :: h.tokens) (ih hc.1.letters.1 hc.2) (by simp)
    simpa using hrest

theorem cost_holes {holes : List Hole} (hf : ∀ h ∈ holes, Fits h.tokens h.value)
    (hc : ∀ h ∈ holes, h.IsClosed) :
    cost (holes.flatMap fun h => h.tokens ++ [h.closer]) ≤
      kindLetters (Expr.holeKinds (holes.map (·.text.toList))
        ((holes.map (·.value)).map Expr.kinds)) := by
  induction holes with
  | nil => simp
  | cons h holes ih =>
    rw [List.forall_mem_cons] at hf hc
    have ih := ih hf.2 hc.2
    have hle := hf.1.cost_le
    rw [List.flatMap_cons, List.append_assoc, cost_append hf.1.closed, List.singleton_append,
      cost_cons hc.1.letters.1, hc.1.letters.2]
    cases holes with
    | nil =>
      simp only [List.map_cons, List.map_nil, Expr.holeKinds, kindLetters_append, kindLetters_cons,
        Token.Kind.letters, String.ofList_toList, List.flatMap_nil, cost_nil, kindLetters_nil]
      omega
    | cons h' holes =>
      simp only [List.map_cons, Expr.holeKinds, kindLetters_append, kindLetters_cons,
        Token.Kind.letters, String.ofList_toList] at ih ⊢
      omega

theorem cost_pairs_le {pairs : List WrittenPair} (hk : ∀ p ∈ pairs, Fits p.keyTokens p.key)
    (hc : ∀ p ∈ pairs, p.colon.kind = .symbol .colon)
    (hv : ∀ p ∈ pairs, Fits p.valueTokens p.value) :
    ((pairs.map (·.tokens)).map cost).sum ≤
      kindLetters (Expr.joinKinds .comma
        (Expr.kindsPairs (pairs.map fun p => (p.key, p.value)))) := by
  rw [Expr.kindsPairs_eq, Expr.kindLetters_joinKinds, List.map_map, List.map_map]
  refine List.sum_le_sum fun p hp => ?_
  simp only [Function.comp_apply, WrittenPair.tokens, cost_append (hk p hp).closed,
    cost_symbol (hc p hp), kindLetters_append, kindLetters_cons, letters_symbol, Nat.zero_add]
  exact Nat.add_le_add (hk p hp).cost_le (hv p hp).cost_le

theorem Written.fits {ts : List Token} {e : Expr} (h : Written ts e) : Fits ts e := by
  induction h with
  | ident ht | str ht | true ht | false ht | null ht | int ht | num ht =>
    refine ⟨closed_single (by simp [ht]), ?_⟩
    rw [cost_cons (by simp [ht]), ht]
    simp [Expr.kinds, Token.Kind.letters]
  | @template t text ht =>
    refine ⟨closed_single (by simp [ht]), ?_⟩
    have hseg := Template.segments_encode text.toList []
    rw [Template.encode, List.flatMap_nil, List.append_nil] at hseg
    rw [cost_cons (by simp [ht]), ht, Expr.kinds, String.toList_ofList, hseg]
    simp [Expr.templateKinds, Token.Kind.letters]
  | @templateHoles t head holes ht _ hc ih =>
    refine ⟨closed_holes (by simp [ht]) hc.isClosed, ?_⟩
    have hseg := Template.segments_encode head.toList (holes.map (·.text.toList))
    have hle := cost_holes ih hc.isClosed
    rw [cost_cons (by simp [ht]), ht, Expr.kinds, String.toList_ofList, hseg, Expr.kindsAll_eq]
    cases holes <;> simp_all [Expr.templateKinds, Token.Kind.letters]
  | array ht _ hl ih =>
    refine ⟨closed_cons hl.closed.1 hl.closed.2, ?_⟩
    rw [cost_symbol ht]
    simpa [Expr.kinds] using hl.cost_le ih
  | @dict _ _ pairs ht _ hc hv hl ihk ihv =>
    have hparts : ∀ us ∈ pairs.map (·.tokens), Closed us := by
      intro us hu
      obtain ⟨p, hp, rfl⟩ := List.mem_map.1 hu
      exact ((ihk p hp).operator (ihv p hp) (hv p hp).ne_nil (hc p hp)).1
    refine ⟨closed_cons hl.closed.1 hl.closed.2, ?_⟩
    rw [cost_symbol ht, hl.cost_eq hparts]
    simpa [Expr.kinds] using cost_pairs_le ihk hc ihv
  | paren hl h hr ih =>
    refine ⟨closed_append _ (closed_symbol hr) (by simp), ?_⟩
    rw [List.cons_append, cost_symbol hl, cost_append ih.closed, cost_symbol hr]
    exact ih.cost_le
  | unary ht h ih =>
    refine ⟨closed_cons ih.closed h.ne_nil, ?_⟩
    rw [cost_symbol ht]
    simpa [Expr.kinds] using ih.cost_le
  | binary _ ht hy ihx ihy | range _ ht hy ihx ihy | and _ ht hy ihx ihy | or _ ht hy ihx ihy
  | assign _ _ ht hy ihx ihy =>
    obtain ⟨hc, hle⟩ := ihx.operator ihy hy.ne_nil ht
    exact ⟨hc, by simpa [Expr.kinds] using hle⟩
  | compound _ _ ht _ hy ihx ihy =>
    obtain ⟨hc, hle⟩ := ihx.operator ihy hy.ne_nil ht
    refine ⟨hc, hle.trans ?_⟩
    simp [Expr.kinds]
  | index _ hl hy hr ihx ihy =>
    refine ⟨closed_append _ (closed_cons (closed_append _ (closed_symbol hr) (by simp)) (by simp))
      (by simp), ?_⟩
    rw [cost_append ihx.closed, cost_symbol hl, cost_append ihy.closed, cost_symbol hr]
    simpa [Expr.kinds] using Nat.add_le_add ihx.cost_le ihy.cost_le
  | call _ hl _ hs ihx iha =>
    refine ⟨closed_append _ (closed_cons hs.closed.1 hs.closed.2) (by simp), ?_⟩
    rw [cost_append ihx.closed, cost_symbol hl]
    simpa [Expr.kinds] using Nat.add_le_add ihx.cost_le (hs.cost_le iha)
  | block _ hs ih => exact ⟨hs.closed, by simpa [Expr.kinds] using hs.cost_le ih⟩
  | yif ht _ _ hs ihx ihb =>
    obtain ⟨hc, hle⟩ := ihx.headed hs ihb
    refine ⟨closed_cons hc (by simp [hs.ne_nil]), ?_⟩
    rw [List.cons_append, cost_cons (by simp [ht]), ht]
    simpa [Expr.kinds] using hle
  | yels ht _ _ hs he _ hs' ihx ihb iho =>
    obtain ⟨hc, hle⟩ := ihx.headed hs ihb
    have hle' := hs'.cost_le iho
    refine ⟨closed_append _ (closed_cons hs'.closed hs'.ne_nil) (by simp), ?_⟩
    rw [List.cons_append, List.cons_append, cost_cons (by simp [ht]), ht, cost_append hc,
      cost_cons (by simp [he]), he]
    simp only [Expr.kinds, List.cons_append, kindLetters_append, kindLetters_cons]
    omega
  | @yelsYif _ _ _ _ _ _ y _ ht _ _ hs he hy ihx ihb ihy =>
    obtain ⟨hc, hle⟩ := ihx.headed hs ihb
    have hle' := ihy.cost_le
    have hblock : kindLetters (Expr.blockKinds (Expr.kindsAll [y])) = kindLetters y.kinds := by
      simp [Expr.blockKinds, Expr.kindsAll, Expr.joinKinds]
    refine ⟨closed_append _ (closed_cons ihy.closed hy.ne_nil) (by simp), ?_⟩
    rw [List.cons_append, List.cons_append, cost_cons (by simp [ht]), ht, cost_append hc,
      cost_cons (by simp [he]), he]
    simp only [Expr.kinds, List.cons_append, kindLetters_append, kindLetters_cons, hblock]
    omega
  | forever ht _ hs ih =>
    -- The filled-in condition pays for the brace.
    have hle := hs.cost_le ih
    refine ⟨closed_cons hs.closed hs.ne_nil, ?_⟩
    refine (cost_yoyo_le ht _).trans ?_
    have htrue : (Token.Kind.keyword .true).letters = 1 := rfl
    simp only [Expr.kinds, if_true, List.cons_append, kindLetters_cons, htrue, List.nil_append]
    omega
  | yoyo ht hx hl _ hs ihx ihb =>
    obtain ⟨hc, hle⟩ := ihx.headed hs ihb
    refine ⟨closed_cons hc (by simp [hs.ne_nil]), ?_⟩
    rw [List.cons_append, cost_yoyo ht (by simpa [List.head?_append, hx.ne_nil] using hl)]
    simpa [Expr.kinds] using Nat.le_add_left_of_le hle
  | yall ht _ _ hs ihx ihb =>
    obtain ⟨hc, hle⟩ := ihx.headed hs ihb
    refine ⟨closed_cons hc (by simp [hs.ne_nil]), ?_⟩
    rw [List.cons_append, cost_cons (by simp [ht]), ht]
    simp only [Expr.kinds, List.cons_append, kindLetters_append, kindLetters_cons]
    omega
  | yallKey ht hk hc _ _ hs ihk ihx ihb =>
    obtain ⟨hcl, hle⟩ := ihx.headed hs ihb
    have hkey := ihk.cost_le
    refine ⟨closed_append _ hs.closed hs.ne_nil, ?_⟩
    rw [List.cons_append, List.cons_append, List.append_assoc, List.cons_append,
      cost_cons (by simp [ht]), ht, cost_append ihk.closed, cost_symbol hc]
    simp only [Expr.kinds, List.cons_append, kindLetters_append, kindLetters_cons, kindLetters_nil,
      letters_symbol] at hkey ⊢
    omega
  | yeetNull ht =>
    refine ⟨closed_single (by simp [ht]), ?_⟩
    rw [cost_cons (by simp [ht]), ht]
    simp [Expr.kinds]
  | yeet ht hx ih =>
    have hle := ih.cost_le
    refine ⟨closed_cons ih.closed hx.ne_nil, ?_⟩
    rw [cost_cons (by simp [ht]), ht]
    simpa [Expr.kinds] using hle
  | yolo ht _ hs ih =>
    refine ⟨closed_cons hs.closed hs.ne_nil, ?_⟩
    rw [cost_cons (by simp [ht]), ht]
    simpa [Expr.kinds] using hs.cost_le ih
  | lambda ht hx _ hs ih | macroLit ht hx _ hs ih =>
    refine ⟨closed_append _ hs.closed hs.ne_nil, ?_⟩
    rw [List.cons_append, cost_symbol ht, cost_append hx.fits.1, hx.fits.2]
    simpa [Expr.kinds] using hs.cost_le ih

/-! ### Conditions with a brace first -/

theorem loops_le_cons (k : Token.Kind) (ks : List Token.Kind) : loops ks ≤ loops (k :: ks) := by
  by_cases hk : k = .keyword .yoyo
  · by_cases hl : ks.head? = some (.symbol .lbrace)
    · obtain ⟨ks, rfl⟩ := List.head?_eq_some_iff.1 hl
      rw [hk, loops, loops_cons (by simp)]
      exact Nat.le_succ _
    · rw [hk, loops_yoyo hl]
  · rw [loops_cons hk]

theorem loops_pos_of_infix {ks : List Token.Kind}
    (h : [.keyword .yoyo, .symbol .lbrace] <:+: ks) : 0 < loops ks := by
  obtain ⟨us, vs, rfl⟩ := h
  induction us with
  | nil => simp [loops]
  | cons u us ih => exact Nat.lt_of_lt_of_le ih (loops_le_cons ..)

namespace Expr

open List (infix_cons infix_append_of_infix_left infix_append_of_infix_right infix_rfl)

theorem mem_infix_joinKinds {s : Symbol} {items : List (List Token.Kind)} {ks : List Token.Kind}
    (h : ks ∈ items) : ks <:+: joinKinds s items := by
  induction items with
  | nil => simp at h
  | cons x items ih =>
    cases items with
    | nil =>
      obtain rfl : ks = x := by simpa using h
      simp [joinKinds]
    | cons y items =>
      simp only [joinKinds, List.intercalate_cons_cons] at ih ⊢
      rcases List.mem_cons.1 h with rfl | h
      · exact infix_append_of_infix_left (infix_append_of_infix_left infix_rfl)
      · exact infix_append_of_infix_right (ih h)

theorem infix_joinKinds {s : Symbol} {items : List Expr} {c : Expr} (h : c ∈ items) :
    c.kinds <:+: joinKinds s (kindsAll items) := by
  rw [kindsAll_eq]
  exact mem_infix_joinKinds (List.mem_map_of_mem h)

theorem infix_blockKinds {body : List Expr} {c : Expr} (h : c ∈ body) :
    c.kinds <:+: blockKinds (kindsAll body) :=
  infix_append_of_infix_left (infix_cons (infix_joinKinds h))

theorem infix_holeKinds {tails : List (List Char)} {values : List Expr} {v : Expr}
    (hl : tails.length = values.length) (h : v ∈ values) :
    v.kinds <:+: holeKinds tails (values.map kinds) := by
  induction tails generalizing values with
  | nil =>
    obtain rfl := List.eq_nil_of_length_eq_zero hl.symm
    simp at h
  | cons t tails ih =>
    obtain ⟨w, values, rfl⟩ := List.exists_cons_of_length_pos (l := values) (by simp at hl; omega)
    have hl : tails.length = values.length := by simpa using hl
    rw [List.mem_cons] at h
    cases tails with
    | nil =>
      obtain rfl := List.eq_nil_of_length_eq_zero hl.symm
      obtain rfl : v = w := by simpa using h
      exact infix_append_of_infix_left infix_rfl
    | cons t' tails =>
      rw [List.map_cons, holeKinds]
      · rcases h with rfl | h
        · exact infix_append_of_infix_left infix_rfl
        · exact infix_append_of_infix_right (infix_cons (ih hl h))
      · simp

theorem infix_template {text : String} {values : List Expr} {v : Expr}
    (ht : IsTemplate text values.length) (hv : v ∈ values) :
    v.kinds <:+: (Expr.template text values).kinds := by
  obtain ⟨head, tails, rfl, hl, -, -⟩ := ht
  have hi := infix_holeKinds hl hv
  have hne : tails ≠ [] := by
    rintro rfl
    obtain rfl := List.eq_nil_of_length_eq_zero hl.symm
    simp at hv
  obtain ⟨t, tails, rfl⟩ := List.exists_cons_of_ne_nil hne
  rw [kinds, String.toList_ofList, Template.segments_encode, kindsAll_eq]
  exact infix_cons hi

theorem infix_dict {pairs : List (Expr × Expr)} {c : Expr} (hc : c ∈ (dict pairs).children) :
    c.kinds <:+: (dict pairs).kinds := by
  obtain ⟨p, hp, hc⟩ := List.mem_flatMap.1 hc
  have hpair : c.kinds <:+: p.1.kinds ++ .symbol .colon :: p.2.kinds := by
    rcases List.mem_pair.1 hc with rfl | rfl
    · exact infix_append_of_infix_left infix_rfl
    · exact infix_append_of_infix_right (infix_cons infix_rfl)
  rw [kinds, kindsPairs_eq]
  exact infix_append_of_infix_left (infix_cons
    (hpair.trans (mem_infix_joinKinds (List.mem_map.2 ⟨p, hp, rfl⟩))))

/-- The tokens of a part are among those of the whole. -/
theorem infix_kinds {e c : Expr} (hr : Readable e) (hc : c ∈ e.children) :
    c.kinds <:+: e.kinds := by
  cases e with
  | template text values => exact infix_template hr hc
  | array items =>
    rw [kinds]
    exact infix_append_of_infix_left (infix_cons (infix_joinKinds hc))
  | dict pairs => exact infix_dict hc
  | range first last | binary op first last | and first last | or first last | index first last
  | assign op first last =>
    rw [kinds]
    rcases List.mem_pair.1 hc with rfl | rfl
    · exact infix_append_of_infix_left (infix_append_of_infix_left (infix_cons infix_rfl))
    · exact infix_append_of_infix_left (infix_append_of_infix_right (infix_cons infix_rfl))
  | unary op operand =>
    obtain rfl := List.mem_singleton.1 hc
    rw [kinds]
    exact infix_append_of_infix_left (infix_cons (infix_cons infix_rfl))
  | yeet value =>
    obtain rfl := List.mem_singleton.1 hc
    rw [kinds]
    exact infix_append_of_infix_left (infix_cons (infix_cons infix_rfl))
  | call callee args =>
    rw [kinds]
    rcases List.mem_cons.1 hc with rfl | hc
    · exact infix_append_of_infix_left (infix_append_of_infix_left infix_rfl)
    · exact infix_append_of_infix_left
        (infix_append_of_infix_right (infix_cons (infix_joinKinds hc)))
  | block body =>
    rw [kinds]
    exact infix_blockKinds hc
  | yif condition body otherwise =>
    cases otherwise with
    | none =>
      rw [kinds]
      rcases List.mem_cons.1 hc with rfl | hc
      · exact infix_append_of_infix_left (infix_cons infix_rfl)
      · exact infix_append_of_infix_right (infix_blockKinds hc)
    | some otherwise =>
      rw [kinds]
      rcases List.mem_cons.1 hc with rfl | hc
      · exact infix_append_of_infix_left (infix_append_of_infix_left (infix_cons infix_rfl))
      rcases List.mem_append.1 hc with hc | hc
      · exact infix_append_of_infix_left (infix_append_of_infix_right (infix_blockKinds hc))
      · exact infix_append_of_infix_right (infix_cons (infix_blockKinds hc))
  | yoyo condition body =>
    rw [kinds]
    rcases List.mem_cons.1 hc with rfl | hc
    · exact infix_append_of_infix_left (infix_cons infix_rfl)
    · exact infix_append_of_infix_right (infix_blockKinds hc)
  | yall key source body =>
    rw [kinds]
    rcases List.mem_cons.1 hc with rfl | hc
    · exact infix_append_of_infix_left (infix_cons (infix_cons (infix_cons infix_rfl)))
    · exact infix_append_of_infix_right (infix_blockKinds hc)
  | yolo body =>
    rw [kinds]
    exact infix_cons (infix_blockKinds hc)
  | lambda params body | macroLit params body =>
    rw [kinds]
    exact infix_append_of_infix_right (infix_blockKinds hc)
  | _ => simp [children] at hc

theorem kinds_of_opensBlock {e : Expr} (h : e.opensBlock = true) :
    ∃ ks, e.kinds = .symbol .lbrace :: ks := by
  induction e using Expr.induct with
  | block body => exact ⟨_, by rw [kinds, blockKinds, List.cons_append]⟩
  | call callee args ih _ =>
    obtain ⟨ks, hks⟩ := ih h
    exact ⟨_, by rw [kinds, hks, List.cons_append, List.cons_append]⟩
  | _ => simp [opensBlock] at h

/-- A condition with a brace first has the brace right behind its `yoyo`. -/
theorem infix_of_not_loopGuarded {e : Expr} (hr : e.Throughout Readable)
    (h : ¬ e.Throughout LoopGuarded) :
    [.keyword .yoyo, .symbol .lbrace] <:+: e.kinds := by
  induction e using Expr.inductChildren with
  | step e ih =>
    by_cases hc : ∀ c ∈ e.children, c.Throughout LoopGuarded
    · have he : ¬ LoopGuarded e := fun he => h (throughout_iff.2 ⟨hc, he⟩)
      cases e with
      | yoyo condition body =>
        obtain ⟨ks, hks⟩ := kinds_of_opensBlock (Bool.eq_true_of_not_eq_false he)
        rw [kinds, hks]
        exact (List.prefix_append _ _).isInfix
      | _ => exact absurd trivial he
    · rw [not_forall] at hc
      obtain ⟨c, hc⟩ := hc
      rw [Classical.not_imp] at hc
      exact (ih c hc.1 (hr.child hc.1) hc.2).trans (infix_kinds hr.here hc.1)

end Expr

end YeetYoink
