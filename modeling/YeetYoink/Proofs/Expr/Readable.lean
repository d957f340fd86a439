import YeetYoink.Proofs.Decimal.RoundTrip
import YeetYoink.Proofs.Expr.Written
import YeetYoink.Proofs.Token.Valid

/-!
# The nodes of written expressions

Every node of an expression is `Formed` from the tokens that the expression is written with: this is
where the names, numbers and templates of a syntax tree come from. With the tokens of a source its
nodes are `Readable`.
-/

namespace YeetYoink

/-- Tokens whose kinds have a property. -/
def AllKinds (V : Token.Kind → Prop) (ts : List Token) : Prop := ∀ t ∈ ts, V t.kind

/-- What a node owes to the tokens of which it is made, if their kinds have a property. -/
def Expr.Formed (V : Token.Kind → Prop) : Expr → Prop
  | .ident name => V (.ident name)
  | .int n => ∃ text, V (.int text) ∧ Decimal.toInt64? text.toList = some n
  | .num x => ∃ text, V (.float text) ∧ Decimal.toFloat? text.toList = some x
  | .template text values => ∃ (head : String) (tails : List String),
      text = String.ofList (Template.encode head.toList (tails.map String.toList)) ∧
        tails.length = values.length ∧ (V (.template head) ∨ V (.templateHead head)) ∧
        ∀ tail ∈ tails, V (.templateMiddle tail) ∨ V (.templateTail tail)
  | .assign kind target _ => IsTarget kind target
  | .yall key _ _ => key = Parser.defaultKey ∨ V (.ident key)
  | .lambda params _ => ∀ p ∈ params, V (.ident p)
  | .macroLit params _ => V (.symbol .atBackslash) ∧ ∀ p ∈ params, V (.ident p)
  | .bad _ => False
  | _ => True

section

variable {V : Token.Kind → Prop}

@[simp] theorem allKinds_nil : AllKinds V [] := by simp [AllKinds]

@[simp] theorem allKinds_cons {t : Token} {ts : List Token} :
    AllKinds V (t :: ts) ↔ V t.kind ∧ AllKinds V ts := List.forall_mem_cons

@[simp] theorem allKinds_append {us ts : List Token} :
    AllKinds V (us ++ ts) ↔ AllKinds V us ∧ AllKinds V ts := List.forall_mem_append

@[simp] theorem allKinds_flatMap {α : Type} {f : α → List Token} {xs : List α} :
    AllKinds V (xs.flatMap f) ↔ ∀ x ∈ xs, AllKinds V (f x) := by
  simp only [AllKinds, List.mem_flatMap]
  exact ⟨fun h x hx t ht => h t ⟨x, hx, ht⟩, fun h t ⟨x, hx, ht⟩ => h x hx t ht⟩

theorem Listed.allKinds {close : Symbol} {parts : List (List Token)} {ts : List Token}
    (h : Listed close parts ts) (hv : AllKinds V ts) : ∀ us ∈ parts, AllKinds V us := by
  induction h with
  | nil => simp
  | last => simp_all
  | cons hc h ih =>
    simp only [allKinds_append, allKinds_cons] at hv
    exact List.forall_mem_cons.2 ⟨hv.1, ih hv.2.2⟩

theorem Lined.allKinds {parts : List (List Token)} {ts : List Token} (h : Lined parts ts)
    (hv : AllKinds V ts) : ∀ us ∈ parts, AllKinds V us := by
  induction h with
  | nil => simp
  | semicolon hc h ih => exact ih (allKinds_cons.1 hv).2
  | cons h ih =>
    rw [allKinds_append] at hv
    exact List.forall_mem_cons.2 ⟨hv.1, ih hv.2⟩

theorem Braced.allKinds {parts : List (List Token)} {ts : List Token} (h : Braced parts ts)
    (hv : AllKinds V ts) : ∀ us ∈ parts, AllKinds V us := by
  cases h with
  | mk hl h => exact h.allKinds (allKinds_cons.1 hv).2

theorem Named.formed {xs : List String} {ts : List Token} (h : Named xs ts) (hv : AllKinds V ts) :
    ∀ x ∈ xs, V (.ident x) := by
  induction h with
  | nil => simp
  | comma hc h ih => exact ih (allKinds_cons.1 hv).2
  | cons ht h ih =>
    rw [allKinds_cons, ht] at hv
    exact List.forall_mem_cons.2 ⟨hv.1, ih hv.2⟩

theorem Params.formed {xs : List String} {ts : List Token} (h : Params xs ts) (hv : AllKinds V ts) :
    ∀ x ∈ xs, V (.ident x) := by
  cases h with
  | plain h => exact h.formed hv
  | paren hl h hr =>
    simp only [List.cons_append, allKinds_cons, allKinds_append] at hv
    exact h.formed hv.2.1

namespace Written

open YeetYoink.Expr (Formed Throughout throughout_iff)

theorem formed_holes {head : String} {holes : List Hole} (hh : V (.templateHead head))
    (hc : ∀ h ∈ holes, h.IsClosed) (hv : ∀ h ∈ holes, V h.closer.kind) :
    Formed V (.template (String.ofList (Template.encode head.toList (holes.map (·.text.toList))))
      (holes.map (·.value))) := by
  refine ⟨head, holes.map (·.text), by rw [List.map_map]; rfl, by simp, .inr hh, ?_⟩
  intro tail ht
  obtain ⟨h, hh, rfl⟩ := List.mem_map.1 ht
  have := hv h hh
  rcases hc h hh with hk | hk
  · exact .inl (by rwa [hk] at this)
  · exact .inr (by rwa [hk] at this)

/-- The items of a list, from the induction hypothesis for their tokens. -/
theorem formed_items {items : List (List Token × Expr)}
    (ih : ∀ p ∈ items, AllKinds V p.1 → p.2.Throughout (Formed V))
    (hv : ∀ us ∈ items.map (·.1), AllKinds V us) :
    ∀ x ∈ items.map (·.2), x.Throughout (Formed V) := by
  intro x hx
  obtain ⟨p, hp, rfl⟩ := List.mem_map.1 hx
  exact ih p hp (hv _ (List.mem_map_of_mem hp))

/-- A condition or a source in front of the statements of a block. -/
theorem formed_headed {x : Expr} {body : List (List Token × Expr)} {ts : List Token}
    (hx : x.Throughout (Formed V)) (ih : ∀ p ∈ body, AllKinds V p.1 → p.2.Throughout (Formed V))
    (hs : Braced (body.map (·.1)) ts) (hv : AllKinds V ts) :
    ∀ y ∈ x :: body.map (·.2), y.Throughout (Formed V) :=
  List.forall_mem_cons.2 ⟨hx, formed_items ih (hs.allKinds hv)⟩

theorem formed {ts : List Token} {e : Expr} (h : Written ts e) (hv : AllKinds V ts) :
    e.Throughout (Formed V) := by
  -- The tokens of a part are among those of the whole, and a node's own demands are on its own
  -- tokens.
  induction h with
  | ident ht =>
    rw [allKinds_cons, ht] at hv
    exact throughout_iff.2 ⟨by simp [Expr.children], hv.1⟩
  | int ht hn =>
    rw [allKinds_cons, ht] at hv
    exact throughout_iff.2 ⟨by simp [Expr.children], _, hv.1, hn⟩
  | num ht hx =>
    rw [allKinds_cons, ht] at hv
    exact throughout_iff.2 ⟨by simp [Expr.children], _, hv.1, hx⟩
  | true | false | null | str =>
    exact throughout_iff.2 ⟨by simp [Expr.children], trivial⟩
  | @template t text ht =>
    rw [allKinds_cons, ht] at hv
    exact throughout_iff.2
      ⟨by simp [Expr.children], text, [], by simp [Template.encode], rfl, .inl hv.1, by simp⟩
  | @templateHoles t head holes ht _ hc ih =>
    simp only [allKinds_cons, ht, allKinds_flatMap, allKinds_append] at hv
    refine throughout_iff.2 ⟨?_, formed_holes hv.1 hc.isClosed fun h hh => (hv.2 h hh).2.1⟩
    intro x hx
    obtain ⟨h, hh, rfl⟩ := List.mem_map.1 hx
    exact ih h hh (hv.2 h hh).1
  | array ht _ hl ih =>
    exact throughout_iff.2 ⟨formed_items ih (hl.allKinds (allKinds_cons.1 hv).2), trivial⟩
  | dict ht _ _ _ hl ihk ihv =>
    have hp := hl.allKinds (allKinds_cons.1 hv).2
    refine throughout_iff.2 ⟨?_, trivial⟩
    simp only [Expr.children, List.mem_flatMap, List.mem_map]
    rintro x ⟨_, ⟨p, hmem, rfl⟩, hx⟩
    have hpv := hp _ (List.mem_map_of_mem hmem)
    simp only [WrittenPair.tokens, allKinds_append, allKinds_cons] at hpv
    rcases List.mem_pair.1 hx with rfl | rfl
    · exact ihk p hmem hpv.1
    · exact ihv p hmem hpv.2.2
  | paren hl _ hr ih =>
    simp only [List.cons_append, allKinds_cons, allKinds_append] at hv
    exact ih hv.2.1
  | unary ht _ ih =>
    exact throughout_iff.2
      ⟨by simpa [Expr.children] using ih (allKinds_cons.1 hv).2, trivial⟩
  | binary _ _ _ ihx ihy | range _ _ _ ihx ihy | and _ _ _ ihx ihy | or _ _ _ ihx ihy =>
    simp only [allKinds_append, allKinds_cons] at hv
    exact throughout_iff.2 ⟨by simpa [Expr.children] using ⟨ihx hv.1, ihy hv.2.2⟩, trivial⟩
  | index _ _ _ _ ihx ihy =>
    simp only [allKinds_append, allKinds_cons] at hv
    exact throughout_iff.2 ⟨by simpa [Expr.children] using ⟨ihx hv.1, ihy hv.2.2.1⟩, trivial⟩
  | call _ _ _ hs ihx iha =>
    simp only [allKinds_append, allKinds_cons] at hv
    exact throughout_iff.2
      ⟨List.forall_mem_cons.2 ⟨ihx hv.1, formed_items iha (hs.allKinds hv.2.2)⟩, trivial⟩
  | assign _ hk _ _ ihx ihy =>
    simp only [allKinds_append, allKinds_cons] at hv
    exact throughout_iff.2 ⟨by simpa [Expr.children] using ⟨ihx hv.1, ihy hv.2.2⟩, hk⟩
  | @compound _ _ _ _ op x y _ hk _ _ _ ihx ihy =>
    simp only [allKinds_append, allKinds_cons] at hv
    have hop : (Expr.binary op x y).Throughout (Formed V) :=
      throughout_iff.2 ⟨by simpa [Expr.children] using ⟨ihx hv.1, ihy hv.2.2⟩, trivial⟩
    exact throughout_iff.2 ⟨by simpa [Expr.children] using ⟨ihx hv.1, hop⟩, hk⟩
  | block _ hs ih => exact throughout_iff.2 ⟨formed_items ih (hs.allKinds hv), trivial⟩
  | yif _ _ _ hs ihx ihb | yoyo _ _ _ _ hs ihx ihb =>
    simp only [List.cons_append, allKinds_append, allKinds_cons] at hv
    exact throughout_iff.2 ⟨formed_headed (ihx hv.2.1) ihb hs hv.2.2, trivial⟩
  | yels _ _ _ hs _ _ hs' ihx ihb iho =>
    simp only [List.cons_append, allKinds_append, allKinds_cons] at hv
    refine throughout_iff.2 ⟨?_, trivial⟩
    rw [Expr.children, ← List.cons_append]
    exact List.forall_mem_append.2 ⟨formed_headed (ihx hv.2.1.1) ihb hs hv.2.1.2,
      formed_items iho (hs'.allKinds hv.2.2.2)⟩
  | yelsYif _ _ _ hs _ _ ihx ihb ihy =>
    simp only [List.cons_append, allKinds_append, allKinds_cons] at hv
    refine throughout_iff.2 ⟨?_, trivial⟩
    rw [Expr.children, ← List.cons_append]
    exact List.forall_mem_append.2 ⟨formed_headed (ihx hv.2.1.1) ihb hs hv.2.1.2,
      by simpa using ihy hv.2.2.2⟩
  | forever _ _ hs ih =>
    have hTrue : (Expr.bool Bool.true).Throughout (Formed V) :=
      throughout_iff.2 ⟨by simp [Expr.children], trivial⟩
    exact throughout_iff.2 ⟨formed_headed hTrue ih hs (allKinds_cons.1 hv).2, trivial⟩
  | yall _ _ _ hs ihx ihb =>
    simp only [List.cons_append, allKinds_append, allKinds_cons] at hv
    exact throughout_iff.2 ⟨formed_headed (ihx hv.2.1) ihb hs hv.2.2, .inl rfl⟩
  | yallKey _ _ _ _ _ hs ihk ihx ihb =>
    simp only [List.cons_append, allKinds_append, allKinds_cons] at hv
    exact throughout_iff.2
      ⟨formed_headed (ihx hv.2.1.2.2) ihb hs hv.2.2, .inr (ihk hv.2.1.1).here⟩
  | yeetNull =>
    have hNull : Expr.null.Throughout (Formed V) :=
      throughout_iff.2 ⟨by simp [Expr.children], trivial⟩
    exact throughout_iff.2 ⟨by simpa [Expr.children] using hNull, trivial⟩
  | yeet _ _ ih =>
    exact throughout_iff.2 ⟨by simpa [Expr.children] using ih (allKinds_cons.1 hv).2, trivial⟩
  | yolo _ _ hs ih =>
    exact throughout_iff.2 ⟨formed_items ih (hs.allKinds (allKinds_cons.1 hv).2), trivial⟩
  | lambda _ hx _ hs ih =>
    simp only [List.cons_append, allKinds_append, allKinds_cons] at hv
    exact throughout_iff.2 ⟨formed_items ih (hs.allKinds hv.2.2), hx.formed hv.2.1⟩
  | macroLit ht hx _ hs ih =>
    simp only [List.cons_append, allKinds_append, allKinds_cons, ht] at hv
    exact throughout_iff.2 ⟨formed_items ih (hs.allKinds hv.2.2), hv.1, hx.formed hv.2.1⟩

end Written

end

/-! ### Tokens of a source -/

theorem isName_defaultKey : IsName Parser.defaultKey :=
  ⟨⟨'y', ['t'], rfl, by decide, List.all_eq_true.1 (by decide)⟩, by decide⟩

theorem Decimal.toFloat?_of_valid {text : String} {x : Float} (hv : (Token.Kind.float text).Valid)
    (hx : toFloat? text.toList = some x) : Expr.Readable (.num x) := by
  obtain ⟨cs, ds, htext, hne, hcs, hds⟩ := hv
  rw [htext] at hx
  exact toFloat?_nonneg hne hcs hds hx

theorem Expr.Formed.readable {e : Expr} (h : e.Formed Token.Kind.Valid) : e.Readable := by
  cases e with
  | ident name => exact h
  | int n =>
    obtain ⟨text, hv, hn⟩ := h
    exact Decimal.toInt64?_nonneg hv hn
  | num x =>
    obtain ⟨text, hv, hx⟩ := h
    exact Decimal.toFloat?_of_valid hv hx
  | template text values =>
    obtain ⟨head, tails, htext, hl, hh, ht⟩ := h
    refine ⟨head.toList, tails.map String.toList, htext, by simpa using hl, hh.elim id id, ?_⟩
    intro cs hcs
    obtain ⟨tail, hmem, rfl⟩ := List.mem_map.1 hcs
    exact (ht tail hmem).elim id id
  | assign kind target value => exact h
  | yall key source body =>
    rcases h with rfl | h
    · exact isName_defaultKey
    · exact h
  | lambda params body => exact h
  | macroLit params body => exact h.2
  | bad t => exact h
  | _ => trivial

end YeetYoink
