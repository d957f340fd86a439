import YeetYoink.Proofs.Expr.Written
import YeetYoink.Proofs.Token.Holes

/-!
# Written expressions close what they open

The tokens of an expression are legal and, whatever holes are open before them, the same holes are
open after them (`Written.balanced`): the grammar pairs each brace and each hole with the token that
closes it.
-/

namespace YeetYoink

open Lexer (advance countBrace)

/-- Legal tokens that lead from one state of the open holes to another. -/
structure Leads (ts : List Token) (holes holes' : List Nat) : Prop where
  legal : ∀ t ∈ ts, t.kind.IsLegal
  holes : (ts.map (·.kind)).foldl advance holes = holes'

def Balanced (ts : List Token) : Prop := ∀ holes, Leads ts holes holes

/-- A legal kind that neither opens nor closes anything. -/
def Token.Kind.isStill : Token.Kind → Bool
  | .illegal _ | .templateHead _ | .templateMiddle _ | .templateTail _
  | .symbol .lbrace | .symbol .percentBrace | .symbol .rbrace => false
  | _ => true

theorem Leads.append {us ts : List Token} {a b c : List Nat} (hu : Leads us a b)
    (ht : Leads ts b c) :
    Leads (us ++ ts) a c where
  legal := List.forall_mem_append.2 ⟨hu.legal, ht.legal⟩
  holes := by rw [List.map_append, List.foldl_append, hu.holes, ht.holes]

theorem leads_single {t : Token} (h : t.kind.IsLegal) (holes : List Nat) :
    Leads [t] holes (advance holes t.kind) where
  legal := List.forall_mem_singleton.2 h
  holes := rfl

namespace Balanced

theorem nil : Balanced [] := fun _ => ⟨by simp, rfl⟩

theorem append {us ts : List Token} (hu : Balanced us) (ht : Balanced ts) : Balanced (us ++ ts) :=
  fun holes => (hu holes).append (ht holes)

theorem single {t : Token} (h : t.kind.isStill = true) : Balanced [t] := by
  intro holes
  obtain ⟨k, i, j⟩ := t
  have hl : k.IsLegal := by
    cases k with
    | illegal => cases h
    | _ => trivial
  have hk : advance holes k = holes := by
    cases k with
    | symbol s =>
      cases s with
      | lbrace | percentBrace | rbrace => cases h
      | _ => simp [advance, countBrace]
    | templateHead | templateMiddle | templateTail => cases h
    | _ => simp [advance]
  have := leads_single (t := ⟨k, i, j⟩) hl holes
  rwa [hk] at this

theorem cons {t : Token} {ts : List Token} (h : t.kind.isStill = true) (ht : Balanced ts) :
    Balanced (t :: ts) := (single h).append ht

/-- A brace and the one that closes it. -/
theorem braces {l r : Token} {ts : List Token}
    (hl : l.kind = .symbol .lbrace ∨ l.kind = .symbol .percentBrace) (h : Balanced ts)
    (hr : r.kind = .symbol .rbrace) : Balanced (l :: (ts ++ [r])) := by
  intro holes
  have ho : Leads [l] holes (countBrace .lbrace holes) := by
    have := leads_single (t := l) (by rcases hl with hl | hl <;> rw [hl] <;> trivial) holes
    rcases hl with hl | hl <;> rw [hl] at this
    · exact this
    · cases holes <;> exact this
  have hc : Leads [r] (countBrace .lbrace holes) holes := by
    have := leads_single (t := r) (by rw [hr]; trivial) (countBrace .lbrace holes)
    rw [hr] at this
    cases holes <;> exact this
  exact ho.append ((h _).append hc)

end Balanced

/-! ### Lists of parts -/

theorem Listed.balanced {close : Symbol} {parts : List (List Token)} {ts : List Token}
    (h : Listed close parts ts) (hp : ∀ us ∈ parts, Balanced us) :
    ∃ us c, ts = us ++ [c] ∧ Balanced us ∧ c.kind = .symbol close := by
  induction h with
  | nil hc => exact ⟨[], _, rfl, .nil, hc⟩
  | last hc => exact ⟨_, _, rfl, hp _ (.head _), hc⟩
  | @cons c us _ _ hc _ ih =>
    obtain ⟨hu, hp⟩ := List.forall_mem_cons.1 hp
    obtain ⟨vs, r, rfl, hv, hr⟩ := ih hp
    exact ⟨us ++ c :: vs, r, by simp, hu.append (hv.cons (by rw [hc]; rfl)), hr⟩

/-- A list whose closing symbol closes nothing but itself. -/
theorem Listed.balanced_of_isStill {close : Symbol} {parts : List (List Token)} {ts : List Token}
    (h : Listed close parts ts) (hp : ∀ us ∈ parts, Balanced us)
    (hs : (Token.Kind.symbol close).isStill = true) : Balanced ts := by
  obtain ⟨us, c, rfl, hu, hc⟩ := h.balanced hp
  exact hu.append (.single (by rw [hc]; exact hs))

theorem Lined.balanced {parts : List (List Token)} {ts : List Token} (h : Lined parts ts)
    (hp : ∀ us ∈ parts, Balanced us) :
    ∃ us c, ts = us ++ [c] ∧ Balanced us ∧ c.kind = .symbol .rbrace := by
  induction h with
  | nil hc => exact ⟨[], _, rfl, .nil, hc⟩
  | @semicolon c _ _ hc _ ih =>
    obtain ⟨vs, r, rfl, hv, hr⟩ := ih hp
    exact ⟨c :: vs, r, rfl, hv.cons (by rw [hc]; rfl), hr⟩
  | @cons us _ _ _ ih =>
    obtain ⟨hu, hp⟩ := List.forall_mem_cons.1 hp
    obtain ⟨vs, r, rfl, hv, hr⟩ := ih hp
    exact ⟨us ++ vs, r, by simp, hu.append hv, hr⟩

theorem Braced.balanced {parts : List (List Token)} {ts : List Token} (h : Braced parts ts)
    (hp : ∀ us ∈ parts, Balanced us) : Balanced ts := by
  cases h with
  | mk hl h =>
    obtain ⟨us, r, rfl, hu, hr⟩ := h.balanced hp
    exact .braces (.inl hl) hu hr

theorem Named.balanced {xs : List String} {ts : List Token} (h : Named xs ts) : Balanced ts := by
  induction h with
  | nil => exact .nil
  | comma hc _ ih => exact ih.cons (by rw [hc]; rfl)
  | cons ht _ ih => exact ih.cons (by rw [ht]; rfl)

theorem Params.balanced {xs : List String} {ts : List Token} (h : Params xs ts) : Balanced ts := by
  cases h with
  | plain h => exact h.balanced
  | paren hl h hr => exact (h.balanced.cons (by rw [hl]; rfl)).append (.single (by rw [hr]; rfl))

/-- From inside the first hole of a template to its end. -/
theorem Holed.leads {hs : List Hole} (h : Holed hs) (hb : ∀ h ∈ hs, Balanced h.tokens)
    (holes : List Nat) : Leads (hs.flatMap fun h => h.tokens ++ [h.closer]) (0 :: holes) holes := by
  induction h with
  | @last h hc =>
    have ht := leads_single (t := h.closer) (by rw [hc]; trivial) (0 :: holes)
    rw [hc] at ht
    rw [List.flatMap_singleton]
    exact (hb h (.head _) _).append ht
  | @cons h _ hc _ ih =>
    obtain ⟨hv, hb⟩ := List.forall_mem_cons.1 hb
    have ht := leads_single (t := h.closer) (by rw [hc]; trivial) (0 :: holes)
    rw [hc] at ht
    exact ((hv _).append ht).append (ih hb)

theorem isStill_of_ofCompound? {s : Symbol} {op : BinaryOp} (h : BinaryOp.ofCompound? s = some op) :
    (Token.Kind.symbol s).isStill = true := by
  cases s with
  | lbrace | percentBrace | rbrace => cases h
  | _ => rfl

namespace Written

/-- The parts of a list, from the induction hypothesis for the items. -/
theorem balanced_items {items : List (List Token × Expr)} (ih : ∀ p ∈ items, Balanced p.1) :
    ∀ us ∈ items.map (·.1), Balanced us := List.forall_mem_map.2 ih

theorem balanced {ts : List Token} {e : Expr} (h : Written ts e) : Balanced ts := by
  induction h with
  | ident ht | int ht | num ht | true ht | false ht | null ht | str ht | template ht
  | yeetNull ht =>
    exact .single (by rw [ht]; rfl)
  | templateHoles ht _ hc ih =>
    intro holes
    have hh := leads_single (by rw [ht]; trivial) holes
    rw [ht] at hh
    exact hh.append (hc.leads ih holes)
  | array ht _ hl ih =>
    exact (hl.balanced_of_isStill (balanced_items ih) rfl).cons (by rw [ht]; rfl)
  | @dict _ _ pairs ht _ hc _ hl ihk ihv =>
    have hp : ∀ us ∈ pairs.map (·.tokens), Balanced us := List.forall_mem_map.2 fun p hp =>
      (ihk p hp).append ((ihv p hp).cons (by rw [hc p hp]; rfl))
    obtain ⟨us, r, rfl, hu, hr⟩ := hl.balanced hp
    exact .braces (.inr ht) hu hr
  | paren hl _ hr ih => exact (ih.cons (by rw [hl]; rfl)).append (.single (by rw [hr]; rfl))
  | @unary _ _ op _ ht _ ih => exact ih.cons (by rw [ht]; cases op <;> rfl)
  | @binary _ _ _ op _ _ _ ht _ ihx ihy =>
    exact ihx.append (ihy.cons (by rw [ht]; cases op <;> rfl))
  | range _ ht _ ihx ihy | and _ ht _ ihx ihy | or _ ht _ ihx ihy =>
    exact ihx.append (ihy.cons (by rw [ht]; rfl))
  | index _ hl _ hr ihx ihy =>
    exact ihx.append ((ihy.append (.single (by rw [hr]; rfl))).cons (by rw [hl]; rfl))
  | call _ hl _ hs ihx iha =>
    exact ihx.append ((hs.balanced_of_isStill (balanced_items iha) rfl).cons (by rw [hl]; rfl))
  | @assign _ _ _ kind _ _ _ _ ht _ ihx ihy =>
    exact ihx.append (ihy.cons (by rw [ht]; cases kind <;> rfl))
  | @compound _ s _ _ _ _ _ _ _ ht ho _ ihx ihy =>
    exact ihx.append (ihy.cons (by rw [ht]; exact isStill_of_ofCompound? ho))
  | block _ hs ih => exact hs.balanced (balanced_items ih)
  | yif ht _ _ hs ihx ihb | yall ht _ _ hs ihx ihb | yoyo ht _ _ _ hs ihx ihb =>
    exact (ihx.cons (by rw [ht]; rfl)).append (hs.balanced (balanced_items ihb))
  | yels ht _ _ hs he _ hs' ihx ihb iho =>
    exact ((ihx.cons (by rw [ht]; rfl)).append (hs.balanced (balanced_items ihb))).append
      ((hs'.balanced (balanced_items iho)).cons (by rw [he]; rfl))
  | yelsYif ht _ _ hs he _ ihx ihb ihy =>
    exact ((ihx.cons (by rw [ht]; rfl)).append (hs.balanced (balanced_items ihb))).append
      (ihy.cons (by rw [he]; rfl))
  | forever ht _ hs ih | yolo ht _ hs ih =>
    exact (hs.balanced (balanced_items ih)).cons (by rw [ht]; rfl)
  | yallKey ht _ hc _ _ hs ihk ihx ihb =>
    exact ((ihk.cons (by rw [ht]; rfl)).append (ihx.cons (by rw [hc]; rfl))).append
      (hs.balanced (balanced_items ihb))
  | yeet ht _ ih => exact ih.cons (by rw [ht]; rfl)
  | lambda ht hx _ hs ih | macroLit ht hx _ hs ih =>
    exact (hx.balanced.cons (by rw [ht]; rfl)).append (hs.balanced (balanced_items ih))

end Written

end YeetYoink
