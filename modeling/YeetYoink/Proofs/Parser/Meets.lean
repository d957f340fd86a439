import YeetYoink.Proofs.Expr.Written
import YeetYoink.Proofs.Parser.Yields

/-!
# What a parser takes

`Meets p n pre Q` says what the parser does after the tokens `pre` have been taken, as long as these
and the tokens left are fewer than `n`: if it succeeds then all tokens taken and the result satisfy
`Q`, if it fails then the error names the last token taken or the end (`Blames`), and it never runs
out of its bound. The tokens left are always those behind the ones taken.
-/

namespace YeetYoink.Parser

variable {α β : Type}

/-- The error lies at the last token taken, or at the end when no token is left. -/
def Blames (e : ParseError) (taken rest : List Token) : Prop :=
  ((∃ x, e = .prematureEnd x) ∧ rest = []) ∨
    ∃ t, taken.getLast? = some t ∧ ∀ size, e.offset size = t.start

theorem Blames.append {e : ParseError} {taken rest : List Token} (h : Blames e taken rest)
    (pre : List Token) : Blames e (pre ++ taken) rest := by
  refine h.imp id ?_
  rintro ⟨t, ht, ho⟩
  exact ⟨t, by rw [List.getLast?_append, ht]; rfl, ho⟩

/-- Where there are tokens, one of them was taken before the error. -/
theorem Blames.ne_nil {e : ParseError} {taken rest ts : List Token} {t : Token}
    (h : Blames e taken rest) (hts : t :: ts = taken ++ rest) : taken ≠ [] := by
  rintro rfl
  obtain ⟨-, rfl⟩ | ⟨u, hu, -⟩ := h
  · simp at hts
  · simp at hu

def Outcome (pre ts : List Token) (Q : List Token → α → Prop) :
    EStateM.Result Stop (List Token) α → Prop
  | .ok a rest => ∃ taken, ts = taken ++ rest ∧ Q (pre ++ taken) a
  | .error (.failed e) rest => ∃ taken, ts = taken ++ rest ∧ Blames e (pre ++ taken) rest
  | .error .exhausted _ => False

def Meets (p : Parser α) (n : Nat) (pre : List Token) (Q : List Token → α → Prop) : Prop :=
  ∀ ts : List Token, (pre ++ ts).length < n → Outcome pre ts Q (p ts)

/-- Tokens taken count as taken before. -/
theorem Outcome.of_append {pre us ts : List Token} {Q : List Token → α → Prop}
    {r : EStateM.Result Stop (List Token) α} (h : Outcome (pre ++ us) ts Q r) :
    Outcome pre (us ++ ts) Q r := by
  match r, h with
  | .ok a rest, ⟨taken, hts, hq⟩ =>
    exact ⟨us ++ taken, by rw [hts, List.append_assoc], by rwa [← List.append_assoc]⟩
  | .error (.failed e) rest, ⟨taken, hts, hb⟩ =>
    exact ⟨us ++ taken, by rw [hts, List.append_assoc], by rwa [← List.append_assoc]⟩

namespace Meets

variable {p : Parser α} {f : α → Parser β} {n m : Nat} {pre : List Token}
    {R : List Token → α → Prop}
  {Q : List Token → β → Prop}

theorem andThen (h : Meets p n pre R)
    (hf : ∀ us a, R (pre ++ us) a → Meets (f a) n (pre ++ us) Q) : Meets (p >>= f) n pre Q := by
  intro ts hl
  have ho := h ts hl
  change Outcome pre ts Q (EStateM.bind p f ts)
  rw [EStateM.bind]
  match p ts, ho with
  | .ok a rest, ⟨us, hts, hr⟩ =>
    subst hts
    exact (hf us a hr rest (by rwa [List.append_assoc])).of_append
  | .error (.failed e) rest, ho => exact ho

/-- A parser that was looked at on its own, after other tokens. -/
theorem mono {Q : List Token → α → Prop} (h : Meets p m [] R) (hn : n ≤ m + pre.length)
    (hq : ∀ us a, R us a → Q (pre ++ us) a) : Meets p n pre Q := by
  intro ts hl
  have ho := h ts (by simp only [List.length_append, List.nil_append] at hl ⊢; omega)
  match p ts, ho with
  | .ok a rest, ⟨us, hts, hr⟩ => exact ⟨us, hts, hq us a hr⟩
  | .error (.failed e) rest, ⟨us, hts, hb⟩ => exact ⟨us, hts, hb.append pre⟩

theorem bind (h : Meets p m [] R) (hn : n ≤ m + pre.length)
    (hf : ∀ us a, R us a → Meets (f a) n (pre ++ us) Q) : Meets (p >>= f) n pre Q := by
  have hp : Meets p n pre fun taken a => ∃ us, taken = pre ++ us ∧ R us a :=
    h.mono hn fun us a hr => ⟨us, rfl, hr⟩
  refine hp.andThen fun us a ⟨vs, heq, hr⟩ => ?_
  obtain rfl := List.append_cancel_left heq
  exact hf us a hr

theorem pure {a : α} {Q : List Token → α → Prop} (h : Q pre a) : Meets (Pure.pure a) n pre Q :=
  fun _ _ => ⟨[], rfl, by rwa [List.append_nil]⟩

theorem fail {e : ParseError} {t : Token} (ht : pre.getLast? = some t)
    (h : ∀ size, e.offset size = t.start) : Meets (Parser.fail e : Parser β) n pre Q :=
  fun _ _ => ⟨[], rfl, .inr ⟨t, by rwa [List.append_nil], h⟩⟩

theorem unexpected (x : Expected) (t : Token) :
    Meets (Parser.unexpected x (some t) : Parser β) n (pre ++ [t]) Q := fail (by simp) fun _ => rfl

/-- At the end, a parser that expects something fails. -/
theorem ends (x : Expected) : Outcome pre [] Q (Parser.unexpected x none []) :=
  ⟨[], rfl, .inl ⟨⟨x, rfl⟩, rfl⟩⟩

theorem peek {f : Option Token → Parser β} (hnone : pre.length < n → Outcome pre [] Q (f none []))
    (h : ∀ t ts, (pre ++ t :: ts).length < n → Outcome pre (t :: ts) Q (f (some t) (t :: ts))) :
    Meets (peek? >>= f) n pre Q := by
  intro ts hl
  cases ts with
  | nil => exact hnone (by simpa using hl)
  | cons t ts => exact h t ts hl

theorem next {f : Option Token → Parser β} {x : Expected}
    (hnone : f none = Parser.unexpected x none)
    (h : ∀ t, Meets (f (some t)) n (pre ++ [t]) Q) : Meets (next? >>= f) n pre Q := by
  intro ts hl
  cases ts with
  | nil =>
    change Outcome pre [] Q (f none [])
    rw [hnone]
    exact ends x
  | cons t ts =>
    change Outcome pre ([t] ++ ts) Q _
    exact (h t ts (by rwa [List.append_assoc])).of_append

theorem expect {f : Unit → Parser β} {k : Token.Kind}
    (h : ∀ t, t.kind = k → Meets (f ()) n (pre ++ [t]) Q) :
    Meets (Parser.expect k >>= f) n pre Q := by
  rw [Parser.expect, bind_assoc]
  refine next (x := .token k) rfl fun t => ?_
  by_cases ht : t.kind = k
  · simpa [ht] using h t ht
  · have hk : (some t).any (fun t => t.kind = k) = false := by simpa using ht
    rw [hk]
    exact unexpected (.token k) t

/-- If the next token is not of the kind, then what is taken does not start with one. -/
theorem nextIs {f : Bool → Parser β} {k : Token.Kind} (ht : Meets (f true) n [] Q)
    (hf : Meets (f false) n [] fun us a => (∀ t ∈ us.head?, t.kind ≠ k) → Q us a) :
    Meets (Parser.nextIs k >>= f) n [] Q := by
  intro ts hl
  change Outcome [] ts Q (f (ts.head?.any (·.kind = k)) ts)
  cases hk : ts.head?.any (·.kind = k) with
  | true => exact ht ts hl
  | false =>
    have ho := hf ts hl
    match f false ts, ho with
    | .ok a rest, ⟨us, hts, hq⟩ =>
      refine ⟨us, hts, hq fun t hmem => ?_⟩
      simp_all [List.head?_append]
    | .error (.failed e) rest, ho => exact ho

/-- Taking the next token if it is of a kind. -/
theorem take {g h : Parser β} {k : Token.Kind} (hg : ∀ t, t.kind = k → Meets g n (pre ++ [t]) Q)
    (hh : Meets h n pre Q) :
    Meets (Parser.nextIs k >>= fun c => if c then next? >>= fun _ => g else h) n pre Q := by
  intro ts hl
  change Outcome pre ts Q ((if ts.head?.any (·.kind = k) then _ else _ : Parser β) ts)
  split
  · rename_i hk
    cases ts with
    | nil => simp at hk
    | cons t ts =>
      change Outcome pre ([t] ++ ts) Q _
      exact (hg t (by simpa using hk) ts (by rwa [List.append_assoc])).of_append
  · exact hh ts hl

theorem accept {f : Bool → Parser β} {k : Token.Kind}
    (ht : ∀ t, t.kind = k → Meets (f true) n (pre ++ [t]) Q) (hf : Meets (f false) n pre Q) :
    Meets (Parser.accept k >>= f) n pre Q := by
  rw [accept_bind]
  exact take ht hf

theorem ident {f : String → Parser β}
    (h : ∀ t x, t.kind = .ident x → Meets (f x) n (pre ++ [t]) Q) :
    Meets (Parser.ident >>= f) n pre Q := by
  rw [Parser.ident, bind_assoc]
  refine next (x := .identifier) rfl fun t => ?_
  obtain ⟨k, i, j⟩ := t
  cases k with
  | ident x => exact h _ x rfl
  | _ => exact unexpected .identifier _

theorem skipSemicolons {f : Unit → Parser β}
    (h : ∀ us, (∀ t ∈ us, t.kind = .symbol .semicolon) → Meets (f ()) n (pre ++ us) Q) :
    Meets (Parser.skipSemicolons >>= f) n pre Q := by
  intro ts hl
  change Outcome pre ts Q (f () (ts.dropWhile (·.kind = .symbol .semicolon)))
  have hts := List.takeWhile_append_dropWhile (p := (·.kind = .symbol .semicolon)) (l := ts)
  generalize hd : ts.dropWhile (·.kind = .symbol .semicolon) = rest at hts ⊢
  rw [← hts] at hl ⊢
  have hall : ∀ t ∈ ts.takeWhile (·.kind = .symbol .semicolon), t.kind = .symbol .semicolon :=
    fun t ht => by simpa using List.all_eq_true.1 List.all_takeWhile t ht
  refine (h _ hall rest ?_).of_append
  rwa [List.append_assoc]

end Meets

/-! ### Repetitions -/

section Repetitions

variable {p : Parser α} {R : List Token → α → Prop} {n m : Nat}

/-- The results, each with the tokens it was read from. -/
def Gathers (R : List Token → α → Prop) (S : List (List Token) → List Token → Prop)
    (ts : List Token) (xs : List α) : Prop :=
  ∃ items : List (List Token × α),
    xs = items.map (·.2) ∧ (∀ q ∈ items, R q.1 q.2) ∧ S (items.map (·.1)) ts

theorem Gathers.cons {S : List (List Token) → List Token → Prop} {ts us vs : List Token} {x : α}
    {xs : List α} (h : Gathers R S ts xs) (hx : R us x)
    (hs : ∀ parts, S parts ts → S (us :: parts) vs) : Gathers R S vs (x :: xs) := by
  obtain ⟨items, rfl, hi, hl⟩ := h
  exact ⟨(us, x) :: items, rfl, List.forall_mem_cons.2 ⟨hx, hi⟩, hs _ hl⟩

/-- Results that come from data of another type. -/
theorem Gathers.lift {γ : Type} {P : γ → Prop} {tokens : γ → List Token} {result : γ → α}
    {S : List (List Token) → List Token → Prop} {ts : List Token} {xs : List α}
    (h : Gathers (fun us x => ∃ c, us = tokens c ∧ x = result c ∧ P c) S ts xs) :
    ∃ cs : List γ, xs = cs.map result ∧ (∀ c ∈ cs, P c) ∧ S (cs.map tokens) ts := by
  obtain ⟨items, rfl, hi, hs⟩ := h
  have hc : ∃ cs : List γ, items = cs.map (fun c => (tokens c, result c)) ∧ ∀ c ∈ cs, P c := by
    clear hs
    induction items with
    | nil => exact ⟨[], rfl, by simp⟩
    | cons q items ih =>
      obtain ⟨c, hu, hx, hc⟩ := hi q (.head _)
      obtain ⟨cs, rfl, hcs⟩ := ih fun r hr => hi r (.tail _ hr)
      exact ⟨c :: cs, by rw [List.map_cons, ← hu, ← hx], List.forall_mem_cons.2 ⟨hc, hcs⟩⟩
  obtain ⟨cs, rfl, hcs⟩ := hc
  rw [List.map_map] at hs
  exact ⟨cs, by simp, hcs, hs⟩

theorem meets_sequence (hp : Meets p m [] R) (close : Symbol) (hn : n ≤ m) :
    Meets (sequence p close n) n [] (Gathers R (Listed close)) := by
  induction n with
  | zero => exact fun ts hl => absurd hl (Nat.not_lt_zero _)
  | succ n ih =>
    rw [sequence]
    refine .peek (fun _ => Meets.ends _) fun t ts hl => ?_
    by_cases ht : t.kind = .symbol close
    · simp only [ht, if_true]
      exact ⟨[t], rfl, [], rfl, by simp, .nil ht⟩
    · simp only [ht, if_false]
      refine Meets.bind hp (by simpa using hn) (fun us x hx => ?_) (t :: ts) hl
      refine .next (x := .token (.symbol .comma)) rfl fun c => ?_
      by_cases hc : c.kind = .symbol .comma
      · simp only [Option.any_some, hc, decide_true, if_true]
        refine Meets.bind (ih (by omega)) (by simp) fun vs xs hxs => ?_
        refine .pure (hxs.cons hx fun parts h => ?_)
        simpa using (.cons hc h : Listed close (us :: parts) (us ++ c :: vs))
      · simp only [Option.any_some, hc, decide_false, Bool.false_eq_true, if_false]
        by_cases hk : c.kind = .symbol close
        · simp only [hk, decide_true, if_true]
          exact .pure ⟨[(us, x)], rfl, by simpa using hx,
            by simpa using (.last hk : Listed close [us] (us ++ [c]))⟩
        · simp only [hk, decide_false, Bool.false_eq_true, if_false]
          exact .unexpected _ _

theorem meets_block (hp : Meets p m [] R) (hne : ∀ us x, R us x → us ≠ []) (hn : n ≤ m) :
    Meets (block p n) n [] (Gathers R Lined) := by
  induction n with
  | zero => exact fun ts hl => absurd hl (Nat.not_lt_zero _)
  | succ n ih =>
    rw [block]
    refine .skipSemicolons fun ss hs => ?_
    refine .peek (fun _ => Meets.ends _) fun t ts hl => ?_
    by_cases ht : t.kind = .symbol .rbrace
    · simp only [ht, if_true]
      exact ⟨[t], rfl, [], rfl, by simp, by simpa using Lined.semicolons hs (.nil ht)⟩
    · simp only [ht, if_false]
      refine Meets.bind hp (by omega) (fun us x hx => ?_) (t :: ts) hl
      have hu := List.length_pos_iff.2 (hne us x hx)
      refine Meets.bind (ih (by omega)) (by simp only [List.length_append]; omega)
        fun vs xs hxs => ?_
      refine .pure (hxs.cons hx fun parts h => ?_)
      simpa using Lined.semicolons hs (.cons h : Lined (us :: parts) (us ++ vs))

theorem meets_bracedBlock (hp : Meets p m [] R) (hne : ∀ us x, R us x → us ≠ []) (hn : n ≤ m) :
    Meets (bracedBlock p n) (n + 1) [] (Gathers R Braced) := by
  rw [bracedBlock]
  refine .expect fun l hl => ?_
  refine (meets_block hp hne hn).mono (by simp) ?_
  rintro us xs ⟨items, hxs, hi, hs⟩
  exact ⟨items, hxs, hi, .mk hl hs⟩

theorem meets_names (close : Symbol) (first : Bool) :
    Meets (names close n first) n [] fun ts xs => Named xs ts := by
  induction n generalizing first with
  | zero => exact fun ts hl => absurd hl (Nat.not_lt_zero _)
  | succ n ih =>
    have hname : Meets (do let x ← ident; let xs ← names close n false; return x :: xs) (n + 1) []
        fun ts xs => Named xs ts := by
      refine .ident fun t x ht => Meets.bind (ih false) (by simp) fun us xs hx => .pure ?_
      exact .cons ht hx
    rw [names]
    refine .nextIs (.pure .nil) ?_
    refine Meets.mono (m := n + 1) (R := fun ts xs => Named xs ts) ?_ (by simp) fun _ _ h _ => h
    cases first with
    | true => exact hname
    | false =>
      refine .take (fun c hc => ?_) hname
      exact (ih false).mono (by simp) fun us xs hx => .comma hc hx

end Repetitions

end YeetYoink.Parser
