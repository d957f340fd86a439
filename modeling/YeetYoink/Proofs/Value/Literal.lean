import YeetYoink.Proofs.Eval.Operators
import YeetYoink.Proofs.Value.Equality

/-!
# Literals give values back

The literal of a value is evaluated to a copy of it: of the same kind, with the same content, and
entries in the same order (`Store.Alike`). Evaluating it only adds to the store (`Store.Adds`), so
that what is copied first stays a copy while the rest is evaluated (`Store.CopyOf`). A dollar sign
is written twice, which interpolation undoes, and the keys of an intact dictionary differ, so that
no entry of the copy replaces another.
-/

namespace YeetYoink

/-! ### Adding to a store -/

/-- An array that has more at its end. -/
def Grown {α : Type} (xs ys : Array α) : Prop := ∃ zs, ys = xs ++ zs

namespace Grown

variable {α : Type} {xs ys zs : Array α}

theorem refl (xs : Array α) : Grown xs xs := ⟨#[], by simp⟩

theorem push (xs : Array α) (x : α) : Grown xs (xs.push x) := ⟨#[x], by simp⟩

theorem trans (h : Grown xs ys) (h' : Grown ys zs) : Grown xs zs := by
  obtain ⟨us, rfl⟩ := h
  obtain ⟨vs, rfl⟩ := h'
  exact ⟨us ++ vs, Array.append_assoc⟩

theorem size_le (h : Grown xs ys) : xs.size ≤ ys.size := by
  obtain ⟨us, rfl⟩ := h
  rw [Array.size_append]
  exact Nat.le_add_right _ _

theorem getElem? (h : Grown xs ys) {i : Nat} (hi : i < xs.size) : ys[i]? = xs[i]? := by
  obtain ⟨us, rfl⟩ := h
  exact Array.getElem?_append_left hi

end Grown

namespace Store

/-- There are new texts, arrays and dictionaries; all else is as it was. -/
structure Adds (s t : Store) : Prop where
  texts : Grown s.texts t.texts
  arrays : Grown s.arrays t.arrays
  dicts : Grown s.dicts t.dicts
  scopes : t.scopes = s.scopes
  bodies : t.bodies = s.bodies
  printed : t.printed = s.printed

namespace Adds

variable {s t u : Store}

theorem refl (s : Store) : s.Adds s := ⟨.refl _, .refl _, .refl _, rfl, rfl, rfl⟩

theorem trans (h : s.Adds t) (h' : t.Adds u) : s.Adds u where
  texts := h.texts.trans h'.texts
  arrays := h.arrays.trans h'.arrays
  dicts := h.dicts.trans h'.dicts
  scopes := h'.scopes.trans h.scopes
  bodies := h'.bodies.trans h.bodies
  printed := h'.printed.trans h.printed

theorem newText (s : Store) (x : String) : s.Adds (s.newText x).2 :=
  { refl s with texts := .push _ x }

theorem newArray (s : Store) (a : Array Value) : s.Adds (s.newArray a).2 :=
  { refl s with arrays := .push _ a }

theorem newDict (s : Store) (d : Dict) : s.Adds (s.newDict d).2 :=
  { refl s with dicts := .push _ d }

theorem text_newText {x : String} (h : (s.newText x).2.Adds t) : t.text (s.newText x).1 = x := by
  have hi : (s.newText x).1.index < (s.newText x).2.texts.size := by simp [Store.newText]
  rw [text, h.texts.getElem? hi]
  exact s.text_newText x

theorem array_newArray {a : Array Value} (h : (s.newArray a).2.Adds t) :
    t.array (s.newArray a).1 = a := by
  have hi : (s.newArray a).1.index < (s.newArray a).2.arrays.size := by simp [Store.newArray]
  rw [array, h.arrays.getElem? hi]
  exact s.array_newArray a

theorem dict_newDict {d : Dict} (h : (s.newDict d).2.Adds t) : t.dict (s.newDict d).1 = d := by
  have hi : (s.newDict d).1.index < (s.newDict d).2.dicts.size := by simp [Store.newDict]
  rw [dict, h.dicts.getElem? hi]
  exact s.dict_newDict d

end Adds

/-! ### Copies -/

mutual

/-- A value in one store shows the same as a value in another. -/
inductive Alike (s t : Store) : Value → Value → Prop where
  | plain {v : Value} (h : v.IsPlain) : Alike s t v v
  | text {r q : Ref .text} (h : t.text q = s.text r) : Alike s t (.text r) (.text q)
  | array {r q : Ref .array} (h : List.Forall₂ (Alike s t) (s.array r).toList (t.array q).toList) :
      Alike s t (.array r) (.array q)
  /-- The entries are in the same order, and filed under the same hash keys. -/
  | dict {r q : Ref .dict} (filed : ∀ g, ((s.dict r).slot g).Perm ((t.dict q).slot g))
      (h : List.Forall₂ (AlikeEntry s t) (s.dict r).entries (t.dict q).entries) :
      Alike s t (.dict r) (.dict q)

inductive AlikeEntry (s t : Store) : Entry → Entry → Prop where
  | mk {e f : Entry} (key : Alike s t e.key f.key) (value : Alike s t e.value f.value) :
      AlikeEntry s t e f

end

/-- A value is a copy of one in another store, and stays one. -/
def CopyOf (s : Store) (v : Value) (t : Store) (w : Value) : Prop := ∀ u, t.Adds u → s.Alike u v w

variable {s t u : Store} {v w : Value}

theorem Alike.key? (h : s.Alike t v w) : t.key? w = s.key? v := by
  cases h with
  | @plain v h =>
    cases v with
    | text r => exact h.elim
    | _ => rfl
  | text h => rw [Store.key?, h, Store.key?]
  | _ => rfl

/-- If both are filed, it is under the same hash keys. -/
theorem alike_dict {r q : Ref .dict} (hr : (s.dict r).Filed s) (hq : (t.dict q).Filed t)
    (h : List.Forall₂ (s.AlikeEntry t) (s.dict r).entries (t.dict q).entries) :
    s.Alike t (.dict r) (.dict q) := by
  refine .dict (hr.slot_perm hq ?_) h
  have hkeys : List.Forall₂ (fun e f => s.hashKey? e.key = t.hashKey? f.key) (s.dict r).entries
      (t.dict q).entries := h.imp fun e f hef => by
    cases hef with
    | mk hk => exact (hashKey?_congr hk.key?).symm
  exact List.forall₂_eq_eq_eq ▸ List.forall₂_map_left_iff.2 (List.forall₂_map_right_iff.2 hkeys)

theorem CopyOf.alike (h : s.CopyOf v t w) : s.Alike t v w := h t (.refl t)

theorem CopyOf.adds (h : s.CopyOf v t w) (ht : t.Adds u) : s.CopyOf v u w :=
  fun x hx => h x (ht.trans hx)

/-- A copy that becomes a key is one still. -/
theorem CopyOf.detach (h : s.CopyOf v t w) :
    ∃ w' t', Dict.detach w t = .ok w' t' ∧ t.Adds t' ∧ s.CopyOf v t' w' := by
  cases hw : h.alike with
  | @text r q hq =>
    refine ⟨_, _, rfl, .newText t _, fun u hu => .text ?_⟩
    rw [← hq]
    exact hu.text_newText
  | @plain v hv =>
    cases v with
    | text r => exact hv.elim
    | _ => exact ⟨_, t, rfl, .refl t, h⟩
  | _ => exact ⟨_, t, rfl, .refl t, h⟩

end Store

/-! ### Evaluating literals -/

namespace Evaluator

open Store

/-- Wherever an expression is evaluated, it gives a copy of a value and only adds to the store. -/
def Copies (ev : Evaluator) (s : Store) (v : Value) (x : Expr) : Prop :=
  ∀ scope t, ∃ w t', ev x scope t = .ok w t' ∧ t.Adds t' ∧ s.CopyOf v t' w

variable {ev : Evaluator} {s : Store} {vs : List Value} {xs : List Expr}

theorem exists_values (h : List.Forall₂ (ev.Copies s) vs xs) (scope : Ref .scope) (t : Store) :
    ∃ ws t', values ev scope xs t = .ok ws t' ∧ t.Adds t' ∧
      ∀ u, t'.Adds u → List.Forall₂ (s.Alike u) vs ws := by
  induction h generalizing t with
  | nil => exact ⟨[], t, rfl, .refl t, fun _ _ => .nil⟩
  | @cons v x vs xs hx _ ih =>
    obtain ⟨w, t₁, hw, ht₁, hcopy⟩ := hx scope t
    obtain ⟨ws, t₂, hws, ht₂, hcopies⟩ := ih t₁
    refine ⟨w :: ws, t₂, ?_, ht₁.trans ht₂,
      fun u hu => .cons (hcopy u (ht₂.trans hu)) (hcopies u hu)⟩
    rw [values, List.mapM_cons]
    exact Expr.bind_eq_ok.2 ⟨w, t₁, hw, Expr.bind_eq_ok.2 ⟨ws, t₂, hws, rfl⟩⟩

/-- A dictionary is filed and has copies of these entries. -/
structure CopiesEntries (s : Store) (es : List Entry) (t : Store) (d : Dict) : Prop where
  filed : d.Filed t
  entries : List.Forall₂ (s.AlikeEntry t) es d.entries

/-- Putting in a copy of an entry, where those before it were put in. -/
theorem exists_insert {before : List Entry} {e : Entry} {d : Dict} {t : Store} {k v : Value}
    (he : Dict.Keyed s (before ++ [e])) (hd : ∀ u, t.Adds u → CopiesEntries s before u d)
    (hk : s.CopyOf e.key t k) (hv : s.CopyOf e.value t v) :
    ∃ d' t', d.insert k v t = .ok d' t' ∧ t.Adds t' ∧
      ∀ u, t'.Adds u → CopiesEntries s (before ++ [e]) u d' := by
  -- No copy that came before has the key of this one.
  have hnew : ∀ u, t.Adds u → ∀ w, u.key? w = s.key? e.key →
      ∀ f ∈ d.entries, u.sameKey f.key w = false := fun u hu w hw f hf => by
    obtain ⟨a, ha, haf⟩ := exists_mem_left (hd u hu).entries hf
    cases haf with
    | mk hak =>
      rw [sameKey_congr hak.key? hw]
      exact (List.pairwise_append.1 he.distinct).2.2 a ha e List.mem_cons_self
  obtain ⟨j, hj⟩ := exists_key? (s := s) (he.isKey e (List.mem_append_right _ List.mem_cons_self))
  obtain ⟨h, hh⟩ := exists_hashKey? (hk.alike.key?.trans hj)
  have hn : d.place? h (t.sameKey · k) = none :=
    Dict.place?_eq_none (hnew t (.refl t) k hk.alike.key?)
  obtain ⟨k', t', hdet, ht, hk'⟩ := hk.detach
  refine ⟨_, t', Dict.insert_eq_of_detached hh hn hdet, ht, fun u hu => ⟨?_, ?_⟩⟩
  · have hku := (hk' u hu).key?
    refine (hd u (ht.trans hu)).filed.push ?_ (hnew u (ht.trans hu) k' hku)
    rw [hashKey?_congr (hku.trans hk.alike.key?.symm), hh]
  · exact List.rel_append (hd u (ht.trans hu)).entries
      (.cons (.mk (hk' u hu) (hv u (ht.trans hu))) .nil)

/-- The entries of a dictionary are put in one after the other. -/
theorem exists_dictPairs (before : List Entry) {es : List Entry} {ps : List (Expr × Expr)}
    {d : Dict} {t : Store} (hes : Dict.Keyed s (before ++ es))
    (h : List.Forall₂ (fun e p => ev.Copies s e.key p.1 ∧ ev.Copies s e.value p.2) es ps)
    (hd : ∀ u, t.Adds u → CopiesEntries s before u d) (scope : Ref .scope) :
    ∃ d' t', dictPairs ev scope d ps t = .ok d' t' ∧ t.Adds t' ∧
      ∀ u, t'.Adds u → CopiesEntries s (before ++ es) u d' := by
  -- On the entries still to come; those in `before` have their copies in `d`, in whatever store
  -- comes later.
  induction h generalizing before d t with
  | nil => exact ⟨d, t, rfl, .refl t, by simpa using hd⟩
  | @cons e p es ps hp _ ih =>
    obtain ⟨k, t₁, hk, ht₁, hkc⟩ := hp.1 scope t
    obtain ⟨v, t₂, hv, ht₂, hvc⟩ := hp.2 scope t₁
    have ht₁₂ := ht₁.trans ht₂
    rw [List.append_cons] at hes
    have hbefore := hes.sublist (List.sublist_append_left _ es)
    obtain ⟨d₁, t₃, hi, ht₃, hd₁⟩ :=
      exists_insert hbefore (fun u hu => hd u (ht₁₂.trans hu)) (hkc.adds ht₂) hvc
    obtain ⟨d₂, t₄, hps, ht₄, hd₂⟩ := ih _ hes hd₁
    refine ⟨d₂, t₄, ?_, ht₁₂.trans (ht₃.trans ht₄), by simpa using hd₂⟩
    obtain ⟨kx, vx⟩ := p
    exact Expr.bind_eq_ok.2
      ⟨k, t₁, hk, Expr.bind_eq_ok.2 ⟨v, t₂, hv, Expr.bind_eq_ok.2 ⟨d₁, t₃, hi, hps⟩⟩⟩

end Evaluator

/-! ### Dollar signs -/

/-- A doubled dollar sign is one, and no name begins anywhere. -/
theorem Interpolation.pieces_doubled (cs : List Char) :
    pieces (cs.flatMap fun c => if c = '$' then ['$', '$'] else [c]) = cs.map .char := by
  induction cs with
  | nil => rw [List.flatMap_nil, pieces, List.map_nil]
  | cons c cs ih =>
    rw [List.flatMap_cons]
    by_cases hc : c = '$'
    · rw [hc, if_pos rfl, List.cons_append, List.cons_append, List.nil_append, pieces, ih,
        List.map_cons]
    · rw [if_neg hc, List.cons_append, List.nil_append, pieces, ih, List.map_cons]
      all_goals simp [hc]

theorem Store.interpolatePieces_chars (s : Store) (scope : Ref .scope) (cs : List Char) :
    s.interpolatePieces scope (cs.map .char) = .ok cs := by
  induction cs with
  | nil => rfl
  | cons c cs ih =>
    rw [List.map_cons, interpolatePieces, ih]
    rfl

theorem Store.interpolate_doubled (s : Store) (scope : Ref .scope) (x : String) :
    s.interpolate scope (String.ofList (x.toList.flatMap
      fun c => if c = '$' then ['$', '$'] else [c])) =
      .ok x := by
  rw [interpolate, String.toList_ofList, Interpolation.pieces_doubled, interpolatePieces_chars]
  exact congrArg Except.ok String.ofList_toList

/-! ### The literal of a value -/

theorem exists_mapM_ok {α β ε : Type} {f : α → Except ε β} {P : α → β → Prop} {xs : List α}
    (h : ∀ x ∈ xs, ∃ y, f x = .ok y ∧ P x y) : ∃ ys, xs.mapM f = .ok ys ∧ List.Forall₂ P xs ys := by
  obtain ⟨ys, hys, hall⟩ | ⟨before, x, after, e, rfl, _, he, _⟩ := mapM_cases f xs
  · refine ⟨ys, hys, ((List.forall₂_and_left _ _).2 ⟨h, hall⟩).imp ?_⟩
    rintro x y ⟨⟨z, hz, hP⟩, hy⟩
    cases hz.symm.trans hy
    exact hP
  · obtain ⟨y, hy, -⟩ := h x (by simp)
    cases he.symm.trans hy

/-- The values that have a literal: those that are not, and do not quote, code. -/
def Value.IsData : Value → Prop
  | .function _ | .macroFn _ | .builtin _ | .quote _ => False
  | _ => True

namespace Store

variable {s : Store} {v : Value} {n : Nat}

def DataIn (s : Store) (v : Value) : Prop := ∀ u, s.Within u v → u.IsData

theorem DataIn.part {u : Value} (h : s.DataIn v) (hu : s.Inside u v) : s.DataIn u :=
  fun w hw => h w (hw.part hu)

/-- A value has a literal, and evaluating that gives a copy of the value. -/
def Survives (s : Store) (n : Nat) (v : Value) (x : Expr) : Prop :=
  s.literalIn n v = .ok x ∧ ∀ m, n + 2 ≤ m → (evaluate m).Copies s v x

theorem exists_survives_leaf (hd : v.IsData) (hc : ¬ v.IsContainer) : ∃ x, s.Survives n v x := by
  have hm : ∀ m, n + 2 ≤ m → ∃ k, m = k + 2 := fun m hm => ⟨m - 2, by omega⟩
  cases v with
  | text r =>
    refine ⟨_, by rw [literalIn], fun m hle scope t => ?_⟩
    obtain ⟨k, rfl⟩ := hm m hle
    refine ⟨_, _, ?_, .newText t (s.text r), fun u hu => .text hu.text_newText⟩
    rw [evaluate_succ, Expr.ofText, Evaluator.node, Eval.get_bind, interpolate_doubled]
    rfl
  | int | num | bool | null =>
    refine ⟨_, by rw [literalIn], fun m hle scope t => ?_⟩
    obtain ⟨k, rfl⟩ := hm m hle
    exact ⟨_, t, by rw [evaluate_succ]; rfl, .refl t, fun u _ => .plain trivial⟩
  | range a b =>
    refine ⟨_, by rw [literalIn], fun m hle scope t => ?_⟩
    obtain ⟨k, rfl⟩ := hm m hle
    refine ⟨.range a b, t, ?_, .refl t, fun u _ => .plain trivial⟩
    rw [evaluate_succ, Evaluator.node, Evaluator.range, evaluate_succ, evaluate_succ]
    rfl
  | array | dict => exact absurd trivial hc
  | _ => exact hd.elim

theorem exists_survives_array {r : Ref .array}
    (h : ∀ u ∈ (s.array r).toList, ∃ x, s.Survives n u x) :
    ∃ x, s.Survives (n + 1) (.array r) x := by
  obtain ⟨xs, hxs, hcopies⟩ := exists_mapM_ok h
  refine ⟨.array xs, by rw [literalIn, hxs]; rfl, fun m hle scope t => ?_⟩
  obtain ⟨k, rfl⟩ : ∃ k, m = k + 1 := ⟨m - 1, by omega⟩
  have hk := hcopies.imp fun u x hux => hux k (by omega)
  obtain ⟨ws, t', hws, ht, halike⟩ := Evaluator.exists_values hk scope t
  refine ⟨.array (t'.newArray ws.toArray).1, (t'.newArray ws.toArray).2, ?_,
    ht.trans (.newArray t' _),
    fun u hu => .array ?_⟩
  · rw [evaluate_succ, Evaluator.node]
    exact Expr.bind_eq_ok.2 ⟨ws, t', hws, rfl⟩
  · rw [hu.array_newArray]
    exact halike u ((Adds.newArray t' _).trans hu)

theorem exists_survives_dict {r : Ref .dict} (hf : Dict.Filed s (s.dict r))
    (h : ∀ e ∈ (s.dict r).entries, (∃ x, s.Survives n e.key x) ∧ ∃ x, s.Survives n e.value x) :
    ∃ x, s.Survives (n + 1) (.dict r) x := by
  have hp : ∀ e ∈ (s.dict r).entries, ∃ p : Expr × Expr,
      (do
        let k ← s.literalIn n e.key
        let v ← s.literalIn n e.value
        return (k, v)) = .ok p ∧ ∀ m, n + 2 ≤ m →
        (evaluate m).Copies s e.key p.1 ∧ (evaluate m).Copies s e.value p.2 := fun e he => by
    obtain ⟨⟨k, hk, hkc⟩, v, hv, hvc⟩ := h e he
    exact ⟨(k, v), by rw [hk, hv]; rfl, fun m hm => ⟨hkc m hm, hvc m hm⟩⟩
  obtain ⟨ps, hps, hcopies⟩ := exists_mapM_ok hp
  refine ⟨.dict ps, by rw [literalIn, hps]; rfl, fun m hle scope t => ?_⟩
  obtain ⟨k, rfl⟩ : ∃ k, m = k + 1 := ⟨m - 1, by omega⟩
  have hk := hcopies.imp fun e p hep => hep k (by omega)
  obtain ⟨d, t', hd, ht, hcopy⟩ := Evaluator.exists_dictPairs [] (d := {}) (t := t) hf.keyed hk
    (fun u _ => ⟨Dict.filed_empty u, .nil⟩) scope
  refine ⟨.dict (t'.newDict d).1, (t'.newDict d).2, ?_, ht.trans (.newDict t' d), fun u hu => ?_⟩
  · rw [evaluate_succ, Evaluator.node, Evaluator.dict]
    exact Expr.bind_eq_ok.2 ⟨d, t', hd, rfl⟩
  · have hu' := hcopy u ((Adds.newDict t' _).trans hu)
    rw [← hu.dict_newDict] at hu'
    exact alike_dict hf hu'.filed hu'.entries

theorem exists_survives (hn : s.Nests n v) (hd : s.DataIn v) (hi : s.IntactIn v) :
    ∃ x, s.Survives n v x := by
  induction n generalizing v with
  | zero => exact exists_survives_leaf (hd v (.refl s v)) hn
  | succ n ih =>
    have hpart : ∀ u, s.Inside u v → ∃ x, s.Survives n u x :=
      fun u hu => ih (hn u hu) (hd.part hu) (hi.part hu)
    by_cases hc : v.IsContainer
    · cases v with
      | array r => exact exists_survives_array fun u hu => hpart u (inside_array hu)
      | dict r =>
        refine exists_survives_dict hi.filed fun e he => ?_
        exact ⟨hpart _ (inside_key he), hpart _ (inside_value he)⟩
      | _ => exact hc.elim
    · exact exists_survives_leaf (hd v (.refl s v)) hc

/-- A value without code that does not contain itself has a literal. Wherever that is evaluated, it
gives a value that shows the same; nothing is printed, and no scope, text, array or dictionary
changes. -/
theorem literal_survives (ha : s.Acyclic v) (hd : s.DataIn v) (hi : s.IntactIn v) :
    ∃ x, s.literal v = .ok x ∧ ∀ n, s.nesting + 3 ≤ n → ∀ scope t, ∃ w t',
      evaluate n x scope t = .ok w t' ∧ s.Alike t' v w ∧ t.Adds t' := by
  obtain ⟨x, hx, hcopies⟩ := exists_survives ha.nests hd hi
  refine ⟨x, hx, fun n hn scope t => ?_⟩
  obtain ⟨w, t', hw, ht, hcopy⟩ := hcopies n hn scope t
  exact ⟨w, t', hw, hcopy.alike, ht⟩

theorem dataIn_mirrored (hv : v.IsData) : mirrored.DataIn v := by
  intro u hu
  obtain rfl | ⟨w, hw, -⟩ := Relation.ReflTransGen.cases_head hu
  · exact hv
  · obtain ⟨-, rfl⟩ | ⟨-, hm⟩ := inside_mirrored hw
    · trivial
    · simp only [List.mem_cons, List.not_mem_nil, or_false] at hm
      obtain rfl | rfl | rfl | rfl | rfl | rfl := hm <;> trivial

theorem literal_survives_mirrored :
    mirrored.Acyclic (.dict ⟨0⟩) ∧ mirrored.DataIn (.dict ⟨0⟩) ∧ mirrored.IntactIn (.dict ⟨0⟩) ∧
    ∃ x, mirrored.literal (.dict ⟨0⟩) = .ok x ∧ ∀ n, 7 ≤ n → ∀ scope t, ∃ w t',
      evaluate n x scope t = .ok w t' ∧ mirrored.Alike t' (.dict ⟨0⟩) w ∧ t.Adds t' := by
  have ha := acyclic_mirrored (.dict ⟨0⟩)
  have hd := dataIn_mirrored (v := .dict ⟨0⟩) trivial
  have hi : mirrored.IntactIn (.dict ⟨0⟩) := fun r _ => intact_mirrored r
  exact ⟨ha, hd, hi, literal_survives ha hd hi⟩

end Store

namespace Session

/-- Changes a key of a dictionary into another key of it. -/
def merging : String :=
  "h := %\x7b\"ab\": 1, \"zb\": 2\x7d; yolo \x7b k := (-h)[1]; k[0] = \"z\" \x7d"

/-- Two entries of the dictionary now show the same key, and the literal gives only one of them
back. -/
theorem literal_merging :
    ((new.runAll [merging]).2.store.dict ⟨0⟩).size = 2 ∧
      (match (new.runAll [merging]).2.store.literal (.dict ⟨0⟩) with
      | .ok x =>
        match YeetYoink.evaluate 9 x ⟨0⟩ (new.runAll [merging]).2.store with
        | .ok (.dict r) t => some (t.dict r).size
        | _ => none
      | .error _ => none) = some 1 := by
  decide +kernel

end Session

end YeetYoink
