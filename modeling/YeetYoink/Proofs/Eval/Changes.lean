import YeetYoink.Proofs.Eval.Discipline
import YeetYoink.Proofs.Store.Updates

/-!
# What a sound discipline says of single changes

Making texts, arrays, dictionaries, scopes and functions, binding names, looking them up and
inserting into a dictionary, in two runs side by side.
-/

namespace YeetYoink

namespace Store

variable (s : Store)

theorem modifyArray_eq (r : Ref .array) (f : Array Value → Array Value) :
    s.modifyArray r f = s.modifyArray r fun _ => f (s.array r) := by
  have h : s.arrays.modify r.index f = s.arrays.modify r.index fun _ => f (s.array r) := by
    apply Array.ext_getElem?
    intro i
    by_cases hi : r.index = i
    · subst hi
      cases ha : s.arrays[r.index]? <;> simp [Array.getElem?_modify, Store.array, ha]
    · simp [Array.getElem?_modify, hi]
  rw [modifyArray, h]
  rfl

theorem holder?_eq_none {r : Ref .scope} {name : String} :
    s.holder? r name = none ↔ s.lookup? r name = none := by
  simp [holder?, lookup?, Scope.binds]

theorem lookup?_eq_some {s : Store} {r : Ref .scope} {name : String} {v : Value}
    (h : s.lookup? r name = some v) : ∃ q, (s.scope q).get? name = some v := by
  obtain ⟨q, -, hq⟩ := List.exists_of_findSome?_eq_some h
  exact ⟨q, hq⟩

end Store

/-- The names in a string literal are words. -/
theorem Interpolation.isWord_of_mem_pieces {cs : List Char} {n : String} (h : .name n ∈ pieces cs) :
    Lexer.IsWord n.toList := by
  fun_induction pieces cs with
  | case1 => cases h
  | case2 cs ih => exact ih (by simpa using h)
  | case3 c cs _ hc ih =>
    obtain h | h := List.mem_cons.1 h
    · cases h
      refine ⟨c, _, String.toList_ofList, hc, fun d hd => ?_⟩
      exact List.all_eq_true.1 List.all_takeWhile d hd
    · exact ih h
  | case4 _ _ _ _ ih => exact ih (by simpa using h)
  | case5 _ _ _ _ ih => exact ih (by simpa using h)

namespace Discipline.Steady

variable {α β : Type} {D : Discipline} (hD : D.Steady) {w : D.World}
include hD

/-! ### New things -/

theorem relates_newText (t : String) : D.Relates w (Eval.newText t) (Eval.newText t) D.Same := by
  refine .of_ok rfl rfl ((hD.newText t).mono fun w' _ h => ⟨h, ?_⟩)
  simp [(hD.renamed w).texts]

theorem relates_newArray {a b : Array Value} (ha : ∀ v ∈ a, D.Valid w v)
    (hb : b = a.map (Value.rename D.rename)) :
    D.Relates w (Eval.newArray a) (Eval.newArray b) D.Same := by
  subst hb
  refine .of_ok rfl rfl ((hD.newArray ha).mono fun w' _ _ => ⟨trivial, ?_⟩)
  simp [(hD.renamed w).arrays]

theorem relates_newArray_of_list {vs us : List Value} (h : D.SameAll w vs us) :
    D.Relates w (Eval.newArray vs.toArray) (Eval.newArray us.toArray) D.Same :=
  hD.relates_newArray (by simpa using h.1) (by simp [h.2])

theorem relates_newDict {d e : Dict} (h : D.SameDict w d e) :
    D.Relates w (Eval.newDict d) (Eval.newDict e) D.Same := by
  obtain ⟨hd, rfl⟩ := h
  refine .of_ok rfl rfl ((hD.newDict hd).mono fun w' _ _ => ⟨trivial, ?_⟩)
  simp [(hD.renamed w).dicts]

/-- A new scope binds nothing. -/
theorem relates_encloseEmpty {r : Ref .scope} (h : D.Known w r) :
    D.Relates w (Eval.enclose r) (Eval.enclose (D.rename r)) fun w' r q =>
      D.SameScope w' r q ∧ ∀ name, ((D.left w').scope r).get? name = none := by
  obtain ⟨w', hl, hr, hle, hs⟩ := hD.enclose h
  refine .of_ok rfl rfl ⟨w', hl, hr, hle, hs, fun name => ?_⟩
  rw [hl]
  exact congrArg (Scope.get? · name) ((D.left w).scope_newScope _)

theorem relates_enclose {r : Ref .scope} (h : D.Known w r) :
    D.Relates w (Eval.enclose r) (Eval.enclose (D.rename r)) D.SameScope :=
  (hD.relates_encloseEmpty h).mono fun _ _ _ _ hs => hs.1

theorem relates_newBody : D.Relates w Eval.newBody Eval.newBody fun _ a b => b = a :=
  .of_ok rfl rfl (hD.newBody.mono fun _ _ _ => (hD.renamed w).bodies)

theorem relates_newFunction {params : List String} {body : Block} {r : Ref .scope}
    (hr : D.Known w r) (hp : ∀ p ∈ params, D.Binds p) (hb : ∀ x ∈ body, x.Throughout D.Node) :
    D.Relates w (Eval.newFunction params body r)
      (Eval.newFunction params body (D.rename r)) D.Same := by
  refine hD.relates_bind hD.relates_newBody fun w' i j hle hij => ?_
  subst hij
  exact hD.relates_pure ⟨⟨hD.known_mono hle hr, hp, hb⟩, rfl⟩

theorem relates_newMacro {params : List String} {body : Block} {r : Ref .scope} (hm : D.macros)
    (hr : D.Known w r) (hp : ∀ p ∈ params, D.Binds p) (hb : ∀ x ∈ body, x.Throughout D.Node) :
    D.Relates w (Eval.newMacro params body r) (Eval.newMacro params body (D.rename r)) D.Same := by
  refine hD.relates_bind hD.relates_newBody fun w' i j hle hij => ?_
  subst hij
  exact hD.relates_pure ⟨⟨hm, hD.known_mono hle hr, hp, hb⟩, rfl⟩

/-- Several texts, one after the other. -/
theorem newTexts (ts : List String) :
    D.Reaches w { D.left w with texts := (D.left w).texts ++ ts }
      { D.right w with texts := (D.right w).texts ++ ts } fun w' =>
        ∀ i < ts.length, D.ValidText w' ⟨(D.left w).texts.size + i⟩ := by
  induction ts generalizing w with
  | nil => exact ⟨w, by simp, by simp, hD.refl w, by simp⟩
  | cons t ts ih =>
    obtain ⟨w₁, hl, hr, h₁, ht⟩ := hD.newText (w := w) t
    obtain ⟨w₂, hl₂, hr₂, h₂, hts⟩ := ih (w := w₁)
    refine ⟨w₂, ?_, ?_, hD.trans h₁ h₂, ?_⟩
    · simp [hl₂, hl, Store.newText]
    · simp [hr₂, hr, Store.newText]
    · intro i hi
      cases i with
      | zero => exact hD.text_mono h₂ ht
      | succ i =>
        have h := hts i (by simpa using hi)
        rw [hl] at h
        simpa [Store.newText, Nat.add_assoc, Nat.add_comm 1] using h

theorem relates_newChars (cs : List Char) :
    D.Relates w (Eval.newChars cs) (Eval.newChars cs) D.SameAll := by
  refine .of_ok rfl rfl ((hD.newTexts _).mono fun w' _ h => ⟨?_, ?_⟩)
  · intro v hv
    obtain ⟨i, hi, rfl⟩ := List.mem_map.1 hv
    exact h i (by simpa using hi)
  · simp [(hD.renamed w).texts]

/-! ### Names -/

theorem relates_declare {r q : Ref .scope} {name : String} {v u : Value} (h : D.SameScope w r q)
    (hn : D.Binds name) (hv : D.Same w v u) :
    D.Relates w (modify (·.bind r name v)) (modify (·.bind q name u)) fun _ _ _ => True := by
  obtain ⟨hr, rfl⟩ := h
  obtain ⟨hv, rfl⟩ := hv
  exact relates_modify (hD.declare hr hn.1 (.inl hn) hv)

theorem reaches_bindAll {r : Ref .scope} {bs : List (String × Value)} (hr : D.Open w r)
    (hb : ∀ b ∈ bs, D.Binds b.1 ∧ D.Valid w b.2) :
    D.Reaches w ((D.left w).bindAll r bs) ((D.right w).bindAll (D.rename r)
      (bs.map fun b => (b.1, b.2.rename D.rename))) fun _ => True := by
  induction bs generalizing w with
  | nil => exact hD.stay trivial
  | cons b bs ih =>
    obtain ⟨⟨hn, hv⟩, hb⟩ := List.forall_mem_cons.1 hb
    obtain ⟨w', hl, hr', hle, -⟩ := hD.declare hr hn.1 (.inl hn) hv
    have hb' : ∀ b ∈ bs, D.Binds b.1 ∧ D.Valid w' b.2 := fun b hbs =>
      ⟨(hb b hbs).1, hD.valid_mono hle (hb b hbs).2⟩
    obtain ⟨w'', hl', hr'', hle', -⟩ := ih (hD.open_mono hle hr) hb'
    exact ⟨w'', by rw [hl', hl]; rfl, by rw [hr'', hr']; rfl, hD.trans hle hle', trivial⟩

theorem relates_bindAll {r q : Ref .scope} {bs cs : List (String × Value)} (h : D.SameScope w r q)
    (hb : ∀ b ∈ bs, D.Binds b.1 ∧ D.Valid w b.2)
    (hc : cs = bs.map fun b => (b.1, b.2.rename D.rename)) :
    D.Relates w (modify (·.bindAll r bs)) (modify (·.bindAll q cs)) fun _ _ _ => True := by
  obtain ⟨hr, rfl⟩ := h
  subst hc
  exact relates_modify (hD.reaches_bindAll hr hb)

/-- The two functions of a composition, in a scope that binds nothing yet. -/
theorem reaches_parts {r : Ref .scope} {first second : Value} (hr : D.Open w r)
    (hn : ∀ name, ((D.left w).scope r).get? name = none) (h₁ : D.Valid w first)
    (h₂ : D.Valid w second) :
    D.Reaches w ((D.left w).bindAll r [(Yolo.firstName, first), (Yolo.secondName, second)])
      ((D.right w).bindAll (D.rename r) [(Yolo.firstName, first.rename D.rename),
        (Yolo.secondName, second.rename D.rename)]) fun _ => True := by
  obtain ⟨w₁, hl, hr₁, hle, -⟩ := hD.declare hr hD.firstName (.inr (hn _)) h₁
  have hn₁ : ((D.left w₁).scope r).get? Yolo.secondName = none := by
    rw [hl, Store.get?_bind_of_ne _ _ (by decide), hn]
  obtain ⟨w₂, hl₂, hr₂, hle₂, -⟩ :=
    hD.declare (hD.open_mono hle hr) hD.secondName (.inr hn₁) (hD.valid_mono hle h₂)
  exact ⟨w₂, by rw [hl₂, hl]; rfl, by rw [hr₂, hr₁]; rfl, hD.trans hle hle₂, trivial⟩

theorem valid_of_lookup? {r : Ref .scope} {name : String} {v : Value}
    (h : (D.left w).lookup? r name = some v) : D.Valid w v := by
  obtain ⟨q, hq⟩ := Store.lookup?_eq_some h
  exact hD.binding hq

/-- Both runs are in yolo or neither is, but where the errors of the left run do not count. -/
theorem isYolo_eq {r q : Ref .scope} (h : D.SameScope w r q) :
    (D.right w).isYolo q = (D.left w).isYolo r ∨
      (D.left w).isYolo r = false ∧ ∀ e, D.Ignored (.failed e) := by
  obtain ⟨hr, rfl⟩ := h
  exact hD.isYolo (hD.known_of_open hr)

/-- A name that can be resolved means the same, and one that cannot is unknown in both runs. -/
theorem resolve_eq {r q : Ref .scope} (h : D.SameScope w r q) {name : String} (hn : D.Name name) :
    (∃ v, (D.left w).resolve r name = .ok v ∧ D.Valid w v ∧
      (D.right w).resolve q name = .ok (v.rename D.rename)) ∨
    (D.left w).resolve r name = .error (.unknownName name) ∧
      ((D.right w).resolve q name = .error (.unknownName name) ∨ ∀ e, D.Ignored (.failed e)) := by
  obtain ⟨hr, rfl⟩ := h
  have hk := hD.known_of_open hr
  unfold Store.resolve
  cases hl : (D.left w).lookup? r name with
  | some v => exact .inl ⟨v, rfl, hD.valid_of_lookup? hl, by rw [hD.lookup_some hk hn hl]⟩
  | none =>
    obtain hr | ⟨rfl, -, hi⟩ := hD.lookup_none hk hn hl
    · rw [hr]
      cases Builtin.ofName? name with
      | some b => exact .inl ⟨_, rfl, trivial, rfl⟩
      | none => exact .inr ⟨rfl, .inl rfl⟩
    · exact .inr ⟨rfl, .inr hi⟩

theorem relates_resolve {r q : Ref .scope} (h : D.SameScope w r q) {name : String}
    (hn : D.Name name) :
    D.Relates w (Eval.ofExcept ((D.left w).resolve r name))
      (Eval.ofExcept ((D.right w).resolve q name)) D.Same := by
  obtain ⟨v, hl, hv, hr⟩ | ⟨hl, hr | hi⟩ := hD.resolve_eq h hn
  · rw [hl, hr]
    exact hD.relates_pure ⟨hv, rfl⟩
  · rw [hl, hr]
    exact hD.relates_fail id
  · rw [hl]
    exact Relates.ignored hi

theorem interpolatePieces_eq {r q : Ref .scope} (h : D.SameScope w r q)
    {ps : List Interpolation.Piece} (hp : ∀ n, .name n ∈ ps → D.Name n) :
    (∃ cs, (D.left w).interpolatePieces r ps = .ok cs ∧
      (D.right w).interpolatePieces q ps = .ok cs) ∨
    ∃ name, (D.left w).interpolatePieces r ps = .error (.unknownName name) ∧
      ((D.right w).interpolatePieces q ps = .error (.unknownName name) ∨
        ∀ e, D.Ignored (.failed e)) := by
  induction ps with
  | nil => exact .inl ⟨[], rfl, rfl⟩
  | cons p ps ih =>
    have ih := ih fun n hn => hp n (List.mem_cons_of_mem _ hn)
    cases p with
    | char c =>
      simp only [Store.interpolatePieces]
      obtain ⟨cs, hl, hr⟩ | ⟨name, hl, hr | hi⟩ := ih
      · exact .inl ⟨c :: cs, by rw [hl]; rfl, by rw [hr]; rfl⟩
      · exact .inr ⟨name, by rw [hl]; rfl, .inl (by rw [hr]; rfl)⟩
      · exact .inr ⟨name, by rw [hl]; rfl, .inr hi⟩
    | name n =>
      simp only [Store.interpolatePieces]
      obtain ⟨v, hvl, hv, hvr⟩ | ⟨hvl, hvr | hi⟩ := hD.resolve_eq h (hp n List.mem_cons_self)
      · rw [hvl, hvr]
        obtain ⟨cs, hl, hr⟩ | ⟨name, hl, hr | hi⟩ := ih
        · refine .inl ⟨((D.left w).display v).toList ++ cs, by rw [hl]; rfl, ?_⟩
          rw [hr, ← (hD.renamed w).display v]
          rfl
        · exact .inr ⟨name, by rw [hl]; rfl, .inl (by rw [hr]; rfl)⟩
        · exact .inr ⟨name, by rw [hl]; rfl, .inr hi⟩
      · exact .inr ⟨n, by rw [hvl]; rfl, .inl (by rw [hvr]; rfl)⟩
      · exact .inr ⟨n, by rw [hvl]; rfl, .inr hi⟩

theorem relates_interpolate {r q : Ref .scope} (h : D.SameScope w r q) (text : String) :
    D.Relates w (Eval.ofExcept ((D.left w).interpolate r text))
      (Eval.ofExcept ((D.right w).interpolate q text)) fun _ a b => b = a := by
  unfold Store.interpolate
  obtain ⟨cs, hl, hr⟩ | ⟨name, hl, hr | hi⟩ :=
    hD.interpolatePieces_eq h fun _ hn => hD.word (Interpolation.isWord_of_mem_pieces hn)
  · rw [hl, hr]
    exact hD.relates_pure rfl
  · rw [hl, hr]
    exact hD.relates_fail id
  · rw [hl]
    exact Relates.ignored hi

/-! ### Containers -/

theorem relates_modifyArray {r : Ref .array} {f g : Array Value → Array Value}
    (hf : ∀ v ∈ f ((D.left w).array r), D.Valid w v)
    (hg : g ((D.right w).array r) = (f ((D.left w).array r)).map (Value.rename D.rename)) :
    D.Relates w (modify (·.modifyArray r f)) (modify (·.modifyArray r g)) fun _ _ _ => True := by
  refine relates_modify ?_
  rw [Store.modifyArray_eq, Store.modifyArray_eq (D.right w), hg]
  exact hD.setArray r hf

theorem sameAll_array (r : Ref .array) :
    D.SameAll w ((D.left w).array r).toList ((D.right w).array r).toList := by
  refine ⟨fun v hv => hD.array (Array.mem_def.2 hv), ?_⟩
  rw [(hD.renamed w).array, Array.toList_map]

theorem sameDict_dict (r : Ref .dict) : D.SameDict w ((D.left w).dict r) ((D.right w).dict r) :=
  ⟨hD.dict r, (hD.renamed w).dict r⟩

theorem valid_of_find? {d : Dict} {h : HashKey} {p : Value → Bool} {v : Value}
    (hd : D.ValidDict w d) (hf : d.find? h p = some v) : D.Valid w v := by
  obtain ⟨i, e, -, he, -, rfl⟩ := Dict.exists_of_find? hf
  exact (hD.entry hd (List.mem_of_getElem? he)).1

theorem valid_of_get {d : Dict} {k v : Value} (hd : D.ValidDict w d)
    (h : d.get (D.left w) k = .ok (some v)) : D.Valid w v := by
  unfold Dict.get at h
  split at h
  · cases h
  · exact hD.valid_of_find? hd (Except.ok.inj h)

/-- A new key is a copy of its own. -/
theorem relates_push {d : Dict} {k v : Value} {h : HashKey} (hd : D.ValidDict w d)
    (hk : D.Valid w k) (hv : D.Valid w v) (hh : (D.left w).hashKey? k = some h)
    (hp : d.place? h ((D.left w).sameKey · k) = none) :
    D.Relates w (do return d.push h (← Dict.detach k) v)
      (do
        let k' ← Dict.detach (k.rename D.rename)
        return (d.rename D.rename).push h k' (v.rename D.rename)) D.SameDict := by
  cases k with
  | int n => exact hD.relates_pure ⟨hD.addEntry hd nofun hv hh hp, (d.rename_push h _ v).symm⟩
  | bool b => exact hD.relates_pure ⟨hD.addEntry hd nofun hv hh hp, (d.rename_push h _ v).symm⟩
  | text r =>
    have ht : (D.right w).text r = (D.left w).text r := (hD.renamed w).text r
    refine .of_ok rfl rfl ?_
    show D.Reaches w _ ((D.right w).newText ((D.right w).text r)).2 _
    rw [ht]
    refine (hD.addText hd hk hv hh hp).mono fun w' _ hw => ⟨hw, ?_⟩
    simp [(hD.renamed w).texts, Dict.rename_push]
  | _ => cases hh

theorem relates_insert {d e : Dict} {k k' v v' : Value} (hd : D.SameDict w d e)
    (hk : D.Same w k k') (hv : D.Same w v v') :
    D.Relates w (d.insert k v) (e.insert k' v') D.SameDict := by
  obtain ⟨hd, rfl⟩ := hd
  obtain ⟨hk, rfl⟩ := hk
  obtain ⟨hv, rfl⟩ := hv
  have hr := hD.renamed w
  unfold Dict.insert
  refine relates_get ?_
  rw [hr.hashKey?]
  cases hh : (D.left w).hashKey? k with
  | none =>
    simp only [Value.kind_rename]
    exact hD.relates_fail id
  | some h =>
    simp only [hr.place?]
    cases hp : d.place? h ((D.left w).sameKey · k) with
    | some i => exact hD.relates_pure ⟨hD.setValue hd hv, (d.rename_setValue i v).symm⟩
    | none => exact hD.relates_push hd hk hv hh hp

end Discipline.Steady

end YeetYoink
