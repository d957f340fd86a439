import YeetYoink.Proofs.Decimal.RoundTrip
import YeetYoink.Proofs.Expr.Lexing
import YeetYoink.Proofs.Value.Nesting
import YeetYoink.Value.Display

/-!
# Values that contain themselves as text

Showing a value follows rules that have no bound: a container that is open shows as dots, and any
other shows the texts of its parts with itself open (`Store.Shows`). The containers that are open
differ from each other and each has a part, so there are at most `Store.nesting` of them, and the
rules give every value of every store a text (`Store.shows_inspectIn`). A value that does not
contain itself never meets a container that is open, and shows as if nothing were ever open
(`Store.Renders`).
-/

namespace YeetYoink

namespace Container

def toValue : Container → Value
  | array r => .array r
  | dict r => .dict r

/-- How a container shows inside itself. -/
def dots : Container → String
  | array _ => "[...]"
  | dict _ => "%\x7b...\x7d"

theorem toValue_injective : Function.Injective toValue := by
  intro c d h
  cases c <;> cases d <;> cases h <;> rfl

theorem isContainer_toValue (c : Container) : c.toValue.IsContainer := by
  cases c <;> trivial

end Container

theorem Value.IsContainer.exists_eq {v : Value} (h : v.IsContainer) :
    ∃ c : Container, v = c.toValue := by
  cases v with
  | array r => exact ⟨.array r, rfl⟩
  | dict r => exact ⟨.dict r, rfl⟩
  | _ => exact h.elim

namespace Store

/-- The text of a container, made of the texts of its parts. -/
def layout (s : Store) (text : Value → String) : Container → String
  | .array r => "[" ++ Expr.commas ((s.array r).toList.map text) ++ "]"
  | .dict r =>
    "%\x7b" ++ Expr.commas ((s.dict r).entries.map
      fun e => text e.key ++ ": " ++ text e.value) ++ "\x7d"

/-- The text of a value inside the containers that are open. -/
inductive Shows (s : Store) : List Container → Value → String → Prop where
  | plain {path : List Container} {v : Value} (h : ¬ v.IsContainer) :
    Shows s path v (s.inspectPlain v)
  | again {path : List Container} {c : Container} (h : c ∈ path) : Shows s path c.toValue c.dots
  | full {path : List Container} {c : Container} {text : Value → String} (h : c ∉ path)
      (hp : ∀ u, s.Inside u c.toValue → Shows s (c :: path) u (text u)) :
      Shows s path c.toValue (s.layout text c)

/-- The text of a value on its own: a text is not quoted. -/
inductive Displays (s : Store) : Value → String → Prop where
  | text (r : Ref .text) : Displays s (.text r) (s.text r)
  | other {v : Value} {t : String} (hv : v.kind ≠ .text) (h : s.Shows [] v t) : Displays s v t

/-- The text of a value by plain recursion, which never looks back. -/
inductive Renders (s : Store) : Value → String → Prop where
  | plain {v : Value} (h : ¬ v.IsContainer) : Renders s v (s.inspectPlain v)
  | full {c : Container} {text : Value → String}
      (hp : ∀ u, s.Inside u c.toValue → Renders s u (text u)) :
      Renders s c.toValue (s.layout text c)

/-- A value comes up in another one inside the containers of a path, innermost first. Nothing comes
up inside a container that is met again. -/
inductive Occurs (s : Store) (v : Value) : List Container → Value → Prop where
  | root : Occurs s v [] v
  | part {path : List Container} {c : Container} {u : Value} (h : Occurs s v path c.toValue)
      (hc : c ∉ path) (hu : s.Inside u c.toValue) : Occurs s v (c :: path) u

variable {s : Store} {path : List Container} {c : Container} {u v : Value} {n : Nat} {t : String}

theorem layout_congr {text text' : Value → String}
    (h : ∀ u, s.Inside u c.toValue → text u = text' u) :
    s.layout text c = s.layout text' c := by
  cases c with
  | array r =>
    rw [layout, layout, List.map_congr_left fun u hu => h u (inside_array hu)]
  | dict r =>
    have he : ∀ e ∈ (s.dict r).entries,
        text e.key ++ ": " ++ text e.value = text' e.key ++ ": " ++ text' e.value := fun e he => by
      rw [h _ (inside_key he), h _ (inside_value he)]
    rw [layout, layout, List.map_congr_left he]

/-! ### The rules give one text -/

theorem inspectIn_plain (h : ¬ v.IsContainer) : s.inspectIn n path v = s.inspectPlain v := by
  cases v with
  | array | dict => exact absurd trivial h
  | _ => cases n <;> rfl

theorem inspectIn_again (h : c ∈ path) : s.inspectIn (n + 1) path c.toValue = c.dots := by
  cases c with
  | array r => exact if_pos ((Container.any_isArray path r).2 h)
  | dict r => exact if_pos ((Container.any_isDict path r).2 h)

theorem inspectIn_full (h : c ∉ path) :
    s.inspectIn (n + 1) path c.toValue = s.layout (s.inspectIn n (c :: path)) c := by
  cases c with
  | array r => exact if_neg (mt (Container.any_isArray path r).1 h)
  | dict r => exact if_neg (mt (Container.any_isDict path r).1 h)

/-- A bound above what is left of the containers is never reached. -/
theorem shows_inspectIn (hn : path.Nodup) (hp : ∀ c ∈ path, ∃ u, s.Inside u c.toValue)
    (hlt : s.nesting < path.length + n) : s.Shows path v (s.inspectIn n path v) := by
  induction n generalizing path v with
  | zero =>
    have hle : (path.map Container.toValue).length ≤ s.nesting :=
      length_le_nesting (hn.map Container.toValue_injective) (List.forall_mem_map.2 hp)
    rw [List.length_map] at hle
    omega
  | succ n ih =>
    by_cases hv : v.IsContainer
    · obtain ⟨c, rfl⟩ := hv.exists_eq
      by_cases hc : c ∈ path
      · rw [inspectIn_again hc]
        exact .again hc
      · rw [inspectIn_full hc]
        refine .full hc fun u hu => ih (List.nodup_cons.2 ⟨hc, hn⟩) ?_ ?_
        · exact List.forall_mem_cons.2 ⟨⟨u, hu⟩, hp⟩
        · rw [List.length_cons]
          omega
    · rw [inspectIn_plain hv]
      exact .plain hv

theorem shows_inspect (s : Store) (v : Value) : s.Shows [] v (s.inspect v) :=
  shows_inspectIn List.nodup_nil nofun (by simp)

theorem Shows.eq_dots (h : s.Shows path v t) (hv : v = c.toValue) (hc : c ∈ path) : t = c.dots := by
  cases h with
  | plain h => exact absurd (hv ▸ c.isContainer_toValue) h
  | again => rw [Container.toValue_injective hv]
  | full h => exact absurd (Container.toValue_injective hv ▸ hc) h

theorem Shows.exists_layout (h : s.Shows path v t) (hv : v = c.toValue) (hc : c ∉ path) :
    ∃ text, t = s.layout text c ∧ ∀ u, s.Inside u c.toValue → s.Shows (c :: path) u (text u) := by
  cases h with
  | plain h => exact absurd (hv ▸ c.isContainer_toValue) h
  | again h => exact absurd (Container.toValue_injective hv ▸ h) hc
  | @full _ d text _ hp =>
    obtain rfl := Container.toValue_injective hv
    exact ⟨text, rfl, hp⟩

theorem Shows.unique {t' : String} (h : s.Shows path v t) (h' : s.Shows path v t') : t = t' := by
  induction h generalizing t' with
  | plain h =>
    cases h' with
    | plain => rfl
    | again | full => exact absurd (Container.isContainer_toValue _) h
  | again h => exact (h'.eq_dots rfl h).symm
  | full h _ ih =>
    obtain ⟨text, rfl, hp⟩ := h'.exists_layout rfl h
    exact layout_congr fun u hu => ih u hu (hp u hu)

theorem displays_iff : s.Displays v t ↔ t = s.display v := by
  refine ⟨fun h => ?_, fun h => ?_⟩
  · cases h with
    | text r => rfl
    | other hv h =>
      rw [h.unique (s.shows_inspect v)]
      cases v with
      | text r => exact absurd rfl hv
      | _ => rfl
  · subst h
    cases v with
    | text r => exact .text r
    | _ => exact .other nofun (s.shows_inspect _)

/-! ### Dots are for open containers alone -/

theorem starts_of_head? {x : String} (h : x.toList.head?.any (· != '.') = true) :
    Expr.Starts (· ≠ '.') x := by
  cases hx : x.toList with
  | nil => simp [hx] at h
  | cons c cs => exact ⟨c, cs, hx, by simpa [hx] using h⟩

theorem starts_digits {cs : List Char} (hne : cs ≠ []) (hd : ∀ c ∈ cs, isDigit c = true)
    (ds : List Char) :
    Expr.Starts (· ≠ '.') (String.ofList (cs ++ ds)) := by
  obtain ⟨c, cs, rfl⟩ := List.exists_cons_of_ne_nil hne
  refine ⟨c, cs ++ ds, String.toList_ofList, ?_⟩
  rintro rfl
  exact absurd (hd _ List.mem_cons_self) (by decide)

theorem starts_ofInt64 (n : Int64) : Expr.Starts (· ≠ '.') (Decimal.ofInt64 n) := by
  rw [Decimal.ofInt64, Decimal.ofInt]
  split
  · exact starts_of_head? (by simp)
  · simpa using starts_digits (Decimal.digits_ne_nil _)
      (fun c hc => Decimal.isDigit_of_mem_digits hc) []

theorem starts_ofFloat (x : Float) : Expr.Starts (· ≠ '.') (Decimal.ofFloat x) := by
  cases hx : Decimal.Binary.decode x with
  | some b =>
    cases hb : b.negative with
    | true => exact starts_of_head? (by simp [Decimal.ofFloat, hx, hb])
    | false =>
      obtain ⟨cs, ds, h, hne, hd, -⟩ := Decimal.ofFloat_digits hx hb
      rw [← String.ofList_toList (s := Decimal.ofFloat x), h]
      exact starts_digits hne hd _
  | none =>
    simp only [Decimal.ofFloat, hx]
    split
    · split <;> exact starts_of_head? rfl
    · exact starts_of_head? rfl

theorem starts_inspectPlain (s : Store) (v : Value) : Expr.Starts (· ≠ '.') (s.inspectPlain v) := by
  cases v with
  | int n => exact starts_ofInt64 n
  | num x => exact starts_ofFloat x
  | bool b => cases b <;> exact starts_of_head? (by simp [inspectPlain])
  | text r => exact starts_of_head? (by simp [inspectPlain, Text.quoted])
  | null | array | dict => exact starts_of_head? (by simp [inspectPlain])
  | range a b => exact ((starts_ofInt64 a).append _).append _
  | function f | macroFn f =>
    rw [inspectPlain, Expr.print]
    exact ((starts_of_head? rfl).append _).append _
  | builtin b => exact Expr.Starts.append (s := "builtin ") (starts_of_head? rfl) _
  | quote node => exact (Expr.Starts.append (s := "quote(") (starts_of_head? rfl) _).append _

theorem starts_layout (s : Store) (text : Value → String) (c : Container) :
    Expr.Starts (· ≠ '.') (s.layout text c) := by
  cases c with
  | array | dict => exact ((starts_of_head? rfl).append _).append _

theorem Shows.starts (h : s.Shows path v t) : Expr.Starts (· ≠ '.') t := by
  cases h with
  | plain => exact s.starts_inspectPlain v
  | @again _ c => cases c <;> exact starts_of_head? (by simp [Container.dots])
  | full => exact s.starts_layout _ _

theorem commas_ne_dots {α : Type} {items : List α} {f : α → String}
    (h : ∀ x ∈ items, Expr.Starts (· ≠ '.') (f x)) (close : Char) :
    (Expr.commas (items.map f)).toList ++ [close] ≠ ['.', '.', '.'] ++ [close] := by
  intro hdots
  have hdots := List.append_cancel_right hdots
  cases items with
  | nil => cases hdots
  | cons x items =>
    obtain ⟨c, cs, hx, hc⟩ := h x List.mem_cons_self
    rw [Expr.commas, String.toList_intercalate, List.map_cons, List.map_cons, hx] at hdots
    cases items <;> simp [hc] at hdots

/-- No container that is shown in full looks like one that is open. -/
theorem layout_ne_dots {text : Value → String}
    (h : ∀ u, s.Inside u c.toValue → Expr.Starts (· ≠ '.') (text u)) :
    s.layout text c ≠ c.dots := by
  intro hl
  have hl := congrArg String.toList hl
  cases c with
  | array r =>
    refine commas_ne_dots (f := text) (fun u hu => h u (inside_array hu)) ']' ?_
    simpa [layout, Container.dots] using hl
  | dict r =>
    have hentry : ∀ e ∈ (s.dict r).entries,
        Expr.Starts (· ≠ '.') (text e.key ++ ": " ++ text e.value) :=
      fun e he => ((h _ (inside_key he)).append _).append _
    refine commas_ne_dots hentry '\x7d' ?_
    simpa [layout, Container.dots] using hl

theorem Shows.eq_dots_iff (h : s.Shows path c.toValue t) : t = c.dots ↔ c ∈ path := by
  refine ⟨fun ht => ?_, h.eq_dots rfl⟩
  by_contra hc
  obtain ⟨text, rfl, hp⟩ := h.exists_layout rfl hc
  exact layout_ne_dots (fun u hu => (hp u hu).starts) ht

/-! ### What comes up in a value -/

theorem infix_commas {ts : List String} (h : t ∈ ts) : t.toList <:+: (Expr.commas ts).toList := by
  induction ts with
  | nil => cases h
  | cons t' ts ih =>
    cases ts with
    | nil =>
      obtain rfl := List.mem_singleton.1 h
      simp [Expr.commas]
    | cons t'' ts =>
      rw [Expr.commas, String.intercalate_cons_cons, String.toList_append]
      obtain rfl | h := List.mem_cons.1 h
      · rw [String.toList_append]
        exact (List.prefix_append _ _).isInfix.trans (List.prefix_append _ _).isInfix
      · exact (ih h).trans (List.suffix_append _ _).isInfix

theorem infix_layout (text : Value → String) (h : s.Inside u c.toValue) :
    (text u).toList <:+: (s.layout text c).toList := by
  cases c with
  | array r =>
    refine (infix_commas (List.mem_map_of_mem h)).trans ?_
    rw [layout, String.toList_append, String.toList_append]
    exact ⟨_, _, rfl⟩
  | dict r =>
    obtain ⟨e, he, hu⟩ := List.mem_flatMap.1 h
    have hentry : (text u).toList <:+: (text e.key ++ ": " ++ text e.value).toList := by
      simp only [List.mem_cons, List.not_mem_nil, or_false] at hu
      rw [String.toList_append, String.toList_append]
      obtain rfl | rfl := hu
      · exact (List.prefix_append _ _).isInfix.trans (List.prefix_append _ _).isInfix
      · exact (List.suffix_append _ _).isInfix
    have hmem := List.mem_map_of_mem (f := fun e : Entry => text e.key ++ ": " ++ text e.value) he
    refine (hentry.trans (infix_commas hmem)).trans ?_
    rw [layout, String.toList_append, String.toList_append]
    exact ⟨_, _, rfl⟩

namespace Occurs

theorem transGen (h : s.Occurs v path u) : ∀ c ∈ path, Relation.TransGen s.Inside u c.toValue := by
  induction h with
  | root => exact nofun
  | part _ _ hu ih => exact List.forall_mem_cons.2 ⟨.single hu, fun c hc => .head hu (ih c hc)⟩

theorem nodup (h : s.Occurs v path u) : path.Nodup := by
  induction h with
  | root => exact List.nodup_nil
  | part _ hc _ ih => exact List.nodup_cons.2 ⟨hc, ih⟩

theorem shows (h : s.Occurs v path u) : s.Shows path u (s.inspectIn (s.nesting + 1) path u) := by
  refine shows_inspectIn h.nodup (fun c hc => ?_) (by omega)
  obtain ⟨w, -, hw⟩ := Relation.TransGen.tail'_iff.1 (h.transGen c hc)
  exact ⟨w, hw⟩

/-- The text of what comes up in a value is in the text of the value. -/
theorem infix_inspect (h : s.Occurs v path u) (ht : s.Shows path u t) :
    t.toList <:+: (s.inspect v).toList := by
  induction h generalizing t with
  | root => rw [ht.unique (s.shows_inspect v)]
  | part h hc hu ih =>
    obtain ⟨text, hl, hp⟩ := h.shows.exists_layout rfl hc
    rw [ht.unique (hp _ hu)]
    exact (infix_layout text hu).trans (ih (hl ▸ h.shows))

theorem isContainer (h : s.Occurs v path u) (hu : u.IsContainer) : v.IsContainer := by
  induction h with
  | root => exact hu
  | part _ _ _ ih => exact ih (Container.isContainer_toValue _)

end Occurs

theorem display_of_isContainer (h : v.IsContainer) : s.display v = s.inspect v := by
  cases v with
  | array | dict => rfl
  | _ => exact h.elim

/-! ### Values that do not contain themselves -/

theorem Renders.shows (h : s.Renders u t) (hu : s.Acyclic u)
    (hp : ∀ c ∈ path, ¬ s.Within c.toValue u) :
    s.Shows path u t := by
  induction h generalizing path with
  | plain h => exact .plain h
  | @full c text _ ih =>
    refine .full (fun hc => hp c hc (.refl s _)) fun w hw => ih w hw (hu.part hw) ?_
    refine List.forall_mem_cons.2 ⟨fun hc => ?_, fun d hd hdw => hp d hd (hdw.part hw)⟩
    exact hu _ (.refl s _) (.tail' hc hw)

theorem Occurs.not_within (h : s.Occurs v path u) (hu : s.Acyclic u) :
    ∀ c ∈ path, ¬ s.Within c.toValue u :=
  fun c hc hcu => hu u (.refl s u) ((h.transGen c hc).trans_left hcu)

theorem exists_renders (h : s.Nests n v) : ∃ t, s.Renders v t := by
  induction n generalizing v with
  | zero => exact ⟨_, .plain h⟩
  | succ n ih =>
    by_cases hv : v.IsContainer
    · obtain ⟨c, rfl⟩ := hv.exists_eq
      choose! text htext using fun u (hu : s.Inside u c.toValue) => ih (h u hu)
      exact ⟨_, .full htext⟩
    · exact ⟨_, .plain hv⟩

/-- A cycle in a value is one in a part of it. -/
theorem exists_part_of_cycle (hu : s.Within u v) (h : Relation.TransGen s.Inside u u) :
    ∃ w, s.Within u w ∧ s.Inside w v := by
  obtain rfl | hw := Relation.ReflTransGen.cases_tail hu
  · exact Relation.TransGen.tail'_iff.1 h
  · exact hw

/-- Plain recursion ends on no other values. -/
theorem Renders.acyclic (h : s.Renders v t) : s.Acyclic v := by
  induction h with
  | @plain v h =>
    intro u hu hcycle
    obtain ⟨w, -, hw⟩ := exists_part_of_cycle hu hcycle
    obtain ⟨r, rfl, -⟩ | ⟨r, rfl, -⟩ := exists_array_or_dict hw <;> exact absurd trivial h
  | full _ ih =>
    intro u hu hcycle
    obtain ⟨w, huw, hw⟩ := exists_part_of_cycle hu hcycle
    exact ih w hw u huw hcycle

/-- Wherever a value comes up that does not contain itself, it shows as by plain recursion. -/
theorem Occurs.shows_iff_renders (h : s.Occurs v path u) (hu : s.Acyclic u) :
    s.Shows path u t ↔ s.Renders u t := by
  obtain ⟨t', ht'⟩ := exists_renders hu.nests
  have hshows := ht'.shows hu (h.not_within hu)
  exact ⟨fun ht => ht.unique hshows ▸ ht', fun ht => ht.shows hu (h.not_within hu)⟩

/-- Every value of every store has a text, by rules that have no bound. A container in it shows as
dots exactly if it is open there. What does not contain itself shows as by plain recursion, every
time it comes up, and plain recursion ends on nothing else. -/
theorem display_laws (s : Store) (v : Value) :
    (∀ t, s.Displays v t ↔ t = s.display v) ∧
    (∀ path c, s.Occurs v path c.toValue → ∃ t, s.Shows path c.toValue t ∧
      t.toList <:+: (s.display v).toList ∧ (t = c.dots ↔ c ∈ path)) ∧
    (∀ path u, s.Occurs v path u → s.Acyclic u → ∀ t, s.Shows path u t ↔ s.Renders u t) ∧
    (s.Acyclic v ↔ ∃ t, s.Renders v t) ∧
    (s.Acyclic v → v.kind ≠ .text → s.Renders v (s.display v)) := by
  refine ⟨fun t => displays_iff, fun path c h => ?_, fun path u h hu t => h.shows_iff_renders hu,
    ⟨fun h => exists_renders h.nests, fun h => h.elim fun _ => Renders.acyclic⟩, fun ha hk => ?_⟩
  · refine ⟨_, h.shows, ?_, h.shows.eq_dots_iff⟩
    rw [display_of_isContainer (h.isContainer c.isContainer_toValue)]
    exact h.infix_inspect h.shows
  · cases displays_iff.2 (rfl : s.display v = s.display v) with
    | text r => exact absurd rfl hk
    | other _ h => exact (Occurs.root.shows_iff_renders ha).1 h

/-- An array that holds another one twice, itself, and a dictionary that it is in. -/
def looped : Store where
  arrays := #[#[.array ⟨1⟩, .array ⟨0⟩, .array ⟨1⟩, .dict ⟨0⟩], #[.int 2]]
  dicts := #[⟨[⟨.bool true, .array ⟨0⟩⟩], [(⟨.bool, 1⟩, [0])]⟩]

theorem renders_looped : looped.Renders (.array ⟨1⟩) "[2]" := by
  have hparts : ∀ u, looped.Inside u (Container.array ⟨1⟩).toValue → looped.Renders u "2" :=
    fun u hu => by
    obtain rfl : u = .int 2 := by simpa [Inside, parts, Container.toValue, looped, array] using hu
    exact .plain id
  exact .full hparts

/-- The array is open in the dictionary, and the one that it holds twice never is. -/
theorem display_laws_looped :
    looped.Displays (.array ⟨0⟩) "[[2], [...], [2], %\x7btrue: [...]\x7d]" ∧
    looped.Occurs (.array ⟨0⟩) [.dict ⟨0⟩, .array ⟨0⟩] (.array ⟨0⟩) ∧
    (∃ t, looped.Shows [.dict ⟨0⟩, .array ⟨0⟩] (.array ⟨0⟩) t ∧ t = "[...]") ∧
    looped.Occurs (.array ⟨0⟩) [.array ⟨0⟩] (.array ⟨1⟩) ∧ looped.Acyclic (.array ⟨1⟩) ∧
    looped.Shows [.array ⟨0⟩] (.array ⟨1⟩) "[2]" ∧ ¬ looped.Acyclic (.array ⟨0⟩) := by
  obtain ⟨hdisplay, hdots, hrenders, -, -⟩ := display_laws looped (.array ⟨0⟩)
  have htwice : looped.Occurs (.array ⟨0⟩) [.array ⟨0⟩] (.array ⟨1⟩) :=
    .part (c := .array ⟨0⟩) .root nofun (List.mem_cons_self ..)
  have hdict : looped.Occurs (.array ⟨0⟩) [.array ⟨0⟩] (.dict ⟨0⟩) :=
    .part (c := .array ⟨0⟩) .root nofun (by simp [Inside, parts, Container.toValue, looped, array])
  have hopen : looped.Occurs (.array ⟨0⟩) [.dict ⟨0⟩, .array ⟨0⟩] (.array ⟨0⟩) :=
    .part (c := .dict ⟨0⟩) hdict (by simp)
      (by simp [Inside, parts, Container.toValue, looped, dict])
  obtain ⟨t, ht, -, hiff⟩ := hdots _ (.array ⟨0⟩) hopen
  refine ⟨(hdisplay _).2 (by decide +kernel), hopen, ⟨t, ht, hiff.2 (by simp)⟩, htwice,
    renders_looped.acyclic, (hrenders _ _ htwice renders_looped.acyclic _).2 renders_looped,
    fun h => ?_⟩
  refine h _ (.refl _ _) (.single ?_)
  simp [Inside, parts, looped, array]

end Store

end YeetYoink
