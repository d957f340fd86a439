import YeetYoink.Store

/-!
# Names

A scope binds names and may lie inside another. A name means what the innermost scope that binds it
says; `Store.chain` lists the scopes that are asked, innermost first.
-/

namespace YeetYoink

namespace Scope

def get? (x : Scope) (name : String) : Option Value := x.bindings.lookup name

def binds (x : Scope) (name : String) : Bool := (x.get? name).isSome

/-- Gives a name its value, in place of any it had. -/
def insert (name : String) (v : Value) : List (String × Value) → List (String × Value)
  | [] => [(name, v)]
  | (k, w) :: bs => if k = name then (k, v) :: bs else (k, w) :: insert name v bs

theorem lookup_insert (name : String) (v : Value) (bs : List (String × Value)) (k : String) :
    (insert name v bs).lookup k = if k = name then some v else bs.lookup k := by
  induction bs with
  | nil => by_cases h : k = name <;> simp [insert, List.lookup_cons, h, beq_false_of_ne]
  | cons b bs ih =>
    obtain ⟨j, w⟩ := b
    by_cases hj : j = name
    · subst hj
      by_cases h : k = j <;> simp [insert, List.lookup_cons, h, beq_false_of_ne]
    · by_cases h : k = j
      · subst h
        simp [insert, hj]
      · simp [insert, List.lookup_cons, hj, ih, beq_false_of_ne h]

def set (x : Scope) (name : String) (v : Value) : Scope :=
  { x with bindings := insert name v x.bindings }

/-- Setting a name changes the value of that name alone. -/
theorem get?_set (x : Scope) (name : String) (v : Value) (k : String) :
    (x.set name v).get? k = if k = name then some v else x.get? k :=
  lookup_insert name v x.bindings k

@[simp] theorem outer_set (x : Scope) (name : String) (v : Value) :
    (x.set name v).outer = x.outer := rfl

end Scope

namespace Store

/-- The scopes from one outward. A scope lies inside one that was made before it. -/
def chainFrom (s : Store) (i : Nat) : List (Ref .scope) :=
  ⟨i⟩ :: match (s.scope ⟨i⟩).outer with
    | none => []
    | some o => if o.index < i then s.chainFrom o.index else []
termination_by i

def chain (s : Store) (r : Ref .scope) : List (Ref .scope) := s.chainFrom r.index

/-- What a name means in a scope. -/
def lookup? (s : Store) (r : Ref .scope) (name : String) : Option Value :=
  (s.chain r).findSome? fun x => (s.scope x).get? name

/-- The scope that gives a name its meaning. -/
def holder? (s : Store) (r : Ref .scope) (name : String) : Option (Ref .scope) :=
  (s.chain r).find? fun x => (s.scope x).binds name

/-- Binds a name in this very scope. -/
def bind (s : Store) (r : Ref .scope) (name : String) (v : Value) : Store :=
  s.modifyScope r (·.set name v)

/-- Binds names one after the other. -/
def bindAll (s : Store) (r : Ref .scope) : List (String × Value) → Store
  | [] => s
  | (name, v) :: bs => (s.bind r name v).bindAll r bs

/-- Changes what a name means, where it is bound; `none` if it is bound nowhere. It is inlined, so
that `update` does not hold a second reference to the store while the binding is changed. -/
@[inline] def rebind? (s : Store) (r : Ref .scope) (name : String) (v : Value) : Option Store :=
  (s.holder? r name).map fun x => s.bind x name v

/-- Changes what a name means, and says whether it meant anything. -/
def update (s : Store) (r : Ref .scope) (name : String) (v : Value) : Bool × Store :=
  match s.rebind? r name v with
  | some t => (true, t)
  | none => (false, s)

/-- A new scope that lies in no other. -/
def openRoot (s : Store) : Ref .scope × Store := s.newScope {}

/-- A new scope inside another. -/
def enclose (s : Store) (r : Ref .scope) : Ref .scope × Store := s.newScope { outer := some r }

/-- The name that marks a scope as yolo. No program can write it. -/
def yoloMark : String := "#yolo"

def markYolo (s : Store) (r : Ref .scope) : Store := s.bind r yoloMark (.bool true)

def isYolo (s : Store) (r : Ref .scope) : Bool := (s.lookup? r yoloMark).isSome

end Store

end YeetYoink
