import YeetYoink.Value

/-!
# The store

Everything a running program can change: its texts, arrays, dictionaries and scopes, each in a pool
of its own, and what it has printed. Making a new one appends to its pool, so references already
given out keep their meaning. Reading a reference that leads nowhere gives something empty.
-/

namespace YeetYoink

/-- A key as dictionaries file it. Different keys may be filed alike. -/
structure HashKey where
  kind : Kind
  code : UInt64
  deriving DecidableEq, Repr

/-- A pair of a dictionary. -/
structure Entry where
  key : Value
  value : Value

/-- Pairs in the order in which their keys came, and a table by which they are found: the places of
the pairs that were put in under a hash key. -/
structure Dict where
  entries : List Entry := []
  slots : List (HashKey × List Nat) := []

structure Scope where
  bindings : List (String × Value) := []
  outer : Option (Ref .scope) := none

structure Store where
  texts : Array String := #[]
  arrays : Array (Array Value) := #[]
  dicts : Array Dict := #[]
  scopes : Array Scope := #[]
  /-- How many function bodies were made. -/
  bodies : Nat := 0
  printed : String := ""

namespace Store

def text (s : Store) (r : Ref .text) : String := s.texts[r.index]?.getD ""

def array (s : Store) (r : Ref .array) : Array Value := s.arrays[r.index]?.getD #[]

def dict (s : Store) (r : Ref .dict) : Dict := s.dicts[r.index]?.getD {}

def scope (s : Store) (r : Ref .scope) : Scope := s.scopes[r.index]?.getD {}

def newText (s : Store) (t : String) : Ref .text × Store :=
  (⟨s.texts.size⟩, { s with texts := s.texts.push t })

def newArray (s : Store) (a : Array Value) : Ref .array × Store :=
  (⟨s.arrays.size⟩, { s with arrays := s.arrays.push a })

def newDict (s : Store) (d : Dict) : Ref .dict × Store :=
  (⟨s.dicts.size⟩, { s with dicts := s.dicts.push d })

def newScope (s : Store) (x : Scope) : Ref .scope × Store :=
  (⟨s.scopes.size⟩, { s with scopes := s.scopes.push x })

def modifyText (s : Store) (r : Ref .text) (f : String → String) : Store :=
  { s with texts := s.texts.modify r.index f }

def modifyArray (s : Store) (r : Ref .array) (f : Array Value → Array Value) : Store :=
  { s with arrays := s.arrays.modify r.index f }

def modifyDict (s : Store) (r : Ref .dict) (f : Dict → Dict) : Store :=
  { s with dicts := s.dicts.modify r.index f }

def modifyScope (s : Store) (r : Ref .scope) (f : Scope → Scope) : Store :=
  { s with scopes := s.scopes.modify r.index f }

def print (s : Store) (line : String) : Store := { s with printed := s.printed ++ line ++ "\n" }

/-- No value that does not contain itself nests deeper than this. -/
def nesting (s : Store) : Nat := s.arrays.size + s.dicts.size

/-! ### What a change leaves alone -/

section

variable (s : Store)

@[simp] theorem text_newText (t : String) : (s.newText t).2.text (s.newText t).1 = t := by
  simp [newText, text]

@[simp] theorem array_newArray (a : Array Value) :
    (s.newArray a).2.array (s.newArray a).1 = a := by
  simp [newArray, array]

@[simp] theorem dict_newDict (d : Dict) : (s.newDict d).2.dict (s.newDict d).1 = d := by
  simp [newDict, dict]

@[simp] theorem scope_newScope (x : Scope) : (s.newScope x).2.scope (s.newScope x).1 = x := by
  simp [newScope, scope]

theorem text_newText_of_lt (t : String) {r : Ref .text} (h : r.index < s.texts.size) :
    (s.newText t).2.text r = s.text r := by
  simp [newText, text, Array.getElem?_push, Nat.ne_of_lt h]

theorem array_newArray_of_lt (a : Array Value) {r : Ref .array} (h : r.index < s.arrays.size) :
    (s.newArray a).2.array r = s.array r := by
  simp [newArray, array, Array.getElem?_push, Nat.ne_of_lt h]

theorem scope_newScope_of_lt (x : Scope) {r : Ref .scope} (h : r.index < s.scopes.size) :
    (s.newScope x).2.scope r = s.scope r := by
  simp [newScope, scope, Array.getElem?_push, Nat.ne_of_lt h]

end

end Store

end YeetYoink
