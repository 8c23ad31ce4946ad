import Std.Data.HashMap
import PropSat.Fault

/-!
Names numbered densely from zero in the order in which they are first seen, readable both ways.
-/

namespace PropSat

/-- The array and the map say the same, so no name is numbered twice. -/
structure NameTable where
  names : Array String
  ids : Std.HashMap String Nat
  agree : ∀ (name : String) (v : Nat), ids[name]? = some v ↔ names[v]? = some name

namespace NameTable

def empty : NameTable := ⟨#[], ∅, fun name v => by simp⟩

theorem agree_push {names : Array String} {ids : Std.HashMap String Nat}
    (agree : ∀ (name : String) (v : Nat), ids[name]? = some v ↔ names[v]? = some name) {fresh : String}
    (unknown : ids[fresh]? = none) (name : String) (v : Nat) :
    (ids.insert fresh names.size)[name]? = some v ↔ (names.push fresh)[v]? = some name := by
  rw [Std.HashMap.getElem?_insert, Array.getElem?_push]
  by_cases same : fresh = name
  · subst same
    have elsewhere : names[v]? ≠ some fresh := by
      rw [ne_eq, ← agree, unknown]
      intro impossible
      cases impossible
    by_cases last : v = names.size
    · simp [last]
    · simp [last, elsewhere, eq_comm]
  · have beyond : ids[name]? ≠ some names.size := by simp [agree]
    by_cases last : v = names.size
    · simp [last, same, beyond]
    · simp [last, same, agree]

/-- The number of a name; a new name takes the next free one. -/
def intern (t : NameTable) (name : String) : Nat × NameTable :=
  match known : t.ids[name]? with
  | some v => (v, t)
  | none =>
    (t.names.size, ⟨t.names.push name, t.ids.insert name t.names.size, agree_push t.agree known⟩)

def get? (t : NameTable) (name : String) : Option Nat := t.ids[name]?

def name (t : NameTable) (v : Nat) : Except Fault String := fetch t.names v

def toList (t : NameTable) : List String := t.names.toList

def size (t : NameTable) : Nat := t.names.size

def isEmpty (t : NameTable) : Bool := t.names.isEmpty

end NameTable

end PropSat
