import PropSat.Clause.Basic

/-!
Requests outside the range of a table. They are answers like any other: nothing is read or written
past an end, and who never asks out of range never sees one.
-/

namespace PropSat

inductive Fault where
  | outOfRange (size index : Nat)
  | unknownVariable (clause : Clause) (vars : Nat)
  deriving DecidableEq

def Fault.message : Fault → String
  | .outOfRange size index =>
    "index out of bounds: the len is " ++ toString size ++ " but the index is " ++ toString index
  | .unknownVariable clause vars =>
    "clause " ++ clause.text ++ " mentions a variable beyond " ++ toString vars

theorem bind_eq_ok {ε α β : Type} {x : Except ε α} {next : α → Except ε β} {b : β} :
    (x >>= next) = .ok b ↔ ∃ a, x = .ok a ∧ next a = .ok b := by
  cases x <;> simp [bind, Except.bind]

section
variable {α : Type}

/-- The entry at an index. -/
@[inline]
def fetch (xs : Array α) (i : Nat) : Except Fault α :=
  if h : i < xs.size then .ok xs[i] else .error (.outOfRange xs.size i)

@[inline]
def store (xs : Array α) (i : Nat) (x : α) : Except Fault (Array α) :=
  if h : i < xs.size then .ok (xs.set i x) else .error (.outOfRange xs.size i)

@[inline]
def adjust (xs : Array α) (i : Nat) (change : α → α) : Except Fault (Array α) :=
  if i < xs.size then .ok (xs.modify i change) else .error (.outOfRange xs.size i)

theorem fetch_eq_ok {xs : Array α} {i : Nat} {x : α} : fetch xs i = .ok x ↔ xs[i]? = some x := by
  unfold fetch
  split <;> simp_all

theorem store_eq_ok {xs ys : Array α} {i : Nat} {x : α} :
    store xs i x = .ok ys ↔ ∃ h : i < xs.size, ys = xs.set i x h := by
  unfold store
  split
  · simp_all [eq_comm]
  · exact ⟨fun same => (nomatch same), fun ⟨h, _⟩ => absurd h ‹_›⟩

theorem adjust_eq_ok {xs ys : Array α} {i : Nat} {change : α → α} :
    adjust xs i change = .ok ys ↔ i < xs.size ∧ ys = xs.modify i change := by
  unfold adjust
  split
  · simp_all [eq_comm]
  · exact ⟨fun same => (nomatch same), fun ⟨h, _⟩ => absurd h ‹_›⟩

end

end PropSat
