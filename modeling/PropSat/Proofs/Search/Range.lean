import PropSat.Proofs.Search.Start

/-!
Which clauses a session takes. The sign of a literal takes up one bit of the word, so a variable that needs all of
them is packed without its highest bit (`Mention.var_literal`). A session refuses the first clause in which it then
reads a variable out of range (`start_eq_error_iff`). When every variable fits, this is the first clause that was
made from such a variable (`start_refused_iff`); one that does not fit may be let through (`start_wrapped`).
-/

namespace PropSat

/-- A variable that is to stand in a clause, plain or negated. -/
inductive Mention where
  | plain (v : Nat)
  | negated (v : Nat)

namespace Mention

def var : Mention → Nat
  | plain v => v
  | negated v => v

def literal : Mention → Literal
  | plain v => .positive v
  | negated v => .negative v

theorem var_literal (m : Mention) : m.literal.var = m.var % (UInt64.size / 2) := by
  cases m with
  | plain v =>
    rw [literal, Literal.var, Literal.code_positive, var, UInt64.size]
    omega
  | negated v =>
    simp only [literal, Literal.var, Literal.negative, Literal.code_positive, var, UInt64.size]
    omega

theorem var_literal_of_fits {m : Mention} (fits : 2 * m.var < UInt64.size) : m.literal.var = m.var := by
  have small : m.var < UInt64.size / 2 := by
    rw [UInt64.size] at fits ⊢
    omega
  rw [var_literal, Nat.mod_eq_of_lt small]

end Mention

def Clause.ofMentions (mentions : List Mention) : Clause := .ofList (mentions.map Mention.literal)

namespace Session

open Search

/-- Some variable that is read in the clause is none of the first `vars`. -/
def reachesBeyond (vars : Nat) (c : Clause) : Bool := c.literals.any fun l => vars ≤ l.var

section
variable {vars : Nat} {c : Clause} {clauses : Array Clause}

theorem reachesBeyond_eq_false : reachesBeyond vars c = false ↔ ∀ l ∈ c.literals, l.var < vars := by
  simp [reachesBeyond]

/-- Literals that are the same are kept once; this does not take any variable out of the clause. -/
theorem reachesBeyond_ofMentions (vars : Nat) (mentions : List Mention) :
    reachesBeyond vars (.ofMentions mentions) = mentions.any fun m => vars ≤ m.literal.var := by
  rw [Bool.eq_iff_iff]
  simp [reachesBeyond, Clause.ofMentions]

theorem enter_beyond (beyond : reachesBeyond vars c = true) (entered : Watches × Bool) (i : Nat) :
    enter vars entered (c, i) = .error (.unknownVariable c vars) := by
  have notAll : ¬c.literals.all (·.var < vars) = true := by
    simpa [reachesBeyond] using beyond
  rw [enter, if_neg notAll]

theorem start_refuses {before after : List Clause} (listed : clauses.toList = before ++ c :: after)
    (known : ∀ c ∈ before, ∀ l ∈ c.literals, l.var < vars) (beyond : reachesBeyond vars c = true) :
    start vars clauses = .error (.unknownVariable c vars) := by
  obtain ⟨watches, exhausted, run, -⟩ := enter_all known
  rw [start, listed, List.zipIdx_append, List.foldlM_append, run]
  change (enter vars (watches, exhausted) (c, _) >>= _) >>= _ = _
  rw [enter_beyond beyond]
  rfl

/-- The first clause that reaches beyond the variables is refused, and nothing else is ever wrong. -/
theorem start_eq_error_iff {fault : Fault} :
    start vars clauses = .error fault ↔
      ∃ c, clauses.toList.find? (reachesBeyond vars) = some c ∧ fault = .unknownVariable c vars := by
  cases found : clauses.toList.find? (reachesBeyond vars) with
  | none =>
    have known : InRange vars clauses := fun c member =>
      reachesBeyond_eq_false.1 (Bool.eq_false_iff.2 (List.find?_eq_none.1 found c (Array.mem_toList_iff.2 member)))
    obtain ⟨watches, exhausted, -, begun⟩ := start_eq known
    simp [begun]
  | some c =>
    obtain ⟨beyond, before, after, listed, earlier⟩ := List.find?_eq_some_iff_append.1 found
    have known : ∀ c ∈ before, ∀ l ∈ c.literals, l.var < vars := fun c member =>
      reachesBeyond_eq_false.1 (by simpa using earlier c member)
    rw [start_refuses listed known beyond]
    simp [eq_comm]

theorem start_isError_iff :
    (∃ fault, start vars clauses = .error fault) ↔ ∃ c ∈ clauses, reachesBeyond vars c = true := by
  simp only [start_eq_error_iff]
  constructor
  · rintro ⟨_, c, found, -⟩
    exact ⟨c, Array.mem_toList_iff.1 (List.mem_of_find?_eq_some found), List.find?_some found⟩
  · rintro ⟨c, member, beyond⟩
    obtain ⟨first, found⟩ := Option.isSome_iff_exists.1
      (List.find?_isSome.2 ⟨c, Array.mem_toList_iff.2 member, beyond⟩)
    exact ⟨_, first, found, rfl⟩

end

/-- A session refuses its clauses just when one of them was made from a variable that is out of range, as
long as every variable fits into a literal beside the sign; the first such clause is the one that is
named. Of a variable that does not fit it is the rest, without the highest bit, that must be in range. -/
theorem start_refused_iff (vars : Nat) (clauses : Array (List Mention)) :
    ((∀ c ∈ clauses, ∀ m ∈ c, 2 * m.var < UInt64.size) →
      ((∃ fault, start vars (clauses.map .ofMentions) = .error fault) ↔
        ∃ c ∈ clauses, ∃ m ∈ c, vars ≤ m.var)) ∧
    ((∃ fault, start vars (clauses.map .ofMentions) = .error fault) ↔
      ∃ c ∈ clauses, ∃ m ∈ c, vars ≤ m.var % (UInt64.size / 2)) ∧
    ∀ fault, start vars (clauses.map .ofMentions) = .error fault ↔
      ∃ c, (clauses.map .ofMentions).toList.find? (reachesBeyond vars) = some c ∧
        fault = .unknownVariable c vars := by
  have refused : (∃ fault, start vars (clauses.map .ofMentions) = .error fault) ↔
      ∃ c ∈ clauses, ∃ m ∈ c, vars ≤ m.literal.var := by
    simp only [start_isError_iff, Array.mem_map, exists_exists_and_eq_and, reachesBeyond_ofMentions,
      List.any_eq_true, decide_eq_true_eq]
  refine ⟨?_, ?_, fun fault => start_eq_error_iff⟩
  · intro fits
    rw [refused]
    apply exists_congr
    intro c
    apply and_congr_right
    intro member
    apply exists_congr
    intro m
    apply and_congr_right
    intro mentioned
    rw [Mention.var_literal_of_fits (fits c member m mentioned)]
  · simp only [refused, Mention.var_literal]

/-- The clause without literals is taken, and the second of two that are not is never looked at. -/
theorem start_refused_iff_three :
    (∀ c ∈ #[[], [Mention.plain 1, .negated 1], [.negated 2], [.plain 7]], ∀ m ∈ c, 2 * m.var < UInt64.size) ∧
      (∃ fault, start 2 (#[[], [Mention.plain 1, .negated 1], [.negated 2], [.plain 7]].map .ofMentions) =
        .error fault) ∧
      start 2 (#[[], [Mention.plain 1, .negated 1], [.negated 2], [.plain 7]].map .ofMentions) =
        .error (.unknownVariable (.ofMentions [.negated 2]) 2) := by
  obtain ⟨within, -, first⟩ := start_refused_iff 2 #[[], [Mention.plain 1, .negated 1], [.negated 2], [.plain 7]]
  have fits : ∀ c ∈ #[[], [Mention.plain 1, .negated 1], [.negated 2], [.plain 7]], ∀ m ∈ c,
      2 * m.var < UInt64.size := by
    simp [Mention.var, UInt64.size]
  refine ⟨fits, (within fits).2 ⟨[.negated 2], by simp, _, List.mem_singleton_self _, Nat.le_refl 2⟩, ?_⟩
  exact (first _).2 ⟨_, by simp [reachesBeyond_ofMentions, Mention.var_literal, Mention.var, UInt64.size], rfl⟩

/-- A clause made from the variable 2^63 is taken for one about the variable 0, and so let through by a
session of one variable. -/
theorem start_wrapped :
    (∃ s, start 1 (#[[Mention.plain (UInt64.size / 2)]].map .ofMentions) = .ok s) ∧
      ¬((∃ fault, start 1 (#[[Mention.plain (UInt64.size / 2)]].map .ofMentions) = .error fault) ↔
        ∃ c ∈ #[[Mention.plain (UInt64.size / 2)]], ∃ m ∈ c, 1 ≤ m.var) := by
  have known : InRange 1 (#[[Mention.plain (UInt64.size / 2)]].map .ofMentions) := by
    simp [InRange, Clause.ofMentions, Mention.var_literal, Mention.var]
  obtain ⟨watches, exhausted, -, begun⟩ := start_eq known
  refine ⟨⟨_, begun⟩, ?_⟩
  intro just
  have large : 1 ≤ UInt64.size / 2 := by decide
  obtain ⟨fault, refused⟩ := just.2 ⟨_, Array.mem_singleton_self _, _, List.mem_singleton_self _, large⟩
  rw [begun] at refused
  cases refused

end Session

end PropSat
