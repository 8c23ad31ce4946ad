import PropSat.Proofs.NormalForm.Stacks
import PropSat.Proofs.Solver.Requests
import PropSat.Proofs.Text.Closing

/-!
The whole way from bytes to replies, with nothing taken for granted: not the operands that a traversal needs,
not the places of tables that the search reads and writes, not that the normal form can be read as clauses.
Bytes hold no formula and the error says so, or every request is replied to (`consult_ok`).
-/

namespace PropSat.Solver

/-- What would end a run without a reply: something relied on that is missing, or an error after the input
has been read. -/
inductive Halt where
  | missing
  | error (cause : Error)

def relyOn {α : Type} : Option α → Except Halt α
  | some a => .ok a
  | none => .error .missing

/-- The replies of a solver for the formula of an input, or the error in the input. -/
def consult (input : Text.Input) (requests : List Request) :
    Except Halt (Except Text.ParseError (List Reply)) := do
  match ← relyOn (Text.parse? input).run with
  | .error mistake => return .error mistake
  | .ok f =>
    let cnf ← relyOn f.toCnf?
    let s ← (ofCnf cnf).mapError .error
    let (replies, _) ← (s.askAll requests).mapError fun cause => .error (.fault cause)
    return .ok replies

/-- In a formula in conjunctive form every clause says something, and all it mentions has a name. -/
theorem named_of_conjunctive {f : Formula} (form : Formula.Conjunctive f) :
    ∃ e, Encoding.ofFormula f = .ok e ∧
      ∀ c ∈ e.clauses, c.literals ≠ [] ∧ ∀ l ∈ c.literals, ∃ name, e.table.name l.var = .ok name := by
  obtain ⟨e, read, -, each⟩ := Encoding.ofFormula_ok form
  refine ⟨e, read, ?_⟩
  intro c member
  have full : c.literals ≠ [] := Encoding.forall_mem_of_forall₂ each
    (fun _ _ stands => stands.literals_ne_nil) c (Array.mem_toList_iff.2 member)
  refine ⟨full, ?_⟩
  intro l own
  have inside : l.var < e.table.names.size := Encoding.inRange each c member l own
  exact ⟨_, fetch_eq_ok.2 (Array.getElem?_eq_getElem inside)⟩

/-- No traversal of a formula lacks an operand, and no list is closed without one that it needs. An input has an
error, or its formula is brought into normal form, read as clauses and solved, and any requests are replied to:
nothing on the way is ever missing, out of place or refused. -/
theorem consult_ok :
    (∀ (β σ : Type) (combine : Node β → σ → β × σ) (f : Formula) (state : σ),
      f.foldWith? combine state = some (f.foldWith combine state)) ∧
    (∀ list : Text.OpenList, list.close? = some list.close) ∧
    ∀ (input : Text.Input) (requests : List Request),
      (∃ mistake, Text.parse input = .error mistake ∧ consult input requests = .ok (.error mistake)) ∨
      ∃ f e s replies after, Text.parse input = .ok f ∧ f.toCnf? = some f.toCnf ∧
        Encoding.ofFormula f.toCnf = .ok e ∧
        (∀ c ∈ e.clauses, c.literals ≠ [] ∧ ∀ l ∈ c.literals, ∃ name, e.table.name l.var = .ok name) ∧
        ofCnf f.toCnf = .ok s ∧ s.askAll requests = .ok (replies, after) ∧
        consult input requests = .ok (.ok replies) := by
  refine ⟨?_, Text.OpenList.close?_eq, ?_⟩
  · intro β σ combine f state
    rw [Formula.foldWith?_eq, Formula.foldWith_eq_walk]
  intro input requests
  have read : (Text.parse? input).run = some (Text.parse input) := by
    rw [Text.parse?_eq]
    rfl
  cases parsed : Text.parse input with
  | error mistake =>
    left
    refine ⟨mistake, rfl, ?_⟩
    rw [consult, read, parsed]
    rfl
  | ok f =>
    right
    have form := f.toCnf_conjunctive
    obtain ⟨e, encoded, named⟩ := named_of_conjunctive form
    obtain ⟨s, entries, made, -, expects, -⟩ := ofCnf_ok form
    have keeps : s.Keeps _ := ⟨entries, expects, rfl⟩
    obtain ⟨after, run, -⟩ := keeps.askAll requests
    refine ⟨f, e, s, _, after, rfl, f.toCnf?_eq, encoded, named, made, run, ?_⟩
    rw [consult, read, parsed]
    simp [relyOn, Formula.toCnf?_eq, made, run, Except.mapError, bind, Except.bind, pure, Except.pure]

end PropSat.Solver
