import PropSat.Proofs.Clause.Refusal

/-!
Any number of requests to one solver, mixed in any way. The models kept and those that the session has
before it make up one list, whatever was asked before; the first model asked for is always the first of
this list, and all models are always the whole of it (`askAll_replies`).
-/

namespace PropSat.Solver

open Search

inductive Request where
  | first
  | all

inductive Reply where
  | first (model : Option Model)
  | all (models : Option (Array Model))

def ask (s : Solver) : Request → Except Fault (Reply × Solver)
  | .first => do
    let (model, s) ← s.firstModel
    return (.first model, s)
  | .all => do
    let (models, s) ← s.allModels
    return (.all models, s)

/-- The replies to some requests, one after the other. -/
def askAll (s : Solver) : List Request → Except Fault (List Reply × Solver)
  | [] => .ok ([], s)
  | request :: rest => do
    let (reply, s) ← s.ask request
    let (later, s) ← s.askAll rest
    return (reply :: later, s)

/-- All models as they are given; none at all if there are no models. -/
def given (models : List Model) : Option (Array Model) :=
  if models = [] then none else some models.toArray

/-- What a request gets from a solver for these models. -/
def reply (models : List Model) : Request → Reply
  | .first => .first models.head?
  | .all => .all (given models)

/-- The models already kept and those still to be found are these, in this order. -/
def Keeps (s : Solver) (models : List Model) : Prop :=
  ∃ entries, s.session.Expects entries ∧
    models = s.models.toList ++ (founds entries).map (modelOf s.table)

section
variable {f : Formula} {s : Solver} {models : List Model}

theorem Keeps.firstModel (keeps : s.Keeps models) :
    ∃ s', s.firstModel = .ok (models.head?, s') ∧ s'.Keeps models := by
  obtain ⟨table, session, kept⟩ := s
  obtain ⟨entries, expects, all⟩ := keeps
  dsimp only at expects all
  cases found : kept[0]? with
  | some first =>
    have head : models.head? = some first := by
      rw [all, List.head?_append, List.head?_eq_getElem?, Array.getElem?_toList, found]
      rfl
    rw [head]
    exact ⟨⟨table, session, kept⟩, by simp [Solver.firstModel, found], entries, expects, all⟩
  | none =>
    obtain rfl : kept = #[] := by simpa using found
    obtain ⟨session', next, after⟩ := expects.next
    have later := expects.founds_cut.2.1
    cases waiting : founds entries with
    | nil =>
      rw [waiting] at next later all
      refine ⟨⟨table, session', #[]⟩, ?_, _, after, ?_⟩
      · simp [Solver.firstModel, next, all, bind, Except.bind, pure, Except.pure]
      · simp [later, all]
    | cons assignment rest =>
      -- the model found goes from what is still to come to what is kept
      rw [waiting] at next later all
      refine ⟨⟨table, session', #[modelOf table assignment]⟩, ?_, _, after, ?_⟩
      · simp [Solver.firstModel, next, all, bind, Except.bind, pure, Except.pure]
      · simp [later, all]

theorem Keeps.allModels (keeps : s.Keeps models) :
    ∃ s', s.allModels = .ok (given models, s') ∧ s'.Keeps models := by
  obtain ⟨entries, expects, all⟩ := keeps
  obtain ⟨session, run, after⟩ := allModels_ok expects all
  exact ⟨_, run, [], after, by simp [founds]⟩

/-- A request is answered from the list and leaves it as it is. -/
theorem Keeps.ask (keeps : s.Keeps models) (request : Request) :
    ∃ s', s.ask request = .ok (reply models request, s') ∧ s'.Keeps models := by
  cases request with
  | first =>
    obtain ⟨s', run, after⟩ := keeps.firstModel
    exact ⟨s', by simp [Solver.ask, run, reply, bind, Except.bind, pure, Except.pure], after⟩
  | all =>
    obtain ⟨s', run, after⟩ := keeps.allModels
    exact ⟨s', by simp [Solver.ask, run, reply, bind, Except.bind, pure, Except.pure], after⟩

theorem Keeps.askAll (keeps : s.Keeps models) (requests : List Request) :
    ∃ s', s.askAll requests = .ok (requests.map (reply models), s') ∧ s'.Keeps models := by
  induction requests generalizing s with
  | nil => exact ⟨s, rfl, keeps⟩
  | cons request rest ih =>
    obtain ⟨s₁, one, between⟩ := keeps.ask request
    obtain ⟨s', later, after⟩ := ih between
    exact ⟨s', by simp [Solver.askAll, one, later, bind, Except.bind, pure, Except.pure], after⟩

/-- A solver for a formula in conjunctive form keeps the models of the formula. -/
theorem ofCnf_models (form : Formula.Conjunctive f) :
    ∃ s models, ofCnf f = .ok s ∧ s.Keeps models ∧ (f.Numbered → models = f.models) := by
  obtain ⟨s, entries, made, fresh, expects, all⟩ := ofCnf_ok form
  exact ⟨s, _, made, ⟨entries, expects, by simp [fresh]⟩, all⟩

theorem ofCnf_keeps (made : ofCnf f = .ok s) : ∃ models, s.Keeps models := by
  have form : Formula.Conjunctive f := Formula.isCnf_iff.1 (ofCnf_isOk_iff.1 ⟨s, made⟩)
  obtain ⟨s', models, again, keeps, -⟩ := ofCnf_models form
  obtain rfl : s' = s := Except.ok.inj (again.symm.trans made)
  exact ⟨models, keeps⟩

/-- However a solver was made, what it first gives as all models answers every request made to it, in
whatever order and number they come. -/
theorem askAll_replies (made : ofCnf f = .ok s ∨ ofFormula f = .ok s) :
    ∃ models : List Model, (∃ after, s.allModels = .ok (given models, after)) ∧
      ∀ requests, ∃ after, s.askAll requests = .ok (requests.map (reply models), after) := by
  obtain ⟨models, keeps⟩ : ∃ models, s.Keeps models := made.elim ofCnf_keeps ofCnf_keeps
  refine ⟨models, ?_, ?_⟩
  · obtain ⟨after, run, -⟩ := keeps.allModels
    exact ⟨after, run⟩
  · intro requests
    obtain ⟨after, run, -⟩ := keeps.askAll requests
    exact ⟨after, run⟩

theorem askAll_replies_equivalence :
    ∃ s, ofFormula (.iff (.var "a") (.not (.var "b"))) = .ok s ∧
      ∃ models : List Model, (∃ after, s.allModels = .ok (given models, after)) ∧
        ∀ requests, ∃ after, s.askAll requests = .ok (requests.map (reply models), after) := by
  obtain ⟨s, -, made, -⟩ := ofCnf_ok (Formula.toCnf_conjunctive (.iff (.var "a") (.not (.var "b"))))
  exact ⟨s, made, askAll_replies (.inr made)⟩

end

end PropSat.Solver
