import PropSat.Proofs.Clause.Encoding
import PropSat.Proofs.Search.Enumeration
import PropSat.Solver

/-!
A solver answers as if it tried all assignments of the formula's variables one after the other and
evaluated the formula under each (`Formula.models`). Made for a formula in conjunctive form it answers
for that formula, and made for any formula it answers for it by way of an equivalent one.
-/

namespace PropSat

open Search Formula

namespace Formula

/-- The models that bind just the variables of the formula and make it true, in lexicographic order of
the values of the variables, false before true. -/
def models (f : Formula) : List Model :=
  ((completions f.vars.length []).map (Model.ofNames f.vars)).filter (f.eval · == some true)

/-- Each variable has two literals of 64 bits to itself. A table keeps three words for a name and takes
less than 2^63 bytes, so a formula whose variables have all been numbered has far fewer of them. -/
def Numbered (f : Formula) : Prop := 2 * f.vars.length ≤ UInt64.size

theorem mem_models {f : Formula} {m : Model} :
    m ∈ f.models ↔ (∀ name, name ∈ m ↔ name ∈ f.vars) ∧ f.eval m = some true := by
  rw [models, List.mem_filter, List.mem_map, beq_iff_eq]
  apply and_congr_left
  intro _
  constructor
  · rintro ⟨values, member, rfl⟩ name
    exact Model.mem_ofNames (mem_completions_nil.1 member)
  · intro binds
    exact ⟨f.vars.map m.value, mem_completions_nil.2 (List.length_map _),
      Model.ofNames_values f.vars_nodup binds⟩

/-- A reading of the names that makes the formula true is a model of it. -/
theorem ofNames_mem_models {f : Formula} {v : String → Bool} (holds : f.truth v = true) :
    Model.ofNames f.vars (f.vars.map v) ∈ f.models := by
  have binds : ∀ name, name ∈ Model.ofNames f.vars (f.vars.map v) ↔ name ∈ f.vars := fun name =>
    Model.mem_ofNames (List.length_map _)
  have agree : ∀ name ∈ f.names, (Model.ofNames f.vars (f.vars.map v)).value name = v name := fun name own =>
    Model.value_ofNames f.vars_nodup v (mem_vars.2 own)
  rw [mem_models, eval_bound fun name own => (binds name).2 (mem_vars.2 own), truth_congr agree, holds]
  exact ⟨binds, rfl⟩

/-- What holds under every reading has all assignments for models. -/
theorem models_of_valid {f : Formula} (valid : ∀ v, f.truth v = true) :
    f.models = (completions f.vars.length []).map (Model.ofNames f.vars) := by
  rw [models, List.filter_eq_self]
  intro m member
  obtain ⟨values, total, rfl⟩ := List.mem_map.1 member
  have binds : ∀ name ∈ f.names, name ∈ Model.ofNames f.vars values := fun name own =>
    (Model.mem_ofNames (mem_completions_nil.1 total)).2 (mem_vars.2 own)
  rw [eval_bound binds, valid, beq_self_eq_true]

theorem pairwise_models (f : Formula) :
    f.models.Pairwise fun first second =>
      Earlier (f.vars.map first.value) (f.vars.map second.value) := by
  unfold models
  apply List.Pairwise.filter
  rw [List.pairwise_map]
  apply (pairwise_completions f.vars.length []).imp_of_mem
  intro first second inFirst inSecond earlier
  rwa [Model.values_ofNames f.vars_nodup (mem_completions_nil.1 inFirst),
    Model.values_ofNames f.vars_nodup (mem_completions_nil.1 inSecond)]

theorem models_nodup (f : Formula) : f.models.Nodup := by
  apply f.pairwise_models.imp
  rintro first _ earlier rfl
  exact Earlier.irrefl _ earlier

/-- The conjunctive form has the variables of the formula, in an order of its own. -/
theorem vars_toCnf_perm (f : Formula) : f.toCnf.vars.Perm f.vars := (toCnf_equivalent f).vars_perm

theorem mem_models_toCnf {f : Formula} {m : Model} :
    m ∈ f.toCnf.models ↔ (∀ name, name ∈ m ↔ name ∈ f.vars) ∧ f.eval m = some true := by
  have binds : (∀ name, name ∈ m ↔ name ∈ f.toCnf.vars) ↔ ∀ name, name ∈ m ↔ name ∈ f.vars :=
    forall_congr' fun name => by rw [(vars_toCnf_perm f).mem_iff]
  rw [mem_models, binds]
  apply and_congr_right
  intro only
  obtain ⟨before, after⟩ := (toCnf_equivalent f).eval fun name => (only name).2
  rw [before, after]

end Formula

namespace Solver

variable {f : Formula}

/-- A solver begins with what has been read and a new search. -/
theorem ofCnf_read {e : Encoding} {session : Session} (read : Encoding.ofFormula f = .ok e)
    (start : Session.start e.table.size e.clauses = .ok session) :
    ofCnf f = .ok ⟨e.table, session, #[]⟩ := by
  rw [ofCnf, read]
  simp [Except.mapError, start, bind, Except.bind, pure, Except.pure]

theorem ofCnf_ok (form : Conjunctive f) :
    ∃ s entries, ofCnf f = .ok s ∧ s.models = #[] ∧ s.session.Expects entries ∧
      (f.Numbered → (founds entries).map (modelOf s.table) = f.models) := by
  obtain ⟨e, read, names, each⟩ := Encoding.ofFormula_ok form
  have size : e.table.size = f.vars.length := by rw [← e.table.length_toList, names]
  obtain ⟨session, entries, start, expects, found⟩ := Session.start_satisfied (Encoding.inRange each)
  refine ⟨⟨e.table, session, #[]⟩, entries, ofCnf_read read start, rfl, expects, ?_⟩
  intro numbered
  have small : 2 * e.table.size ≤ UInt64.size := size ▸ numbered
  rw [found, Formula.models, List.filter_map, size]
  change List.map (Model.ofNames e.table.toList) _ = _
  rw [names]
  apply congrArg
  apply List.filter_congr
  intro values member
  have total := mem_completions_nil.1 member
  have binds : ∀ name ∈ f.names, name ∈ Model.ofNames f.vars values := fun name here =>
    (Model.mem_ofNames total).2 (mem_vars.2 here)
  rw [Encoding.satisfied_eq_truth each small (total.trans size.symm), names, Function.comp_apply,
    eval_bound binds]
  cases f.truth _ <;> rfl

/-- The models known and those that the session has before it come out together, and are known then. -/
theorem allModels_ok {s : Solver} {entries : List Entry} (expects : s.session.Expects entries)
    {models : List Model} (all : models = s.models.toList ++ (founds entries).map (modelOf s.table)) :
    ∃ session, s.allModels = .ok (
        if models = [] then none else some models.toArray, ⟨s.table, session, models.toArray⟩) ∧
      session.Expects [] := by
  obtain ⟨session, run, after⟩ := expects.rest
  have together : s.models ++ (founds entries).toArray.map (modelOf s.table) = models.toArray := by
    simp [all]
  refine ⟨session, ?_, after⟩
  rw [allModels, run]
  simp only [bind, Except.bind, pure, Except.pure, together, List.isEmpty_toArray, List.isEmpty_iff]

/-- Any formula is accepted, and all models are given when asked for. They are those that bind the
formula's variables and make it true, each once and in lexicographic order of the values of the variables
as the conjunctive form lists them; none is given just when there is no such model. -/
theorem allModels_ofFormula (f : Formula) :
    ∃ s, ofFormula f = .ok s ∧ ∃ (models : List Model) (after : Solver),
      s.allModels = .ok (if models = [] then none else some models.toArray, after) ∧
      (f.Numbered →
        (∀ m, m ∈ models ↔ (∀ name, name ∈ m ↔ name ∈ f.vars) ∧ f.eval m = some true) ∧
        models.Nodup ∧
        models.Pairwise fun first second =>
          Earlier (f.toCnf.vars.map first.value) (f.toCnf.vars.map second.value)) := by
  obtain ⟨s, entries, made, fresh, expects, all⟩ := ofCnf_ok (toCnf_conjunctive f)
  obtain ⟨session, run, -⟩ := allModels_ok expects rfl
  refine ⟨s, made, _, _, run, ?_⟩
  intro numbered
  have small : f.toCnf.Numbered := by
    unfold Numbered at *
    rwa [(vars_toCnf_perm f).length_eq]
  have known : s.models.toList ++ (founds entries).map (modelOf s.table) = f.toCnf.models := by
    rw [fresh, all small]
    rfl
  rw [known]
  exact ⟨fun _ => mem_models_toCnf, f.toCnf.models_nodup, f.toCnf.pairwise_models⟩

theorem allModels_ofFormula_equivalence :
    (Formula.iff (.var "a") (.or (.not (.var "b")) (.var "a"))).Numbered ∧
    ∃ s, ofFormula (.iff (.var "a") (.or (.not (.var "b")) (.var "a"))) = .ok s ∧
      ∃ (models : List Model) (after : Solver),
        s.allModels = .ok (if models = [] then none else some models.toArray, after) ∧
        (∀ m, m ∈ models ↔
          (∀ name, name ∈ m ↔ name ∈ (Formula.iff (.var "a") (.or (.not (.var "b")) (.var "a"))).vars) ∧
            (Formula.iff (.var "a") (.or (.not (.var "b")) (.var "a"))).eval m = some true) ∧
        models.Nodup ∧
        models.Pairwise fun first second => Earlier
          ((Formula.iff (.var "a") (.or (.not (.var "b")) (.var "a"))).toCnf.vars.map first.value)
          ((Formula.iff (.var "a") (.or (.not (.var "b")) (.var "a"))).toCnf.vars.map second.value) := by
  have numbered : (Formula.iff (.var "a") (.or (.not (.var "b")) (.var "a"))).Numbered := by
    unfold Numbered
    have few := vars_length_le (.iff (.var "a") (.or (.not (.var "b")) (.var "a")))
    simp only [names, List.length_append, List.length_singleton] at few
    simp only [UInt64.size]
    omega
  obtain ⟨s, made, models, after, run, right⟩ :=
    allModels_ofFormula (.iff (.var "a") (.or (.not (.var "b")) (.var "a")))
  exact ⟨numbered, s, made, models, after, run, right numbered⟩

end Solver

end PropSat
