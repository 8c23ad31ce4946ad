import PropSat.NormalForm.Pass
import PropSat.Proofs.Formula.Spines
import PropSat.Proofs.NameTable

/-!
No pass changes what a formula means or loses a name of it, whatever the formula: `distributeOr` may find
negations and `iff`s below an `or`, and `nnf` may find any connective. Each pass rewrites node by node,
so one node is looked at for each of them.
-/

namespace PropSat

namespace Formula

/-- Two formulas with the same names that are true together. -/
structure Equivalent (f g : Formula) : Prop where
  truth : ∀ v, g.truth v = f.truth v
  names : ∀ name, name ∈ g.names ↔ name ∈ f.names

namespace Equivalent

variable {f g h left right left' right' : Formula}

theorem refl (f : Formula) : Equivalent f f := ⟨fun _ => rfl, fun _ => Iff.rfl⟩

theorem trans (first : Equivalent f g) (second : Equivalent g h) : Equivalent f h where
  truth v := (second.truth v).trans (first.truth v)
  names name := (second.names name).trans (first.names name)

theorem not (same : Equivalent f g) : Equivalent (.not f) (.not g) where
  truth v := congrArg (!·) (same.truth v)
  names := same.names

theorem binary (op : Connective) (lefts : Equivalent left left') (rights : Equivalent right right') :
    Equivalent (.binary op left right) (.binary op left' right') where
  truth v := by rw [Formula.truth, Formula.truth, lefts.truth, rights.truth]
  names name := by
    rw [Formula.names, Formula.names, List.mem_append, List.mem_append, lefts.names, rights.names]

/-- Where no name is open both come to the one classical value. -/
theorem eval (same : Equivalent f g) {m : Model} (bound : ∀ name ∈ f.vars, name ∈ m) :
    f.eval m = some (f.truth m.value) ∧ g.eval m = some (f.truth m.value) := by
  have names : ∀ name ∈ f.names, name ∈ m := fun name here => bound name (mem_vars.2 here)
  have others : ∀ name ∈ g.names, name ∈ m := fun name here => names name ((same.names name).1 here)
  exact ⟨eval_bound names, by rw [eval_bound others, same.truth]⟩

/-- The same names occur, so the variables differ in their order at most. -/
theorem vars_perm (same : Equivalent f g) : g.vars.Perm f.vars := by
  rw [List.perm_ext_iff_of_nodup g.vars_nodup f.vars_nodup]
  intro name
  rw [mem_vars, mem_vars, same.names]

end Equivalent

/-- A relation between formulas that every connective hands on from its operands to the whole. -/
structure Congruent (R : Formula → Formula → Prop) : Prop where
  trans {f g h : Formula} : R f g → R g h → R f h
  not {f g : Formula} : R f g → R (.not f) (.not g)
  binary {left left' right right' : Formula} (op : Connective) :
    R left left' → R right right' → R (.binary op left right) (.binary op left' right')

/-- A pass may rewrite each node over operands that it has rewritten before. -/
theorem Congruent.fold {R : Formula → Formula → Prop} (congruent : Congruent R)
    {combine : Node Formula → Formula} (keeps : ∀ node, R node.toFormula (combine node)) (f : Formula) :
    R f (f.fold combine) := by
  induction f with
  | var name =>
    rw [fold_var]
    exact keeps (.var name)
  | not arg ih =>
    rw [fold_not]
    exact congruent.trans (congruent.not ih) (keeps (.not _))
  | binary op left right ihl ihr =>
    rw [fold_binary]
    exact congruent.trans (congruent.binary op ihl ihr) (keeps (.binary op _ _))

theorem equivalent_congruent : Congruent Equivalent where
  trans := Equivalent.trans
  not := Equivalent.not
  binary := Equivalent.binary

theorem iffNode_equivalent (node : Node Formula) : Equivalent node.toFormula (iffNode node) := by
  unfold iffNode
  split
  case h_1 left right =>
    constructor
    · intro v
      simp only [truth, Node.toFormula, Connective.apply]
      cases left.truth v <;> cases right.truth v <;> rfl
    · intro name
      simp only [names, Node.toFormula, List.mem_append, or_self]
  case h_2 => exact .refl _

theorem impliesNode_equivalent (node : Node Formula) :
    Equivalent node.toFormula (impliesNode node) := by
  unfold impliesNode
  split
  case h_1 left right => exact ⟨fun v => rfl, fun name => Iff.rfl⟩
  case h_2 => exact .refl _

/-- The connective that stands between the negated operands, or takes only the right one negated. -/
theorem negation_equivalent (left right : Formula) :
    Equivalent (.not (.and left right)) (.or (.not left) (.not right)) ∧
      Equivalent (.not (.or left right)) (.and (.not left) (.not right)) ∧
      Equivalent (.not (.implies left right)) (.and left (.not right)) ∧
      Equivalent (.not (.iff left right)) (.iff left (.not right)) := by
  refine ⟨⟨?_, fun _ => Iff.rfl⟩, ⟨?_, fun _ => Iff.rfl⟩, ⟨?_, fun _ => Iff.rfl⟩, ⟨?_, fun _ => Iff.rfl⟩⟩
  all_goals
    intro v
    simp only [truth, Connective.apply]
    cases left.truth v <;> cases right.truth v <;> rfl

/-- The negated reading is one of the negation, whatever stands around the formula. -/
theorem readings_equivalent (f : Formula) :
    Equivalent f f.readings.positive ∧ Equivalent (.not f) f.readings.negative := by
  induction f with
  | var name =>
    rw [readings_var]
    exact ⟨.refl _, .refl _⟩
  | not arg ih =>
    obtain ⟨positive, negative⟩ := ih
    have twice : Equivalent (.not (.not arg)) arg := ⟨fun v => (Bool.not_not _).symm, fun _ => Iff.rfl⟩
    rw [readings_not]
    exact ⟨negative, twice.trans positive⟩
  | binary op left right ihl ihr =>
    obtain ⟨notAnd, notOr, notImplies, notIff⟩ := negation_equivalent left right
    rw [readings_binary]
    cases op with
    | and => exact ⟨.binary .and ihl.1 ihr.1, notAnd.trans (.binary .or ihl.2 ihr.2)⟩
    | or => exact ⟨.binary .or ihl.1 ihr.1, notOr.trans (.binary .and ihl.2 ihr.2)⟩
    | implies => exact ⟨.binary .implies ihl.1 ihr.1, notImplies.trans (.binary .and ihl.1 ihr.2)⟩
    | iff => exact ⟨.binary .iff ihl.1 ihr.1, notIff.trans (.binary .iff ihl.1 ihr.2)⟩

section
variable {lefts rights : List Formula}

theorem mem_pairs {f : Formula} : f ∈ pairs lefts rights ↔ ∃ l ∈ lefts, ∃ r ∈ rights, .or l r = f := by
  simp only [pairs, List.mem_flatMap, List.mem_map]

/-- The pairs are all true only if a false formula on one side leaves none false on the other. -/
theorem all_pairs (v : String → Bool) :
    (pairs lefts rights).all (truth v) = (lefts.all (truth v) || rights.all (truth v)) := by
  rw [Bool.eq_iff_iff, Bool.or_eq_true]
  simp only [List.all_eq_true]
  constructor
  · intro all
    by_cases hold : ∀ l ∈ lefts, truth v l = true
    · exact .inl hold
    · obtain ⟨l, left, fails⟩ : ∃ l ∈ lefts, truth v l = false := by simpa using hold
      right
      intro r right
      have pair := all (.or l r) (mem_pairs.2 ⟨l, left, r, right, rfl⟩)
      rwa [truth, fails] at pair
  · intro one f member
    obtain ⟨l, left, r, right, rfl⟩ := mem_pairs.1 member
    rcases one with all | all
    · simp [truth, Connective.apply, all l left]
    · simp [truth, Connective.apply, all r right]

/-- No name is lost, as each side has something to be paired with. -/
theorem mem_names_pairs (hl : lefts ≠ []) (hr : rights ≠ []) {name : String} :
    name ∈ (pairs lefts rights).flatMap names ↔
      name ∈ lefts.flatMap names ∨ name ∈ rights.flatMap names := by
  obtain ⟨l₀, left₀⟩ := List.exists_mem_of_ne_nil lefts hl
  obtain ⟨r₀, right₀⟩ := List.exists_mem_of_ne_nil rights hr
  simp only [List.mem_flatMap]
  constructor
  · rintro ⟨f, member, here⟩
    obtain ⟨l, left, r, right, rfl⟩ := mem_pairs.1 member
    rcases List.mem_append.1 here with here | here
    · exact .inl ⟨l, left, here⟩
    · exact .inr ⟨r, right, here⟩
  · rintro (⟨l, left, here⟩ | ⟨r, right, here⟩)
    · exact ⟨.or l r₀, mem_pairs.2 ⟨l, left, r₀, right₀, rfl⟩, List.mem_append_left _ here⟩
    · exact ⟨.or l₀ r, mem_pairs.2 ⟨l₀, left₀, r, right, rfl⟩, List.mem_append_right _ here⟩

end

theorem joinAll?_disjuncts (left right : Formula) :
    Connective.and.joinAll? (disjuncts left right) = some (disjoin left right) :=
  (Option.some_get _).symm

theorem disjuncts_cases (left right : Formula) :
    disjuncts left right = pairs (left.spine .and) (right.spine .and) ∨
      disjuncts left right = pairs (right.spine .and) (left.spine .and) := by
  dsimp only [disjuncts]
  split
  · exact .inr rfl
  · exact .inl rfl

theorem disjoin_equivalent (left right : Formula) : Equivalent (.or left right) (disjoin left right) := by
  have joined := joinAll?_disjuncts left right
  have hl := spine_ne_nil .and left
  have hr := spine_ne_nil .and right
  constructor
  · intro v
    rw [truth_joinAll_and joined]
    rcases disjuncts_cases left right with same | same
    · rw [same, all_pairs, truth_spine_and, truth_spine_and]
      rfl
    · rw [same, all_pairs, truth_spine_and, truth_spine_and, Bool.or_comm]
      rfl
  · intro name
    rw [names_joinAll joined]
    rcases disjuncts_cases left right with same | same
    · rw [same, mem_names_pairs hl hr, names_spine, names_spine, ← List.mem_append]
      rfl
    · rw [same, mem_names_pairs hr hl, names_spine, names_spine, or_comm, ← List.mem_append]
      rfl

theorem orNode_equivalent (node : Node Formula) : Equivalent node.toFormula (orNode node) := by
  unfold orNode
  split
  case h_1 left right => exact disjoin_equivalent left right
  case h_2 => exact .refl _

end Formula

open Formula

namespace Pass

theorem apply_equivalent (pass : Pass) (f : Formula) : Equivalent f (pass.apply f) := by
  cases pass with
  | withoutIff => exact equivalent_congruent.fold iffNode_equivalent f
  | withoutImplies => exact equivalent_congruent.fold impliesNode_equivalent f
  | nnf => exact (readings_equivalent f).1
  | distributeOr => exact equivalent_congruent.fold orNode_equivalent f

theorem applyAll_equivalent (passes : List Pass) (f : Formula) : Equivalent f (applyAll passes f) := by
  induction passes generalizing f with
  | nil => exact .refl f
  | cons pass passes ih => exact (apply_equivalent pass f).trans (ih (pass.apply f))

/-- Any passes in any order leave the value under each model of the formula's variables as it was, and
where a model of some of them gives values before and after, these are the same. The way to normal form
is one such order. -/
theorem eval_applyAll (passes : List Pass) (f : Formula) :
    (∀ m : Model, (∀ name ∈ f.vars, name ∈ m) →
      ∃ b, f.eval m = some b ∧ (applyAll passes f).eval m = some b) ∧
    (∀ (m : Model) (before after : Bool), f.eval m = some before →
      (applyAll passes f).eval m = some after → after = before) ∧
    f.toCnf = applyAll [.withoutIff, .withoutImplies, .nnf, .distributeOr] f := by
  have same := applyAll_equivalent passes f
  refine ⟨?_, ?_, rfl⟩
  · intro m bound
    exact ⟨f.truth m.value, same.eval bound⟩
  · intro m before after known known'
    calc after = (applyAll passes f).truth m.value := (truth_of_eval known').symm
      _ = f.truth m.value := same.truth m.value
      _ = before := truth_of_eval known

theorem eval_applyAll_negated :
    (∀ name ∈ (Formula.not (.iff (.var "a") (.var "b"))).vars,
      name ∈ Model.ofEntries [("a", true), ("b", false)]) ∧
    (∃ b, (Formula.not (.iff (.var "a") (.var "b"))).eval (.ofEntries [("a", true), ("b", false)]) = some b ∧
      (applyAll [.distributeOr, .nnf, .withoutIff, .nnf] (.not (.iff (.var "a") (.var "b")))).eval
        (.ofEntries [("a", true), ("b", false)]) = some b) ∧
    (Formula.not (.or (.var "a") (.var "b"))).eval (.ofEntries [("a", true)]) = some false ∧
    ∀ after, (applyAll [.nnf, .distributeOr] (.not (.or (.var "a") (.var "b")))).eval
      (.ofEntries [("a", true)]) = some after → after = false := by
  have bound : ∀ name ∈ (Formula.not (.iff (.var "a") (.var "b"))).vars,
      name ∈ Model.ofEntries [("a", true), ("b", false)] := by
    intro name here
    rw [mem_vars] at here
    simpa [names, Model.ofEntries, Std.ExtTreeMap.mem_ofList] using here
  have known : (Formula.not (.or (.var "a") (.var "b"))).eval (.ofEntries [("a", true)]) = some false := by
    rw [eval_not, eval_binary, eval_var]
    have here : (Model.ofEntries [("a", true)])["a"]? = some true := rfl
    rw [here]
    rfl
  exact ⟨bound, (eval_applyAll _ _).1 _ bound, known, fun after => (eval_applyAll _ _).2.1 _ false after known⟩

end Pass

end PropSat
