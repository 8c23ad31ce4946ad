import PropSat.Proofs.NormalForm.Equivalence

/-!
What each pass on the way to normal form can rely on. Once `iff` and `if` are gone no later pass brings
them back; then negations come to stand over names, and one distribution is enough for any nesting of
`and` and `or`.
-/

namespace PropSat.Formula

inductive IsLiteral : Formula → Prop where
  | var (name : String) : IsLiteral (.var name)
  | not (name : String) : IsLiteral (.not (.var name))

/-- A conjunction of disjunctions of literals, nested in any way. -/
def Conjunctive (f : Formula) : Prop := ∀ c ∈ f.spine .and, ∀ l ∈ c.spine .or, IsLiteral l

/-- No connective of the formula is this one. -/
def Lacks (op : Connective) : Formula → Prop
  | .var _ => True
  | .not arg => arg.Lacks op
  | .binary op' left right => op' ≠ op ∧ left.Lacks op ∧ right.Lacks op

/-- Literals joined by `and` and `or`. -/
inductive Normal : Formula → Prop where
  | literal {f : Formula} : IsLiteral f → Normal f
  | and {left right : Formula} : Normal left → Normal right → Normal (.and left right)
  | or {left right : Formula} : Normal left → Normal right → Normal (.or left right)

theorem withoutIff_lacks (f : Formula) : f.withoutIff.Lacks .iff := by
  unfold withoutIff
  induction f with
  | var name => rw [fold_var]; trivial
  | not arg ih => rw [fold_not]; exact ih
  | binary op left right ihl ihr =>
    rw [fold_binary]
    cases op with
    | and | or | implies => exact ⟨Connective.noConfusion, ihl, ihr⟩
    | iff =>
      exact ⟨Connective.noConfusion, ⟨Connective.noConfusion, ihl, ihr⟩,
        Connective.noConfusion, ihl, ihr⟩

theorem withoutImplies_lacks {f : Formula} (lacks : f.Lacks .iff) :
    f.withoutImplies.Lacks .iff ∧ f.withoutImplies.Lacks .implies := by
  unfold withoutImplies
  induction f with
  | var name => rw [fold_var]; exact ⟨trivial, trivial⟩
  | not arg ih => rw [fold_not]; exact ih lacks
  | binary op left right ihl ihr =>
    obtain ⟨differs, lefts, rights⟩ := lacks
    obtain ⟨leftIff, leftImplies⟩ := ihl lefts
    obtain ⟨rightIff, rightImplies⟩ := ihr rights
    rw [fold_binary]
    cases op with
    | and | or | implies =>
      exact ⟨⟨Connective.noConfusion, leftIff, rightIff⟩,
        Connective.noConfusion, leftImplies, rightImplies⟩
    | iff => contradiction

/-- Without them a formula and its negation both come down to literals. -/
theorem readings_normal {f : Formula} (noIff : f.Lacks .iff) (noImplies : f.Lacks .implies) :
    Normal f.readings.positive ∧ Normal f.readings.negative := by
  induction f with
  | var name =>
    rw [readings_var]
    exact ⟨.literal (.var name), .literal (.not name)⟩
  | not arg ih =>
    rw [readings_not]
    exact (ih noIff noImplies).symm
  | binary op left right ihl ihr =>
    obtain ⟨leftPositive, leftNegative⟩ := ihl noIff.2.1 noImplies.2.1
    obtain ⟨rightPositive, rightNegative⟩ := ihr noIff.2.2 noImplies.2.2
    rw [readings_binary]
    cases op with
    | and => exact ⟨.and leftPositive rightPositive, .or leftNegative rightNegative⟩
    | or => exact ⟨.or leftPositive rightPositive, .and leftNegative rightNegative⟩
    | implies => exact absurd rfl noImplies.1
    | iff => exact absurd rfl noIff.1

theorem IsLiteral.spine {f : Formula} (literal : IsLiteral f) (op : Connective) : f.spine op = [f] := by
  cases literal with
  | var name => exact spine_var op name
  | not name => exact spine_not op (.var name)

theorem IsLiteral.distributeOr {f : Formula} (literal : IsLiteral f) : f.distributeOr = f := by
  cases literal with
  | var name => exact distributeOr_var name
  | not name => rw [distributeOr_not, distributeOr_var]

theorem IsLiteral.conjunctive {f : Formula} (literal : IsLiteral f) : Conjunctive f := by
  intro c inner l inmost
  rw [literal.spine, List.mem_singleton] at inner
  subst inner
  rw [literal.spine, List.mem_singleton] at inmost
  exact inmost ▸ literal

/-- A disjunction of literals is its own only conjunct. -/
theorem spine_and_of_literals {f : Formula} (literals : ∀ l ∈ f.spine .or, IsLiteral l) :
    f.spine .and = [f] := by
  cases f with
  | var name => exact spine_var .and name
  | not arg => exact spine_not .and arg
  | binary op left right =>
    by_cases same : op = .and
    · subst same
      rw [spine_binary_of_ne Connective.noConfusion, List.forall_mem_singleton] at literals
      cases literals
    · exact spine_binary_of_ne same left right

theorem conjunctive_of_literals {f : Formula} (literals : ∀ l ∈ f.spine .or, IsLiteral l) :
    Conjunctive f := by
  intro c inner
  rw [spine_and_of_literals literals, List.mem_singleton] at inner
  exact inner ▸ literals

theorem conjunctive_and_iff {left right : Formula} :
    Conjunctive (.and left right) ↔ Conjunctive left ∧ Conjunctive right := by
  unfold Conjunctive
  rw [spine_binary_self, List.forall_mem_append]

theorem exists_of_mem_disjuncts {left right c : Formula} (member : c ∈ disjuncts left right) :
    ∃ a b, c = .or a b := by
  rcases disjuncts_cases left right with same | same
  all_goals
    rw [same, mem_pairs] at member
    obtain ⟨a, -, b, -, pair⟩ := member
    exact ⟨a, b, pair.symm⟩

/-- Each pair is an `or`, and so its own only conjunct. -/
theorem spine_disjoin (left right : Formula) : (disjoin left right).spine .and = disjuncts left right := by
  calc
    (disjoin left right).spine .and = (disjuncts left right).flatMap (spine .and) :=
      spine_joinAll (joinAll?_disjuncts left right)
    _ = (disjuncts left right).flatMap fun c => [c] := by
      apply List.flatMap_congr
      intro c member
      obtain ⟨a, b, rfl⟩ := exists_of_mem_disjuncts member
      exact spine_binary_of_ne Connective.noConfusion a b
    _ = disjuncts left right := List.flatMap_singleton' _

section
variable {p : Formula → Prop} (splits : ∀ a b, p (.or a b) ↔ p a ∧ p b)

include splits

/-- What an `or` has just when both its operands have it, all pairs have just when both sides have it. -/
theorem forall_mem_pairs {lefts rights : List Formula} (hl : lefts ≠ []) (hr : rights ≠ []) :
    (∀ c ∈ pairs lefts rights, p c) ↔ (∀ a ∈ lefts, p a) ∧ ∀ b ∈ rights, p b := by
  obtain ⟨a₀, left₀⟩ := List.exists_mem_of_ne_nil lefts hl
  obtain ⟨b₀, right₀⟩ := List.exists_mem_of_ne_nil rights hr
  constructor
  · intro all
    have both : ∀ a ∈ lefts, ∀ b ∈ rights, p a ∧ p b := fun a left b right =>
      (splits a b).1 (all _ (mem_pairs.2 ⟨a, left, b, right, rfl⟩))
    exact ⟨fun a left => (both a left b₀ right₀).1, fun b right => (both a₀ left₀ b right).2⟩
  · rintro ⟨allLeft, allRight⟩ c member
    obtain ⟨a, left, b, right, rfl⟩ := mem_pairs.1 member
    exact (splits a b).2 ⟨allLeft a left, allRight b right⟩

/-- No conjunct of either operand is lost and none is brought in. -/
theorem forall_mem_spine_disjoin (left right : Formula) :
    (∀ c ∈ (disjoin left right).spine .and, p c) ↔
      (∀ a ∈ left.spine .and, p a) ∧ ∀ b ∈ right.spine .and, p b := by
  have hl := spine_ne_nil .and left
  have hr := spine_ne_nil .and right
  rw [spine_disjoin]
  rcases disjuncts_cases left right with same | same
  · rw [same, forall_mem_pairs splits hl hr]
  · rw [same, forall_mem_pairs splits hr hl, and_comm]

end

/-- Each conjunct of the one operand is joined with one of the other, so no `and` is left below. -/
theorem conjunctive_disjoin {left right : Formula} :
    Conjunctive (disjoin left right) ↔ Conjunctive left ∧ Conjunctive right := by
  apply forall_mem_spine_disjoin
  intro a b
  rw [spine_binary_self, List.forall_mem_append]

theorem Normal.distributeOr {f : Formula} (normal : Normal f) : Conjunctive f.distributeOr := by
  induction normal with
  | literal literal => exact literal.distributeOr.symm ▸ literal.conjunctive
  | and _ _ ihl ihr =>
    rw [distributeOr_binary_of_ne Connective.noConfusion]
    exact conjunctive_and_iff.2 ⟨ihl, ihr⟩
  | or _ _ ihl ihr =>
    rw [distributeOr_or]
    exact conjunctive_disjoin.2 ⟨ihl, ihr⟩

theorem toCnf_conjunctive (f : Formula) : Conjunctive f.toCnf := by
  obtain ⟨noIff, noImplies⟩ := withoutImplies_lacks (withoutIff_lacks f)
  exact (readings_normal noIff noImplies).1.distributeOr

theorem toCnf_equivalent (f : Formula) : Equivalent f f.toCnf :=
  Pass.applyAll_equivalent Pass.toNormalForm f

end PropSat.Formula
