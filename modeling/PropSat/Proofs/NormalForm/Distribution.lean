import PropSat.Proofs.Formula.Subformulas
import PropSat.Proofs.NormalForm.Recognition

/-!
What one distribution makes of any formula, also of one with `if`, `iff` or negated connectives in it, which stay
what they are. Once the operands of an `or` join no `and`s, neither does any pair of their conjuncts, so one pass is
enough and a second finds nothing to do. The pairs of two sides are all clauses only if all conjuncts on both sides
are, so nothing that keeps a formula from conjunctive form is lost (`distributeOr_joinsNoAnd`).
-/

namespace PropSat.Formula

/-- An `or` joins two formulas that are no `and`s. -/
def JoinsNoAnd : Formula → Prop
  | .or left right => (∀ a b, left ≠ .and a b) ∧ ∀ a b, right ≠ .and a b
  | _ => True

variable {f arg left right : Formula} {op : Connective}

theorem spine_and_alone_iff : f.spine .and = [f] ↔ ∀ a b, f ≠ .and a b := by
  cases f with
  | var | not => simp
  | binary op left right =>
    by_cases same : op = .and
    · subst same
      have lefts := List.length_pos_iff.2 (spine_ne_nil .and left)
      have rights := List.length_pos_iff.2 (spine_ne_nil .and right)
      have several : (Formula.spine .and (.and left right)).length ≠ 1 := by
        rw [spine_binary_self, List.length_append]
        omega
      exact iff_of_false (fun alone => several (congrArg List.length alone)) fun other => other left right rfl
    · exact iff_of_true (spine_binary_of_ne same left right) fun a b equal => same (Formula.binary.inj equal).1

theorem joinsNoAnd_not : Everywhere JoinsNoAnd (.not arg) ↔ arg.Everywhere JoinsNoAnd := by
  rw [everywhere_not]
  exact and_iff_right trivial

theorem joinsNoAnd_or :
    Everywhere JoinsNoAnd (.or left right) ↔
      (left.spine .and = [left] ∧ right.spine .and = [right]) ∧
        left.Everywhere JoinsNoAnd ∧ right.Everywhere JoinsNoAnd := by
  rw [everywhere_binary, spine_and_alone_iff, spine_and_alone_iff]
  rfl

theorem joinsNoAnd_binary_of_ne (differ : op ≠ .or) :
    Everywhere JoinsNoAnd (.binary op left right) ↔
      left.Everywhere JoinsNoAnd ∧ right.Everywhere JoinsNoAnd := by
  rw [everywhere_binary]
  cases op with
  | or => contradiction
  | and | implies | iff => exact and_iff_right trivial

theorem joinsNoAnd_iff_spine :
    f.Everywhere JoinsNoAnd ↔ ∀ c ∈ f.spine .and, c.spine .and = [c] ∧ c.Everywhere JoinsNoAnd := by
  induction f with
  | var name => rw [spine_var, List.forall_mem_singleton, and_iff_right (spine_var .and name)]
  | not arg _ => rw [spine_not, List.forall_mem_singleton, and_iff_right (spine_not .and arg)]
  | binary op left right ihl ihr =>
    by_cases same : op = .and
    · subst same
      rw [joinsNoAnd_binary_of_ne Connective.noConfusion, ihl, ihr, spine_binary_self, List.forall_mem_append]
    · have alone := spine_binary_of_ne same left right
      rw [alone, List.forall_mem_singleton, and_iff_right alone]

/-- Pairs are made of conjuncts, and a conjunct is no `and`. -/
theorem joinsNoAnd_disjoin :
    (disjoin left right).Everywhere JoinsNoAnd ↔
      left.Everywhere JoinsNoAnd ∧ right.Everywhere JoinsNoAnd := by
  rw [joinsNoAnd_iff_spine, forall_mem_spine_disjoin, ← joinsNoAnd_iff_spine, ← joinsNoAnd_iff_spine]
  intro a b
  rw [and_iff_right (spine_binary_of_ne Connective.noConfusion a b), joinsNoAnd_or, and_and_and_comm]

theorem joinsNoAnd_distributeOr (f : Formula) : f.distributeOr.Everywhere JoinsNoAnd := by
  induction f with
  | var name =>
    rw [distributeOr_var, everywhere_var]
    trivial
  | not arg ih => rwa [distributeOr_not, joinsNoAnd_not]
  | binary op left right ihl ihr =>
    by_cases same : op = .or
    · subst same
      rw [distributeOr_or, joinsNoAnd_disjoin]
      exact ⟨ihl, ihr⟩
    · rw [distributeOr_binary_of_ne same, joinsNoAnd_binary_of_ne same]
      exact ⟨ihl, ihr⟩

theorem disjoin_alone (first : left.spine .and = [left])
    (second : right.spine .and = [right]) : disjoin left right = .or left right := by
  have joined := joinAll?_disjuncts left right
  have single : disjuncts left right = [.or left right] := by simp [disjuncts, pairs, first, second]
  rw [single] at joined
  exact (Option.some.inj joined).symm

theorem distributeOr_eq (apart : f.Everywhere JoinsNoAnd) : f.distributeOr = f := by
  induction f with
  | var name => exact distributeOr_var name
  | not arg ih => rw [distributeOr_not, ih (joinsNoAnd_not.1 apart)]
  | binary op left right ihl ihr =>
    by_cases same : op = .or
    · subst same
      obtain ⟨⟨first, second⟩, lefts, rights⟩ := joinsNoAnd_or.1 apart
      rw [distributeOr_or, ihl lefts, ihr rights, disjoin_alone first second]
    · obtain ⟨lefts, rights⟩ := (joinsNoAnd_binary_of_ne same).1 apart
      rw [distributeOr_binary_of_ne same, ihl lefts, ihr rights]

theorem disjoin_ne_var (left right : Formula) (name : String) : disjoin left right ≠ .var name := by
  intro same
  have single : disjuncts left right = [.var name] := by rw [← spine_disjoin, same, spine_var]
  have member : .var name ∈ disjuncts left right := single ▸ List.mem_singleton.2 rfl
  obtain ⟨a, b, pair⟩ := exists_of_mem_disjuncts member
  cases pair

theorem eq_var_of_distributeOr {name : String} (same : f.distributeOr = .var name) : f = .var name := by
  cases f with
  | var other => rwa [distributeOr_var] at same
  | not arg =>
    rw [distributeOr_not] at same
    cases same
  | binary op left right =>
    by_cases isOr : op = .or
    · subst isOr
      rw [distributeOr_or] at same
      exact absurd same (disjoin_ne_var _ _ name)
    · rw [distributeOr_binary_of_ne isOr] at same
      cases same

/-- Whatever keeps a formula from being made of literals by `and` and `or` is still there afterwards. -/
theorem normal_of_distributeOr (form : Conjunctive f.distributeOr) : Normal f := by
  induction f with
  | var name => exact .literal (.var name)
  | not arg _ =>
    rw [distributeOr_not, conjunctive_not_iff] at form
    obtain ⟨name, same⟩ := form
    obtain rfl := eq_var_of_distributeOr same
    exact .literal (.not name)
  | binary op left right ihl ihr =>
    by_cases isOr : op = .or
    · subst isOr
      rw [distributeOr_or, conjunctive_disjoin] at form
      exact .or (ihl form.1) (ihr form.2)
    · rw [distributeOr_binary_of_ne isOr] at form
      by_cases isAnd : op = .and
      · subst isAnd
        rw [conjunctive_and_iff] at form
        exact .and (ihl form.1) (ihr form.2)
      · exact absurd form (not_conjunctive isAnd isOr _ _)

theorem lacks_iff : f.Lacks op ↔ f.Everywhere fun g => ∀ left right, g ≠ .binary op left right := by
  induction f with
  | var name =>
    rw [everywhere_var]
    exact iff_of_true trivial nofun
  | not arg ih =>
    rw [everywhere_not, Lacks, ih]
    exact (and_iff_right nofun).symm
  | binary other left right ihl ihr =>
    have root : (∀ l r, Formula.binary other left right ≠ .binary op l r) ↔ other ≠ op := by
      constructor
      · rintro all rfl
        exact all left right rfl
      · intro differ l r same
        exact differ (Formula.binary.inj same).1
    rw [everywhere_binary, Lacks, ihl, ihr, root]

theorem normal_iff :
    Normal f ↔ f.Lacks .implies ∧ f.Lacks .iff ∧ f.Everywhere NegatesName := by
  constructor
  · intro normal
    induction normal with
    | literal literal =>
      cases literal with
      | var name => exact ⟨trivial, trivial, negatesNames_var name⟩
      | not name => exact ⟨trivial, trivial, negatesNames_not.2 ⟨name, rfl⟩⟩
    | and _ _ ihl ihr | or _ _ ihl ihr =>
      obtain ⟨leftImplies, leftIff, lefts⟩ := ihl
      obtain ⟨rightImplies, rightIff, rights⟩ := ihr
      exact ⟨⟨Connective.noConfusion, leftImplies, rightImplies⟩, ⟨Connective.noConfusion, leftIff, rightIff⟩,
        negatesNames_binary.2 ⟨lefts, rights⟩⟩
  · rintro ⟨noImplies, noIff, only⟩
    induction f with
    | var name => exact .literal (.var name)
    | not arg _ =>
      obtain ⟨name, rfl⟩ := negatesNames_not.1 only
      exact .literal (.not name)
    | binary op left right ihl ihr =>
      obtain ⟨lefts, rights⟩ := negatesNames_binary.1 only
      have first := ihl noImplies.2.1 noIff.2.1 lefts
      have second := ihr noImplies.2.2 noIff.2.2 rights
      cases op with
      | and => exact .and first second
      | or => exact .or first second
      | implies => exact absurd rfl noImplies.1
      | iff => exact absurd rfl noIff.1

/-- After one distribution no `or` anywhere joins an `and`, and a second distribution changes nothing. The result
is in conjunctive form just when there was no `if` and no `iff` in the formula and every `not` stood over a name. -/
theorem distributeOr_joinsNoAnd (f : Formula) :
    f.distributeOr.Everywhere JoinsNoAnd ∧
    f.distributeOr.distributeOr = f.distributeOr ∧
    (f.distributeOr.isCnf = true ↔
      (f.Everywhere fun g => ∀ left right, g ≠ .implies left right) ∧
      (f.Everywhere fun g => ∀ left right, g ≠ .iff left right) ∧
      f.Everywhere NegatesName) := by
  have apart := joinsNoAnd_distributeOr f
  refine ⟨apart, distributeOr_eq apart, ?_⟩
  rw [isCnf_iff, ← lacks_iff, ← lacks_iff, ← normal_iff]
  exact ⟨normal_of_distributeOr, Normal.distributeOr⟩

end PropSat.Formula
