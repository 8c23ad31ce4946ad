import PropSat.Formula.Cnf
import PropSat.Proofs.NormalForm.ConjunctiveForm

/-!
The recogniser works bottom-up and looks at no spine; it says yes just to conjunctions of disjunctions of
literals. So it says yes to what the way to normal form leads to.
-/

namespace PropSat

namespace CnfKind

@[simp] theorem isClause_ofNode_not (arg : CnfKind) :
    (ofNode (.not arg)).isClause = (arg == .atom) := by
  cases arg <;> rfl

@[simp] theorem isClause_ofNode_or (left right : CnfKind) :
    (ofNode (.binary .or left right)).isClause = (left.isClause && right.isClause) := by
  cases left <;> cases right <;> rfl

theorem isClause_ofNode_of_ne {op : Connective} (differ : op ≠ .or) (left right : CnfKind) :
    (ofNode (.binary op left right)).isClause = false := by
  cases op with
  | or => contradiction
  | and => cases left <;> cases right <;> rfl
  | implies | iff => rfl

/-- Only an `and` makes more of its operands than a clause. -/
theorem ofNode_ne_other_of_ne {op : Connective} (differ : op ≠ .and) (left right : CnfKind) :
    (ofNode (.binary op left right) != .other) = (ofNode (.binary op left right)).isClause := by
  cases op with
  | and => contradiction
  | or => cases left <;> cases right <;> rfl
  | implies | iff => rfl

theorem ofNode_and_ne_other (left right : CnfKind) :
    (ofNode (.binary .and left right) != .other) = (left != .other && right != .other) := by
  cases left <;> cases right <;> rfl

end CnfKind

namespace Formula

theorem cnfKind_eq_atom {f : Formula} : f.cnfKind = .atom ↔ ∃ name, f = .var name := by
  cases f with
  | var name => simp
  | not arg =>
    rw [cnfKind_not]
    cases arg.cnfKind <;> simp [CnfKind.ofNode]
  | binary op left right =>
    rw [cnfKind_binary]
    cases op <;> cases left.cnfKind <;> cases right.cnfKind <;> simp [CnfKind.ofNode, CnfKind.isClause]

theorem isLiteral_not_iff {arg : Formula} : IsLiteral (.not arg) ↔ ∃ name, arg = .var name := by
  constructor
  · rintro ⟨⟩
    exact ⟨_, rfl⟩
  · rintro ⟨name, rfl⟩
    exact .not name

theorem conjunctive_not_iff {arg : Formula} : Conjunctive (.not arg) ↔ ∃ name, arg = .var name := by
  rw [Conjunctive, spine_not, List.forall_mem_singleton, spine_not, List.forall_mem_singleton, isLiteral_not_iff]

theorem not_conjunctive {op : Connective} (noAnd : op ≠ .and) (noOr : op ≠ .or) (left right : Formula) :
    ¬Conjunctive (.binary op left right) := by
  rw [Conjunctive, spine_binary_of_ne noAnd, List.forall_mem_singleton, spine_binary_of_ne noOr,
    List.forall_mem_singleton]
  nofun

theorem isClause_iff {f : Formula} : f.cnfKind.isClause = true ↔ ∀ l ∈ f.spine .or, IsLiteral l := by
  induction f with
  | var name => simp [CnfKind.isClause, IsLiteral.var]
  | not arg _ =>
    rw [cnfKind_not, CnfKind.isClause_ofNode_not, beq_iff_eq, cnfKind_eq_atom, spine_not,
      List.forall_mem_singleton, isLiteral_not_iff]
  | binary op left right ihl ihr =>
    rw [cnfKind_binary]
    by_cases same : op = .or
    · subst same
      rw [CnfKind.isClause_ofNode_or, Bool.and_eq_true, ihl, ihr, spine_binary_self,
        List.forall_mem_append]
    · have refused : ¬IsLiteral (.binary op left right) := nofun
      simp [CnfKind.isClause_ofNode_of_ne same, spine_binary_of_ne same, refused]

/-- A formula that is no `and` is its own only conjunct. -/
theorem conjunctive_iff_isClause {f : Formula} (alone : f.spine .and = [f]) :
    Conjunctive f ↔ f.cnfKind.isClause = true := by
  unfold Conjunctive
  rw [alone, List.forall_mem_singleton, isClause_iff]

theorem isCnf_iff {f : Formula} : f.isCnf = true ↔ Conjunctive f := by
  induction f with
  | var name =>
    rw [conjunctive_iff_isClause (spine_var .and name)]
    simp [isCnf, CnfKind.isClause]
  | not arg _ =>
    rw [conjunctive_iff_isClause (spine_not .and arg), isCnf, cnfKind_not]
    cases arg.cnfKind <;> decide
  | binary op left right ihl ihr =>
    by_cases same : op = .and
    · subst same
      rw [conjunctive_and_iff, ← ihl, ← ihr, isCnf, cnfKind_binary, CnfKind.ofNode_and_ne_other,
        Bool.and_eq_true]
      rfl
    · rw [conjunctive_iff_isClause (spine_binary_of_ne same left right), isCnf, cnfKind_binary,
        CnfKind.ofNode_ne_other_of_ne same]

/-- However the connectives of a formula are nested, each pass taken once, in this order, brings it into
conjunctive normal form. -/
theorem isCnf_toCnf (f : Formula) :
    f.toCnf = f.withoutIff.withoutImplies.nnf.distributeOr ∧ Conjunctive f.toCnf ∧
      f.toCnf.isCnf = true := by
  have form := toCnf_conjunctive f
  exact ⟨rfl, form, isCnf_iff.2 form⟩

end Formula

end PropSat
