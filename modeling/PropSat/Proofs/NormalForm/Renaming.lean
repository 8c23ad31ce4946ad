import PropSat.Proofs.NormalForm.Equivalence

/-!
Other names for the variables of a formula. No pass reads a name, so all of them go through a renaming,
whatever it maps to what (`toCnf_rename`).
-/

namespace PropSat

namespace Formula

/-- Every name replaced by what the map gives for it. -/
def rename (r : String → String) : Formula → Formula
  | .var name => .var (r name)
  | .not arg => .not (arg.rename r)
  | .binary op left right => .binary op (left.rename r) (right.rename r)

end Formula

open Formula

def Node.rename (r : String → String) : Node Formula → Node Formula
  | .var name => .var (r name)
  | .not arg => .not (arg.rename r)
  | .binary op left right => .binary op (left.rename r) (right.rename r)

section
variable (r : String → String)

theorem Connective.joinAll?_rename (op : Connective) (fs : List Formula) :
    op.joinAll? (fs.map (Formula.rename r)) = (op.joinAll? fs).map (Formula.rename r) := by
  cases fs with
  | nil => rfl
  | cons first rest =>
    rw [List.map_cons, joinAll?_cons, joinAll?_cons, Option.map_some, List.foldl_map]
    apply congrArg
    -- the formulas joined so far are renamed as one
    induction rest generalizing first with
    | nil => rfl
    | cons next rest ih => exact ih (.binary op first next)

namespace Formula

theorem spine_rename (op : Connective) (f : Formula) :
    (f.rename r).spine op = (f.spine op).map (rename r) := by
  induction f with
  | var name => rw [rename, spine_var, spine_var]; rfl
  | not arg => rw [rename, spine_not, spine_not]; rfl
  | binary op' left right ihl ihr =>
    rw [rename]
    by_cases same : op' = op
    · subst same
      rw [spine_binary_self, spine_binary_self, List.map_append, ihl, ihr]
    · rw [spine_binary_of_ne same, spine_binary_of_ne same]
      rfl

/-- A pass that rewrites node by node goes through a renaming if it does at every node. -/
theorem fold_rename {combine : Node Formula → Formula}
    (each : ∀ node, combine (node.rename r) = (combine node).rename r) (f : Formula) :
    (f.rename r).fold combine = (f.fold combine).rename r := by
  induction f with
  | var name => rw [rename, fold_var, fold_var]; exact each (.var name)
  | not arg ih => rw [rename, fold_not, fold_not, ih]; exact each (.not _)
  | binary op left right ihl ihr =>
    rw [rename, fold_binary, fold_binary, ihl, ihr]
    exact each (.binary op _ _)

theorem iffNode_rename (node : Node Formula) : iffNode (node.rename r) = (iffNode node).rename r := by
  rcases node with name | arg | ⟨_ | _ | _ | _, left, right⟩ <;> rfl

theorem impliesNode_rename (node : Node Formula) :
    impliesNode (node.rename r) = (impliesNode node).rename r := by
  rcases node with name | arg | ⟨_ | _ | _ | _, left, right⟩ <;> rfl

theorem readings_rename (f : Formula) :
    (f.rename r).readings = ⟨f.readings.positive.rename r, f.readings.negative.rename r⟩ := by
  induction f with
  | var name => rw [rename, readings_var, readings_var]; rfl
  | not arg ih => rw [rename, readings_not, readings_not, ih]
  | binary op left right ihl ihr =>
    rw [rename, readings_binary, readings_binary, ihl, ihr]
    cases op <;> rfl

theorem pairs_rename (lefts rights : List Formula) :
    pairs (lefts.map (rename r)) (rights.map (rename r)) = (pairs lefts rights).map (rename r) := by
  simp only [pairs, List.flatMap_map, List.map_flatMap, List.map_map]
  rfl

theorem disjuncts_rename (left right : Formula) :
    disjuncts (left.rename r) (right.rename r) = (disjuncts left right).map (rename r) := by
  simp only [disjuncts, spine_rename, List.length_map, pairs_rename]
  split <;> rfl

theorem disjoin_rename (left right : Formula) :
    disjoin (left.rename r) (right.rename r) = (disjoin left right).rename r := by
  have joined := joinAll?_disjuncts (left.rename r) (right.rename r)
  rw [disjuncts_rename, Connective.joinAll?_rename, joinAll?_disjuncts, Option.map_some] at joined
  exact (Option.some.inj joined).symm

theorem orNode_rename (node : Node Formula) : orNode (node.rename r) = (orNode node).rename r := by
  rcases node with name | arg | ⟨_ | _ | _ | _, left, right⟩
  case binary.or => exact disjoin_rename r left right
  all_goals rfl

/-- Conversion goes through any renaming. -/
theorem toCnf_rename (f : Formula) : (f.rename r).toCnf = f.toCnf.rename r := by
  have negated : ∀ g : Formula, (g.rename r).nnf = g.nnf.rename r := by
    intro g
    rw [nnf, readings_rename]
    rfl
  calc
    (f.rename r).toCnf = (f.rename r).withoutIff.withoutImplies.nnf.distributeOr := rfl
    _ = f.toCnf.rename r := by
      rw [withoutIff, fold_rename r (iffNode_rename r), withoutImplies, fold_rename r (impliesNode_rename r),
        negated, distributeOr, fold_rename r (orNode_rename r)]
      rfl

end Formula

end

end PropSat
