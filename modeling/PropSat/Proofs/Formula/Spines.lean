import PropSat.Formula.Spine
import PropSat.Proofs.Formula.Truth

/-!
A formula means what the operands below its topmost connectives mean together, and has their names.
-/

namespace PropSat.Formula

theorem names_spine (op : Connective) (f : Formula) : (f.spine op).flatMap names = f.names := by
  induction f with
  | var | not => simp
  | binary op' left right ihl ihr =>
    by_cases same : op' = op
    · subst same
      rw [spine_binary_self, List.flatMap_append, ihl, ihr, names]
    · rw [spine_binary_of_ne same, List.flatMap_singleton]

theorem mem_names_of_spine {op : Connective} {f part : Formula} (member : part ∈ f.spine op) {name : String}
    (own : name ∈ part.names) : name ∈ f.names :=
  names_spine op f ▸ List.mem_flatMap.2 ⟨part, member, own⟩

theorem truth_spine_and (v : String → Bool) (f : Formula) :
    (f.spine .and).all (truth v) = f.truth v := by
  induction f with
  | var | not => simp
  | binary op left right ihl ihr =>
    by_cases same : op = .and
    · subst same
      rw [spine_binary_self, List.all_append, ihl, ihr]
      rfl
    · rw [spine_binary_of_ne same, List.all_cons, List.all_nil, Bool.and_true]

theorem truth_spine_or (v : String → Bool) (f : Formula) :
    (f.spine .or).any (truth v) = f.truth v := by
  induction f with
  | var | not => simp
  | binary op left right ihl ihr =>
    by_cases same : op = .or
    · subst same
      rw [spine_binary_self, List.any_append, ihl, ihr]
      rfl
    · rw [spine_binary_of_ne same, List.any_cons, List.any_nil, Bool.or_false]

/-- A list is joined to one formula, or there was nothing to join. -/
theorem joinAll?_cases (op : Connective) (fs : List Formula) :
    fs = [] ∧ op.joinAll? fs = none ∨ ∃ f, op.joinAll? fs = some f := by
  cases fs with
  | nil => exact .inl ⟨rfl, rfl⟩
  | cons first rest => exact .inr ⟨_, op.joinAll?_cons first rest⟩

/-- What adds up over the operands of each `op` adds up over those of a whole chain of them. -/
theorem flatMap_joinAll {γ : Type} {op : Connective} {parts : Formula → List γ}
    (adds : ∀ left right, parts (.binary op left right) = parts left ++ parts right)
    {fs : List Formula} {f : Formula} (joined : op.joinAll? fs = some f) :
    parts f = fs.flatMap parts := by
  cases fs with
  | nil => cases joined
  | cons first rest =>
    rw [op.joinAll?_cons, Option.some.injEq] at joined
    rw [← joined]
    clear joined
    induction rest generalizing first with
    | nil => rw [List.foldl_nil, List.flatMap_singleton]
    | cons next rest ih =>
      rw [List.foldl_cons, ih, List.flatMap_cons, adds, List.flatMap_cons, List.flatMap_cons,
        List.append_assoc]

theorem names_joinAll {op : Connective} {fs : List Formula} {f : Formula}
    (joined : op.joinAll? fs = some f) : f.names = fs.flatMap names :=
  flatMap_joinAll (fun _ _ => rfl) joined

theorem spine_joinAll {op : Connective} {fs : List Formula} {f : Formula}
    (joined : op.joinAll? fs = some f) : f.spine op = fs.flatMap (spine op) :=
  flatMap_joinAll (spine_binary_self op) joined

theorem truth_joinAll_and {fs : List Formula} {f : Formula} (joined : Connective.and.joinAll? fs = some f)
    (v : String → Bool) : f.truth v = fs.all (truth v) := by
  rw [← truth_spine_and, spine_joinAll joined, List.all_flatMap]
  exact congrArg fs.all (funext (truth_spine_and v))

theorem truth_joinAll_or {fs : List Formula} {f : Formula} (joined : Connective.or.joinAll? fs = some f)
    (v : String → Bool) : f.truth v = fs.any (truth v) := by
  rw [← truth_spine_or, spine_joinAll joined, List.any_flatMap]
  exact congrArg fs.any (funext (truth_spine_or v))

end PropSat.Formula
