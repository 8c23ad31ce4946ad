import PropSat.Problem.Clique
import PropSat.Proofs.Problem.Choice
import PropSat.Proofs.Problem.Graph
import PropSat.Proofs.Text.Numeral

/-!
What the formula of a clique says: it chooses a node for each place (`placeNodes`), and of the nodes at any
two places it asks that they differ and are adjacent (`truth_others`).
-/

namespace PropSat

/-- Two numbers of different nodes with an edge between them. -/
def Graph.Linked {α : Type} [BEq α] [Hashable α] (g : Graph α) (i j : Nat) : Prop :=
  i ≠ j ∧ g.adjacent i j = true

instance {α : Type} [BEq α] [Hashable α] (g : Graph α) : Std.Symm g.Linked where
  symm i j := fun ⟨differ, adjacent⟩ => ⟨differ.symm, g.adjacent_comm i j ▸ adjacent⟩

namespace Clique

open Formula Problem Text PropSat.Graph

/-! Names. -/

theorem toList_placeName (node place : Nat) :
    (placeName node place).toList = 'V' :: ((toString node).toList ++ ',' :: (toString place).toList) := by
  have v : (toString "V").toList = ['V'] := rfl
  have comma : (toString ",").toList = [','] := rfl
  simp only [placeName, String.toList_append]
  simp [v, comma]

theorem placeName_inj {node place other elsewhere : Nat}
    (same : placeName node place = placeName other elsewhere) : node = other ∧ place = elsewhere := by
  have chars := congrArg String.toList same
  rw [toList_placeName, toList_placeName] at chars
  obtain ⟨rfl, places⟩ := numeral_append_inj (by decide) (List.cons.inj chars).2
  exact ⟨rfl, toString_nat_inj.1 places⟩

/-- A node for each place. -/
def placeNodes (size nodes : Nat) : Choice Nat where
  places := size
  options := List.range nodes
  name place node := placeName node place
  rank := id
  name_inj same := (placeName_inj same).symm
  ascending := by
    rw [List.map_id]
    exact List.pairwise_lt_range

section
variable {α : Type} [BEq α] [Hashable α] {g : Graph α} {size nodes : Nat} {p : List Nat} {f : Formula}
  {v : String → Bool}

/-- What the formula asks for besides a node at each place. -/
def others (size : Nat) (g : Graph α) : List Formula :=
  nodesOnce size g.nodes.size ++ nodesAdjacent size g

theorem formula_eq (size : Nat) (g : Graph α) :
    formula size g = (placeNodes size g.nodes.size).formula (others size g) := by
  rw [formula, List.append_assoc]
  rfl

theorem mem_nodesOnce :
    f ∈ nodesOnce size nodes ↔
      ∃ i < nodes, ∃ s < size, ∃ r < s, f = notBoth (placeName i r) (placeName i s) := by
  simp only [nodesOnce, List.mem_flatMap, List.mem_map, List.mem_range, eq_comm]

theorem mem_nodesAdjacent :
    f ∈ nodesAdjacent size g ↔
      ∃ r < size, ∃ s < size, s ≠ r ∧ ∃ i < g.nodes.size, ∃ j < g.nodes.size,
        i ≠ j ∧ g.adjacent i j = false ∧ f = notBoth (placeName i r) (placeName j s) := by
  simp only [nodesAdjacent, List.mem_flatMap, List.mem_map, List.mem_filter, List.mem_range, bne_iff_ne,
    Bool.and_eq_true, Bool.not_eq_true', and_assoc, eq_comm (b := f)]

/-- Every other clause is about the nodes at two places. -/
theorem exists_of_mem_others (member : f ∈ others size g) :
    ∃ r < size, ∃ s < size, ∃ i < g.nodes.size, ∃ j < g.nodes.size,
      f = notBoth (placeName i r) (placeName j s) := by
  rcases List.mem_append.1 member with once | apart
  · obtain ⟨i, known, s, inside, r, less, rfl⟩ := mem_nodesOnce.1 once
    exact ⟨r, less.trans inside, s, inside, i, known, i, known, rfl⟩
  · obtain ⟨r, here, s, there, -, i, known, j, known', -, -, rfl⟩ := mem_nodesAdjacent.1 apart
    exact ⟨r, here, s, there, i, known, j, known', rfl⟩

theorem names_others :
    ∀ f ∈ others size g, ∀ name ∈ f.names, name ∈ (placeNodes size g.nodes.size).names := by
  intro f member name own
  obtain ⟨r, here, s, there, i, known, j, known', rfl⟩ := exists_of_mem_others member
  exact Choice.names_notBoth (c := placeNodes _ _) here (List.mem_range.2 known) there
    (List.mem_range.2 known') name own

theorem conjunctive_others : ∀ f ∈ others size g, Conjunctive f := by
  intro f member
  obtain ⟨r, -, s, -, i, -, j, -, rfl⟩ := exists_of_mem_others member
  exact conjunctive_notBoth _ _

section
variable (fills : (placeNodes size g.nodes.size).Fills p) (tells : (placeNodes size g.nodes.size).Tells p v)

include fills tells

theorem truth_clause {r s : Nat} (here : r < p.length) (there : s < p.length) {i j : Nat}
    (known : i < g.nodes.size) (known' : j < g.nodes.size) :
    (notBoth (placeName i r) (placeName j s)).truth v = true ↔ ¬ (p[r] = i ∧ p[s] = j) := by
  have clause := tells.truth_notBoth (fills.length ▸ here) (List.mem_range.2 known) (fills.length ▸ there)
    (List.mem_range.2 known')
  rwa [List.getElem?_eq_getElem here, List.getElem?_eq_getElem there, Option.some.injEq,
    Option.some.injEq] at clause

/-- No node holds two places. -/
theorem truth_nodesOnce : (∀ f ∈ nodesOnce size g.nodes.size, f.truth v = true) ↔ p.Nodup := by
  have length : p.length = size := fills.length
  rw [List.Nodup, List.pairwise_iff_getElem]
  constructor
  · intro all r s here there less same
    have known := List.mem_range.1 (fills.options _ (List.getElem_mem here))
    have clause := all _ (mem_nodesOnce.2 ⟨p[r], known, s, length ▸ there, r, less, rfl⟩)
    exact (truth_clause fills tells here there known known).1 clause ⟨rfl, same.symm⟩
  · intro differ f member
    obtain ⟨i, known, s, inside, r, less, rfl⟩ := mem_nodesOnce.1 member
    rw [← length] at inside
    rw [truth_clause fills tells (less.trans inside) inside known known]
    rintro ⟨first, second⟩
    exact differ r s (less.trans inside) inside less (first.trans second.symm)

/-- Any two places are held by one node or by adjacent ones. -/
theorem truth_nodesAdjacent :
    (∀ f ∈ nodesAdjacent size g, f.truth v = true) ↔ p.Pairwise fun i j => i ≠ j → g.adjacent i j = true := by
  have length : p.length = size := fills.length
  have known : ∀ r (here : r < p.length), p[r] < g.nodes.size := fun r here =>
    List.mem_range.1 (fills.options _ (List.getElem_mem here))
  rw [List.pairwise_iff_getElem]
  constructor
  · intro all r s here there less differ
    rw [← Bool.not_eq_false]
    intro apart
    have clause := all _ (mem_nodesAdjacent.2 ⟨r, length ▸ here, s, length ▸ there, less.ne', p[r],
      known r here, p[s], known s there, differ, apart, rfl⟩)
    exact (truth_clause fills tells here there (known r here) (known s there)).1 clause ⟨rfl, rfl⟩
  · intro joined f member
    obtain ⟨r, here, s, there, other, i, low, j, low', differ, apart, rfl⟩ := mem_nodesAdjacent.1 member
    rw [← length] at here there
    rw [truth_clause fills tells here there low low']
    rintro ⟨rfl, rfl⟩
    rw [← Bool.not_eq_true] at apart
    apply apart
    -- the clauses are about places in either order
    rcases Nat.lt_or_gt_of_ne other with less | less
    · rw [adjacent_comm]
      exact joined s r there here less differ.symm
    · exact joined r s here there less differ

/-- Any two places are held by different nodes that are adjacent. -/
theorem truth_others : (∀ f ∈ others size g, f.truth v = true) ↔ p.Pairwise g.Linked := by
  rw [others, List.forall_mem_append, truth_nodesOnce fills tells, truth_nodesAdjacent fills tells,
    List.Nodup, ← List.pairwise_and_iff]
  exact List.Pairwise.iff fun i j => and_congr_right fun differ => imp_iff_right differ

end

end

end Clique

end PropSat
