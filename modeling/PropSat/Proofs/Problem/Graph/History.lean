import PropSat.Proofs.Problem.Graph

/-!
All that can be asked of a graph, against the changes that brought it about (`Depicts`), in every state that they
come to. Changes that follow put their nodes behind those that are there, so a number once given stays
(`build_depicts`).
-/

namespace PropSat.Graph

section
variable {α : Type} [BEq α] [Hashable α]

/-- What a graph answers about the changes that made it. -/
structure Depicts (g : Graph α) (changes : List (Change α)) : Prop where
  nodes : g.nodeList = mentioned changes
  distinct : g.nodeList.Pairwise fun a b => (a == b) = false
  numbers : ∀ a k, g.indexOf? a = some k ↔ ∃ node : α, g.nodeList[k]? = some node ∧ a == node
  ascending : g.edgeList.Pairwise fun e f => e.1 < f.1 ∨ e.1 = f.1 ∧ e.2 < f.2
  between : ∀ i j, (i, j) ∈ g.edgeList → i ≤ j ∧ j < g.nodeList.length
  listed : ∀ i j, (i, j) ∈ g.edgeList ↔ i ≤ j ∧ g.adjacent i j = true
  symmetric : ∀ i j, g.adjacent i j = g.adjacent j i
  joins : ∀ i j, g.adjacent i j = true ↔
    ∃ a b : α, g.nodeList[i]? = some a ∧ g.nodeList[j]? = some b ∧ Joined changes a b

theorem pairwise_edgeList (g : Graph α) : g.edgeList.Pairwise fun e f => e.1 < f.1 ∨ e.1 = f.1 ∧ e.2 < f.2 := by
  apply Std.TreeSet.ordered_toList.imp
  intro e f less
  change (compare e.1 f.1).then (compare e.2 f.2) = .lt at less
  rwa [Ordering.then_eq_lt, Nat.compare_eq_lt, Nat.compare_eq_eq, Nat.compare_eq_lt] at less

theorem getElem?_nodeList (g : Graph α) (k : Nat) : g.nodeList[k]? = g.nodes[k]? := Array.getElem?_toList

end

section
variable {α : Type} [BEq α] [Hashable α] [EquivBEq α] [LawfulHashable α]

theorem Records.depicts {g : Graph α} {changes : List (Change α)} (records : g.Records changes)
    (nodes : g.nodeList = mentioned changes) : g.Depicts changes where
  nodes := nodes
  distinct := records.pairwise_nodes
  numbers := by
    intro a k
    simp only [getElem?_nodeList]
    exact records.numbers a k
  ascending := pairwise_edgeList g
  between := by
    intro i j member
    rw [nodeList, Array.length_toList]
    exact records.between i j (mem_edgeList.1 member)
  listed _ _ := records.mem_edgeList_iff
  symmetric := adjacent_comm g
  joins := by
    intro i j
    simp only [getElem?_nodeList]
    constructor
    · intro adjacent
      obtain ⟨small, short⟩ := records.adjacent_lt adjacent
      have first := Array.getElem?_eq_getElem small
      have second := Array.getElem?_eq_getElem short
      exact ⟨_, _, first, second, (records.adjacent_iff first second).1 adjacent⟩
    · rintro ⟨a, b, first, second, joined⟩
      exact (records.adjacent_iff first second).2 joined

theorem depicts_build (changes : List (Change α)) : (build changes).Depicts changes :=
  (build_records changes).depicts (nodeList_build changes)

/-- Nodes have their places for good. -/
theorem nodeList_build_prefix (before after : List (Change α)) :
    (build before).nodeList <+: (build (before ++ after)).nodeList := by
  rw [nodeList_build, nodeList_build, mentioned, mentioned, List.flatMap_append]
  exact eraseDups_prefix _ _

/-- Whatever the changes are, the graph answers by them in every state. A node's number is the one that it gets when
it is added, and later changes leave it as it is. A list of edges makes the graph that these make one by one. -/
theorem build_depicts (before after : List (Change α)) :
    (build before).Depicts before ∧
      (∀ a k, (build before).indexOf? a = some k → (build (before ++ after)).indexOf? a = some k) ∧
      (∀ a, (build (before ++ [.node a])).indexOf? a = some ((build before).addNode a).1) ∧
      ∀ edges : List (α × α), (ofEdges edges).Depicts (edges.map fun (a, b) => .edge a b) := by
  have now := depicts_build before
  refine ⟨now, ?_, ?_, ?_⟩
  · intro a k given
    obtain ⟨node, found, same⟩ := (now.numbers a k).1 given
    obtain ⟨new, behind⟩ := nodeList_build_prefix before after
    have inside := (List.getElem?_eq_some_iff.1 found).1
    have stays : (build (before ++ after)).nodeList[k]? = some node := by
      rw [← behind, List.getElem?_append_left inside, found]
    exact ((depicts_build (before ++ after)).numbers a k).2 ⟨node, stays, same⟩
  · intro a
    rw [build_concat]
    exact index_addNode _ a
  · intro edges
    rw [ofEdges_eq_build]
    exact depicts_build _

/-- An edge given in both orders, and a node that comes before its only edge. -/
theorem build_depicts_repeated :
    (build [Change.edge "b" "a", .node "c", .edge "a" "b"]).nodeList = ["b", "a", "c"] ∧
      (build [Change.edge "b" "a", .node "c", .edge "a" "b"]).indexOf? "c" = some 2 ∧
      (build ([Change.edge "b" "a", .node "c", .edge "a" "b"] ++ [.edge "d" "c"])).indexOf? "c" = some 2 ∧
      (build [Change.edge "b" "a", .node "c", .edge "a" "b"]).adjacent 0 1 = true ∧
      (build [Change.edge "b" "a", .node "c", .edge "a" "b"]).adjacent 1 0 = true ∧
      (build [Change.edge "b" "a", .node "c", .edge "a" "b"]).adjacent 0 2 = false ∧
      (ofEdges [("b", "a")]).nodeList = ["b", "a"] := by
  obtain ⟨now, stays, -, list⟩ :=
    build_depicts [Change.edge "b" "a", .node "c", .edge "a" "b"] [.edge "d" "c"]
  have nodes : _ = ["b", "a", "c"] := now.nodes
  have third := (now.numbers "c" 2).2 ⟨"c", by rw [nodes]; rfl, BEq.rfl⟩
  have joined := (now.joins 0 1).2 ⟨"b", "a", by rw [nodes]; rfl, by rw [nodes]; rfl, by decide⟩
  refine ⟨nodes, third, stays _ _ third, joined, (now.symmetric 1 0).trans joined, ?_, (list _).nodes⟩
  rw [Bool.eq_false_iff, ne_eq, now.joins]
  rintro ⟨a, b, first, second, both⟩
  rw [nodes] at first second
  cases first
  cases second
  exact absurd both (by decide)

end

end PropSat.Graph
