import PropSat.Problem.Graph
import PropSat.Proofs.FirstMentions

/-!
Graphs built by changes, one after the other. Nodes are told apart by `==`, which need not be equality; then
a node stands for all values equal to it. Numbers and nodes belong together, edges lie between nodes, and
two nodes have an edge when some change joined them (`build_records`). The nodes are the values that the
changes mention, in the order of their first mention (`nodeList_build`).
-/

namespace PropSat.Graph

inductive Change (α : Type) where
  | node (a : α)
  | edge (a b : α)

def Change.ends {α : Type} : Change α → List α
  | .node a => [a]
  | .edge a b => [a, b]

section
variable {α : Type} [BEq α]

/-- What some changes mention, each value once and in the order of the first mentions. -/
def mentioned (changes : List (Change α)) : List α := (changes.flatMap Change.ends).eraseDups

/-- Whether a change is an edge between these two, in the one order or the other. -/
def Change.joins (a b : α) : Change α → Bool
  | .node _ => false
  | .edge x y => a == x && b == y || a == y && b == x

/-- Some change joined these two. -/
def Joined (changes : List (Change α)) (a b : α) : Prop := ∃ c ∈ changes, c.joins a b

instance (changes : List (Change α)) (a b : α) : Decidable (Joined changes a b) :=
  inferInstanceAs (Decidable (∃ c ∈ changes, c.joins a b))

theorem joined_iff {changes : List (Change α)} {a b : α} :
    Joined changes a b ↔ ∃ x y : α, Change.edge x y ∈ changes ∧ (a == x ∧ b == y ∨ a == y ∧ b == x) := by
  constructor
  · rintro ⟨_ | ⟨x, y⟩, member, both⟩
    · cases both
    · exact ⟨x, y, member, by simpa [Change.joins] using both⟩
  · rintro ⟨x, y, member, both⟩
    exact ⟨_, member, by simpa [Change.joins] using both⟩

theorem joined_concat_node {changes : List (Change α)} {a x y : α} :
    Joined (changes ++ [.node a]) x y ↔ Joined changes x y := by
  simp [joined_iff]

theorem joined_concat_edge {changes : List (Change α)} {a b x y : α} :
    Joined (changes ++ [.edge a b]) x y ↔ Joined changes x y ∨ (x == a ∧ y == b ∨ x == b ∧ y == a) := by
  simp [joined_iff, or_and_right, exists_or, and_assoc]

variable [Hashable α]

def change (g : Graph α) : Change α → Graph α
  | .node a => (g.addNode a).2
  | .edge a b => g.addEdge a b

/-- The graph that some changes make of the empty one. -/
def build (changes : List (Change α)) : Graph α := changes.foldl change empty

/-- What a graph says about the changes that made it. -/
structure Records (g : Graph α) (changes : List (Change α)) : Prop where
  numbers : ∀ a i, g.index[a]? = some i ↔ ∃ node : α, g.nodes[i]? = some node ∧ a == node
  between : ∀ i j, (i, j) ∈ g.edges → i ≤ j ∧ j < g.nodes.size
  joins : ∀ a b, Joined changes a b ↔
    ∃ i j, g.index[a]? = some i ∧ g.index[b]? = some j ∧ g.adjacent i j = true

end

variable {α : Type} [BEq α] [Hashable α]

theorem ofEdges_eq_build (edges : List (α × α)) :
    ofEdges edges = build (edges.map fun (a, b) => .edge a b) := by
  rw [ofEdges, build, List.foldl_map]
  rfl

theorem build_concat (changes : List (Change α)) (c : Change α) :
    build (changes ++ [c]) = (build changes).change c := by
  rw [build, List.foldl_append]
  rfl

theorem edge_eq_iff {i j k l : Nat} : edge i j = edge k l ↔ i = k ∧ j = l ∨ i = l ∧ j = k := by
  rw [edge, edge, Prod.mk.injEq]
  omega

variable {g : Graph α} {changes : List (Change α)} {a b : α} {i j : Nat}

theorem adjacent_iff_mem : g.adjacent i j = true ↔ edge i j ∈ g.edges := Std.TreeSet.mem_iff_contains.symm

theorem adjacent_comm (g : Graph α) (i j : Nat) : g.adjacent i j = g.adjacent j i := by
  rw [adjacent, adjacent, edge_eq_iff.2 (.inr ⟨rfl, rfl⟩)]

theorem mem_edgeList : (i, j) ∈ g.edgeList ↔ (i, j) ∈ g.edges := Std.TreeSet.mem_toList

namespace Records

theorem adjacent_lt (records : g.Records changes) (adjacent : g.adjacent i j = true) :
    i < g.nodes.size ∧ j < g.nodes.size := by
  have bounds := (records.between _ _ (adjacent_iff_mem.1 adjacent)).2
  omega

/-- An edge is kept as it is listed. -/
theorem mem_edgeList_iff (records : g.Records changes) :
    (i, j) ∈ g.edgeList ↔ i ≤ j ∧ g.adjacent i j = true := by
  rw [mem_edgeList, adjacent_iff_mem]
  constructor
  · intro member
    have ordered := (records.between i j member).1
    rw [edge, Nat.min_eq_left ordered, Nat.max_eq_right ordered]
    exact ⟨ordered, member⟩
  · rintro ⟨ordered, member⟩
    rwa [edge, Nat.min_eq_left ordered, Nat.max_eq_right ordered] at member

theorem index_lt (records : g.Records changes) (numbered : g.index[a]? = some i) : i < g.nodes.size := by
  obtain ⟨node, found, -⟩ := (records.numbers a i).1 numbered
  exact (Array.getElem?_eq_some_iff.1 found).1

variable [EquivBEq α]

theorem index_node (records : g.Records changes) {node : α} (found : g.nodes[i]? = some node) :
    g.index[node]? = some i :=
  (records.numbers node i).2 ⟨node, found, BEq.rfl⟩

theorem adjacent_iff (records : g.Records changes) (first : g.nodes[i]? = some a)
    (second : g.nodes[j]? = some b) : g.adjacent i j = true ↔ Joined changes a b := by
  rw [records.joins]
  constructor
  · intro adjacent
    exact ⟨i, j, records.index_node first, records.index_node second, adjacent⟩
  · rintro ⟨k, l, numbered, numbered', adjacent⟩
    rw [records.index_node first, Option.some.injEq] at numbered
    rw [records.index_node second, Option.some.injEq] at numbered'
    rwa [numbered, numbered']

variable [LawfulHashable α]

theorem index_eq_iff (records : g.Records changes) (first : g.index[a]? = some i)
    (second : g.index[b]? = some j) : i = j ↔ a == b := by
  constructor
  · rintro rfl
    obtain ⟨node, found, same⟩ := (records.numbers a i).1 first
    obtain ⟨other, again, same'⟩ := (records.numbers b i).1 second
    obtain rfl := Option.some.inj (found.symm.trans again)
    exact BEq.trans same (BEq.symm same')
  · intro same
    rw [Std.HashMap.getElem?_congr same, second] at first
    exact (Option.some.inj first).symm

/-- Nodes that are the same are equal. -/
theorem eq_of_beq (records : g.Records changes) (first : a ∈ g.nodeList) (second : b ∈ g.nodeList)
    (same : a == b) : a = b := by
  obtain ⟨i, found⟩ := Array.mem_iff_getElem?.1 (Array.mem_toList_iff.1 first)
  obtain ⟨j, found'⟩ := Array.mem_iff_getElem?.1 (Array.mem_toList_iff.1 second)
  obtain rfl := (records.index_eq_iff (records.index_node found) (records.index_node found')).2 same
  exact Option.some.inj (found.symm.trans found')

/-- No two nodes are the same. -/
theorem pairwise_nodes (records : g.Records changes) :
    g.nodeList.Pairwise fun a b => (a == b) = false := by
  unfold nodeList
  rw [List.pairwise_iff_getElem]
  intro i j hi hj less
  have first := records.index_node (Array.getElem?_eq_getElem hi)
  have second := records.index_node (Array.getElem?_eq_getElem hj)
  rw [Array.getElem_toList, Array.getElem_toList, ← Bool.not_eq_true, ← records.index_eq_iff first second]
  exact Nat.ne_of_lt less

theorem nodup_nodeList (records : g.Records changes) : g.nodeList.Nodup := by
  apply records.pairwise_nodes.imp
  rintro a _ differ rfl
  rw [BEq.rfl] at differ
  cases differ

end Records

/-! What one change does. -/

theorem nodes_push (g : Graph α) (a b : α) (i : Nat) :
    (g.nodes.push a)[i]? = some b ↔ g.nodes[i]? = some b ∨ i = g.nodes.size ∧ b = a := by
  rw [Array.getElem?_push]
  by_cases new : i = g.nodes.size
  · simp [new, eq_comm]
  · simp [new]

theorem Records.nodeList_addNode (records : g.Records changes) {values : List α}
    (listed : g.nodeList = values.eraseDups) (a : α) :
    (g.addNode a).2.nodeList = (values ++ [a]).eraseDups := by
  rw [eraseDups_concat, ← listed, Graph.addNode]
  split
  case h_1 i numbered =>
    obtain ⟨node, found, same⟩ := (records.numbers a i).1 numbered
    have known : g.nodeList.any (a == ·) = true :=
      List.any_eq_true.2 ⟨node, Array.mem_toList_iff.2 (Array.mem_of_getElem? found), same⟩
    rw [if_pos known]
  case h_2 unknown =>
    have new : ¬ g.nodeList.any (a == ·) = true := by
      intro known
      obtain ⟨node, member, same⟩ := List.any_eq_true.1 known
      obtain ⟨i, found⟩ := Array.mem_iff_getElem?.1 (Array.mem_toList_iff.1 member)
      have numbered := (records.numbers a i).2 ⟨node, found, same⟩
      rw [unknown] at numbered
      cases numbered
    rw [if_neg new]
    exact Array.toList_push

section
variable [EquivBEq α] [LawfulHashable α]

theorem index_insert {n : Nat} (unknown : g.index[a]? = none) (b : α) (i : Nat) :
    (g.index.insert a n)[b]? = some i ↔ g.index[b]? = some i ∨ i = n ∧ a == b := by
  rw [Std.HashMap.getElem?_insert]
  by_cases same : (a == b) = true
  · rw [← Std.HashMap.getElem?_congr same, unknown]
    simp [same, eq_comm]
  · simp [same]

theorem index_addNode (g : Graph α) (a : α) : (g.addNode a).2.index[a]? = some (g.addNode a).1 := by
  unfold addNode
  split
  case h_1 i known => exact known
  case h_2 => exact Std.HashMap.getElem?_insert_self

/-- Numbers stay. -/
theorem index_addNode_of_eq_some (numbered : g.index[b]? = some i) : (g.addNode a).2.index[b]? = some i := by
  unfold addNode
  split
  case h_1 => exact numbered
  case h_2 unknown => exact (index_insert unknown b i).2 (.inl numbered)

namespace Records

theorem nil : (empty : Graph α).Records [] where
  numbers := by simp [empty]
  between := by simp [empty]
  joins := by simp [empty, Joined]

theorem addNode (records : g.Records changes) (a : α) : (g.addNode a).2.Records changes := by
  unfold Graph.addNode
  split
  case h_1 => exact records
  case h_2 unknown =>
    refine ⟨?numbers, ?between, ?joins⟩
    case numbers =>
      intro b i
      simp only [index_insert unknown, nodes_push, records.numbers b i, or_and_right, exists_or, and_assoc,
        exists_and_left, exists_eq_left, BEq.comm (a := a)]
    case between =>
      intro i j member
      have bounds := records.between i j member
      rw [Array.size_push]
      omega
    case joins =>
      intro x y
      rw [records.joins]
      constructor
      · rintro ⟨i, j, first, second, adjacent⟩
        exact ⟨i, j, (index_insert unknown x i).2 (.inl first), (index_insert unknown y j).2 (.inl second),
          adjacent⟩
      · rintro ⟨i, j, first, second, adjacent⟩
        -- no edge reaches the new node
        obtain ⟨small, short⟩ := records.adjacent_lt adjacent
        have known := ((index_insert unknown x i).1 first).resolve_right fun new =>
          Nat.ne_of_lt small new.1
        have known' := ((index_insert unknown y j).1 second).resolve_right fun new =>
          Nat.ne_of_lt short new.1
        exact ⟨i, j, known, known', adjacent⟩

theorem join (records : g.Records changes) (first : g.index[a]? = some i) (second : g.index[b]? = some j) :
    Records { g with edges := g.edges.insert (edge i j) } (changes ++ [.edge a b]) where
  numbers := records.numbers
  between := by
    intro k l member
    rcases Std.TreeSet.mem_insert.1 member with same | before
    · have small := records.index_lt first
      have short := records.index_lt second
      have here := Std.LawfulEqCmp.eq_of_compare same
      rw [edge, Prod.mk.injEq] at here
      change _ ∧ l < g.nodes.size
      omega
    · exact records.between k l before
  joins := by
    intro x y
    have new : ∀ k l, adjacent { g with edges := g.edges.insert (edge i j) } k l = true ↔
        edge i j = edge k l ∨ g.adjacent k l = true := by
      intro k l
      rw [adjacent_iff_mem, adjacent_iff_mem, Std.TreeSet.mem_insert, Std.LawfulEqCmp.compare_eq_iff_eq]
    rw [joined_concat_edge, records.joins]
    simp only [new]
    constructor
    · rintro (⟨k, l, one, two, adjacent⟩ | ⟨here, there⟩ | ⟨there, here⟩)
      · exact ⟨k, l, one, two, .inr adjacent⟩
      · refine ⟨i, j, ?_, ?_, .inl rfl⟩
        · rwa [Std.HashMap.getElem?_congr here]
        · rwa [Std.HashMap.getElem?_congr there]
      · refine ⟨j, i, ?_, ?_, .inl (edge_eq_iff.2 (.inr ⟨rfl, rfl⟩))⟩
        · rwa [Std.HashMap.getElem?_congr there]
        · rwa [Std.HashMap.getElem?_congr here]
    · rintro ⟨k, l, one, two, same | adjacent⟩
      · right
        rcases edge_eq_iff.1 same with ⟨here, there⟩ | ⟨here, there⟩
        · exact .inl ⟨(records.index_eq_iff one first).1 here.symm,
            (records.index_eq_iff two second).1 there.symm⟩
        · exact .inr ⟨(records.index_eq_iff one second).1 there.symm,
            (records.index_eq_iff two first).1 here.symm⟩
      · exact .inl ⟨k, l, one, two, adjacent⟩

theorem change (records : g.Records changes) (c : Change α) : (g.change c).Records (changes ++ [c]) := by
  cases c with
  | node a =>
    obtain ⟨numbers, between, joins⟩ := records.addNode a
    exact ⟨numbers, between, fun x y => joined_concat_node.trans (joins x y)⟩
  | edge a b =>
    have first := index_addNode_of_eq_some (a := b) (index_addNode g a)
    exact ((records.addNode a).addNode b).join first (index_addNode _ b)

end Records

theorem build_records (changes : List (Change α)) : (build changes).Records changes := by
  induction changes using List.reverseRecOn with
  | nil => exact .nil
  | append_singleton before c ih =>
    rw [build_concat]
    exact ih.change c

theorem nodeList_build (changes : List (Change α)) : (build changes).nodeList = mentioned changes := by
  induction changes using List.reverseRecOn with
  | nil => rfl
  | append_singleton before c ih =>
    have records := build_records before
    rw [build_concat, mentioned, List.flatMap_append, List.flatMap_singleton]
    cases c with
    | node a => exact records.nodeList_addNode ih a
    | edge a b =>
      have listed := (records.addNode a).nodeList_addNode (records.nodeList_addNode ih a) b
      rwa [List.append_assoc] at listed

theorem size_build (changes : List (Change α)) : (build changes).nodes.size = (mentioned changes).length := by
  rw [← nodeList_build, nodeList, Array.length_toList]

end

end PropSat.Graph
