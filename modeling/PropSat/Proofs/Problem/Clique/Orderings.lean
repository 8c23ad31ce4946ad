import Mathlib.Data.List.Pairwise
import Mathlib.Data.List.Permutation
import PropSat.Proofs.Problem.Clique.Encoding

/-!
The cliques of a graph. A model of the formula lists the numbers of so many nodes, all adjacent to each other,
in some order; the clique it stands for has these nodes in the order of the graph (`members_eq`). So all
cliques are listed (`allSolutions_cliques`), each once for every order of its nodes
(`count_allSolutions_cliques`).
-/

namespace PropSat.Clique

open Formula Problem PropSat.Graph

section
variable {α : Type} [BEq α]

/-- So many distinct nodes, in the order of the graph, any two of which some change joined. -/
structure IsClique (changes : List (Change α)) (size : Nat) (l : List α) : Prop where
  sublist : l.Sublist (mentioned changes)
  length : l.length = size
  distinct : l.Pairwise fun a b => (a == b) = false
  joined : l.Pairwise (Joined changes)

end

section
variable {α : Type} [BEq α] [Hashable α] {g : Graph α} {changes : List (Change α)} {size : Nat}
  {p q : List Nat} {a : α} {m : Model}

/-! Nodes and their numbers. -/

/-- The nodes with some numbers, in the order of the graph. -/
def pick (g : Graph α) (p : List Nat) : List α := (g.nodeList.zipIdx.filter (·.2 ∈ p)).map (·.1)

theorem mem_numbered {i : Nat} : (a, i) ∈ g.nodeList.zipIdx ↔ g.nodes[i]? = some a := by
  rw [List.mem_zipIdx_iff_getElem?, nodeList, Array.getElem?_toList]

theorem map_fst_numbered (g : Graph α) : g.nodeList.zipIdx.map (·.1) = g.nodeList := List.zipIdx_map_fst 0 _

theorem map_snd_numbered (g : Graph α) : g.nodeList.zipIdx.map (·.2) = List.range g.nodes.size := by
  rw [List.range_eq_range', nodeList, ← Array.length_toList]
  exact List.zipIdx_map_snd 0 _

theorem pick_sublist (g : Graph α) (p : List Nat) : (pick g p).Sublist g.nodeList := by
  have sublist : (pick g p).Sublist (g.nodeList.zipIdx.map (·.1)) := List.filter_sublist.map _
  rwa [map_fst_numbered] at sublist

theorem mem_pick : a ∈ pick g p ↔ ∃ i ∈ p, g.nodes[i]? = some a := by
  simp only [pick, List.mem_map, List.mem_filter, decide_eq_true_eq, Prod.exists, mem_numbered]
  constructor
  · rintro ⟨_, i, ⟨found, member⟩, rfl⟩
    exact ⟨i, member, found⟩
  · rintro ⟨i, member, found⟩
    exact ⟨a, i, ⟨found, member⟩, rfl⟩

theorem length_pick (distinct : p.Nodup) (known : ∀ i ∈ p, i < g.nodes.size) :
    (pick g p).length = p.length := by
  have numbers :
      (g.nodeList.zipIdx.filter (·.2 ∈ p)).map (·.2) = (List.range g.nodes.size).filter (· ∈ p) := by
    rw [← map_snd_numbered, List.filter_map]
    rfl
  have same : ((List.range g.nodes.size).filter (· ∈ p)).Perm p := by
    rw [List.perm_ext_iff_of_nodup (List.nodup_range.filter _) distinct]
    intro i
    rw [List.mem_filter, List.mem_range, decide_eq_true_eq]
    exact and_iff_right_of_imp (known i)
  rw [pick, List.length_map, ← same.length_eq, ← numbers, List.length_map]

theorem pick_congr (same : ∀ i, i ∈ p ↔ i ∈ q) : pick g p = pick g q := by
  simp only [pick, same]

/-- Which nodes are picked says which numbers there are. -/
theorem pick_eq_iff [EquivBEq α] (records : g.Records changes) (known : ∀ i ∈ p, i < g.nodes.size)
    (known' : ∀ i ∈ q, i < g.nodes.size) : pick g p = pick g q ↔ ∀ i, i ∈ p ↔ i ∈ q := by
  have under : ∀ {p q : List Nat}, (∀ i ∈ p, i < g.nodes.size) → pick g p = pick g q → ∀ i ∈ p, i ∈ q := by
    intro p q known same i member
    have found := Array.getElem?_eq_getElem (known i member)
    obtain ⟨j, inside, there⟩ := mem_pick.1 (same ▸ mem_pick.2 ⟨i, member, found⟩)
    have numbered := records.index_node found
    rw [records.index_node there, Option.some.injEq] at numbered
    exact numbered ▸ inside
  constructor
  · intro same i
    exact ⟨under known same i, under known' same.symm i⟩
  · exact pick_congr

theorem members_eq (model : m ∈ (formula size g).models) :
    members size g m = pick g ((placeNodes size g.nodes.size).taken m.value) := by
  rw [formula_eq] at model
  obtain ⟨fills, tells, -⟩ := Choice.tells_of_mem_models model
  rw [members, pick]
  apply congrArg
  apply List.filter_congr
  rintro ⟨a, i⟩ numbered
  have known := (Array.getElem?_eq_some_iff.1 (mem_numbered.1 numbered)).1
  simp only [m.beq_some_true]
  rw [Bool.eq_iff_iff, List.any_eq_true, decide_eq_true_eq, List.mem_iff_getElem?]
  constructor
  · rintro ⟨r, inside, holds⟩
    exact ⟨r, (tells r (List.mem_range.1 inside) i (List.mem_range.2 known)).1 holds⟩
  · rintro ⟨r, here⟩
    have inside := (List.getElem?_eq_some_iff.1 here).1
    rw [fills.length] at inside
    exact ⟨r, List.mem_range.2 inside, (tells r inside i (List.mem_range.2 known)).2 here⟩

/-! The models. -/

/-- The numbers that the models list, model by model. -/
def orderings (size : Nat) (g : Graph α) : List (List Nat) :=
  (placeNodes size g.nodes.size).lists (others size g)

theorem map_members (size : Nat) (g : Graph α) :
    (formula size g).models.map (members size g) = (orderings size g).map (pick g) := by
  rw [orderings, Choice.lists, List.map_map, ← formula_eq]
  exact List.map_congr_left fun m model => members_eq model

theorem mem_orderings :
    p ∈ orderings size g ↔ p.length = size ∧ (∀ i ∈ p, i < g.nodes.size) ∧ p.Pairwise g.Linked := by
  have fills_iff : (placeNodes size g.nodes.size).Fills p ↔ p.length = size ∧ ∀ i ∈ p, i < g.nodes.size := by
    constructor
    · rintro ⟨length, known⟩
      exact ⟨length, fun i member => List.mem_range.1 (known i member)⟩
    · rintro ⟨length, known⟩
      exact ⟨length, fun i member => List.mem_range.2 (known i member)⟩
  rw [orderings, Choice.mem_lists names_others, ← and_assoc, ← fills_iff]
  apply and_congr_right
  intro fills
  exact truth_others fills (Choice.tells_told _ p)

theorem orderings_nodup (some_place : 0 < size) (some_node : 0 < g.nodes.size) :
    (orderings size g).Nodup := by
  have descending := Choice.pairwise_lists (c := placeNodes size g.nodes.size) names_others some_place
    (List.range_eq_nil.not.2 some_node.ne')
  apply descending.imp
  rintro p _ less rfl
  exact lt_irrefl _ less

/-- An order of nodes that is listed is listed with any other order of them. -/
theorem mem_orderings_of_perm (member : p ∈ orderings size g) (perm : q.Perm p) : q ∈ orderings size g := by
  obtain ⟨length, known, linked⟩ := mem_orderings.1 member
  exact mem_orderings.2 ⟨perm.length_eq.trans length, fun i inside => known i (perm.mem_iff.1 inside),
    (perm.pairwise_iff (Std.Symm.symm _ _)).2 linked⟩

end

/-! Cliques and the orders of their nodes. -/

section
variable {α : Type} {l l' all : List α}

theorem filter_mem_of_sublist [DecidableEq α] (sublist : l.Sublist all) (distinct : all.Nodup) :
    all.filter (· ∈ l) = l := by
  have own : l.filter (· ∈ l) = l := List.filter_eq_self.2 fun a member => decide_eq_true member
  have below := sublist.filter (· ∈ l)
  rw [own] at below
  have same : l.Perm (all.filter (· ∈ l)) := by
    rw [List.perm_ext_iff_of_nodup (distinct.sublist sublist) (distinct.filter _)]
    intro a
    rw [List.mem_filter, decide_eq_true_eq]
    exact (and_iff_right_of_imp fun member => sublist.subset member).symm
  exact (below.eq_of_length same.length_eq).symm

/-- In the order of the whole, the members say which list it is. -/
theorem sublist_ext (first : l.Sublist all) (second : l'.Sublist all) (distinct : all.Nodup)
    (same : ∀ a, a ∈ l ↔ a ∈ l') : l = l' := by
  classical
  rw [← filter_mem_of_sublist first distinct, ← filter_mem_of_sublist second distinct]
  simp only [same]

end

section
variable {α : Type} [BEq α] [Hashable α] [EquivBEq α] [LawfulHashable α] {g : Graph α}
  {changes : List (Change α)} {size : Nat} {p q : List Nat} {l : List α}

/-- Lists of nodes of a graph are the same only if they are equal. -/
theorem beq_iff_eq_of_subset (records : g.Records changes) {l l' : List α} (first : l ⊆ g.nodeList)
    (second : l' ⊆ g.nodeList) : (l == l') = true ↔ l = l' := by
  constructor
  · intro same
    induction l generalizing l' with
    | nil =>
      cases l' with
      | nil => rfl
      | cons b rest => cases same
    | cons a rest ih =>
      cases l' with
      | nil => cases same
      | cons b others =>
        rw [List.cons_beq_cons, Bool.and_eq_true] at same
        rw [List.cons_subset] at first second
        rw [records.eq_of_beq first.1 second.1 same.1, ih first.2 second.2 same.2]
  · rintro rfl
    exact BEq.rfl

theorem isClique_pick (member : p ∈ orderings size (build changes)) :
    IsClique changes size (pick (build changes) p) := by
  have records := build_records changes
  obtain ⟨length, known, linked⟩ := mem_orderings.1 member
  have sublist := pick_sublist (build changes) p
  refine ⟨?sublist, ?length, ?distinct, ?joined⟩
  case sublist => rwa [← nodeList_build]
  case length => rw [length_pick (linked.imp And.left) known, length]
  case distinct => exact records.pairwise_nodes.sublist sublist
  case joined =>
    have apart : (build changes).nodeList.zipIdx.Pairwise fun x y => x.2 ≠ y.2 := by
      have distinct : ((build changes).nodeList.zipIdx.map (·.2)).Nodup := by
        rw [map_snd_numbered]
        exact List.nodup_range
      exact List.pairwise_map.1 distinct
    rw [pick, List.pairwise_map, List.pairwise_filter]
    apply apart.imp_of_mem
    rintro ⟨a, i⟩ ⟨b, j⟩ first second differ here there
    have adjacent := (linked.forall (of_decide_eq_true here) (of_decide_eq_true there) differ).2
    exact (records.adjacent_iff (mem_numbered.1 first) (mem_numbered.1 second)).1 adjacent

theorem exists_pick (clique : IsClique changes size l) :
    ∃ p ∈ orderings size (build changes), pick (build changes) p = l := by
  have records := build_records changes
  have sublist := clique.sublist
  have listed := map_fst_numbered (build changes)
  rw [← nodeList_build, ← listed, List.sublist_map_iff] at sublist
  obtain ⟨numbered, inOrder, rfl⟩ := sublist
  have found : ∀ {a i}, (a, i) ∈ numbered → (build changes).nodes[i]? = some a := fun member =>
    mem_numbered.1 (inOrder.subset member)
  have ascending : (numbered.map (·.2)).Sublist (List.range (build changes).nodes.size) := by
    rw [← map_snd_numbered]
    exact inOrder.map _
  refine ⟨numbered.map (·.2), mem_orderings.2 ⟨?length, ?known, ?linked⟩, ?nodes⟩
  case length => simpa using clique.length
  case known => exact fun i member => List.mem_range.1 (ascending.subset member)
  case linked =>
    have distinct := List.pairwise_map.1 (List.nodup_range.sublist ascending)
    rw [List.pairwise_map]
    apply (distinct.and (List.pairwise_map.1 clique.joined)).imp_of_mem
    rintro ⟨a, i⟩ ⟨b, j⟩ first second ⟨differ, joined⟩
    exact ⟨differ, (records.adjacent_iff (found first) (found second)).2 joined⟩
  case nodes =>
    apply sublist_ext (pick_sublist _ _) (listed ▸ inOrder.map (·.1)) records.nodup_nodeList
    intro a
    simp only [mem_pick, List.mem_map, Prod.exists]
    constructor
    · rintro ⟨i, ⟨b, _, member, rfl⟩, here⟩
      obtain rfl := Option.some.inj ((found member).symm.trans here)
      exact ⟨b, _, member, rfl⟩
    · rintro ⟨_, i, member, rfl⟩
      exact ⟨i, ⟨_, i, member, rfl⟩, found member⟩

/-- The cliques of the models are all cliques. -/
theorem mem_map_members :
    l ∈ (formula size (build changes)).models.map (members size (build changes)) ↔
      IsClique changes size l := by
  rw [map_members, List.mem_map]
  constructor
  · rintro ⟨p, member, rfl⟩
    exact isClique_pick member
  · exact exists_pick

/-- A clique is listed once for every order of its nodes. -/
theorem count_map_members (some_place : 0 < size) (clique : IsClique changes size l) :
    ((formula size (build changes)).models.map (members size (build changes))).count l = size.factorial := by
  have records := build_records changes
  obtain ⟨p, member, rfl⟩ := exists_pick clique
  obtain ⟨length, known, linked⟩ := mem_orderings.1 member
  have distinct : p.Nodup := linked.imp And.left
  have some_node : 0 < (build changes).nodes.size := by
    obtain ⟨i, inside⟩ := List.exists_mem_of_length_pos (length ▸ some_place)
    exact Nat.zero_lt_of_lt (known i inside)
  have perms : ((orderings size (build changes)).filter
      ((· == pick (build changes) p) ∘ pick (build changes))).Perm p.permutations := by
    rw [List.perm_ext_iff_of_nodup ((orderings_nodup some_place some_node).filter _)
      (List.nodup_permutations p distinct)]
    intro q
    rw [List.mem_filter, Function.comp_apply, beq_iff_eq_of_subset records (pick_sublist _ _).subset
      (pick_sublist _ _).subset, List.mem_permutations]
    constructor
    · rintro ⟨inside, same⟩
      obtain ⟨-, known', linked'⟩ := mem_orderings.1 inside
      rw [List.perm_ext_iff_of_nodup (linked'.imp And.left) distinct, ← pick_eq_iff records known' known]
      exact same
    · intro perm
      exact ⟨mem_orderings_of_perm member perm, pick_congr fun i => perm.mem_iff⟩
  rw [map_members, List.count_eq_countP, List.countP_map, List.countP_eq_length_filter, perms.length_eq,
    List.length_permutations, length]

/-! The list of all cliques. -/

theorem cliques_listed (changes : List (Change α)) (size : Nat) :
    ∃ cliques : List (List α),
      ((build changes).cliques size).allSolutions = .ok (if cliques = [] then none else some cliques) ∧
      ((build changes).cliques size).firstSolution = .ok cliques.head? ∧
      (2 * (size * (mentioned changes).length) ≤ UInt64.size →
        cliques = (formula size (build changes)).models.map (members size (build changes))) := by
  obtain ⟨cliques, all, first, listed⟩ := Choice.solutions_listed names_others
    (q := (build changes).cliques size) (formula_eq size _) conjunctive_others
  refine ⟨cliques, all, first, fun bound => ?_⟩
  rw [formula_eq]
  apply listed
  rwa [placeNodes, List.length_range, size_build]

/-- Every graph that changes make is answered, for every size. What is listed are the cliques of that size, so
nothing is found only where there is none. Only which lists they are depends on the bound, which is that of
`Numbered`: each place has a name for each node. -/
theorem allSolutions_cliques (changes : List (Change α)) (size : Nat) :
    ∃ cliques : List (List α),
      ((build changes).cliques size).allSolutions = .ok (if cliques = [] then none else some cliques) ∧
      ((build changes).cliques size).firstSolution = .ok cliques.head? ∧
      (2 * (size * (mentioned changes).length) ≤ UInt64.size →
        ∀ l, l ∈ cliques ↔ IsClique changes size l) := by
  obtain ⟨cliques, all, first, known⟩ := cliques_listed changes size
  refine ⟨cliques, all, first, fun bound l => ?_⟩
  rw [known bound]
  exact mem_map_members

theorem allSolutions_cliques_triangle :
    2 * (3 * (mentioned [Change.edge "a" "b", .edge "b" "c", .node "d", .edge "c" "a", .edge "d" "d"]).length)
        ≤ UInt64.size ∧
      ∃ cliques : List (List String),
        ((build [Change.edge "a" "b", .edge "b" "c", .node "d", .edge "c" "a", .edge "d" "d"]).cliques
          3).allSolutions = .ok (if cliques = [] then none else some cliques) ∧
        ((build [Change.edge "a" "b", .edge "b" "c", .node "d", .edge "c" "a", .edge "d" "d"]).cliques
          3).firstSolution = .ok cliques.head? ∧
        (∀ l, l ∈ cliques ↔
          IsClique [Change.edge "a" "b", .edge "b" "c", .node "d", .edge "c" "a", .edge "d" "d"] 3 l) ∧
        ["a", "b", "c"] ∈ cliques := by
  have few : 2 * (3 * (mentioned [Change.edge "a" "b", .edge "b" "c", .node "d", .edge "c" "a",
      .edge "d" "d"]).length) ≤ UInt64.size := by decide
  obtain ⟨cliques, all, first, right⟩ := allSolutions_cliques
    [Change.edge "a" "b", .edge "b" "c", .node "d", .edge "c" "a", .edge "d" "d"] 3
  have clique : IsClique [Change.edge "a" "b", .edge "b" "c", .node "d", .edge "c" "a", .edge "d" "d"] 3
      ["a", "b", "c"] := ⟨by decide, rfl, by decide, by decide⟩
  exact ⟨few, cliques, all, first, right few, (right few _).2 clique⟩

/-- A clique is listed once for every order of its nodes. The bound is that of `Numbered`. -/
theorem count_allSolutions_cliques (changes : List (Change α)) {size : Nat} (some_place : 0 < size) :
    ∃ cliques : List (List α),
      ((build changes).cliques size).allSolutions = .ok (if cliques = [] then none else some cliques) ∧
      (2 * (size * (mentioned changes).length) ≤ UInt64.size →
        ∀ l, IsClique changes size l → cliques.count l = size.factorial) := by
  obtain ⟨cliques, all, -, known⟩ := cliques_listed changes size
  refine ⟨cliques, all, fun bound l clique => ?_⟩
  rw [known bound]
  exact count_map_members some_place clique

theorem count_allSolutions_cliques_triangle :
    0 < 3 ∧
      2 * (3 * (mentioned [Change.edge "a" "b", .edge "b" "c", .edge "c" "a"]).length) ≤ UInt64.size ∧
      IsClique [Change.edge "a" "b", .edge "b" "c", .edge "c" "a"] 3 ["a", "b", "c"] ∧
      ∃ cliques : List (List String),
        ((ofEdges [("a", "b"), ("b", "c"), ("c", "a")]).cliques 3).allSolutions =
          .ok (if cliques = [] then none else some cliques) ∧
        cliques.count ["a", "b", "c"] = 6 := by
  have few : 2 * (3 * (mentioned [Change.edge "a" "b", .edge "b" "c", .edge "c" "a"]).length) ≤
      UInt64.size := by decide
  have clique : IsClique [Change.edge "a" "b", .edge "b" "c", .edge "c" "a"] 3 ["a", "b", "c"] :=
    ⟨by decide, rfl, by decide, by decide⟩
  obtain ⟨cliques, all, right⟩ := count_allSolutions_cliques
    [Change.edge "a" "b", .edge "b" "c", .edge "c" "a"] (by decide : 0 < 3)
  refine ⟨by decide, few, clique, cliques, ?_, right few _ clique⟩
  rw [ofEdges_eq_build]
  exact all

end

end PropSat.Clique
