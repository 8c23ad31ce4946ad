import PropSat.Problem.Coloring
import PropSat.Proofs.Problem.Choice
import PropSat.Proofs.Problem.Graph
import PropSat.Proofs.Text.Numeral

/-!
The colorings of a graph. A model of its formula takes one color for each node, so the models and the proper
colorings are one for one as long as there is a node, and the colorings come in descending order
(`allSolutions_colorings`). Without a node the formula has a name of its own that no coloring tells of, and
the only coloring comes twice (`allSolutions_colorings_nodup`).
-/

namespace PropSat

/-- Red comes first and yellow last. -/
def Color.rank : Color → Nat
  | .red => 0
  | .green => 1
  | .blue => 2
  | .yellow => 3

theorem Color.mem_all (c : Color) : c ∈ all := by cases c <;> decide

namespace Coloring

open Formula Problem Text PropSat.Graph

/-! Names. -/

theorem toList_colorName (node : Nat) (c : Color) :
    (colorName node c).toList = 'N' :: ((toString node).toList ++ '-' :: [c.letter]) := by
  have n : (toString "N").toList = ['N'] := rfl
  have dash : (toString "-").toList = ['-'] := rfl
  have letter : (toString c.letter).toList = [c.letter] := String.toList_singleton c.letter
  simp only [colorName, String.toList_append]
  simp [n, dash, letter]

theorem letter_inj {c d : Color} (same : c.letter = d.letter) : c = d := by
  cases c <;> cases d <;> first | rfl | exact absurd same (by decide)

theorem colorName_inj {node other : Nat} {c d : Color} (same : colorName node c = colorName other d) :
    node = other ∧ c = d := by
  have chars := congrArg String.toList same
  rw [toList_colorName, toList_colorName] at chars
  obtain ⟨rfl, letters⟩ := numeral_append_inj (by decide) (List.cons.inj chars).2
  exact ⟨rfl, letter_inj (List.cons.inj letters).1⟩

/-- A color for each node. -/
def nodeColors (nodes : Nat) : Choice Color where
  places := nodes
  options := Color.all
  name := colorName
  rank := Color.rank
  name_inj := colorName_inj
  ascending := by decide

/-- A color for everything that may be a node, the same one for the same node and different ones for the two
ends of every edge. -/
structure Proper {α : Type} [BEq α] (changes : List (Change α)) (f : α → Color) : Prop where
  same : ∀ a b, a == b → f a = f b
  apart : ∀ a b, Joined changes a b → f a ≠ f b

section
variable {α : Type} [BEq α] [Hashable α] {g : Graph α} {changes : List (Change α)} {p : List Color}
  {v : String → Bool} {m : Model}

theorem formula_eq (g : Graph α) : formula g = (nodeColors g.nodes.size).formula (endsDiffer g) := rfl

/-! What the formula asks for. -/

theorem mem_endsDiffer {f : Formula} :
    f ∈ endsDiffer g ↔ ∃ i j, (i, j) ∈ g.edgeList ∧ ∃ c, f = notBoth (colorName i c) (colorName j c) := by
  simp only [endsDiffer, List.mem_flatMap, List.mem_map, Color.mem_all, true_and, Prod.exists, eq_comm]

theorem names_endsDiffer (records : g.Records changes) :
    ∀ f ∈ endsDiffer g, ∀ name ∈ f.names, name ∈ (nodeColors g.nodes.size).names := by
  intro f member name own
  obtain ⟨i, j, edge, c, rfl⟩ := mem_endsDiffer.1 member
  obtain ⟨small, short⟩ := records.adjacent_lt (records.mem_edgeList_iff.1 edge).2
  exact Choice.names_notBoth (c := nodeColors _) small c.mem_all short c.mem_all name own

theorem conjunctive_endsDiffer : ∀ f ∈ endsDiffer g, Conjunctive f := by
  intro f member
  obtain ⟨i, j, -, c, rfl⟩ := mem_endsDiffer.1 member
  exact conjunctive_notBoth _ _

theorem fills_iff {nodes : Nat} : (nodeColors nodes).Fills p ↔ p.length = nodes :=
  ⟨Choice.Fills.length, fun length => ⟨length, fun c _ => c.mem_all⟩⟩

/-- The ends of every edge have different colors. -/
theorem truth_endsDiffer (records : g.Records changes) (fills : (nodeColors g.nodes.size).Fills p)
    (tells : (nodeColors g.nodes.size).Tells p v) :
    (∀ f ∈ endsDiffer g, f.truth v = true) ↔ ∀ i j, g.adjacent i j = true → p[i]? ≠ p[j]? := by
  have clause : ∀ {i j}, g.adjacent i j = true → ∀ c,
      (notBoth (colorName i c) (colorName j c)).truth v = true ↔ ¬ (p[i]? = some c ∧ p[j]? = some c) := by
    intro i j adjacent c
    obtain ⟨small, short⟩ := records.adjacent_lt adjacent
    exact tells.truth_notBoth small c.mem_all short c.mem_all
  constructor
  · intro all
    have ordered : ∀ i j, i ≤ j → g.adjacent i j = true → p[i]? ≠ p[j]? := by
      intro i j less adjacent same
      obtain ⟨c, -, here⟩ := fills.option (records.adjacent_lt adjacent).1
      have member := mem_endsDiffer.2 ⟨i, j, records.mem_edgeList_iff.2 ⟨less, adjacent⟩, c, rfl⟩
      exact (clause adjacent c).1 (all _ member) ⟨here, same ▸ here⟩
    intro i j adjacent same
    rcases Nat.le_total i j with less | less
    · exact ordered i j less adjacent same
    · exact ordered j i less (adjacent_comm g i j ▸ adjacent) same.symm
  · intro differ f member
    obtain ⟨i, j, edge, c, rfl⟩ := mem_endsDiffer.1 member
    have adjacent := (records.mem_edgeList_iff.1 edge).2
    rw [clause adjacent c]
    rintro ⟨here, there⟩
    exact differ i j adjacent (here.trans there.symm)

theorem filterMap_zip {α β γ : Type} {f : β → Option γ} (xs : List α) (ys : List β)
    (each : ∀ y ∈ ys, ∃ z, f y = some z) :
    (xs.zip ys).filterMap (fun (x, y) => (f y).map (x, ·)) = xs.zip (ys.filterMap f) := by
  induction ys generalizing xs with
  | nil => simp
  | cons y rest ih =>
    rw [List.forall_mem_cons] at each
    obtain ⟨⟨z, here⟩, later⟩ := each
    cases xs with
    | nil => simp
    | cons x others => simp [here, ih others later]

/-- Nodes and colors go together in order. -/
theorem colors_eq {m : Model} (model : m ∈ (formula g).models) :
    colors g m = g.nodeList.zip ((nodeColors g.nodes.size).taken m.value) := by
  rw [formula_eq] at model
  obtain ⟨fills, tells, -⟩ := Choice.tells_of_mem_models model
  have found : colorOf m = (nodeColors g.nodes.size).found m.value := by
    funext node
    simp only [colorOf, m.beq_some_true]
    rfl
  have size : g.nodeList.length = g.nodes.size := Array.length_toList
  rw [colors, List.zipIdx_eq_zip_range', ← List.range_eq_range', size, found]
  apply filterMap_zip
  intro i member
  have small := List.mem_range.1 member
  obtain ⟨c, -, here⟩ := fills.option small
  exact ⟨c, (tells.found_eq fills small).trans here⟩

theorem map_colors (g : Graph α) :
    (formula g).models.map (colors g) =
      ((nodeColors g.nodes.size).lists (endsDiffer g)).map g.nodeList.zip := by
  rw [Choice.lists, List.map_map, ← formula_eq]
  exact List.map_congr_left fun m model => colors_eq model

/-- With a node the colorings come in descending order. -/
theorem pairwise_map_colors (records : g.Records changes) (some_node : g.nodeList ≠ []) :
    ((formula g).models.map (colors g)).Pairwise fun first second =>
      second.map (·.2.rank) < first.map (·.2.rank) := by
  have ranks : ∀ p ∈ (nodeColors g.nodes.size).lists (endsDiffer g),
      (g.nodeList.zip p).map (·.2.rank) = p.map Color.rank := by
    intro p member
    have length : p.length = g.nodeList.length :=
      ((Choice.mem_lists (names_endsDiffer records)).1 member).1.length.trans Array.length_toList.symm
    rw [← Function.comp_def (fun c => Color.rank c) Prod.snd, ← List.map_map, List.map_snd_zip length.le]
  have place : 0 < g.nodes.size := by
    rw [← Array.length_toList]
    exact List.length_pos_iff.2 some_node
  have descending := Choice.pairwise_lists (names_endsDiffer records) place (List.cons_ne_nil _ _)
  rw [map_colors, List.pairwise_map]
  apply descending.imp_of_mem
  intro first second inFirst inSecond less
  rwa [ranks first inFirst, ranks second inSecond]

/-- Without a node the formula has a name that no node tells of, so there are two models. -/
theorem map_colors_nil (records : g.Records changes) (nothing : g.nodeList = []) :
    (formula g).models.map (colors g) = [[], []] := by
  have size : g.nodes.size = 0 := by rw [← Array.length_toList, ← nodeList, nothing, List.length_nil]
  have edges : g.edgeList = [] := by
    apply List.eq_nil_iff_forall_not_mem.2
    rintro ⟨i, j⟩ member
    have bound := (records.between i j (mem_edgeList.1 member)).2
    omega
  have tautology : formula g = allOf [] := by simp [formula, nodesColored, endsDiffer, size, edges]
  have colorless : ∀ m, colors g m = [] := by simp [colors, nothing]
  have valid : ∀ v, (allOf []).truth v = true := fun v => truth_allOf v []
  rw [List.map_congr_left fun m _ => colorless m, tautology, models_of_valid valid, vars_allOf_nil]
  rfl

end

section
variable {α : Type} [BEq α] [Hashable α] [EquivBEq α] [LawfulHashable α] {g : Graph α}
  {changes : List (Change α)} {p : List Color}

/-! Colors of nodes. -/

/-- Colors for the numbers are those of a coloring. -/
theorem exists_proper (records : g.Records changes) :
    (p.length = g.nodes.size ∧ ∀ i j, g.adjacent i j = true → p[i]? ≠ p[j]?) ↔
      ∃ f, Proper changes f ∧ p = g.nodeList.map f := by
  constructor
  · rintro ⟨length, differ⟩
    refine ⟨fun a => ((g.index[a]?).bind (p[·]?)).getD .red, ⟨?same, ?apart⟩, ?all⟩
    case same =>
      intro a b same
      rw [Std.HashMap.getElem?_congr same]
    case apart =>
      intro a b joined
      obtain ⟨i, j, first, second, adjacent⟩ := (records.joins a b).1 joined
      obtain ⟨small, short⟩ := records.adjacent_lt adjacent
      have here := differ i j adjacent
      rw [← length] at small short
      rw [List.getElem?_eq_getElem small, List.getElem?_eq_getElem short] at here
      simpa [first, second, small, short] using here
    case all =>
      apply List.ext_getElem
      · rw [List.length_map, length, nodeList, Array.length_toList]
      · intro i inside inNodes
        have small : i < g.nodes.size := length ▸ inside
        have numbered := records.index_node (Array.getElem?_eq_getElem small)
        simp only [nodeList, List.getElem_map, Array.getElem_toList, numbered, Option.bind_some,
          List.getElem?_eq_getElem inside, Option.getD_some]
  · rintro ⟨f, proper, rfl⟩
    refine ⟨by rw [List.length_map, nodeList, Array.length_toList], ?_⟩
    intro i j adjacent
    obtain ⟨small, short⟩ := records.adjacent_lt adjacent
    have first := Array.getElem?_eq_getElem small
    have second := Array.getElem?_eq_getElem short
    have joined := (records.adjacent_iff first second).1 adjacent
    rw [List.getElem?_map, List.getElem?_map, nodeList, Array.getElem?_toList, Array.getElem?_toList, first,
      second]
    simpa using proper.apart _ _ joined

theorem mem_lists_iff (records : g.Records changes) :
    p ∈ (nodeColors g.nodes.size).lists (endsDiffer g) ↔ ∃ f, Proper changes f ∧ p = g.nodeList.map f := by
  rw [Choice.mem_lists (names_endsDiffer records), ← exists_proper records, fills_iff]
  apply and_congr_right
  intro length
  exact truth_endsDiffer records (fills_iff.2 length) (Choice.tells_told _ p)

/-- The colorings of the models are the proper ones. -/
theorem mem_map_colors (records : g.Records changes) {coloring : List (α × Color)} :
    coloring ∈ (formula g).models.map (colors g) ↔
      ∃ f, Proper changes f ∧ coloring = g.nodeList.map fun a => (a, f a) := by
  rw [map_colors, List.mem_map]
  constructor
  · rintro ⟨p, member, rfl⟩
    obtain ⟨f, proper, rfl⟩ := (mem_lists_iff records).1 member
    exact ⟨f, proper, List.map_prod_left_eq_zip.symm⟩
  · rintro ⟨f, proper, rfl⟩
    exact ⟨_, (mem_lists_iff records).2 ⟨f, proper, rfl⟩, List.map_prod_left_eq_zip.symm⟩

/-! The list of all colorings. -/

theorem colorings_listed (changes : List (Change α)) :
    ∃ colorings : List (List (α × Color)),
      (build changes).colorings.allSolutions = .ok (if colorings = [] then none else some colorings) ∧
      (build changes).colorings.firstSolution = .ok colorings.head? ∧
      (2 * (4 * (mentioned changes).length) ≤ UInt64.size →
        colorings = (formula (build changes)).models.map (colors (build changes))) := by
  have known := names_endsDiffer (build_records changes)
  obtain ⟨colorings, all, first, listed⟩ := Choice.solutions_listed known
    (q := (build changes).colorings) (formula_eq _) conjunctive_endsDiffer
  refine ⟨colorings, all, first, fun bound => listed ?_⟩
  have four : (nodeColors (build changes).nodes.size).options.length = 4 := rfl
  rwa [four, Nat.mul_comm _ 4, nodeColors, size_build]

/-- Every graph that changes make is answered. The colorings are those that give the nodes colors under which
the two ends of every edge differ, and they come in descending order of the colors of the nodes, node by node.
Only which colorings are listed depends on the bound, which is that of `Numbered`: a node has four names. -/
theorem allSolutions_colorings (changes : List (Change α)) :
    ∃ colorings : List (List (α × Color)),
      (build changes).colorings.allSolutions = .ok (if colorings = [] then none else some colorings) ∧
      (build changes).colorings.firstSolution = .ok colorings.head? ∧
      (2 * (4 * (mentioned changes).length) ≤ UInt64.size →
        (∀ coloring, coloring ∈ colorings ↔
          ∃ f, Proper changes f ∧ coloring = (mentioned changes).map fun a => (a, f a)) ∧
        colorings.Pairwise fun first second => second.map (·.2.rank) ≤ first.map (·.2.rank)) := by
  obtain ⟨colorings, all, first, known⟩ := colorings_listed changes
  have records := build_records changes
  refine ⟨colorings, all, first, fun bound => ?_⟩
  rw [known bound, ← nodeList_build]
  refine ⟨fun coloring => mem_map_colors records, ?_⟩
  by_cases nothing : (build changes).nodeList = []
  · rw [map_colors_nil records nothing]
    exact List.pairwise_pair.2 le_rfl
  · exact (pairwise_map_colors records nothing).imp le_of_lt

theorem allSolutions_colorings_triangle :
    2 * (4 * (mentioned [Change.edge "a" "b", .edge "b" "c", .node "d", .edge "c" "a"]).length) ≤
        UInt64.size ∧
      ∃ colorings : List (List (String × Color)),
        (build [Change.edge "a" "b", .edge "b" "c", .node "d", .edge "c" "a"]).colorings.allSolutions =
          .ok (if colorings = [] then none else some colorings) ∧
        (build [Change.edge "a" "b", .edge "b" "c", .node "d", .edge "c" "a"]).colorings.firstSolution =
          .ok colorings.head? ∧
        (∀ coloring, coloring ∈ colorings ↔
          ∃ f, Proper [Change.edge "a" "b", .edge "b" "c", .node "d", .edge "c" "a"] f ∧
            coloring = ["a", "b", "c", "d"].map fun a => (a, f a)) ∧
        (colorings.Pairwise fun first second => second.map (·.2.rank) ≤ first.map (·.2.rank)) ∧
        [("a", .red), ("b", .green), ("c", .blue), ("d", .red)] ∈ colorings := by
  have few : 2 * (4 * (mentioned [Change.edge "a" "b", .edge "b" "c", .node "d", .edge "c" "a"]).length) ≤
      UInt64.size := by decide
  obtain ⟨colorings, all, first, right⟩ :=
    allSolutions_colorings [Change.edge "a" "b", .edge "b" "c", .node "d", .edge "c" "a"]
  obtain ⟨members, descending⟩ := right few
  refine ⟨few, colorings, all, first, members, descending, (members _).2 ⟨fun node =>
    if node = "b" then .green else if node = "c" then .blue else .red, ⟨?same, ?apart⟩, rfl⟩⟩
  case same => simp
  case apart =>
    intro a b joined
    obtain ⟨x, y, edge, ends⟩ := joined_iff.1 joined
    have known : x = "a" ∧ y = "b" ∨ x = "b" ∧ y = "c" ∨ x = "c" ∧ y = "a" := by simpa using edge
    simp only [beq_iff_eq] at ends
    rcases known with ⟨rfl, rfl⟩ | ⟨rfl, rfl⟩ | ⟨rfl, rfl⟩
    all_goals rcases ends with ⟨rfl, rfl⟩ | ⟨rfl, rfl⟩ <;> decide

/-- Where the changes mention something, no coloring is listed twice. Where they mention nothing, the only
coloring there is comes twice. -/
theorem allSolutions_colorings_nodup (changes : List (Change α)) :
    ∃ colorings : List (List (α × Color)),
      (build changes).colorings.allSolutions = .ok (if colorings = [] then none else some colorings) ∧
      (2 * (4 * (mentioned changes).length) ≤ UInt64.size →
        (mentioned changes ≠ [] → colorings.Nodup) ∧ (mentioned changes = [] → colorings = [[], []])) := by
  obtain ⟨colorings, all, -, known⟩ := colorings_listed changes
  have records := build_records changes
  refine ⟨colorings, all, fun bound => ?_⟩
  rw [known bound, ← nodeList_build]
  refine ⟨fun something => ?_, map_colors_nil records⟩
  apply (pairwise_map_colors records something).imp
  rintro coloring _ less rfl
  exact lt_irrefl _ less

theorem allSolutions_colorings_nodup_edge :
    2 * (4 * (mentioned [Change.node "a", .edge "b" "c"]).length) ≤ UInt64.size ∧
      mentioned [Change.node "a", .edge "b" "c"] ≠ [] ∧
      ∃ colorings : List (List (String × Color)),
        (build [Change.node "a", .edge "b" "c"]).colorings.allSolutions =
          .ok (if colorings = [] then none else some colorings) ∧ colorings.Nodup := by
  have few : 2 * (4 * (mentioned [Change.node "a", .edge "b" "c"]).length) ≤ UInt64.size := by decide
  have something : mentioned [Change.node "a", .edge "b" "c"] ≠ [] := by decide
  obtain ⟨colorings, all, right⟩ := allSolutions_colorings_nodup [Change.node "a", .edge "b" "c"]
  exact ⟨few, something, colorings, all, (right few).1 something⟩

/-- The empty graph has one coloring, which is listed twice. -/
theorem allSolutions_colorings_empty :
    (Graph.empty : Graph String).colorings.allSolutions = .ok (some [[], []]) ∧
      ¬ ([[], []] : List (List (String × Color))).Nodup := by
  obtain ⟨colorings, all, -, known⟩ := colorings_listed ([] : List (Change String))
  rw [known (by decide), map_colors_nil (build_records []) rfl] at all
  exact ⟨all, by decide⟩

end

end Coloring

end PropSat
