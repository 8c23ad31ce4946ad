import PropSat.Problem.Basic
import PropSat.Problem.Graph

/-!
Cliques: so many nodes of a graph, all adjacent to each other. The name `V2,0` says that node 2 is the
member at place 0. Every place holds exactly one node, no node holds two places, and nodes at
different places are adjacent.
-/

namespace PropSat

namespace Clique

def placeName (node place : Nat) : String := s!"V{node},{place}"

section
variable {α : Type} [BEq α] [Hashable α]

def placesFilled (size nodes : Nat) : List Formula :=
  (List.range size).flatMap fun place =>
    Problem.exactlyOne ((List.range nodes).map (placeName · place))

def nodesOnce (size nodes : Nat) : List Formula :=
  (List.range nodes).flatMap fun i => (List.range size).flatMap fun s =>
    (List.range s).map fun r => Problem.notBoth (placeName i r) (placeName i s)

/-- Two nodes without an edge between them do not hold two places. -/
def nodesAdjacent (size : Nat) (g : Graph α) : List Formula :=
  let places := List.range size
  let nodes := List.range g.nodes.size
  places.flatMap fun r => (places.filter (· != r)).flatMap fun s =>
    nodes.flatMap fun i =>
      (nodes.filter fun j => i != j && !g.adjacent i j).map fun j =>
        Problem.notBoth (placeName i r) (placeName j s)

def formula (size : Nat) (g : Graph α) : Formula :=
  Problem.allOf
    (placesFilled size g.nodes.size ++ nodesOnce size g.nodes.size ++ nodesAdjacent size g)

/-- The nodes that hold some place, in the order of the nodes. -/
def members (size : Nat) (g : Graph α) (m : Model) : List α :=
  (g.nodeList.zipIdx.filter fun (_, i) =>
    (List.range size).any fun r => m[placeName i r]? == some true).map (·.1)

end

end Clique

def Graph.cliques {α : Type} [BEq α] [Hashable α] (g : Graph α) (size : Nat) :
    Problem (List α) where
  formula := Clique.formula size g
  interpret := Clique.members size g

end PropSat
