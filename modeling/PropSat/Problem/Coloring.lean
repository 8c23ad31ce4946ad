import PropSat.Problem.Basic
import PropSat.Problem.Graph

/-!
Colorings of a graph with four colors: each node has exactly one, and the two ends of an edge differ.
The name `N2-R` says that node 2 is red.
-/

namespace PropSat

inductive Color where
  | red
  | green
  | blue
  | yellow
  deriving DecidableEq

namespace Color

def all : List Color := [.red, .green, .blue, .yellow]

def letter : Color → Char
  | .red => 'R'
  | .green => 'G'
  | .blue => 'B'
  | .yellow => 'Y'

end Color

namespace Coloring

def colorName (node : Nat) (c : Color) : String := s!"N{node}-{c.letter}"

section
variable {α : Type} [BEq α] [Hashable α]

def nodesColored (nodes : Nat) : List Formula :=
  (List.range nodes).flatMap fun i => Problem.exactlyOne (Color.all.map (colorName i))

def endsDiffer (g : Graph α) : List Formula :=
  g.edgeList.flatMap fun (i, j) =>
    Color.all.map fun c => Problem.notBoth (colorName i c) (colorName j c)

def formula (g : Graph α) : Formula :=
  Problem.allOf (nodesColored g.nodes.size ++ endsDiffer g)

/-- The first color a model gives a node. -/
def colorOf (m : Model) (node : Nat) : Option Color :=
  Color.all.find? fun c => m[colorName node c]? == some true

/-- The colored nodes in the order of the nodes, each with its color. -/
def colors (g : Graph α) (m : Model) : List (α × Color) :=
  g.nodeList.zipIdx.filterMap fun (node, i) => (colorOf m i).map (node, ·)

end

end Coloring

def Graph.colorings {α : Type} [BEq α] [Hashable α] (g : Graph α) :
    Problem (List (α × Color)) where
  formula := Coloring.formula g
  interpret := Coloring.colors g

end PropSat
