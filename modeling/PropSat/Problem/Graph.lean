import Std.Data.HashMap
import Std.Data.TreeSet

/-!
Undirected graphs. Nodes are numbered in the order of their first mention; an edge is kept once, the
smaller number first, and edges come in ascending order. A node may have an edge to itself.
-/

namespace PropSat

structure Graph (α : Type) [BEq α] [Hashable α] where
  nodes : Array α
  index : Std.HashMap α Nat
  edges : Std.TreeSet (Nat × Nat) (@compare _ lexOrd)

namespace Graph

variable {α : Type} [BEq α] [Hashable α]

def empty : Graph α := ⟨#[], ∅, ∅⟩

/-- The number of a node; a new node takes the next free one. -/
def addNode (g : Graph α) (node : α) : Nat × Graph α :=
  match g.index[node]? with
  | some i => (i, g)
  | none => (g.nodes.size, ⟨g.nodes.push node, g.index.insert node g.nodes.size, g.edges⟩)

def edge (i j : Nat) : Nat × Nat := (min i j, max i j)

def addEdge (g : Graph α) (a b : α) : Graph α :=
  let (i, g) := g.addNode a
  let (j, g) := g.addNode b
  { g with edges := g.edges.insert (edge i j) }

/-- Nodes appear in the order in which the edges mention them. -/
def ofEdges (edges : List (α × α)) : Graph α :=
  edges.foldl (fun g (a, b) => g.addEdge a b) empty

def nodeList (g : Graph α) : List α := g.nodes.toList

def indexOf? (g : Graph α) (node : α) : Option Nat := g.index[node]?

def edgeList (g : Graph α) : List (Nat × Nat) := g.edges.toList

def adjacent (g : Graph α) (i j : Nat) : Bool := g.edges.contains (edge i j)

end Graph

end PropSat
