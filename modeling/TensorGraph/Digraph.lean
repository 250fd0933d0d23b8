/-!
Directed graphs on numbers, given by their edges: what can be reached from a node, whether there is
a cycle, the strongly connected components, and orders built by taking the first element that is
ready.
-/

namespace TensorGraph

/-- The edges of a directed graph. -/
abbrev Edges := List (Nat × Nat)

namespace Edges

def successors (edges : Edges) (n : Nat) : List Nat :=
  edges.filterMap fun edge ↦ if edge.1 = n then some edge.2 else none

/-- Adds to `seen` what can be reached from the stack around `seen`. -/
def visit (edges : Edges) : Nat → List Nat → List Nat → List Nat
  | 0, _, seen => seen
  | _ + 1, [], seen => seen
  | steps + 1, n :: stack, seen =>
    if seen.contains n then edges.visit steps stack seen
    else edges.visit steps (edges.successors n ++ stack) (n :: seen)

/-- The nodes that can be reached from `n`, itself included. Every edge is followed at most once. -/
def reach (edges : Edges) (n : Nat) : List Nat :=
  edges.visit (edges.length + 1) [n] []

def hasCycle (edges : Edges) : Bool :=
  edges.any fun edge ↦ (edges.reach edge.2).contains edge.1

/-- The strongly connected components of the nodes below `count`, by their least nodes, each
ascending. -/
def components (edges : Edges) (count : Nat) : List (List Nat) :=
  let reached := (List.range count).map edges.reach
  let connected (a b : Nat) : Bool :=
    (reached[a]?.getD []).contains b && (reached[b]?.getD []).contains a
  ((List.range count).filter fun n ↦ (List.range n).all fun m ↦ !connected m n).map
    fun n ↦ n :: (List.range count).filter fun m ↦ n < m && connected n m

end Edges

/-- Takes the first ready element of what is left, as long as there is one. -/
def pickOrder {α : Type} (ready : List α → α → Bool) : Nat → List α → List α
  | 0, _ => []
  | count + 1, rest =>
    match rest.find? (ready rest) with
    | none => []
    | some x => x :: pickOrder ready count (rest.eraseP (ready rest))

namespace Edges

def nodeReady (edges : Edges) (rest : List Nat) (n : Nat) : Bool :=
  edges.all fun edge ↦ edge.2 != n || edge.1 == n || !rest.contains edge.1

/-- The nodes in an order that follows the edges between them; among ready ones the first in the
list. -/
def orderNodes (edges : Edges) (nodes : List Nat) : List Nat :=
  pickOrder edges.nodeReady nodes.length nodes

/-- No edge leads to the component from another one that is left. -/
def componentReady (edges : Edges) (rest : List (List Nat)) (component : List Nat) : Bool :=
  edges.all fun edge ↦
    !component.contains edge.2 || component.contains edge.1
      || !rest.any (·.contains edge.1)

/-- The components in an order that follows the edges between them; among ready ones the first in
the list. -/
def orderComponents (edges : Edges) (components : List (List Nat)) : List (List Nat) :=
  pickOrder edges.componentReady components.length components

end Edges

end TensorGraph
