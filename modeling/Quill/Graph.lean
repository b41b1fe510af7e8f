/-!
# Dependency graphs

Vertices are numbers, and each has a list of the vertices it depends on. Ordering walks the graph
depth first and puts a vertex behind everything it depends on, or finds a cycle.
-/
namespace Quill

structure Graph where
  edges : Array (List Nat)
  deriving DecidableEq, Repr

namespace Graph

def ofSize (n : Nat) : Graph := ⟨Array.replicate n []⟩

def size (g : Graph) : Nat := g.edges.size

def dependencies (g : Graph) (v : Nat) : List Nat := g.edges[v]?.getD []

/-- The graph with at least `n` vertices. -/
def grow (g : Graph) (n : Nat) : Graph := ⟨g.edges ++ Array.replicate (n - g.size) []⟩

/-- Adds an edge once, and its ends where they are missing. -/
def addEdge (g : Graph) (dependent dependee : Nat) : Graph :=
  let edges := (g.grow (max dependent dependee + 1)).edges
  ⟨edges.modify dependent fun ds => if ds.contains dependee then ds else ds ++ [dependee]⟩

/-- Visits `v` and what it depends on. `path` leads from the start to the vertex that asks for `v`,
and `order` lists the vertices finished so far. The cycle found, if any, is the error. -/
def visit (g : Graph) :
    (fuel : Nat) → (path order : List Nat) → (v : Nat) → Except (List Nat) (List Nat)
  | 0, _, order, _ => .ok order
  | fuel + 1, path, order, v => do
    let path := path ++ [v]
    let order ← (g.dependencies v).foldlM
      (fun order dep =>
        if path.contains dep then .error (path.dropWhile (· != dep))
        else if order.contains dep then .ok order
        else g.visit fuel path order dep)
      order
    return order ++ [v]

/-- The given vertices and all they depend on, every vertex behind its dependencies. A path without
repetition has at most one vertex more than the graph has edge lists, which bounds the depth. -/
def order (g : Graph) (vertices : List Nat) : Except (List Nat) (List Nat) :=
  vertices.foldlM
    (fun order v => if order.contains v then .ok order else g.visit (g.size + 1) [] order v) []

end Graph
end Quill
