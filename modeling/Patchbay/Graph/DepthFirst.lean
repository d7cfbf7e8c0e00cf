/-!
# Depth-first order

One depth-first walk serves the nesting of patches and the dependencies of nodes. The walk starts
from the roots in turn, tries successors in the order in which they are given, and lists a vertex
once all that it leads to is listed. A successor that is still on the path closes a cycle, which
ends the walk.

A vertex is unvisited, on the path, or finished. The walk keeps the unvisited vertices, so that it
ends with every step forward making that list shorter; vertices outside the list it was given are
not part of the graph. The path is kept as frames, innermost first, and needs no recursion as deep
as the graph.
-/

namespace Patchbay.DepthFirst

variable {α ε : Type} [DecidableEq α]

/-- A vertex on the path, with the successors that are still to be tried. -/
structure Frame (α : Type) where
  vertex : α
  pending : List α

/-- Why a walk stops early. -/
inductive Interrupt (ε α : Type) where
  /-- A cycle, its first vertex repeated last. -/
  | cycle (path : List α)
  /-- The successors of a vertex could not be told. -/
  | refused (cause : ε)

/-- The part of the path from `v` on, closed by `v`. -/
def closeCycle (path : List (Frame α)) (v : α) : List α :=
  ((path.map Frame.vertex).reverse.dropWhile (· ≠ v)) ++ [v]

/-- The successors still to be tried on a path, and one for each vertex to be finished. -/
def work : List (Frame α) → Nat
  | [] => 0
  | frame :: path => frame.pending.length + 1 + work path

/-- Walks on until the path is empty. The answer holds the vertices that stay unvisited and the
finished ones, last one first. -/
def visit (edges : α → Except ε (List α)) (unvisited : List α) (path : List (Frame α))
    (finished : List α) : Except (Interrupt ε α) (List α × List α) :=
  match path with
  | [] => .ok (unvisited, finished)
  | ⟨v, []⟩ :: rest => visit edges unvisited rest (v :: finished)
  | ⟨v, w :: pending⟩ :: rest =>
    if w ∈ (⟨v, pending⟩ :: rest : List (Frame α)).map Frame.vertex then
      .error (.cycle (closeCycle (⟨v, pending⟩ :: rest) w))
    else if _fresh : w ∈ unvisited then
      match edges w with
      | .error cause => .error (.refused cause)
      | .ok next => visit edges (unvisited.erase w) (⟨w, next⟩ :: ⟨v, pending⟩ :: rest) finished
    else visit edges unvisited (⟨v, pending⟩ :: rest) finished
termination_by (unvisited.length, work path)
decreasing_by
  · exact Prod.Lex.right _ (by simp [work])
  · exact Prod.Lex.left _ _ (by
      have := List.length_pos_of_mem _fresh
      rw [List.length_erase_of_mem _fresh]
      omega)
  · exact Prod.Lex.right _ (by simp [work])

/-- Walks from each root that is still unvisited. -/
def visitRoots (edges : α → Except ε (List α)) (unvisited finished : List α) :
    List α → Except (Interrupt ε α) (List α × List α)
  | [] => .ok (unvisited, finished)
  | root :: roots =>
    if root ∈ unvisited then
      match edges root with
      | .error cause => .error (.refused cause)
      | .ok next =>
        match visit edges (unvisited.erase root) [⟨root, next⟩] finished with
        | .error interrupt => .error interrupt
        | .ok (unvisited, finished) => visitRoots edges unvisited finished roots
    else visitRoots edges unvisited finished roots

/-- The vertices reached from the roots, each after everything that it leads to. -/
def postorder (vertices : List α) (edges : α → Except ε (List α)) (roots : List α) :
    Except (Interrupt ε α) (List α) :=
  (visitRoots edges vertices [] roots).map fun (_, finished) => finished.reverse

/-- `postorder` where the successors of every vertex are known; a failure is a cycle. -/
def order (vertices : List α) (next : α → List α) (roots : List α) :
    Except (List α) (List α) :=
  match postorder (ε := Empty) vertices (fun v => .ok (next v)) roots with
  | .ok order => .ok order
  | .error (.cycle path) => .error path

end Patchbay.DepthFirst
