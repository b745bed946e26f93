import UniDb.Common.Value

/-!
# Graph Projections

The dense form of a graph that the algorithms read: vertices are slots from 0 on, and the
neighbours of a slot are a row of one list of all neighbours.

## Main definitions

* `Csr`: Rows of neighbours, cut from one list at given offsets.
* `GraphProjection`: Outbound rows, and inbound rows that are empty or their transpose.
-/

namespace UniDb.Algo

/-- Offsets and neighbours of `n` rows. A row is read without a panic, and its entries are
    slots. -/
structure Csr (n : Nat) where
  offsets : List Nat
  neighbors : List Nat
  length : offsets.length = n + 1
  sorted : offsets.Pairwise (· ≤ ·)
  last : ∀ o ∈ offsets, o ≤ neighbors.length
  slots : ∀ v ∈ neighbors, v < n

namespace Csr

variable {n : Nat} (c : Csr n)

/-- The slice between two offsets. -/
def row (slot : Nat) : List Nat :=
  (c.neighbors.take (c.offsets.getD (slot + 1) 0)).drop (c.offsets.getD slot 0)

variable {c} {u v : Nat} (h : v ∈ c.row u)

include h

theorem lt_of_mem_row : v < n := c.slots v (List.mem_of_mem_take (List.mem_of_mem_drop h))

/-- Only slots have a row: behind the last offset the slice is empty. -/
theorem row_lt : u < n := by
  by_contra hge
  have hend : c.offsets[u + 1]? = none := by
    rw [List.getElem?_eq_none_iff, c.length]
    omega
  simp [row, hend] at h

end Csr

/-- The place of a vertex in `vids` is its slot. Reverse edges are built on demand. -/
structure GraphProjection where
  vids : List Vid
  out : Csr vids.length
  rev : Csr vids.length
  nodup : vids.Nodup
  transpose : rev.neighbors ≠ [] → ∀ u v, (rev.row u).count v = (out.row v).count u

namespace GraphProjection

variable (g : GraphProjection)

def vertexCount : Nat := g.vids.length

def outNeighbors (slot : Nat) : List Nat := g.out.row slot

def inNeighbors (slot : Nat) : List Nat := g.rev.row slot

def hasReverse : Bool := !g.rev.neighbors.isEmpty

/-- How the algorithms for undirected graphs read a row. -/
def neighbors (slot : Nat) : List Nat :=
  g.outNeighbors slot ++ if g.hasReverse then g.inNeighbors slot else []

/-- A neighbour is joined by an edge in one of the directions. -/
theorem mem_neighbors {u v : Nat} (h : v ∈ g.neighbors u) :
    v ∈ g.outNeighbors u ∨ u ∈ g.outNeighbors v := by
  refine (List.mem_append.mp h).imp_right fun hrev => ?_
  split at hrev
  · have hsome := List.ne_nil_of_mem (List.mem_of_mem_take (List.mem_of_mem_drop hrev))
    rw [inNeighbors, ← List.count_pos_iff, g.transpose hsome, List.count_pos_iff] at hrev
    exact hrev
  · cases hrev

def toVid (slot : Nat) : Vid := g.vids.getD slot 0

end GraphProjection

end UniDb.Algo
