import UniDb.Storage.Adjacency

/-!
# Stored Edges

The two tables that an edge type has in storage for each direction.

The adjacency table (L2) has one row per vertex, with the neighbors and the edge
ids; its rows carry no versions. The delta log (L1) has one row per insertion or
deletion of an edge, with the version that wrote it.

## Main definitions

* `Op`, `L1Entry`: The rows of a delta log.
* `AdjacencyRow`: The rows of an adjacency table.
* `L1Entry.endsAt`: The vertex that lists the edge, and its neighbor.
-/

namespace UniDb

namespace Adjacency

inductive Op
  | insert
  | delete
  deriving DecidableEq

structure L1Entry where
  srcVid : Vid
  dstVid : Vid
  eid : Eid
  op : Op
  version : Nat
  deriving DecidableEq

/-- The vertex that an edge is listed at, and its neighbor there. -/
def L1Entry.endsAt (x : L1Entry) (dir : Direction) : Vid × Vid :=
  if dir = .incoming then (x.dstVid, x.srcVid) else (x.srcVid, x.dstVid)

/-- A vertex with its neighbors, each with the edge's id. -/
structure AdjacencyRow where
  srcVid : Vid
  edges : List (Vid × Eid)
  deriving DecidableEq

/-- The entry is one of the edges with these endpoints. -/
def L1Entry.Fits (ends : Eid → EdgeEnds) (x : L1Entry) : Prop :=
  x.srcVid = (ends x.eid).srcVid ∧ x.dstVid = (ends x.eid).dstVid

theorem L1Entry.Fits.listedAt {ends : Eid → EdgeEnds} {x : L1Entry} (h : x.Fits ends)
    {dir : Direction} (hdir : dir ≠ .both) : (ends x.eid).listedAt dir = some (x.endsAt dir) := by
  rw [L1Entry.endsAt, h.1, h.2]
  cases dir with
  | outgoing | incoming => rfl
  | both => exact absurd rfl hdir

end Adjacency

end UniDb
