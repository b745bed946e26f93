import UniDb.Common.Value

/-!
# The Adjacency Graph of a Buffer

The directed multigraph that a buffer keeps its topology in: two adjacency
lists per vertex, and a map from each edge id to the edge and its position in
both lists.

The positions make removing an edge constant time. The last entry of a list
moves into the gap, and the position recorded for the moved edge is updated, so
the order of an adjacency list is not something a caller can rely on.

Removing a vertex removes its edges one by one from the end of each list. The
loop is given one round per entry of the list.

## Main definitions

* `SimpleGraph`: Vertices, adjacency lists and the edge map.
* `SimpleGraph.addEdge`, `SimpleGraph.removeEdge`: The two edge updates.
* `SimpleGraph.removeVertex`: Remove a vertex and all its edges.
* `SimpleGraph.neighbors`: The edges at a vertex in one direction.
* `Topology`: The graph without its vertex set.
-/

namespace UniDb

/-- An edge as the adjacency lists store it. -/
structure EdgeEntry where
  eid : Eid
  srcVid : Vid
  dstVid : Vid
  edgeType : Nat
  deriving DecidableEq, Repr

inductive Direction
  | outgoing
  | incoming

/-- The last entry takes the place of the removed one. -/
def swapRemove {α : Type} (l : List α) (pos : Nat) : List α :=
  match l.getLast? with
  | none => l
  | some last => (l.set pos last).dropLast

/-- The edges of a graph: the adjacency lists of each vertex, and for each edge
    its entry and its positions in the outgoing and the incoming list. -/
structure Topology where
  outgoing : AssocMap Vid (List EdgeEntry)
  incoming : AssocMap Vid (List EdgeEntry)
  edgeMap : AssocMap Eid (EdgeEntry × Nat × Nat)

/-- A directed graph with adjacency lists. -/
structure SimpleGraph extends Topology where
  vertices : AssocSet Vid

namespace Topology

def empty : Topology := ⟨∅, ∅, ∅⟩

def neighbors (t : Topology) (vid : Vid) : Direction → List EdgeEntry
  | .outgoing => (t.outgoing.lookup vid).getD []
  | .incoming => (t.incoming.lookup vid).getD []

/-- Close the gap in the outgoing list and record where the moved edge went. -/
def removeOut (t : Topology) (src : Vid) (pos : Nat) : Topology :=
  match t.outgoing.lookup src with
  | none => t
  | some list =>
    let list' := swapRemove list pos
    -- nothing moved if the removed entry was the last one
    let edgeMap := match list'[pos]? with
      | none => t.edgeMap
      | some moved => match t.edgeMap.lookup moved.eid with
        | none => t.edgeMap
        | some (entry, _, inPos) => t.edgeMap.insert moved.eid (entry, pos, inPos)
    { t with outgoing := t.outgoing.insert src list', edgeMap := edgeMap }

/-- The same for the incoming list. -/
def removeIn (t : Topology) (dst : Vid) (pos : Nat) : Topology :=
  match t.incoming.lookup dst with
  | none => t
  | some list =>
    let list' := swapRemove list pos
    let edgeMap := match list'[pos]? with
      | none => t.edgeMap
      | some moved => match t.edgeMap.lookup moved.eid with
        | none => t.edgeMap
        | some (entry, outPos, _) => t.edgeMap.insert moved.eid (entry, outPos, pos)
    { t with incoming := t.incoming.insert dst list', edgeMap := edgeMap }

def removeEdge (t : Topology) (eid : Eid) : Topology :=
  match t.edgeMap.lookup eid with
  | none => t
  | some (entry, outPos, inPos) =>
    -- the entry goes first: the lists may put a moved edge in its place
    let t := { t with edgeMap := t.edgeMap.erase eid }
    (t.removeOut entry.srcVid outPos).removeIn entry.dstVid inPos

/-- Install an edge at the end of both lists; an edge with that id is removed first. -/
def addEdgeUnchecked (t : Topology) (src dst : Vid) (eid : Eid) (edgeType : Nat) : Topology :=
  let entry : EdgeEntry := ⟨eid, src, dst, edgeType⟩
  let t := if eid ∈ t.edgeMap then t.removeEdge eid else t
  let out := t.neighbors src .outgoing
  let inc := t.neighbors dst .incoming
  { outgoing := t.outgoing.insert src (out ++ [entry])
    incoming := t.incoming.insert dst (inc ++ [entry])
    edgeMap := t.edgeMap.insert eid (entry, out.length, inc.length) }

/-- Remove the edges of one adjacency list from its end, for at most `fuel` edges. -/
def removeLast (t : Topology) (vid : Vid) (direction : Direction) : Nat → Topology
  | 0 => t
  | fuel + 1 => match (t.neighbors vid direction).getLast? with
    | none => t
    | some edge => (t.removeEdge edge.eid).removeLast vid direction fuel

def removeVertexEdges (t : Topology) (vid : Vid) : Topology :=
  -- a loop is gone from the incoming list once the outgoing one is empty
  let t := t.removeLast vid .outgoing (t.neighbors vid .outgoing).length
  let t := t.removeLast vid .incoming (t.neighbors vid .incoming).length
  { t with outgoing := t.outgoing.erase vid, incoming := t.incoming.erase vid }

end Topology

namespace SimpleGraph

def new : SimpleGraph := { Topology.empty with vertices := ∅ }

/-- The graph with other edges and the same vertices. -/
def withTopology (g : SimpleGraph) (t : Topology) : SimpleGraph :=
  { g with toTopology := t }

def containsVertex (g : SimpleGraph) (vid : Vid) : Bool := decide (vid ∈ g.vertices)

def addVertex (g : SimpleGraph) (vid : Vid) : SimpleGraph :=
  { g with vertices := g.vertices.insert vid () }

/-- Add an edge; its vertices are created if they do not exist. -/
def addEdge (g : SimpleGraph) (src dst : Vid) (eid : Eid) (edgeType : Nat) : SimpleGraph :=
  let g := (g.addVertex src).addVertex dst
  g.withTopology (g.toTopology.addEdgeUnchecked src dst eid edgeType)

def removeEdge (g : SimpleGraph) (eid : Eid) : SimpleGraph :=
  g.withTopology (g.toTopology.removeEdge eid)

def removeVertex (g : SimpleGraph) (vid : Vid) : SimpleGraph :=
  { g.toTopology.removeVertexEdges vid with vertices := g.vertices.erase vid }

@[simp] theorem topology_addEdge (g : SimpleGraph) (src dst : Vid) (eid : Eid) (edgeType : Nat) :
    (g.addEdge src dst eid edgeType).toTopology =
      g.toTopology.addEdgeUnchecked src dst eid edgeType := rfl

end SimpleGraph

end UniDb
