import UniDb.Runtime.L0

/-!
# Committing a Transaction's Buffer

The two ways a transaction's buffer reaches a main buffer: the live merge at
commit, and the replay of the write-ahead log at recovery.

`mergeTake` applies the transaction's buffer field by field. `walRecords` is
what the commit writes to the log before that, and `replayMutations` is what
recovery does with it. The two were written independently, in different orders
and partly with different helpers, and are translated as such.

A merge writes each vertex and each edge at most once, so the clock it reads is
given as one reading per vertex and per edge.

## Main definitions

* `L0Buffer.validateMergeEdgeEndpoints`: The check made before a merge.
* `L0Buffer.mergeValidated`, `L0Buffer.mergeTake`: The live merge.
* `Mutation`: A record of the write-ahead log.
* `walRecords`: The records a commit writes.
* `L0Buffer.replayMutations`: The replay of records.
-/

namespace UniDb

/-- A record of the write-ahead log. -/
inductive Mutation (V : Type)
  | insertEdge (srcVid dstVid : Vid) (edgeType : Nat) (eid : Eid) (version : Nat)
      (properties : Properties V) (edgeTypeName : Option String)
      (createdAt updatedAt : Option Int)
  | deleteEdge (eid : Eid) (srcVid dstVid : Vid) (edgeType : Nat) (version : Nat)
      (edgeTypeName : Option String)
  | insertVertex (vid : Vid) (properties : Properties V) (labels : List String)
      (createdAt updatedAt : Option Int)
  | deleteVertex (vid : Vid) (labels : List String)
  | setVertexLabels (vid : Vid) (labels : List String)

/-- The clock readings of a merge. -/
structure Clock where
  vertex : Vid → Int
  edge : Eid → Int

namespace L0Buffer

variable {V : Type} (b other : L0Buffer V)

/-- Whether a vertex is deleted once the vertex phase of a merge is over: an
    insert by the merged buffer clears the tombstone. -/
def deletedAfterMerge (vid : Vid) : Bool :=
  (vid ∈ b.vertexTombstones || vid ∈ other.vertexTombstones) && vid ∉ other.vertexProperties

/-- Refuse a merge that would insert an edge at a deleted vertex. -/
def validateMergeEdgeEndpoints : Except String Unit :=
  forM other.edgeEndpoints.toList fun (eid, src, dst, _) =>
    if eid ∈ other.tombstones then .ok ()
    else if b.deletedAfterMerge other src then
      .error ("Cannot insert edge " ++ toString eid ++ ": source vertex " ++ toString src ++
        " has been deleted (issue #77)")
    else if b.deletedAfterMerge other dst then
      .error ("Cannot insert edge " ++ toString eid ++ ": destination vertex " ++ toString dst ++
        " has been deleted (issue #77)")
    else .ok ()

/-- The labels a buffer has for a vertex, none if it has no entry. -/
def labelsOf (b : L0Buffer V) (vid : Vid) : List String :=
  (b.vertexLabels.lookup vid).getD []

def adoptLabels (b : L0Buffer V) (vl : Vid × List String) : L0Buffer V :=
  if vl.1 ∈ b.vertexLabels then b
  else (b.putLabels vl.1 vl.2).indexLabelsForVid vl.1 vl.2

/-- Replace the labels of a relabelled vertex, unless the merged buffer deletes it. -/
def overwriteLabels (other : L0Buffer V) (b : L0Buffer V) (vid : Vid) : L0Buffer V :=
  if vid ∈ other.vertexTombstones then b
  else
    let labels := other.labelsOf vid
    let b := ((b.removeVidFromLabelIndex vid).putLabels vid labels).indexLabelsForVid vid labels
    { b with
      currentVersion := b.currentVersion + 1
      vertexLabelVersions := b.vertexLabelVersions.insert vid (b.currentVersion + 1)
      vertexLabelOverwrites := b.vertexLabelOverwrites.insert vid () }

/-- Carry over the timestamps: the oldest creation time and the latest update time. -/
def mergeTimestamps : L0Buffer V :=
  { b with
    vertexCreatedAt := other.vertexCreatedAt.toList.foldl (fun m e => m.orInsert e.1 e.2)
      b.vertexCreatedAt
    vertexUpdatedAt := other.vertexUpdatedAt.toList.foldl (fun m e => m.insert e.1 e.2)
      b.vertexUpdatedAt
    edgeCreatedAt := other.edgeCreatedAt.toList.foldl (fun m e => m.orInsert e.1 e.2)
      b.edgeCreatedAt
    edgeUpdatedAt := other.edgeUpdatedAt.toList.foldl (fun m e => m.insert e.1 e.2)
      b.edgeUpdatedAt }

/-- Carry over the unique keys, the MERGE keys and the deferred embeddings. -/
def mergeIndexes : L0Buffer V :=
  let b := other.constraintIndex.toList.foldl (fun b e => b.insertConstraintKey e.1 e.2) b
  let b := other.mergeGuardIndex.toList.foldl (fun b e => b.insertMergeGuardKey e.1 e.2) b
  let b := other.edgeConstraintIndex.toList.foldl (fun b e => b.insertEdgeConstraintKey e.1 e.2) b
  { b with
    pendingEmbeddings := other.pendingEmbeddings.toList.foldl (fun m e => m.insert e.1 e.2)
      b.pendingEmbeddings }

section Merge

variable [PropertyValue V]

/-- Delete one vertex and collect the edges that go with it. -/
def mergeDeletion (acc : L0Buffer V × List TombstoneEntry) (vid : Vid) :
    L0Buffer V × List TombstoneEntry :=
  let deleted := acc.1.deleteVertexImpl vid
  (deleted.1, acc.2 ++ deleted.2)

variable (b other : L0Buffer V)

def mergeDeletions : L0Buffer V × List TombstoneEntry :=
  other.vertexTombstones.keys.foldl mergeDeletion (b, [])

variable (other : L0Buffer V) (clock : Clock)

/-- Write one vertex, with the labels the merged buffer has for it. -/
def mergeInsertion (b : L0Buffer V)
    (e : Vid × Properties V) : L0Buffer V :=
  b.insertVertexWithLabelsImpl e.1 e.2 (other.labelsOf e.1) (clock.vertex e.1)

def mergeInsertions (vertexProps : AssocMap Vid (Properties V))
    (clock : Clock) : L0Buffer V :=
  vertexProps.toList.foldl (mergeInsertion other clock) b

def mergeVertices (vertexProps : AssocMap Vid (Properties V))
    (clock : Clock) : L0Buffer V × List TombstoneEntry :=
  let deleted := b.mergeDeletions other
  let b := deleted.1.mergeInsertions other vertexProps clock
  -- vertices that the merged buffer has labels for and no properties
  let b := other.vertexLabels.toList.foldl adoptLabels b
  -- relabels come last, so that they win over the labels appended above
  (other.vertexLabelOverwrites.keys.foldl (overwriteLabels other) b, deleted.2)

/-- One edge of the merged buffer. The source takes the properties out of
    `edgeProps`; each edge comes once, so that is the same as reading them. -/
def mergeEdge (edgeProps : AssocMap Eid (Properties V)) (clock : Clock)
    (b : L0Buffer V) (e : Eid × Vid × Vid × Nat) : Except String (L0Buffer V) :=
  let (eid, src, dst, etype) := e
  -- an edge that was inserted and deleted again is only deleted
  if eid ∈ other.tombstones then .ok (b.deleteEdgeImpl eid src dst etype (clock.edge eid))
  else b.insertEdgeImpl src dst etype eid ((edgeProps.lookup eid).getD ∅)
    (other.edgeTypes.lookup eid) (clock.edge eid)

/-- One tombstone of an edge that only the target buffer has. -/
def mergeTombstone (b : L0Buffer V)
    (e : Eid × TombstoneEntry) : L0Buffer V :=
  if e.1 ∈ other.edgeEndpoints then b
  else b.deleteEdgeImpl e.1 e.2.srcVid e.2.dstVid e.2.edgeType (clock.edge e.1)

/-- The body of a merge, once the endpoints are validated. -/
def mergeValidated (vertexProps : AssocMap Vid (Properties V))
    (edgeProps : AssocMap Eid (Properties V)) (clock : Clock) :
    Except String (L0Buffer V × List TombstoneEntry) := do
  let vertices := b.mergeVertices other vertexProps clock
  let b ← other.edgeEndpoints.toList.foldlM (mergeEdge other edgeProps clock) vertices.1
  let b := other.tombstones.toList.foldl (mergeTombstone other clock) b
  return ((b.mergeTimestamps other).mergeIndexes other, vertices.2)

/-- Merge a buffer, leaving it as it is. -/
def merge :
    Except String (L0Buffer V × List TombstoneEntry) := do
  b.validateMergeEdgeEndpoints other
  b.mergeValidated other other.vertexProperties other.edgeProperties clock

/-- Merge a buffer and take its property maps. Returns the target, the drained
    buffer and the tombstones of the cascade. -/
def mergeTake :
    Except String (L0Buffer V × L0Buffer V × List TombstoneEntry) := do
  -- a merge that fails has not taken anything
  b.validateMergeEdgeEndpoints other
  let drained := { other with vertexProperties := ∅, edgeProperties := ∅ }
  let merged ← b.mergeValidated drained other.vertexProperties other.edgeProperties clock
  return (merged.1, drained, merged.2)

end Merge

variable (tx : L0Buffer V)

/-- The record of one written vertex, with the times its writes stamped. -/
def insertVertexRecord (e : Vid × Properties V) : Mutation V :=
  .insertVertex e.1 e.2 (tx.labelsOf e.1) (tx.vertexCreatedAt.lookup e.1)
    (tx.vertexUpdatedAt.lookup e.1)

variable (schemaTypeName : Nat → Option String)

/-- The record of one deleted edge. The name of a type that the buffer does not
    know is looked up in the schema. -/
def deleteEdgeRecord (eid : Eid)
    (src dst : Vid) (etype : Nat) : Mutation V :=
  .deleteEdge eid src dst etype ((tx.edgeVersions.lookup eid).getD 0)
    ((tx.edgeTypes.lookup eid).or (schemaTypeName etype))

def edgeRecord
    (e : Eid × Vid × Vid × Nat) : Mutation V :=
  if e.1 ∈ tx.tombstones then tx.deleteEdgeRecord schemaTypeName e.1 e.2.1 e.2.2.1 e.2.2.2
  else .insertEdge e.2.1 e.2.2.1 e.2.2.2 e.1 ((tx.edgeVersions.lookup e.1).getD 0)
    ((tx.edgeProperties.lookup e.1).getD ∅) (tx.edgeTypes.lookup e.1)
    (tx.edgeCreatedAt.lookup e.1) (tx.edgeUpdatedAt.lookup e.1)

/-- The records a commit writes for a transaction's buffer: vertices first, so
    that the edges find them on replay. -/
def walRecords : List (Mutation V) :=
  (tx.vertexProperties.toList.filter fun e => e.1 ∉ tx.vertexTombstones).map
      tx.insertVertexRecord ++
    (tx.vertexTombstones.keys.map fun vid => .deleteVertex vid (tx.labelsOf vid)) ++
    ((tx.vertexLabelOverwrites.keys.filter fun vid => vid ∉ tx.vertexTombstones).map
      fun vid => .setVertexLabels vid (tx.labelsOf vid)) ++
    tx.edgeEndpoints.toList.map (tx.edgeRecord schemaTypeName) ++
    ((tx.tombstones.toList.filter fun e => e.1 ∉ tx.edgeEndpoints).map
      fun e => tx.deleteEdgeRecord schemaTypeName e.1 e.2.srcVid e.2.dstVid e.2.edgeType)

section Replay

variable [PropertyValue V] (b : L0Buffer V)

/-- Replay of a vertex write, the hand-written twin of `applyVertexWrite`. -/
def replayInsertVertex (vid : Vid) (properties : Properties V)
    (labels : List String) (createdAt updatedAt : Option Int) : L0Buffer V :=
  let b := b.bumpVersion
  let version := b.currentVersion
  let b := (b.clearTombstone vid).writeProperties vid properties
  let b := b.stampVertex vid version createdAt updatedAt
  -- the live write appends the labels before it adds the vertex
  let b := { b with graph := b.graph.addVertex vid, mutationCount := b.mutationCount + 1 }
  b.appendLabels vid labels

/-- Replay of a vertex deletion. The labels are restored before it, so that the
    deletion takes the vertex out of their index entries. -/
def replayDeleteVertex (vid : Vid) (labels : List String) : L0Buffer V :=
  let b := b.bumpVersion
  let b := if labels.isEmpty then b else b.appendLabels vid labels
  (b.applyVertexDeletion vid).1

def replaySetVertexLabels (vid : Vid) (labels : List String) : L0Buffer V :=
  let b := b.bumpVersion
  -- the label list a relabel replaces is not recorded on replay
  let b := { b with vertexLabelVersions := b.vertexLabelVersions.insert vid b.currentVersion }
  let b := ((b.removeVidFromLabelIndex vid).putLabels vid labels).indexLabelsForVid vid labels
  { b with
    vertexLabelOverwrites := b.vertexLabelOverwrites.insert vid ()
    mutationCount := b.mutationCount + 1 }

/-- Replay of an edge insertion. An edge at a deleted vertex is skipped. -/
def replayInsertEdge (src dst : Vid) (edgeType : Nat) (eid : Eid)
    (properties : Properties V) (edgeTypeName : Option String) (createdAt updatedAt : Option Int) :
    L0Buffer V :=
  let b := b.bumpVersion
  match b.applyEdgeInsertion src dst edgeType eid properties with
  | .error _ => b
  | .ok b => (b.recordEdgeType eid edgeTypeName).stampEdge eid createdAt updatedAt

def replayMutation : Mutation V → L0Buffer V
  | .insertVertex vid properties labels createdAt updatedAt =>
    b.replayInsertVertex vid properties labels createdAt updatedAt
  | .deleteVertex vid labels => b.replayDeleteVertex vid labels
  | .setVertexLabels vid labels => b.replaySetVertexLabels vid labels
  | .insertEdge src dst edgeType eid _ properties edgeTypeName createdAt updatedAt =>
    b.replayInsertEdge src dst edgeType eid properties edgeTypeName createdAt updatedAt
  | .deleteEdge eid src dst edgeType _ _ =>
    -- unlike the live deletion, the replay stamps no time
    b.bumpVersion.applyEdgeDeletion eid src dst edgeType

def replayMutations (mutations : List (Mutation V)) : L0Buffer V :=
  mutations.foldl replayMutation b

end Replay

end L0Buffer

end UniDb
