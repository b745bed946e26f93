import Mathlib.Data.List.Basic
import UniDb.Common.SimpleGraph
import UniDb.Runtime.CommitRegistry

/-!
# The L0 Buffer

The in-memory buffer that every write goes to first: a transaction's private
buffer while it runs, and the shared main buffer once it commits.

A buffer stores each aspect of a vertex or an edge in a map of its own, and an
operation updates the maps one by one. The definitions follow the source update
by update. The write-ahead log, the size estimate and the counters that queries
report are not part of a buffer here.

A timestamp is an argument of the operation that takes it, where the source
reads the clock.

## Main definitions

* `L0Buffer`: The buffer.
* `L0Buffer.applyVertexWrite`, `L0Buffer.applyVertexDeletion`: The vertex writes.
* `L0Buffer.applyEdgeInsertion`, `L0Buffer.applyEdgeDeletion`: The edge writes.
* `L0Buffer.setVertexLabels`: Replace the labels of a vertex.
* `mergeCrdtProperties`: Merge a property map into an existing one.
-/

namespace UniDb

/-- A soft-deleted edge. -/
structure TombstoneEntry where
  eid : Eid
  srcVid : Vid
  dstVid : Vid
  edgeType : Nat
  deriving DecidableEq, Repr

/-- The in-memory buffer over property values of type `V`. -/
structure L0Buffer (V : Type) where
  graph : SimpleGraph
  tombstones : AssocMap Eid TombstoneEntry
  vertexTombstones : AssocSet Vid
  edgeVersions : AssocMap Eid Nat
  vertexVersions : AssocMap Vid Nat
  edgeProperties : AssocMap Eid (Properties V)
  vertexProperties : AssocMap Vid (Properties V)
  /-- Source, destination and type of each edge. -/
  edgeEndpoints : AssocMap Eid (Vid × Vid × Nat)
  vertexLabels : AssocMap Vid (List String)
  /-- The vertices with each label, kept alongside `vertexLabels`. -/
  labelToVids : AssocMap String (AssocSet Vid)
  /-- Vertices whose whole label set was replaced in this buffer. -/
  vertexLabelOverwrites : AssocSet Vid
  vertexLabelsBefore : AssocMap Vid (List String)
  vertexLabelVersions : AssocMap Vid Nat
  edgeTypes : AssocMap Eid String
  currentVersion : Nat
  mutationCount : Nat
  vertexCreatedAt : AssocMap Vid Int
  vertexUpdatedAt : AssocMap Vid Int
  edgeCreatedAt : AssocMap Eid Int
  edgeUpdatedAt : AssocMap Eid Int
  constraintIndex : AssocMap Key Vid
  constraintKeysByVid : AssocMap Vid (List Key)
  mergeGuardIndex : AssocMap Key Vid
  mergeKeysByVid : AssocMap Vid (List Key)
  edgeConstraintIndex : AssocMap Key Eid
  edgeKeysByEid : AssocMap Eid (List Key)
  extidIndex : AssocMap String Vid
  pendingEmbeddings : AssocMap Vid String
  /-- The commit sequence number at which the buffer's transaction began. -/
  occReadSeq : Nat
  /-- What the transaction read, where reads are tracked. -/
  occReadSet : Option Occ.OccReadSet

/-- An empty buffer. -/
def L0Buffer.new {V : Type} (startVersion : Nat) : L0Buffer V where
  graph := SimpleGraph.new
  tombstones := ∅
  vertexTombstones := ∅
  edgeVersions := ∅
  vertexVersions := ∅
  edgeProperties := ∅
  vertexProperties := ∅
  edgeEndpoints := ∅
  vertexLabels := ∅
  labelToVids := ∅
  vertexLabelOverwrites := ∅
  vertexLabelsBefore := ∅
  vertexLabelVersions := ∅
  edgeTypes := ∅
  currentVersion := startVersion
  mutationCount := 0
  vertexCreatedAt := ∅
  vertexUpdatedAt := ∅
  edgeCreatedAt := ∅
  edgeUpdatedAt := ∅
  constraintIndex := ∅
  constraintKeysByVid := ∅
  mergeGuardIndex := ∅
  mergeKeysByVid := ∅
  edgeConstraintIndex := ∅
  edgeKeysByEid := ∅
  extidIndex := ∅
  pendingEmbeddings := ∅
  occReadSeq := 0
  occReadSet := none

def appendUniqueLabels (existing labels : List String) : List String :=
  labels.foldl (fun acc label => if label ∈ acc then acc else acc ++ [label]) existing

/-- Add a vertex to the index entry of each label. -/
def indexVid (index : AssocMap String (AssocSet Vid)) (vid : Vid) (labels : List String) :
    AssocMap String (AssocSet Vid) :=
  labels.foldl (fun ix label => ix.insert label (((ix.lookup label).getD ∅).insert vid ())) index

/-- Take a vertex out of the index entry of each label that has one. -/
def unindexVid (index : AssocMap String (AssocSet Vid)) (vid : Vid) (labels : List String) :
    AssocMap String (AssocSet Vid) :=
  labels.foldl (fun ix label => match ix.lookup label with
    | none => ix
    | some set => ix.insert label (set.erase vid)) index

section Properties

variable {V : Type} [PropertyValue V]

/-- Write one property. Two CRDTs are merged, the existing one into the new
    one; every other value overwrites what was there. -/
def mergeProperty (entry : Properties V) (kv : String × V) : Properties V :=
  let (k, v) := kv
  match PropertyValue.tryAsCrdt v, (entry.lookup k).bind PropertyValue.decode with
  | some newCrdt, some existing => match PropertyValue.merge newCrdt existing with
    | some merged => match PropertyValue.encode merged with
      | some mergedValue => entry.insert k mergedValue
      -- a merge that cannot be serialized falls back to the last writer
      | none => entry.insert k v
    -- kinds that do not match, or a provider that failed: the last writer wins
    | none => entry.insert k v
  | _, _ => entry.insert k v

/-- Merge a property map into an existing one. An empty one is replaced. -/
def mergeCrdtProperties (entry properties : Properties V) : Properties V :=
  if entry.entries.isEmpty then properties else properties.toList.foldl mergeProperty entry

/-- The string under the property `ext_id`. -/
def extidOf (props : Properties V) : Option String :=
  (props.lookup "ext_id").bind PropertyValue.asStr

end Properties

/-- The constraint a serialized key belongs to: its label and property names,
    without the values, which stand at the even positions after the first. -/
def constraintKeyShape (key : Key) : Key :=
  (((key.splitOn 0).zipIdx).filter fun p => p.2 == 0 || p.2 % 2 == 1).flatMap fun p => p.1 ++ [0]

namespace L0Buffer

variable {V : Type} (b : L0Buffer V)

def bumpVersion : L0Buffer V :=
  { b with currentVersion := b.currentVersion + 1 }

variable (vid : Vid) (labels : List String)

def indexLabelsForVid : L0Buffer V :=
  { b with labelToVids := indexVid b.labelToVids vid labels }

/-- Take a vertex out of the index, under the labels it has. -/
def removeVidFromLabelIndex : L0Buffer V :=
  match b.vertexLabels.lookup vid with
  | none => b
  | some labels => { b with labelToVids := unindexVid b.labelToVids vid labels }

/-- Replace the label list of a vertex, without touching the index. -/
def putLabels : L0Buffer V :=
  { b with vertexLabels := b.vertexLabels.insert vid labels }

/-- Append labels to a vertex, creating its entry if it has none, and index the
    vertex under them. -/
def appendLabels : L0Buffer V :=
  let existing := (b.vertexLabels.lookup vid).getD []
  (b.putLabels vid (appendUniqueLabels existing labels)).indexLabelsForVid vid labels

def setVertexLabels : L0Buffer V :=
  -- the index is cleared by the old list, so before the list is replaced
  let b := ((b.removeVidFromLabelIndex vid).putLabels vid labels).indexLabelsForVid vid labels
  { b with
    vertexLabelOverwrites := b.vertexLabelOverwrites.insert vid ()
    currentVersion := b.currentVersion + 1
    vertexLabelVersions := b.vertexLabelVersions.insert vid (b.currentVersion + 1)
    mutationCount := b.mutationCount + 1 }

/-- Replace the label set, and remember what it was before the first time. -/
def relabelVertex (previous labels : List String) : L0Buffer V :=
  let b := { b with vertexLabelsBefore := b.vertexLabelsBefore.orInsert vid previous }
  b.setVertexLabels vid labels

def addVertexLabels : L0Buffer V :=
  b.appendLabels vid labels

/-- Remove one label; the first occurrence goes. Returns whether there was one. -/
def removeVertexLabel (label : String) : L0Buffer V × Bool :=
  match b.vertexLabels.lookup vid with
  | none => (b, false)
  | some labels =>
    if label ∈ labels then
      let b := b.putLabels vid (labels.erase label)
      ({ b with
          labelToVids := unindexVid b.labelToVids vid [label]
          currentVersion := b.currentVersion + 1
          mutationCount := b.mutationCount + 1 }, true)
    else (b, false)

/-- Keep the `ext_id` index in step with a property write. -/
def syncExtidIndex (old new : Option String) : L0Buffer V :=
  if old = new then b
  else
    let index := match old with
      -- another vertex may have taken the id over; its entry stays
      | some o => if b.extidIndex.lookup o = some vid then b.extidIndex.erase o else b.extidIndex
      | none => b.extidIndex
    { b with extidIndex := match new with
      | some n => index.insert n vid
      | none => index }

def clearTombstone : L0Buffer V :=
  { b with vertexTombstones := b.vertexTombstones.erase vid }

/-- Stamp a vertex with a version and with the times at hand. The creation time
    of an earlier write stays. -/
def stampVertex (version : Nat) (created updated : Option Int) :
    L0Buffer V :=
  { b with
    vertexVersions := b.vertexVersions.insert vid version
    vertexCreatedAt := b.vertexCreatedAt.orInsertSome vid created
    vertexUpdatedAt := b.vertexUpdatedAt.insertSome vid updated }

section Writes

variable [PropertyValue V] (b : L0Buffer V) (vid : Vid) (properties : Properties V)

/-- Merge a property map into a vertex, and sync the `ext_id` index if the map
    carries an `ext_id`. -/
def writeProperties : L0Buffer V :=
  let entry := (b.vertexProperties.lookup vid).getD ∅
  let merged := mergeCrdtProperties entry properties
  let b := { b with vertexProperties := b.vertexProperties.insert vid merged }
  -- a map without an `ext_id` leaves the id of the vertex as it is
  if "ext_id" ∈ properties then b.syncExtidIndex vid (extidOf entry) (extidOf merged) else b

variable (labels : List String)

def applyVertexWrite (version : Nat) (now : Int) : L0Buffer V :=
  -- a deleted vertex comes back, with the label list it had
  let b := (b.clearTombstone vid).writeProperties vid properties
  let b := (b.stampVertex vid version (some now) (some now)).appendLabels vid labels
  { b with graph := b.graph.addVertex vid, mutationCount := b.mutationCount + 1 }

def insertVertexWithLabelsImpl (now : Int) : L0Buffer V :=
  let b := b.bumpVersion
  b.applyVertexWrite vid properties labels b.currentVersion now

def insertVertexWithLabels (now : Int) : L0Buffer V :=
  b.insertVertexWithLabelsImpl vid properties labels now

/-- Rewrite an existing vertex. The stored effect is that of an insert. -/
def updateVertexWithLabels (now : Int) : L0Buffer V :=
  b.insertVertexWithLabelsImpl vid properties labels now

end Writes

/-- Remove from an index the keys that still belong to their old owner. -/
def retireKeys (index : AssocMap Key Nat) (owner : Nat) (keys : List Key) : AssocMap Key Nat :=
  keys.foldl (fun ix key => if ix.lookup key = some owner then ix.erase key else ix) index

variable (b : L0Buffer V)

def retireEdgeConstraintKeys (eid : Eid) : L0Buffer V :=
  { b with
    edgeKeysByEid := b.edgeKeysByEid.erase eid
    edgeConstraintIndex :=
      retireKeys b.edgeConstraintIndex eid ((b.edgeKeysByEid.lookup eid).getD []) }

/-- Retire the unique keys and the MERGE keys of a deleted vertex. -/
def retireVertexKeys (vid : Vid) : L0Buffer V :=
  { b with
    constraintKeysByVid := b.constraintKeysByVid.erase vid
    constraintIndex :=
      retireKeys b.constraintIndex vid ((b.constraintKeysByVid.lookup vid).getD [])
    mergeKeysByVid := b.mergeKeysByVid.erase vid
    mergeGuardIndex :=
      retireKeys b.mergeGuardIndex vid ((b.mergeKeysByVid.lookup vid).getD []) }

/-- Tombstone an edge of a vertex that is being deleted. -/
def cascadeOne (version : Nat) (entry : TombstoneEntry) : L0Buffer V :=
  let b := { b with
    tombstones := b.tombstones.insert entry.eid entry
    edgeVersions := b.edgeVersions.insert entry.eid version
    edgeEndpoints := b.edgeEndpoints.erase entry.eid
    edgeProperties := b.edgeProperties.erase entry.eid }
  let b := b.retireEdgeConstraintKeys entry.eid
  { b with graph := b.graph.removeEdge entry.eid, mutationCount := b.mutationCount + 1 }

/-- The same for an edge id, if the buffer knows the edge's endpoints. -/
def cascadeEdge (version : Nat) (acc : L0Buffer V × List TombstoneEntry) (eid : Eid) :
    L0Buffer V × List TombstoneEntry :=
  match acc.1.edgeEndpoints.lookup eid with
  | none => acc
  | some (src, dst, etype) =>
    let entry : TombstoneEntry := ⟨eid, src, dst, etype⟩
    (acc.1.cascadeOne version entry, acc.2 ++ [entry])

/-- The edges at a vertex, in both directions; a loop is listed once. -/
def edgesToRemove (vid : Vid) : List Eid :=
  ((b.graph.neighbors vid .outgoing).map EdgeEntry.eid ++
    (b.graph.neighbors vid .incoming).map EdgeEntry.eid).dedup

section Writes

variable [PropertyValue V] (b : L0Buffer V) (vid : Vid)

/-- Drop the `ext_id` index entry of a vertex, if the vertex owns it. -/
def dropExtid : L0Buffer V :=
  match (b.vertexProperties.lookup vid).bind extidOf with
  | none => b
  | some ext =>
    if b.extidIndex.lookup ext = some vid then { b with extidIndex := b.extidIndex.erase ext }
    else b

/-- Take a vertex whose edges are gone out of the buffer: out of the label index
    and the key indexes, and its properties with it. Its label list stays. -/
def buryVertex (version : Nat) : L0Buffer V :=
  -- the label list is needed by the flush, which writes a tombstone per label
  let b := b.removeVidFromLabelIndex vid
  let b := { b with vertexTombstones := b.vertexTombstones.insert vid () }
  -- reads the properties that the next line removes
  let b := b.dropExtid vid
  let b := { b with
    vertexProperties := b.vertexProperties.erase vid
    vertexVersions := b.vertexVersions.insert vid version
    graph := b.graph.removeVertex vid
    mutationCount := b.mutationCount + 1 }
  b.retireVertexKeys vid

/-- Delete a vertex: tombstone its edges, then bury it. Returns the edges tombstoned. -/
def applyVertexDeletion : L0Buffer V × List TombstoneEntry :=
  let cascade := (b.edgesToRemove vid).foldl (cascadeEdge b.currentVersion) (b, [])
  (cascade.1.buryVertex vid b.currentVersion, cascade.2)

def deleteVertexImpl : L0Buffer V × List TombstoneEntry :=
  b.bumpVersion.applyVertexDeletion vid

def deleteVertex : L0Buffer V × List TombstoneEntry :=
  b.deleteVertexImpl vid

variable (src dst : Vid) (edgeType : Nat) (eid : Eid) (properties : Properties V)

/-- Add the edge's vertices and the edge to the topology, and store what the
    buffer keeps about it. -/
def storeEdge : L0Buffer V :=
  -- only the topology: inserting a vertex would create an empty version of it
  let graph := if b.graph.containsVertex src then b.graph else b.graph.addVertex src
  let graph := if graph.containsVertex dst then graph else graph.addVertex dst
  let edgeProperties :=
    if properties.entries.isEmpty then b.edgeProperties
    else b.edgeProperties.insert eid
      (mergeCrdtProperties ((b.edgeProperties.lookup eid).getD ∅) properties)
  { b with
    graph := graph.addEdge src dst eid edgeType
    edgeProperties := edgeProperties
    edgeVersions := b.edgeVersions.insert eid b.currentVersion
    edgeEndpoints := b.edgeEndpoints.insert eid (src, dst, edgeType)
    tombstones := b.tombstones.erase eid
    mutationCount := b.mutationCount + 1 }

/-- Insert an edge, refusing an endpoint that has been deleted. -/
def applyEdgeInsertion : Except String (L0Buffer V) :=
  if src ∈ b.vertexTombstones then
    .error ("Cannot insert edge: source vertex " ++ toString src ++
      " has been deleted (issue #77)")
  else if dst ∈ b.vertexTombstones then
    .error ("Cannot insert edge: destination vertex " ++ toString dst ++
      " has been deleted (issue #77)")
  else .ok (b.storeEdge src dst edgeType eid properties)

/-- Record the type name of an edge, if there is one. -/
def recordEdgeType : Option String → L0Buffer V
  | none => b
  | some name => { b with edgeTypes := b.edgeTypes.insert eid name }

/-- Stamp an edge with the times at hand, keeping an earlier creation time. -/
def stampEdge (created updated : Option Int) : L0Buffer V :=
  { b with
    edgeCreatedAt := b.edgeCreatedAt.orInsertSome eid created
    edgeUpdatedAt := b.edgeUpdatedAt.insertSome eid updated }

variable (edgeTypeName : Option String)

def insertEdgeImpl (now : Int) :
    Except String (L0Buffer V) := do
  let b ← b.bumpVersion.applyEdgeInsertion src dst edgeType eid properties
  return (b.recordEdgeType eid edgeTypeName).stampEdge eid (some now) (some now)

def insertEdge (now : Int) :
    Except String (L0Buffer V) :=
  b.insertEdgeImpl src dst edgeType eid properties edgeTypeName now

/-- An edge that is refused leaves only the version behind. -/
def orBumped : Except String (L0Buffer V) → L0Buffer V
  | .ok b' => b'
  | .error _ => b.bumpVersion

/-- Rewrite an existing edge. The stored effect is that of an insert. -/
def updateEdge (now : Int) :
    Except String (L0Buffer V) :=
  b.insertEdgeImpl src dst edgeType eid properties edgeTypeName now

end Writes

variable (b : L0Buffer V)

/-- Tombstone an edge and take it out of the topology. Its endpoints and properties stay. -/
def applyEdgeDeletion (eid : Eid) (src dst : Vid) (edgeType : Nat) :
    L0Buffer V :=
  let b := { b with
    tombstones := b.tombstones.insert eid ⟨eid, src, dst, edgeType⟩
    edgeVersions := b.edgeVersions.insert eid b.currentVersion }
  let b := b.retireEdgeConstraintKeys eid
  { b with graph := b.graph.removeEdge eid, mutationCount := b.mutationCount + 1 }

def deleteEdgeImpl (eid : Eid) (src dst : Vid) (edgeType : Nat) (now : Int) :
    L0Buffer V :=
  let b := b.bumpVersion.applyEdgeDeletion eid src dst edgeType
  { b with edgeUpdatedAt := b.edgeUpdatedAt.insert eid now }

def deleteEdge (eid : Eid) (src dst : Vid) (edgeType : Nat) (now : Int) :
    L0Buffer V :=
  b.deleteEdgeImpl eid src dst edgeType now

/-- The vertices indexed under a label. -/
def vidsForLabel (label : String) : List Vid :=
  ((b.labelToVids.lookup label).getD ∅).keys

variable (key : Key)

/-- Remember that a vertex holds a unique key, and retire the key it held for
    the same constraint. -/
def insertConstraintKey (vid : Vid) : L0Buffer V :=
  let held := (b.constraintKeysByVid.lookup vid).getD []
  -- an old value of the same constraint, which the vertex gives up
  let stale := fun old => old ≠ key ∧ constraintKeyShape old = constraintKeyShape key
  let retired := held.filter fun old => stale old
  let kept := held.filter fun old => ¬ stale old
  let kept := if key ∈ kept then kept else kept ++ [key]
  { b with
    constraintKeysByVid := b.constraintKeysByVid.insert vid kept
    constraintIndex := (retireKeys b.constraintIndex vid retired).insert key vid }

/-- Whether a vertex other than `exclude` holds the key. -/
def hasConstraintKey (exclude : Vid) : Bool :=
  (b.constraintIndex.lookup key).any (· ≠ exclude)

def insertEdgeConstraintKey (eid : Eid) : L0Buffer V :=
  let keys := (b.edgeKeysByEid.lookup eid).getD []
  { b with
    edgeKeysByEid := b.edgeKeysByEid.insert eid (if key ∈ keys then keys else keys ++ [key])
    edgeConstraintIndex := b.edgeConstraintIndex.insert key eid }

def hasEdgeConstraintKey (exclude : Eid) : Bool :=
  (b.edgeConstraintIndex.lookup key).any (· ≠ exclude)

def insertMergeGuardKey (vid : Vid) : L0Buffer V :=
  let keys := (b.mergeKeysByVid.lookup vid).getD []
  { b with
    mergeKeysByVid := b.mergeKeysByVid.insert vid (if key ∈ keys then keys else keys ++ [key])
    mergeGuardIndex := b.mergeGuardIndex.insert key vid }

def hasMergeGuardKey (exclude : Vid) : Bool :=
  (b.mergeGuardIndex.lookup key).any (· ≠ exclude)

end L0Buffer

end UniDb
