import Mathlib.Data.List.Sort
import UniDb.Lib.Run
import UniDb.Lib.Versioned
import UniDb.Common.Schema

/-!
# Restoring a Snapshot

The restore of an explicit snapshot, one write after another, and the reopen that
completes an interrupted one.

A snapshot records a restore point: the version of every table and of every index
dataset, each pinned by a tag, and the catalog. A restore flushes, withdraws the
endpoint verifications made since, stores the manifest it will publish and an intent,
rewinds the tables and the index datasets, puts the catalog back, publishes the
manifest and clears the intent. A crash may come after any of these writes. What the
process had in memory is then gone, and the next open starts the rewind again if it
finds the intent.

What the storage does to widen a table to newly declared properties and to rebuild an
index is a parameter, the `Engine`; of a widening it is known that it only rewrites
rows that a table has, with their versions.

## Main definitions

* `Store`: What is on disk.
* `Store.change`, `createSnapshot`: The history before a restore.
* `dropRowsOutside`, `restoredCatalog`, `rewiden`: The parts of a rewind.
* `Phase`, `advance`: The steps of a restore.
* `restoreSnapshot`, `reopen`: The two ways into them.
* `step`: The restore with crashes and reopens.
-/

namespace UniDb.Restore

open Datasets

def versionColumn : String := "_version"

/-- The version is read only in tables that have the column. -/
structure Row (V : Type) where
  version : Nat
  cells : V
  deriving DecidableEq, Repr

structure TableData (V : Type) where
  columns : List String
  rows : List (Row V)
  deriving DecidableEq, Repr

/-- An index, with a configuration in `X` and the time of its last build. -/
structure IndexDefinition (X : Type) where
  name : String
  label : String
  config : X
  lastBuiltAt : Option Nat
  deriving DecidableEq, Repr

def currentWriterFeatures : List String := ["endpoint_enforcement"]

/-- The catalog. `trustedUnmarkedManifest` is a record of the open that is saved
    with the next change. -/
structure Catalog (T X : Type) where
  schema : Schema T
  indexes : List (IndexDefinition X)
  writerFeatures : List String
  trustedUnmarkedManifest : Option String

structure EntitySnapshot where
  version : Nat
  count : Nat
  lanceVersion : Nat
  deriving DecidableEq, Repr

structure SnapshotManifest where
  snapshotId : String
  name : Option String
  createdAt : Nat
  parentSnapshot : Option String
  schemaVersion : Nat
  versionHighWaterMark : Nat
  walHighWaterMark : Nat
  vertices : AssocMap String EntitySnapshot
  edges : AssocMap String EntitySnapshot
  writerFeatures : List String
  unpublishedBulkVersions : List Nat

structure RestorePoint (T X : Type) where
  snapshotId : String
  tag : String
  tables : AssocMap String Nat
  indexDatasets : AssocMap String Nat
  indexes : List (IndexDefinition X)
  catalog : Option (Catalog T X)

structure RestoreIntent where
  snapshotId : String
  manifestId : String
  rebuildIndexesFor : List String
  deriving DecidableEq, Repr

/-- What is on disk. -/
structure Store (T V I X : Type) where
  tables : Datasets (TableData V)
  indexDatasets : Datasets I
  catalog : Catalog T X
  manifests : AssocMap String SnapshotManifest
  latest : Option String
  restorePoints : AssocMap String (RestorePoint T X)
  intent : Option RestoreIntent

/-- What a flush writes: tables, index datasets and the manifest. -/
structure Flush (V I : Type) where
  tables : List (String × TableData V)
  indexDatasets : List (String × I)
  manifest : SnapshotManifest

section Storage

variable {T V I X : Type}

/-- A catalog that is opened gets the features of the running binary. -/
def Catalog.load (c : Catalog T X) : Catalog T X :=
  { c with writerFeatures := currentWriterFeatures }

namespace Store

variable (d : Store T V I X)

/-- Every manifest that is saved gets the features of the running binary. -/
def saveSnapshot (m : SnapshotManifest) : Store T V I X :=
  { d with manifests :=
      d.manifests.insert m.snapshotId { m with writerFeatures := currentWriterFeatures } }

def loadLatestSnapshot : Option SnapshotManifest :=
  d.latest.bind fun id => d.manifests.lookup id

def flush (f : Flush V I) : Store T V I X :=
  let d := { d with
    tables := writeAll d.tables f.tables
    indexDatasets := writeAll d.indexDatasets f.indexDatasets }
  { d.saveSnapshot f.manifest with latest := some f.manifest.snapshotId }

end Store

/-- A flush publishes a new manifest, whose marks are not below those of the last. -/
structure Flush.Valid (d : Store T V I X) (f : Flush V I) : Prop where
  fresh : f.manifest.snapshotId ∉ d.manifests
  version : ∀ m ∈ d.loadLatestSnapshot, m.versionHighWaterMark ≤ f.manifest.versionHighWaterMark
  wal : ∀ m ∈ d.loadLatestSnapshot, m.walHighWaterMark ≤ f.manifest.walHighWaterMark

instance (d : Store T V I X) (f : Flush V I) : Decidable (f.Valid d) :=
  decidable_of_iff (f.manifest.snapshotId ∉ d.manifests ∧
      (∀ m ∈ d.loadLatestSnapshot, m.versionHighWaterMark ≤ f.manifest.versionHighWaterMark) ∧
      ∀ m ∈ d.loadLatestSnapshot, m.walHighWaterMark ≤ f.manifest.walHighWaterMark)
    ⟨fun h => ⟨h.1, h.2.1, h.2.2⟩, fun h => ⟨h.fresh, h.version, h.wal⟩⟩

/-- What may happen between a snapshot and its restore. A write creates the table if
    there is none. -/
inductive Change (T V I X : Type)
  | writeTable (name : String) (data : TableData V)
  | writeIndexDataset (name : String) (data : I)
  | cleanupTable (name : String)
  | cleanupIndexDataset (name : String)
  | flush (f : Flush V I)
  | saveCatalog (catalog : Catalog T X)

variable (d : Store T V I X)

def Store.change : Change T V I X → Option (Store T V I X)
  | .writeTable name data => some { d with tables := write d.tables name data }
  | .writeIndexDataset name data =>
    some { d with indexDatasets := write d.indexDatasets name data }
  | .cleanupTable name => some { d with tables := cleanup d.tables name }
  | .cleanupIndexDataset name =>
    some { d with indexDatasets := cleanup d.indexDatasets name }
  | .flush f => if f.Valid d then some (d.flush f) else none
  | .saveCatalog catalog => some { d with catalog := catalog }

def restorePointTag (snapshotId : String) : String := "uni_snapshot_" ++ snapshotId

/-- Record the version of every table and index dataset, with the catalog. -/
def captureRestorePoint (live : Catalog T X) (snapshotId : String) :
    RestorePoint T X where
  snapshotId := snapshotId
  tag := restorePointTag snapshotId
  tables := versions d.tables
  indexDatasets := versions d.indexDatasets
  indexes := live.indexes
  catalog := some live

/-- Take an explicit snapshot. The recorded versions are pinned. -/
def createSnapshot (live : Catalog T X) (f : Flush V I) : Store T V I X :=
  let d := d.flush f
  let point := captureRestorePoint d live f.manifest.snapshotId
  { d with
    tables := pinAll d.tables point.tag
    indexDatasets := pinAll d.indexDatasets point.tag
    restorePoints := d.restorePoints.insert f.manifest.snapshotId point }

/-- The labels and edge types whose indexes the rewind leaves without a matching artifact. -/
def indexesNeedingRebuild [DecidableEq X] (current : List (IndexDefinition X))
    (point : RestorePoint T X) : List String :=
  let kept (i : IndexDefinition X) := point.indexes.any fun old =>
    old.name = i.name ∧ (old.label = i.label ∧ old.config = i.config) ∧
      old.lastBuiltAt = i.lastBuiltAt
  (((current.filter fun i => ¬ kept i).map IndexDefinition.label).dedup).insertionSort (· ≤ ·)

variable (snapshot : SnapshotManifest)

/-- A row that a reader of the snapshot never sees. -/
def outside (r : Row V) : Bool :=
  snapshot.versionHighWaterMark < r.version ∨ r.version ∈ snapshot.unpublishedBulkVersions

def TableData.dropOutside (data : TableData V) : TableData V :=
  { data with rows := data.rows.filter fun r => ¬ outside snapshot r }

/-- Delete the rows outside the snapshot from one table, if it has versions. -/
def dropRowsOutside (m : Datasets (TableData V)) (table : String) :
    Datasets (TableData V) :=
  match m.lookup table with
  | none => m
  | some t =>
    if versionColumn ∉ t.data.columns then m
    else if t.data.rows.countP (outside snapshot) = 0 then m
    else m.insert table (t.commit (t.data.dropOutside snapshot))

def vertexTableName (label : String) : String := "vertices_" ++ label

def deltaTableName (edgeType direction : String) : String :=
  "deltas_" ++ edgeType ++ "_" ++ direction

def propertyTablesFor (s : Schema T) (entity : String) : List String :=
  if entity ∈ s.labels then [vertexTableName entity]
  else if entity ∈ s.edgeTypes then [deltaTableName entity "fwd", deltaTableName entity "bwd"]
  else []

/-- What the storage does when it is asked to widen the tables of an entity, as the
    writes it makes, and to rebuild the indexes of a label. -/
structure Engine (T V I X : Type) where
  widen : Bool → String → List String → List (String × T) → (String → Option (TableData V)) →
    List (String × TableData V)
  rebuildIndexesForLabel : String → Store T V I X → Store T V I X
  widen_rows : ∀ isEdgeType entity tables missing c,
    ∀ w ∈ widen isEdgeType entity tables missing c, ∃ data, c w.1 = some data ∧
      (versionColumn ∈ w.2.columns → versionColumn ∈ data.columns) ∧
      ∀ r ∈ w.2.rows, ∃ r' ∈ data.rows, r'.version = r.version

/-- The declared properties that one of the tables of an entity has no column for. -/
def missingProperties (s : Schema T) (c : String → Option (TableData V)) (entity : String)
    (declared : List (String × T)) : List (String × T) :=
  (propertyTablesFor s entity).foldl (fun missing table => match c table with
    | none => missing
    | some stored => declared.foldl (fun missing p =>
      if p.1 ∉ stored.columns ∧ p.1 ∉ missing.map Prod.fst then missing ++ [p] else missing)
      missing) []

def declaredProperties (props : AssocMap String (PropertyMeta T)) : List (String × T) :=
  (props.toList.filter fun p => p.2.state = .active).map fun p => (p.1, p.2.type)

/-- A write to a table that exists. -/
def put (c : String → Option (TableData V)) (w : String × TableData V) :
    String → Option (TableData V) :=
  fun name => if name = w.1 then (c name).map fun _ => w.2 else c name

/-- The writes that give every property table a column for each declared property. -/
def rewiden (e : Engine T V I X) (s : Schema T) :
    List (String × AssocMap String (PropertyMeta T)) → (String → Option (TableData V)) →
      List (String × TableData V)
  | [], _ => []
  | (entity, props) :: rest, c =>
    let missing := missingProperties s c entity (declaredProperties props)
    let writes := if missing.isEmpty then [] else
      e.widen (entity ∈ s.edgeTypes) entity (propertyTablesFor s entity) missing c
    writes ++ rewiden e s rest (writes.foldl put c)

def rewidenDeclaredProperties (e : Engine T V I X) (s : Schema T)
    (c : String → Option (TableData V)) : List (String × TableData V) :=
  rewiden e s s.properties.toList c

variable (live catalog : Catalog T X)

def versionAbove : Nat :=
  (max live.schema.schemaVersion catalog.schema.schemaVersion + 1) % 2 ^ 32

/-- The catalog that the rewind puts in place of the live one. -/
def restoredCatalog (snapshotCreatedAt : Nat) : Catalog T X :=
  let schema := { catalog.schema with schemaVersion := versionAbove live catalog }
  { catalog with
    schema := (schema.distrustVerificationsAfter snapshotCreatedAt).1
    -- what the running binary and this open recorded, not catalog shape
    writerFeatures := live.writerFeatures
    trustedUnmarkedManifest := live.trustedUnmarkedManifest }

/-- The contents of the snapshot with the marks of now. -/
def preparedManifest (target current : SnapshotManifest)
    (manifestId : String) (now : Nat) : SnapshotManifest :=
  { target with
    snapshotId := manifestId
    name := none
    createdAt := now
    parentSnapshot := some current.snapshotId
    schemaVersion := versionAbove live catalog
    versionHighWaterMark := current.versionHighWaterMark
    walHighWaterMark := current.walHighWaterMark }

end Storage

/-- What a restore is about. -/
structure Job (T X : Type) where
  point : RestorePoint T X
  target : SnapshotManifest
  intent : RestoreIntent

/-- How far a restore is. A loop keeps what it still has to do, and the loops over
    datasets keep the failures so far. -/
inductive Phase (V I : Type)
  | flushing (f : Flush V I) (now : Nat)
  | withdrawing (now : Nat)
  | preparing (now : Nat)
  | intending
  | rewindingTables (todo failures : List String)
  | deletingRows (todo : List String)
  | rewindingIndexDatasets (todo failures : List String)
  | widening (todo : List (String × TableData V))
  | savingCatalog
  | publishing
  | rebuilding (todo : List String)
  | finishing

/-- The process: `failed` is a restore or an open that returned an error. -/
inductive Proc (T V I X : Type)
  | down
  | failed
  | idle (live : Catalog T X)
  | busy (live : Catalog T X) (job : Job T X) (phase : Phase V I)

structure State (T V I X : Type) where
  disk : Store T V I X
  proc : Proc T V I X

inductive RestoreError
  | restoreBlockedByForks
  | onFork
  | snapshotNotFound (snapshotId : String)
  | noRestorePoint (snapshotId : String)
  | noCatalog (snapshotId : String)
  | transactionsOpen
  | bulkLoadPublishing
  deriving DecidableEq, Repr

/-- What may stand in the way of a restore. -/
structure Obstacles where
  hasForks : Bool
  onFork : Bool
  transactionsOpen : Bool
  bulkLoadPublishing : Bool

/-- A call, with the id and the time it draws and what its flush will write. -/
structure Request (V I : Type) where
  snapshotId : String
  manifestId : String
  now : Nat
  flush : Flush V I

variable {T V I X : Type} [DecidableEq X]

def restoreSnapshot (d : Store T V I X) (live : Catalog T X) (o : Obstacles) (r : Request V I) :
    Except RestoreError (State T V I X) :=
  if o.hasForks then .error .restoreBlockedByForks
  else if o.onFork then .error .onFork
  else match d.manifests.lookup r.snapshotId with
    | none => .error (.snapshotNotFound r.snapshotId)
    | some target => match d.restorePoints.lookup r.snapshotId with
      | none => .error (.noRestorePoint r.snapshotId)
      | some point => match point.catalog with
        | none => .error (.noCatalog r.snapshotId)
        | some catalog =>
          if o.transactionsOpen then .error .transactionsOpen
          else if o.bulkLoadPublishing then .error .bulkLoadPublishing
          else
            let intent := ⟨r.snapshotId, r.manifestId, indexesNeedingRebuild catalog.indexes point⟩
            .ok ⟨d, .busy live ⟨point, target, intent⟩ (.flushing r.flush r.now)⟩

omit [DecidableEq X]

/-- Open the store, which starts the rewind again if there is an intent. -/
def reopen (d : Store T V I X) : State T V I X :=
  let live := d.catalog.load
  match d.intent with
  | none => ⟨d, .idle live⟩
  | some intent =>
    match d.restorePoints.lookup intent.snapshotId, d.manifests.lookup intent.snapshotId with
    | some point, some snapshot =>
      ⟨d, .busy live ⟨point, snapshot, intent⟩ (.rewindingTables d.tables.keys [])⟩
    | _, _ => ⟨d, .failed⟩

/-- The next write of a restore. -/
def advance (e : Engine T V I X) (d : Store T V I X) (live : Catalog T X) (job : Job T X) :
    Phase V I → State T V I X
  | .flushing f now => ⟨d.flush f, .busy live job (.withdrawing now)⟩
  | .withdrawing now =>
    -- should a later step fail, the catalog has only lost trust
    let withdrawn := live.schema.distrustVerificationsAfter job.target.createdAt
    let live' := { live with schema := withdrawn.1 }
    ⟨if withdrawn.2 then { d with catalog := live' } else d, .busy live' job (.preparing now)⟩
  | .preparing now => match d.loadLatestSnapshot, job.point.catalog with
    | some current, some catalog =>
      ⟨d.saveSnapshot (preparedManifest live catalog job.target current job.intent.manifestId now),
        .busy live job .intending⟩
    | _, _ => ⟨d, .failed⟩
  | .intending =>
    ⟨{ d with intent := some job.intent }, .busy live job (.rewindingTables d.tables.keys [])⟩
  | .rewindingTables (name :: todo) failures =>
    match rewindOne job.point.tables d.tables name with
    | some tables => ⟨{ d with tables := tables }, .busy live job (.rewindingTables todo failures)⟩
    | none => ⟨d, .busy live job (.rewindingTables todo (failures ++ [name]))⟩
  | .rewindingTables [] failures =>
    if failures.isEmpty then ⟨d, .busy live job (.deletingRows job.point.tables.keys)⟩
    else ⟨d, .busy live job (.rewindingIndexDatasets d.indexDatasets.keys failures)⟩
  | .deletingRows (name :: todo) =>
    ⟨{ d with tables := dropRowsOutside job.target d.tables name },
      .busy live job (.deletingRows todo)⟩
  | .deletingRows [] => ⟨d, .busy live job (.rewindingIndexDatasets d.indexDatasets.keys [])⟩
  | .rewindingIndexDatasets (name :: todo) failures =>
    match rewindOne job.point.indexDatasets d.indexDatasets name with
    | some datasets =>
      ⟨{ d with indexDatasets := datasets },
        .busy live job (.rewindingIndexDatasets todo failures)⟩
    | none => ⟨d, .busy live job (.rewindingIndexDatasets [] (failures ++ ["index datasets"]))⟩
  | .rewindingIndexDatasets [] failures =>
    if failures.isEmpty then
      -- a point without a catalog keeps the current one
      let live' := match job.point.catalog with
        | some catalog => restoredCatalog live catalog job.target.createdAt
        | none => live
      let writes := rewidenDeclaredProperties e live'.schema (contents d.tables)
      ⟨d, .busy live' job (.widening writes)⟩
    else ⟨d, .failed⟩
  | .widening (w :: todo) =>
    ⟨{ d with tables := writeExisting d.tables w.1 w.2 }, .busy live job (.widening todo)⟩
  | .widening [] =>
    ⟨d, .busy live job (if job.point.catalog.isSome then .savingCatalog else .publishing)⟩
  | .savingCatalog => ⟨{ d with catalog := live }, .busy live job .publishing⟩
  | .publishing =>
    ⟨{ d with latest := some job.intent.manifestId },
      .busy live job (.rebuilding job.intent.rebuildIndexesFor)⟩
  | .rebuilding (label :: todo) =>
    ⟨e.rebuildIndexesForLabel label d, .busy live job (.rebuilding todo)⟩
  | .rebuilding [] => ⟨d, .busy live job .finishing⟩
  | .finishing => ⟨{ d with intent := none }, .idle live⟩

inductive Action
  | advance
  | crash
  | reopen
  deriving DecidableEq, Repr

/-- A restore with crashes and reopens. A crash takes what is in memory. -/
def step (e : Engine T V I X) (s : State T V I X) : Action → Option (State T V I X)
  | .advance => match s.proc with
    | .busy live job phase => some (advance e s.disk live job phase)
    | _ => none
  | .crash => some { s with proc := .down }
  | .reopen => match s.proc with
    | .down | .failed => some (reopen s.disk)
    | _ => none

end UniDb.Restore
