import UniDb.Lib.Numbering

/-!
# The Schema

Declared labels and edge types, the schemaless edge types, and the additions that
a fork lays over the schema of primary.

A declared label or edge type gets the number after the largest one of its kind.
Schemaless edge types are numbered by a counter of their own, above all declared
ones. A fork keeps its additions in a `SchemaDelta`; `withOverlay` lays them over
the schema that primary has when the fork is opened.

## Main definitions

* `Schema`, `SchemaDelta`: A schema and the additions of a fork.
* `addLabelWithDesc`, `addEdgeTypeWithDesc`: Declare a label or an edge type.
* `edgeTypeNameById`, `edgeTypeIdByName`: The two directions of a lookup.
* `distrustVerificationsAfter`: Withdraw verifications of edge endpoints.
* `withOverlay`: The schema of a fork.

## Theorems

* `declared_withOverlay`: What the fork declares is laid over what primary declares.
-/

namespace UniDb

structure LabelMeta where
  id : Nat
  description : Option String
  deriving DecidableEq, Repr

/-- What is known about the endpoints of the stored edges of a type. -/
inductive EndpointConformance
  | unverified
  | enforced
  | verified (time : Nat)
  deriving DecidableEq, Repr

def EndpointConformance.verifiedAfter (time : Nat) : EndpointConformance → Bool
  | .verified t => time < t
  | _ => false

structure EdgeTypeMeta where
  id : Nat
  srcLabels : List String
  dstLabels : List String
  description : Option String
  endpointConformance : EndpointConformance
  deriving DecidableEq, Repr

/-- Whether a schema element is in use, hidden or dropped. -/
inductive SchemaElementState
  | active
  | hidden (since : Nat) (lastActiveSnapshot : String)
  | tombstone (since : Nat)
  deriving DecidableEq, Repr

/-- A property with a type of `T`. -/
structure PropertyMeta (T : Type) where
  type : T
  nullable : Bool
  addedIn : Nat
  state : SchemaElementState
  deriving DecidableEq, Repr

structure SchemalessEdgeTypeRegistry where
  nameToId : AssocMap String Nat
  idToName : AssocMap Nat String
  nextLocalId : Nat

/-- The id of a schemaless edge type has the highest bit set. -/
def makeSchemalessId (localId : Nat) : Nat := 0x80000000 + localId

/-- The number of a schemaless edge type, a new one if it has none. -/
def SchemalessEdgeTypeRegistry.getOrAssignId (r : SchemalessEdgeTypeRegistry) (name : String) :
    SchemalessEdgeTypeRegistry :=
  match r.nameToId.lookup name with
  | some _ => r
  | none =>
    let id := makeSchemalessId r.nextLocalId
    { nameToId := r.nameToId.insert name id
      idToName := r.idToName.insert id name
      nextLocalId := r.nextLocalId + 1 }

/-- `schemaVersion` is a 32-bit number that wraps around. -/
structure Schema (T : Type) where
  schemaVersion : Nat
  labels : AssocMap String LabelMeta
  edgeTypes : AssocMap String EdgeTypeMeta
  properties : AssocMap String (AssocMap String (PropertyMeta T))
  schemalessRegistry : SchemalessEdgeTypeRegistry

inductive SchemaError
  | invalidName (kind name : String)
  | alreadyExists (kind name : String)
  | exhausted (kind : String) (id : Nat)
  deriving DecidableEq, Repr

/-- The ids from here on are reserved. -/
def virtualLabelIdStart : Nat := 0xFF00

def virtualEdgeTypeIdStart : Nat := 0x7FFFFF00

namespace Schema

variable {T : Type}

def empty : Schema T := ⟨1, ∅, ∅, ∅, ⟨∅, ∅, 1⟩⟩

def bumpVersion (s : Schema T) : Schema T :=
  { s with schemaVersion := (s.schemaVersion + 1) % 2 ^ 32 }

/-- `valid` says which names can be part of a path. -/
def addLabelWithDesc (valid : String → Bool) (s : Schema T) (name : String)
    (description : Option String) : Except SchemaError (LabelMeta × Schema T) :=
  if ¬ valid name then .error (.invalidName "Label" name)
  else if name ∈ s.labels then .error (.alreadyExists "Label" name)
  else
    let id := maxNum LabelMeta.id s.labels + 1
    if virtualLabelIdStart ≤ id then .error (.exhausted "Label" id)
    else
      let label : LabelMeta := ⟨id, description⟩
      .ok (label, bumpVersion { s with labels := s.labels.insert name label })

def addEdgeTypeWithDesc (valid : String → Bool) (s : Schema T) (name : String)
    (srcLabels dstLabels : List String) (description : Option String) :
    Except SchemaError (EdgeTypeMeta × Schema T) :=
  if ¬ valid name then .error (.invalidName "Edge type" name)
  else if name ∈ s.edgeTypes then .error (.alreadyExists "Edge type" name)
  else
    let id := maxNum EdgeTypeMeta.id s.edgeTypes + 1
    if virtualEdgeTypeIdStart ≤ id then .error (.exhausted "Edge type" id)
    else
      -- the name may already label edges that nobody has checked
      let conformance := if name ∈ s.schemalessRegistry.nameToId then
        EndpointConformance.unverified else .enforced
      let edgeType : EdgeTypeMeta := ⟨id, srcLabels, dstLabels, description, conformance⟩
      .ok (edgeType, bumpVersion { s with edgeTypes := s.edgeTypes.insert name edgeType })

def labelIdByName (s : Schema T) (name : String) : Option Nat :=
  (s.labels.lookup name).map LabelMeta.id

def edgeTypeNameById (s : Schema T) (id : Nat) : Option String :=
  keyOf EdgeTypeMeta.id s.edgeTypes id

def edgeTypeIdByName (s : Schema T) (name : String) : Option Nat :=
  (s.edgeTypes.lookup name).map EdgeTypeMeta.id

/-- Withdraw the endpoint verifications that are recorded after a time, and say
    whether there were any. -/
def distrustVerificationsAfter (s : Schema T) (time : Nat) : Schema T × Bool :=
  let stale (e : EdgeTypeMeta) := e.endpointConformance.verifiedAfter time
  if s.edgeTypes.toList.any fun e => stale e.2 then
    let distrust (_ : String) (e : EdgeTypeMeta) : Option EdgeTypeMeta :=
      some (if stale e then { e with endpointConformance := .unverified } else e)
    ({ s with edgeTypes := s.edgeTypes.filterMapVal distrust }, true)
  else (s, false)

/-- Give an edge type a schemaless number, unless it is known. -/
def getOrAssignEdgeTypeId (s : Schema T) (name : String) : Schema T :=
  if name ∈ s.edgeTypes ∨ name ∈ s.schemalessRegistry.nameToId then s
  else bumpVersion { s with schemalessRegistry := s.schemalessRegistry.getOrAssignId name }

end Schema

structure PropertyAddition (T : Type) where
  owner : String
  property : String
  dataType : T
  nullable : Bool

/-- The additions of a fork. -/
structure SchemaDelta (T : Type) where
  addedLabels : List (String × LabelMeta)
  addedEdgeTypes : List (String × EdgeTypeMeta)
  addedProperties : List (PropertyAddition T)
  addedSchemalessEdgeTypes : List String

namespace SchemaDelta

variable {T : Type}

def empty : SchemaDelta T := ⟨[], [], [], []⟩

def isEmpty (d : SchemaDelta T) : Bool :=
  d.addedLabels.isEmpty && d.addedEdgeTypes.isEmpty && d.addedProperties.isEmpty &&
    d.addedSchemalessEdgeTypes.isEmpty

end SchemaDelta

namespace Schema

variable {T : Type}

def addProperty (s : Schema T) (a : PropertyAddition T) : Schema T :=
  { s with properties :=
      s.properties.insert₂ a.owner a.property ⟨a.dataType, a.nullable, s.schemaVersion, .active⟩ }

/-- The additions of a fork laid over the schema of primary. Labels and edge types keep the numbers
    that the fork gave them; schemaless edge types get new ones. -/
def withOverlay (primary : Schema T) (overlay : SchemaDelta T) : Schema T :=
  if overlay.isEmpty then primary
  else
    let merged : Schema T := { primary with
      labels := insertAll primary.labels overlay.addedLabels
      edgeTypes := insertAll primary.edgeTypes overlay.addedEdgeTypes }
    let merged := overlay.addedProperties.foldl addProperty merged
    overlay.addedSchemalessEdgeTypes.foldl getOrAssignEdgeTypeId merged

/-- Properties and schemaless edge types leave the declarations alone. -/
theorem declared_foldl {β : Type} {f : Schema T → β → Schema T}
    (hf : ∀ s b, (f s b).labels = s.labels ∧ (f s b).edgeTypes = s.edgeTypes) (bs : List β)
    (s : Schema T) : (bs.foldl f s).labels = s.labels ∧ (bs.foldl f s).edgeTypes = s.edgeTypes := by
  induction bs generalizing s with
  | nil => exact ⟨rfl, rfl⟩
  | cons b bs ih =>
    rw [List.foldl_cons, (ih (f s b)).1, (ih (f s b)).2]
    exact hf s b

theorem declared_getOrAssignEdgeTypeId (s : Schema T) (name : String) :
    (s.getOrAssignEdgeTypeId name).labels = s.labels ∧
      (s.getOrAssignEdgeTypeId name).edgeTypes = s.edgeTypes := by
  unfold getOrAssignEdgeTypeId
  split <;> exact ⟨rfl, rfl⟩

variable (primary : Schema T) (overlay : SchemaDelta T)

theorem declared_withOverlay :
    (primary.withOverlay overlay).labels = insertAll primary.labels overlay.addedLabels ∧
      (primary.withOverlay overlay).edgeTypes =
        insertAll primary.edgeTypes overlay.addedEdgeTypes := by
  unfold withOverlay
  split
  · next hempty =>
    simp only [SchemaDelta.isEmpty, Bool.and_eq_true, List.isEmpty_iff] at hempty
    rw [hempty.1.1.1, hempty.1.1.2]
    exact ⟨rfl, rfl⟩
  · simp only [(declared_foldl declared_getOrAssignEdgeTypeId _ _).1,
      (declared_foldl declared_getOrAssignEdgeTypeId _ _).2,
      (declared_foldl (f := addProperty) (fun _ _ => ⟨rfl, rfl⟩) _ _).1,
      (declared_foldl (f := addProperty) (fun _ _ => ⟨rfl, rfl⟩) _ _).2, and_self]

end Schema

end UniDb
