import UniDb.Lib.AssocMap

/-!
# The Fork Registry

The registry of named forks, its files, and the calls that change it.

A `ForkRegistryHandle` keeps the registry in memory and writes all of it to one
object whenever it changes. Creating and dropping a fork take several calls:
`beginCreate` stores the fork as pending and `finishCreate` makes it active;
`beginDrop` stores a tombstone and marks the entry, `finishDrop` removes both.
Branches, the id allocator file and the write-ahead log of a fork are other
objects, created and deleted by the callers between these calls.

Every write may fail. `StoreReplies` says how the store answers each request of
a call, so that a call is a function of the handle and the replies, and its
result is the answer together with the handle that it leaves behind, also when
the answer is an error.

A call holds the lock of the registry in memory only for a part of its work.
Those parts are definitions of their own (`activate`, `discard`, `flip`,
`clear`), because other calls may run between them and the rest.

## Main definitions

* `ForkInfo`, `ForkStatus`: An entry of the registry.
* `ForkStore`: The objects that the store holds.
* `ForkRegistryHandle`: The registry in memory over the store.
* `beginCreate`, `finishCreate`, `rollbackCreate`, `beginDrop`, `finishDrop`,
  `registerDatasetBranch`: The calls.

## Theorems

* `branchName_injective`: No two forks have a branch name in common.
* `beginCreate_ok`, `beginCreate_error`, `activate_ok`, `activate_error`: What
  an answer says about the handle.
-/

namespace UniDb

open Prod

namespace Fork

/-- The id of a fork. Ids are fresh for every fork and become part of the names
    of its branches and files. -/
structure ForkId where
  text : String
  deriving DecidableEq, Repr

inductive ForkStatus
  | pending
  | active
  | tombstoned
  deriving DecidableEq, Repr

/-- An entry of the registry. `datasets` maps each dataset that the fork has
    branched to the name of the branch. -/
structure ForkInfo where
  id : ForkId
  name : String
  parentForkId : Option ForkId
  datasets : AssocMap String String
  status : ForkStatus
  deriving DecidableEq

/-- An entry for a fork that is being created. -/
def ForkInfo.newPending (id : ForkId) (name : String) (parentForkId : Option ForkId) : ForkInfo :=
  ⟨id, name, parentForkId, ∅, .pending⟩

def branchName (id : ForkId) (dataset : String) : String :=
  "fork_" ++ id.text ++ "_" ++ dataset

/-- A branch of a dataset belongs to at most one fork. -/
theorem branchName_injective {id id' : ForkId} {dataset : String}
    (h : branchName id dataset = branchName id' dataset) : id = id' := by
  cases id
  cases id'
  simpa [branchName] using h

inductive ForkError
  | alreadyExists (name : String)
  | budgetExceeded (current max : Nat)
  | notFound (name : String)
  | inUse (name : String) (holderCount : Nat)
  | lifecycle (name stage : String)
  | corruptRegistry (message : String)
  deriving DecidableEq, Repr

/-- The objects that a database keeps about its forks: the registry file, one
    tombstone file and one schema overlay file per fork, the id allocator file
    of each fork (`artifacts`), and the branches of its datasets. -/
structure ForkStore where
  registry : AssocMap String ForkInfo
  tombstones : AssocMap ForkId ForkInfo
  overlays : AssocSet ForkId
  artifacts : AssocSet ForkId
  branches : AssocSet (String × String)

/-- How the store answers the requests of a call: whether each kind of request
    takes effect. A request that is refused changes nothing. -/
structure StoreReplies where
  registry : Bool := true
  overlay : Bool := true
  tombstone : Bool := true
  deleteTombstone : Bool := true
  deleteOverlay : Bool := true
  deriving DecidableEq, Repr

/-- Every request takes effect. -/
def StoreReplies.good : StoreReplies := {}

/-- The registry in memory (`cache`), over the store. `holders` counts the live
    sessions of each fork. -/
structure ForkRegistryHandle where
  store : ForkStore
  cache : AssocMap String ForkInfo
  holders : AssocMap ForkId Nat
  maxForks : Option Nat

namespace ForkRegistryHandle

/-- Opening the registry reads the file. -/
def load (store : ForkStore) (maxForks : Option Nat) : ForkRegistryHandle :=
  ⟨store, store.registry, ∅, maxForks⟩

def get (h : ForkRegistryHandle) (name : String) : Except ForkError ForkInfo :=
  match h.cache.lookup name with
  | some info => .ok info
  | none => .error (.notFound name)

def withStatus (h : ForkRegistryHandle) (status : ForkStatus) : List ForkInfo :=
  (h.cache.toList.map snd).filter fun info => info.status = status

def listChildren (h : ForkRegistryHandle) (parent : ForkId) : List ForkInfo :=
  (h.cache.toList.map snd).filter fun info => info.parentForkId = some parent

/-- The tombstone files, in the order in which the store lists them. -/
def listTombstones (h : ForkRegistryHandle) : List ForkInfo :=
  h.store.tombstones.toList.map snd

def holderCount (h : ForkRegistryHandle) (id : ForkId) : Nat :=
  (h.holders.lookup id).getD 0

/-! ## Requests to the store -/

/-- Replace the registry file by the registry in memory. -/
def putRegistry (h : ForkRegistryHandle) (name stage : String) (io : StoreReplies) :
    Except ForkError Unit × ForkRegistryHandle :=
  if io.registry then (.ok (), { h with store := { h.store with registry := h.cache } })
  else (.error (.lifecycle name stage), h)

/-- The overlay of a new fork is empty, so only its presence is kept. -/
def putSchemaOverlay (h : ForkRegistryHandle) (id : ForkId) (name : String) (io : StoreReplies) :
    Except ForkError Unit × ForkRegistryHandle :=
  if io.overlay then
    (.ok (), { h with store := { h.store with overlays := h.store.overlays.insert id () } })
  else (.error (.lifecycle name "schema_overlay"), h)

def putTombstone (h : ForkRegistryHandle) (info : ForkInfo) (io : StoreReplies) :
    Except ForkError Unit × ForkRegistryHandle :=
  if io.tombstone then
    (.ok (), { h with store :=
      { h.store with tombstones := h.store.tombstones.insert info.id info } })
  else (.error (.lifecycle info.name "tombstone"), h)

/-- A tombstone file that cannot be deleted is logged and left behind. -/
def deleteTombstone (h : ForkRegistryHandle) (id : ForkId) (io : StoreReplies) :
    ForkRegistryHandle :=
  if io.deleteTombstone then
    { h with store := { h.store with tombstones := h.store.tombstones.erase id } }
  else h

def deleteSchemaOverlay (h : ForkRegistryHandle) (id : ForkId) (io : StoreReplies) :
    ForkRegistryHandle :=
  if io.deleteOverlay then
    { h with store := { h.store with overlays := h.store.overlays.erase id } }
  else h

/-- Delete the overlay of a fork that is gone and forget its holder counter. -/
def reap (h : ForkRegistryHandle) (id : ForkId) (io : StoreReplies) : ForkRegistryHandle :=
  { h.deleteSchemaOverlay id io with holders := h.holders.erase id }

/-! ## The calls -/

/-- Insert a pending entry. -/
def beginCreate (h : ForkRegistryHandle) (info : ForkInfo) (io : StoreReplies) :
    Except ForkError Unit × ForkRegistryHandle :=
  if info.name ∈ h.cache then (.error (.alreadyExists info.name), h)
  else
    let inserted := { h with cache := h.cache.insert info.name info }
    match h.maxForks with
    | some cap =>
      if cap ≤ h.cache.keys.length then (.error (.budgetExceeded h.cache.keys.length cap), h)
      else inserted.putRegistry info.name "registry_pending" io
    | none => inserted.putRegistry info.name "registry_pending" io

/-- The part of `finishCreate` under the lock: the entry becomes active. -/
def activate (h : ForkRegistryHandle) (name : String) (datasets : AssocMap String String)
    (io : StoreReplies) : Except ForkError ForkId × ForkRegistryHandle :=
  match h.cache.lookup name with
  | none => (.error (.notFound name), h)
  | some entry =>
    let entry := { entry with datasets := datasets, status := .active }
    match putRegistry { h with cache := h.cache.insert name entry } name "registry_active" io with
    | (.error e, h) => (.error e, h)
    | (.ok (), h) => (.ok entry.id, h)

/-- Promote a fork to active and write its empty schema overlay. -/
def finishCreate (h : ForkRegistryHandle) (name : String) (datasets : AssocMap String String)
    (io : StoreReplies) : Except ForkError ForkInfo × ForkRegistryHandle :=
  match h.activate name datasets io with
  | (.error e, h) => (.error e, h)
  | (.ok id, h) => match h.putSchemaOverlay id name io with
    | (.error e, h) => (.error e, h)
    | (.ok (), h) => (h.get name, h)

/-- The part of `rollbackCreate` under the lock: the entry is removed. -/
def discard (h : ForkRegistryHandle) (name : String) (io : StoreReplies) :
    Except ForkError (Option ForkId) × ForkRegistryHandle :=
  let id := (h.cache.lookup name).map ForkInfo.id
  match putRegistry { h with cache := h.cache.erase name } name "registry_pending" io with
  | (.error e, h) => (.error e, h)
  | (.ok (), h) => (.ok id, h)

/-- Roll a pending entry back. -/
def rollbackCreate (h : ForkRegistryHandle) (name : String) (io : StoreReplies) :
    Except ForkError Unit × ForkRegistryHandle :=
  match h.discard name io with
  | (.error e, h) => (.error e, h)
  | (.ok none, h) => (.ok (), h)
  | (.ok (some id), h) => (.ok (), h.reap id io)

/-- The last part of `beginDrop`: the entry, if there is one, is marked. -/
def flip (h : ForkRegistryHandle) (name : String) (io : StoreReplies) :
    Except ForkError Unit × ForkRegistryHandle :=
  match h.cache.lookup name with
  | none => (.ok (), h)
  | some entry =>
    putRegistry { h with cache := h.cache.insert name { entry with status := .tombstoned } }
      name "tombstone" io

/-- Write the tombstone of a fork that nobody holds and mark its entry. -/
def beginDrop (h : ForkRegistryHandle) (name : String) (io : StoreReplies) :
    Except ForkError ForkInfo × ForkRegistryHandle :=
  match h.get name with
  | .error e => (.error e, h)
  | .ok info =>
    if 0 < h.holderCount info.id then (.error (.inUse info.name (h.holderCount info.id)), h)
    else match h.putTombstone info io with
      | (.error e, h) => (.error e, h)
      | (.ok (), h) => match h.flip name io with
        | (.error e, h) => (.error e, h)
        | (.ok (), h) => (.ok info, h)

/-- The part of `finishDrop` under the lock. The entry is removed by its name. -/
def clear (h : ForkRegistryHandle) (name : String) (io : StoreReplies) :
    Except ForkError Unit × ForkRegistryHandle :=
  putRegistry { h with cache := h.cache.erase name } name "registry_clear" io

/-- Remove the entry of a dropped fork, then its tombstone and overlay files. -/
def finishDrop (h : ForkRegistryHandle) (info : ForkInfo) (io : StoreReplies) :
    Except ForkError Unit × ForkRegistryHandle :=
  match h.clear info.name io with
  | (.error e, h) => (.error e, h)
  | (.ok (), h) => (.ok (), (h.deleteTombstone info.id io).reap info.id io)

/-- The entry of a fork id, with the name that the registry keeps it under. -/
def findById (h : ForkRegistryHandle) (id : ForkId) : Option (String × ForkInfo) :=
  h.cache.toList.find? fun e => e.2.id = id

/-- Record a branch that was created after the fork point. -/
def registerDatasetBranch (h : ForkRegistryHandle) (id : ForkId) (dataset branch : String)
    (io : StoreReplies) : Except ForkError Unit × ForkRegistryHandle :=
  match h.findById id with
  | none => (.error (.notFound ("<fork:" ++ id.text ++ ">")), h)
  | some (key, entry) => match entry.datasets.lookup dataset with
    | some existing =>
      if existing = branch then (.ok (), h)
      else (.error (.corruptRegistry
        ("register_dataset_branch: dataset '" ++ dataset ++ "' already maps to '" ++ existing ++
          "', refusing to overwrite with '" ++ branch ++ "'")), h)
    | none =>
      let entry := { entry with datasets := entry.datasets.insert dataset branch }
      putRegistry { h with cache := h.cache.insert key entry } entry.name
        "registry_dynamic_branch" io

end ForkRegistryHandle

/-! ## Answers -/

variable {h h' : ForkRegistryHandle} {info : ForkInfo}

theorem beginCreate_ok (hok : h.beginCreate info .good = (.ok (), h')) :
    h.cache.lookup info.name = none ∧ h' =
      { h with
        store := { h.store with registry := h.cache.insert info.name info }
        cache := h.cache.insert info.name info } := by
  unfold ForkRegistryHandle.beginCreate at hok
  split at hok
  · cases hok
  · next hname =>
    refine ⟨AssocMap.notMem_iff_lookup.mp hname, ?_⟩
    have hput : ∀ g : ForkRegistryHandle, g.putRegistry info.name "registry_pending" .good =
        (.ok (), { g with store := { g.store with registry := g.cache } }) := fun _ => rfl
    simp only [hput] at hok
    split at hok
    · split at hok
      · cases hok
      · exact (mk.inj hok).2.symm
    · exact (mk.inj hok).2.symm

theorem beginCreate_error {e : ForkError} (herror : h.beginCreate info .good = (.error e, h')) :
    h' = h := by
  unfold ForkRegistryHandle.beginCreate at herror
  split at herror
  · exact (mk.inj herror).2.symm
  · simp only [ForkRegistryHandle.putRegistry, StoreReplies.good, if_true] at herror
    split at herror
    · split at herror
      · exact (mk.inj herror).2.symm
      · cases herror
    · cases herror

variable {name : String}

theorem get_ok (hget : h.get name = .ok info) : h.cache.lookup name = some info := by
  unfold ForkRegistryHandle.get at hget
  split at hget
  · next hlook =>
    cases hget
    exact hlook
  · cases hget

variable {datasets : AssocMap String String}

theorem activate_ok {id : ForkId} (hok : h.activate name datasets .good = (.ok id, h')) :
    ∃ e, h.cache.lookup name = some e ∧ e.id = id ∧ h'.holders = h.holders ∧
      h'.cache = h.cache.insert name { e with datasets := datasets, status := .active } := by
  unfold ForkRegistryHandle.activate at hok
  split at hok
  · cases hok
  · next e he =>
    simp only [ForkRegistryHandle.putRegistry, StoreReplies.good, if_true] at hok
    cases hok
    exact ⟨e, he, rfl, rfl, rfl⟩

theorem activate_error {e : ForkError} (herror : h.activate name datasets .good = (.error e, h')) :
    h' = h := by
  unfold ForkRegistryHandle.activate at herror
  split at herror
  · cases herror
    rfl
  · simp only [ForkRegistryHandle.putRegistry, StoreReplies.good, if_true] at herror
    cases herror

theorem flip_of_lookup {e : ForkInfo} (he : h.cache.lookup name = some e) :
    (h.flip name .good).2.cache = h.cache.insert name { e with status := .tombstoned } ∧
      (h.flip name .good).2.holders = h.holders := by
  simp [ForkRegistryHandle.flip, he, ForkRegistryHandle.putRegistry, StoreReplies.good]

theorem cache_rollbackCreate (h : ForkRegistryHandle) (name : String) :
    (h.rollbackCreate name .good).2.cache = h.cache.erase name := by
  simp only [ForkRegistryHandle.rollbackCreate, ForkRegistryHandle.discard,
    ForkRegistryHandle.putRegistry, StoreReplies.good, if_true]
  cases h.cache.lookup name <;> rfl

end Fork

end UniDb
