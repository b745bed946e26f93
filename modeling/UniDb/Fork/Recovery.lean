import UniDb.Fork.Registry

/-!
# Creating, Dropping and Recovering Forks

The durable steps that a fork is created, dropped and recovered with.

Creating a fork stores a pending entry, writes an id allocator file, creates
one branch for each dataset, makes the entry active and writes an overlay file.
Dropping one stores a tombstone, marks the entry, deletes the branches and the
allocator file, and then removes the entry, the tombstone and the overlay. Each
of these steps is an `Act`: it changes the store in one go, and a crash happens
between two of them.

When the database is opened, `recoverForks` finishes what a crash has cut off.
It rolls back every pending entry, finishes the drop of every marked entry, and
then sweeps the tombstone files that are left.

The calls of the registry that take more than one step are the lists of their
acts (`finishCreate_eq_acts` and the lemmas after it), so what is proved about
acts holds for the calls.

## Main definitions

* `Act`, `Act.apply`: One durable step and what it does.
* `createActs`, `dropActs`: Creating and dropping a fork.
* `rollbackActs`, `finishDropActs`: Recovering one fork.
* `recoverForks`: Recovering all forks.

## Theorems

* `finishCreate_eq_acts`, `rollbackCreate_eq_acts`, `beginDrop_eq_acts`,
  `finishDrop_eq_acts`: The calls are the lists of their acts.
-/

namespace UniDb

namespace Fork

/-- One durable step of a fork's life. -/
inductive Act
  | beginCreate (info : ForkInfo)
  | bootstrap (id : ForkId)
  | createBranch (dataset branch : String)
  | activate (id : ForkId) (name : String) (datasets : AssocMap String String)
  | putOverlay (id : ForkId) (name : String)
  | discard (name : String)
  | putTombstone (info : ForkInfo)
  | flip (name : String)
  | deleteBranch (dataset branch : String)
  | deleteArtifacts (id : ForkId)
  | clear (name : String)
  | deleteTombstone (id : ForkId)
  | reap (id : ForkId)
  deriving DecidableEq

/-- What a step does. Deleting a branch that does not exist is a success. -/
def Act.apply (io : StoreReplies) (h : ForkRegistryHandle) : Act → ForkRegistryHandle
  | beginCreate info => (h.beginCreate info io).2
  | bootstrap id =>
    { h with store := { h.store with artifacts := h.store.artifacts.insert id () } }
  | createBranch dataset branch =>
    { h with store := { h.store with branches := h.store.branches.insert (dataset, branch) () } }
  | activate _ name datasets => (h.activate name datasets io).2
  | putOverlay id name => (h.putSchemaOverlay id name io).2
  | discard name => (h.discard name io).2
  | putTombstone info => (h.putTombstone info io).2
  | flip name => (h.flip name io).2
  | deleteBranch dataset branch =>
    { h with store := { h.store with branches := h.store.branches.erase (dataset, branch) } }
  | deleteArtifacts id =>
    { h with store := { h.store with artifacts := h.store.artifacts.erase id } }
  | clear name => (h.clear name io).2
  | deleteTombstone id => h.deleteTombstone id io
  | reap id => h.reap id io

/-- Several steps, one after the other. -/
def perform (io : StoreReplies) (h : ForkRegistryHandle) (acts : List Act) : ForkRegistryHandle :=
  acts.foldl (Act.apply io) h

/-! ## The protocols -/

def forkDatasets (id : ForkId) (datasets : List String) : AssocMap String String :=
  datasets.foldl (fun m dataset => m.insert dataset (branchName id dataset)) ∅

/-- What `create_fork_2pc` does once the pending entry is stored. The captured
    datasets are branched one by one; if a restore has run since the fork point
    was captured, the entry is rolled back instead. -/
def createActs (info : ForkInfo) (datasets : List String) (restoreRace : Bool) : List Act :=
  if restoreRace then [.discard info.name, .reap info.id]
  else .bootstrap info.id ::
    datasets.map (fun dataset => .createBranch dataset (branchName info.id dataset)) ++
    [.activate info.id info.name (forkDatasets info.id datasets), .putOverlay info.id info.name]

/-- `delete_all_branches`: the branches of the dataset map are deleted. -/
def deleteAllBranches (info : ForkInfo) : List Act :=
  info.datasets.toList.map fun e => .deleteBranch e.1 e.2

/-- The end of a drop: the branches and artifacts, then `finishDrop`. The
    tombstone goes after everything that it stands for. -/
def finishDropActs (info : ForkInfo) : List Act :=
  deleteAllBranches info ++
    [.deleteArtifacts info.id, .clear info.name, .deleteTombstone info.id, .reap info.id]

/-- `drop_fork`, from the tombstone on. -/
def dropActs (info : ForkInfo) : List Act :=
  .putTombstone info :: .flip info.name :: finishDropActs info

/-- `rollback_branches`: a pending entry does not list its branches yet, so the
    name of each branch that may exist is made up from the candidate datasets. -/
def rollbackBranches (candidates : List String) (info : ForkInfo) : List Act :=
  (if info.datasets.entries = [] then [] else deleteAllBranches info) ++
    candidates.map fun dataset => .deleteBranch dataset (branchName info.id dataset)

/-- The recovery of a pending entry. -/
def rollbackActs (candidates : List String) (info : ForkInfo) : List Act :=
  rollbackBranches candidates info ++ [.discard info.name, .reap info.id]

/-- Recovering all forks of an opened database, with every request taking
    effect. Returns the handle and the number of forks that were reconciled. -/
def recoverForks (candidates : List String) (h : ForkRegistryHandle) : ForkRegistryHandle × Nat :=
  let pending := h.withStatus .pending
  let h := pending.foldl (fun h info => perform .good h (rollbackActs candidates info)) h
  let tombstoned := h.withStatus .tombstoned
  let h := tombstoned.foldl (fun h info => perform .good h (finishDropActs info)) h
  let orphans := h.listTombstones
  let h := orphans.foldl (fun h info => perform .good h (finishDropActs info)) h
  (h, pending.length + tombstoned.length + orphans.length)

/-! ## The calls and their steps -/

variable (io : StoreReplies) (h : ForkRegistryHandle) {name : String}

/-- A call that succeeds has taken the steps `activate` and `putOverlay`. -/
theorem finishCreate_eq_acts {datasets : AssocMap String String}
    {entry : ForkInfo} (hentry : h.cache.lookup name = some entry) (hio : io.registry = true) :
    (h.finishCreate name datasets io).2 =
      perform io h [.activate entry.id name datasets, .putOverlay entry.id name] := by
  simp only [ForkRegistryHandle.finishCreate, perform, List.foldl_cons, List.foldl_nil, Act.apply,
    ForkRegistryHandle.activate, ForkRegistryHandle.putRegistry, hentry, hio, if_true]
  unfold ForkRegistryHandle.putSchemaOverlay
  cases io.overlay <;> rfl

theorem rollbackCreate_eq_acts {entry : ForkInfo}
    (hentry : h.cache.lookup name = some entry) (hio : io.registry = true) :
    (h.rollbackCreate name io).2 = perform io h [.discard name, .reap entry.id] := by
  simp [ForkRegistryHandle.rollbackCreate, perform, Act.apply, ForkRegistryHandle.discard,
    ForkRegistryHandle.putRegistry, hentry, hio]

theorem beginDrop_eq_acts {info : ForkInfo} (hinfo : h.cache.lookup name = some info)
    (hfree : h.holderCount info.id = 0) (hio : io.tombstone = true) :
    (h.beginDrop name io).2 = perform io h [.putTombstone info, .flip name] := by
  simp only [ForkRegistryHandle.beginDrop, ForkRegistryHandle.get, perform, List.foldl_cons,
    List.foldl_nil, Act.apply, ForkRegistryHandle.putTombstone, hinfo, hfree, Nat.lt_irrefl,
    if_false, hio, if_true]
  generalize ForkRegistryHandle.flip _ name io = r
  rcases r with ⟨_ | _, _⟩ <;> rfl

theorem finishDrop_eq_acts (info : ForkInfo) (hio : io.registry = true) : (h.finishDrop info io).2 =
      perform io h [.clear info.name, .deleteTombstone info.id, .reap info.id] := by
  simp [ForkRegistryHandle.finishDrop, perform, Act.apply, ForkRegistryHandle.clear,
    ForkRegistryHandle.putRegistry, hio]

end Fork

end UniDb
