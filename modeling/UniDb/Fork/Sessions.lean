import UniDb.Fork.Registry
import UniDb.Lib.Run

/-!
# Sessions and Forks

Opening, creating and dropping forks by name, while sessions come and go.

A session is on primary or on a fork. `fork(name)` on a session opens the fork
with that name, or creates it with the session's fork as its parent; the session
is borrowed until the call returns. A session on a fork makes a guard that the
registry counts. `drop_fork(name)` refuses a fork that has children, waits for
its guards to go, refuses it if some are left, and removes it.

A guard can outlive the session that made it. The storage of a fork is built on the
storage of the session that opened the fork first, and it has the guards of both in
it. All sessions on a fork share that storage, so a guard is there until the last
session is closed whose storage has it.

Both calls hold the lock of the name from beginning to end, so at most one call
runs under a name. Calls under different names run at the same time: a step of
the system is one access to the registry by one of them.

## Main definitions

* `Call`: A running call and how far it has come.
* `Uni`: The registry, the live sessions and the running calls.
* `Uni.step`: What can happen next.
-/

namespace UniDb

namespace Fork

/-- A guard for a fork, with the number of the session that it was made for. -/
structure Guard where
  session : Nat
  fork : ForkId
  deriving DecidableEq, Repr

/-- A session and the fork that it is on, `none` for primary, with the guards that
    its storage has. -/
structure Session where
  id : Nat
  fork : Option ForkId
  storage : List Guard
  deriving DecidableEq, Repr

/-- The session's own guard, and those of its storage. -/
def Session.guards (x : Session) : List Guard :=
  (x.fork.map (Guard.mk x.id)).toList ++ x.storage

namespace ForkRegistryHandle

/-- A new guard for a fork. -/
def registerHolder (h : ForkRegistryHandle) (id : ForkId) : ForkRegistryHandle :=
  { h with holders := h.holders.insert id (h.holderCount id + 1) }

/-- A guard is dropped. It counts down the counter it was made with, which is
    not in the map any more if the fork was reaped. -/
def releaseHolder (h : ForkRegistryHandle) (id : ForkId) : ForkRegistryHandle :=
  match h.holders.lookup id with
  | some count => { h with holders := h.holders.insert id (count - 1) }
  | none => h

end ForkRegistryHandle

/-- How far `fork(name)` has come. -/
inductive BuildPhase
  | start
  /-- The name is not in the registry. -/
  | create
  /-- The entry is stored as pending. -/
  | created (id : ForkId)
  /-- The entry is active, and its overlay is to be written. -/
  | activated (id : ForkId)
  /-- The creation has failed. -/
  | rollback (id : ForkId)
  /-- The entry is removed again. -/
  | discarded (id : ForkId)
  /-- The fork exists. -/
  | found (info : ForkInfo)
  /-- The session has its guard. -/
  | opened (session : Session)

/-- How far `drop_fork(name)` has come. -/
inductive DropPhase
  | start
  | preview (info : ForkInfo)
  /-- The fork has been seen without children. -/
  | childless (info : ForkInfo)
  /-- `begin_drop` has read the entry. -/
  | entered (info : ForkInfo)
  /-- The fork has been seen without holders. -/
  | unheld (info : ForkInfo)
  /-- The tombstone is stored. -/
  | entombed (info : ForkInfo)
  /-- The entry is tombstoned. -/
  | flipped (info : ForkInfo)
  /-- The entry is removed. -/
  | cleared (info : ForkInfo)

inductive Call
  | build (parent : Session) (mustCreate : Bool) (phase : BuildPhase)
  | drop (phase : DropPhase)

namespace Call

/-- The call is about to return this session. -/
def opens : Call → Option Session
  | .build _ _ (.opened x) => some x
  | _ => none

/-- The call borrows the session, or is about to return it. -/
def uses (x : Session) : Call → Bool
  | .build parent _ (.opened y) => parent = x || y = x
  | .build parent _ _ => parent = x
  | .drop _ => false

end Call

/-- `guards` are those that are not dropped yet. `calls` has the call that holds the lock of each
    name. `ids` are the fork ids that have been given out. -/
structure Uni where
  handle : ForkRegistryHandle
  sessions : List Session
  guards : List Guard
  calls : AssocMap String Call
  ids : List ForkId

/-- What a call gets from its surroundings: whether the work between two accesses to the registry
    succeeds, the id of a new fork, its branches, and the number of a new session. -/
structure Reply where
  ok : Bool := true
  id : ForkId := ⟨""⟩
  datasets : AssocMap String String := ∅
  session : Nat := 0

inductive UniAction
  | session (id : Nat)
  | close (x : Session)
  | fork (parent : Session) (name : String) (mustCreate : Bool)
  | dropFork (name : String)
  | next (name : String) (reply : Reply)

namespace Uni

/-- A database with the forks that the store has, without sessions. -/
def start (store : ForkStore) (maxForks : Option Nat) : Uni :=
  ⟨.load store maxForks, [], [], ∅, store.registry.toList.map fun e => e.2.id⟩

/-- A session with this number is live. -/
def known (s : Uni) (id : Nat) : Bool := s.sessions.any fun x => x.id = id

/-- The session is borrowed by a running call, or not returned yet. -/
def busy (s : Uni) (x : Session) : Bool := s.calls.toList.any fun c => c.2.uses x

/-- The session is not returned yet. -/
def opening (s : Uni) (x : Session) : Bool := s.calls.toList.any fun c => c.2.opens = some x

/-- Some other session than this one has the guard. -/
def keeps (s : Uni) (x : Session) (g : Guard) : Bool :=
  (s.sessions.erase x).any fun y => g ∈ y.guards

/-- A session ends, and with it the guards that no other session has. -/
def release (s : Uni) (x : Session) : Uni :=
  { s with
    handle := (s.guards.filter fun g => !s.keeps x g).foldl
      (fun h g => h.releaseHolder g.fork) s.handle
    sessions := s.sessions.erase x
    guards := s.guards.filter (s.keeps x) }

/-- The guards in the storage of a session that opens a fork: the storage of the fork's other
    sessions, or a new one on that of the session that made the call. -/
def storageFor (s : Uni) (parent : Session) (g : Guard) : List Guard :=
  match s.sessions.find? fun y => y.fork = some g.fork with
  | some y => y.storage
  | none => g :: parent.storage

/-- The call under the name goes on. -/
def goto (s : Uni) (name : String) (c : Call) : Uni := { s with calls := s.calls.insert name c }

/-- The call under the name returns and unlocks it. -/
def done (s : Uni) (name : String) : Uni := { s with calls := s.calls.erase name }

/-- The next step of `fork(name)`. -/
def build (s : Uni) (name : String) (parent : Session) (mustCreate : Bool) (reply : Reply) :
    BuildPhase → Option Uni
  | .start => match s.handle.get name with
    | .error _ => some (s.goto name (.build parent mustCreate .create))
    | .ok info =>
      -- a pending or tombstoned fork cannot be opened
      if mustCreate ∨ info.status ≠ .active then some (s.done name)
      else some (s.goto name (.build parent mustCreate (.found info)))
  | .create =>
    -- the parent is flushed and its state captured first, which may fail
    if ¬ reply.ok then some (s.done name)
    else if reply.id ∈ s.ids then none
    else match s.handle.beginCreate (.newPending reply.id name parent.fork) .good with
      | (.error _, h) => some ({ s with handle := h }.done name)
      | (.ok (), h) =>
        some ({ s with handle := h, ids := reply.id :: s.ids }.goto name
          (.build parent mustCreate (.created reply.id)))
  | .created id =>
    -- a restore may have run meanwhile, or a branch could not be created
    if ¬ reply.ok then some (s.goto name (.build parent mustCreate (.rollback id)))
    else match s.handle.activate name reply.datasets .good with
      | (.error _, h) => some ({ s with handle := h }.done name)
      | (.ok id, h) =>
        some ({ s with handle := h }.goto name (.build parent mustCreate (.activated id)))
  | .activated id =>
    let h := (s.handle.putSchemaOverlay id name .good).2
    match h.get name with
    | .error _ => some ({ s with handle := h }.done name)
    | .ok info => some ({ s with handle := h }.goto name (.build parent mustCreate (.found info)))
  | .rollback id =>
    some ({ s with handle := (s.handle.discard name .good).2 }.goto name
      (.build parent mustCreate (.discarded id)))
  | .discarded id => some ({ s with handle := s.handle.reap id .good }.done name)
  | .found info =>
    if s.known reply.session then none
    else
      let g : Guard := ⟨reply.session, info.id⟩
      let x : Session := ⟨reply.session, some info.id, s.storageFor parent g⟩
      some ({ s with
        handle := s.handle.registerHolder info.id
        sessions := x :: s.sessions
        guards := g :: s.guards }.goto name (.build parent mustCreate (.opened x)))
  | .opened x => if reply.ok then some (s.done name) else some ((s.release x).done name)

/-- The next step of `drop_fork(name)`. -/
def drop (s : Uni) (name : String) (reply : Reply) : DropPhase → Uni
  | .start => match s.handle.get name with
    | .error _ => s.done name
    | .ok info => s.goto name (.drop (.preview info))
  | .preview info =>
    if s.handle.listChildren info.id ≠ [] then s.done name
    else s.goto name (.drop (.childless info))
  | .childless _ =>
    -- transactions are refused, flushes drained and holders waited for
    if ¬ reply.ok then s.done name
    else match s.handle.get name with
      | .error _ => s.done name
      | .ok info => s.goto name (.drop (.entered info))
  | .entered info =>
    if 0 < s.handle.holderCount info.id then s.done name
    else s.goto name (.drop (.unheld info))
  | .unheld info =>
    { s with handle := (s.handle.putTombstone info .good).2 }.goto name (.drop (.entombed info))
  | .entombed info =>
    { s with handle := (s.handle.flip name .good).2 }.goto name (.drop (.flipped info))
  | .flipped info =>
    -- a branch that cannot be deleted leaves the fork tombstoned
    if ¬ reply.ok then s.done name
    else { s with handle := (s.handle.clear info.name .good).2 }.goto name (.drop (.cleared info))
  | .cleared info =>
    { s with handle := (s.handle.deleteTombstone info.id .good).reap info.id .good }.done name

/-- One step of the system. A call begins when it gets the lock of its name. -/
def step (s : Uni) : UniAction → Option Uni
  | .session id =>
    if s.known id then none else some { s with sessions := ⟨id, none, []⟩ :: s.sessions }
  | .close x => if x ∈ s.sessions ∧ s.busy x = false then some (s.release x) else none
  | .fork parent name mustCreate =>
    if parent ∈ s.sessions ∧ s.opening parent = false ∧ name ∉ s.calls then
      some (s.goto name (.build parent mustCreate .start))
    else none
  | .dropFork name => if name ∈ s.calls then none else some (s.goto name (.drop .start))
  | .next name reply => match s.calls.lookup name with
    | none => none
    | some (.build parent mustCreate phase) => s.build name parent mustCreate reply phase
    | some (.drop phase) => some (s.drop name reply phase)

end Uni

end Fork

end UniDb
