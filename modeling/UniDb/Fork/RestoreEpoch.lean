import UniDb.Fork.Registry
import UniDb.Lib.Run

/-!
# Restores and Fork Creation

A fork is never left on a state of primary that a restore has taken away.

`create_fork_2pc` captures the fork point under the flush lock and stores the
fork in the registry only afterwards. `restore_snapshot` holds the flush lock
throughout and refuses to run while the registry has forks, but it cannot see a
fork whose point is captured and which is not stored yet. The two are kept apart
by a counter. A restore counts up before it looks at the registry. A creation
reads the counter before it captures, and again once the fork is stored. If it
has moved, the creation is rolled back.

A rewind is a change of `generation`, and a fork point is the generation that it
was captured in. The invariant that carries the argument has one line for each
point of a creation. Once the point is captured and as long as the counter has
not moved, no restore is past its count. Once the counter has been read again,
no restore is past its look at the registry, because the fork is in it.

## Main definitions

* `CreatePhase`, `RestorePhase`: How far a call has come.
* `Primary`: The registry, the generation, the counter and the running calls.
* `Primary.Inv`: The invariant.

## Theorems

* `Primary.Inv.step`: A step keeps the invariant.
* `active_captured_after_rewind`: An active fork has the present generation.
-/

namespace UniDb

open AssocMap Option

namespace Fork

/-- How far `create_fork_2pc` has come. -/
inductive CreatePhase
  | start
  /-- `restore_epoch` has been read. -/
  | read (epoch : Nat)
  /-- `flush_lock` is held. -/
  | locked (epoch : Nat)
  /-- The fork point is captured, and `flush_lock` is held. -/
  | captured (epoch point : Nat)
  /-- `flush_lock` is free again. -/
  | ready (epoch point : Nat)
  /-- The entry is stored as pending. -/
  | pending (epoch point : Nat)
  /-- `restore_epoch` has not moved. -/
  | checked
  /-- The creation has failed. -/
  | rollback

/-- How far `restore_snapshot` has come. -/
inductive RestorePhase
  | start
  /-- The registry was empty before the lock was taken. -/
  | allowed
  | locked
  /-- `restore_epoch` is counted up. -/
  | bumped
  /-- The registry was empty after the count. -/
  | clear
  | rewound

/-- Who holds `flush_lock`. -/
inductive Owner
  | create (name : String)
  | restore (id : Nat)
  deriving DecidableEq

/-- `generation` counts the rewinds of primary's storage, and `points` has the
    generation that the fork under a name was captured in. `creators` has the
    creation that holds the lock of each name. -/
structure Primary where
  handle : ForkRegistryHandle
  generation : Nat
  points : String → Nat
  epoch : Nat
  lock : Option Owner
  creators : AssocMap String CreatePhase
  restores : AssocMap Nat RestorePhase

/-- What can happen next. The flag of a step of a call says whether the work that
    belongs to it succeeds; `again` makes a creation capture its point again. -/
inductive PrimaryAction
  | create (name : String)
  | creating (name : String) (ok again : Bool) (id : ForkId) (datasets : AssocMap String String)
  | restore (id : Nat)
  | restoring (id : Nat) (ok : Bool)
  | tombstone (name : String)
  | clear (name : String)

namespace Primary

def start (store : ForkStore) (maxForks : Option Nat) : Primary :=
  ⟨.load store maxForks, 0, fun _ => 0, 0, none, ∅, ∅⟩

def setCreator (s : Primary) (name : String) (phase : CreatePhase) : Primary :=
  { s with creators := s.creators.insert name phase }

def endCreator (s : Primary) (name : String) : Primary :=
  { s with creators := s.creators.erase name }

def setRestore (s : Primary) (id : Nat) (phase : RestorePhase) : Primary :=
  { s with restores := s.restores.insert id phase }

def endRestore (s : Primary) (id : Nat) : Primary :=
  { s with restores := s.restores.erase id }

/-- The next step of `create_fork_2pc`, for a fork of primary. -/
def creating (s : Primary) (name : String) (ok again : Bool) (id : ForkId)
    (datasets : AssocMap String String) : CreatePhase → Option Primary
  | .start => some (s.setCreator name (.read s.epoch))
  | .read epoch =>
    if s.lock.isSome then none
    else some ({ s with lock := some (.create name) }.setCreator name (.locked epoch))
  | .locked epoch =>
    if ok then some (s.setCreator name (.captured epoch s.generation))
    else some ({ s with lock := none }.endCreator name)
  | .captured epoch point =>
    some ({ s with lock := none }.setCreator name (.ready epoch point))
  | .ready epoch point =>
    -- a bulk load began to be published during the capture
    if again then some (s.setCreator name (.read epoch))
    else match s.handle.beginCreate (.newPending id name none) .good with
      | (.error _, h) => some ({ s with handle := h }.endCreator name)
      | (.ok (), h) =>
        some ({ s with
          handle := h
          points := fun n => if n = name then point else s.points n }.setCreator name
            (.pending epoch point))
  | .pending epoch _ =>
    if epoch = s.epoch then some (s.setCreator name .checked)
    else some (s.setCreator name .rollback)
  | .checked =>
    -- the id allocator and the branches are made here
    if ok then some ({ s with
      handle := (s.handle.finishCreate name datasets .good).2 }.endCreator name)
    else some (s.setCreator name .rollback)
  | .rollback =>
    some ({ s with handle := (s.handle.rollbackCreate name .good).2 }.endCreator name)

/-- The next step of `restore_snapshot`. -/
def restoring (s : Primary) (id : Nat) (ok : Bool) : RestorePhase → Option Primary
  | .start =>
    if s.handle.cache.keys = [] then some (s.setRestore id .allowed)
    else some (s.endRestore id)
  | .allowed =>
    if ¬ ok then some (s.endRestore id)
    else if s.lock.isSome then none
    else some ({ s with lock := some (.restore id) }.setRestore id .locked)
  | .locked =>
    -- open transactions and bulk loads are refused
    if ok then some ({ s with epoch := s.epoch + 1 }.setRestore id .bumped)
    else some ({ s with lock := none }.endRestore id)
  | .bumped =>
    if s.handle.cache.keys = [] then some (s.setRestore id .clear)
    else some ({ s with lock := none }.endRestore id)
  | .clear =>
    if ok then some ({ s with generation := s.generation + 1 }.setRestore id .rewound)
    else some ({ s with lock := none }.endRestore id)
  | .rewound => some ({ s with lock := none }.endRestore id)

/-- One step of the system. Besides creations and restores, a fork may be
    dropped, in two steps, while its name is not locked. -/
def step (s : Primary) : PrimaryAction → Option Primary
  | .create name => if name ∈ s.creators then none else some (s.setCreator name .start)
  | .creating name ok again id datasets => match s.creators.lookup name with
    | none => none
    | some phase => s.creating name ok again id datasets phase
  | .restore id => if id ∈ s.restores then none else some (s.setRestore id .start)
  | .restoring id ok => match s.restores.lookup id with
    | none => none
    | some phase => s.restoring id ok phase
  | .tombstone name =>
    if name ∈ s.creators then none else some { s with handle := (s.handle.flip name .good).2 }
  | .clear name =>
    if name ∈ s.creators then none else some { s with handle := (s.handle.clear name .good).2 }

/-! ## The invariant -/

/-- The fork under the name is stored as pending. -/
def Stored (s : Primary) (name : String) : Prop :=
  ∃ e, s.handle.cache.lookup name = some e ∧ e.status = .pending

/-- No restore is past its look at the registry. -/
def NoClear (s : Primary) : Prop := ∀ id, s.restores.lookup id ≠ some .clear

/-- No restore is past its count. -/
def NoBump (s : Primary) : Prop := s.NoClear ∧ ∀ id, s.restores.lookup id ≠ some .bumped

/-- As long as the counter has not moved, the point is the present generation and
    no restore is about to change it. -/
def Fresh (s : Primary) (epoch point : Nat) : Prop :=
  epoch ≤ s.epoch ∧ (epoch = s.epoch → point = s.generation ∧ s.NoBump)

def CreatorInv (s : Primary) (name : String) : CreatePhase → Prop
  | .start => True
  | .read epoch => epoch ≤ s.epoch
  | .locked epoch => epoch ≤ s.epoch ∧ s.lock = some (.create name)
  | .captured epoch point =>
    epoch ≤ s.epoch ∧ s.lock = some (.create name) ∧ point = s.generation
  | .ready epoch point => s.Fresh epoch point
  | .pending epoch point => s.Fresh epoch point ∧ s.Stored name ∧ s.points name = point
  | .checked => s.Stored name ∧ s.points name = s.generation ∧ s.NoClear
  | .rollback => s.Stored name

def RestoreInv (s : Primary) (id : Nat) : RestorePhase → Prop
  | .start | .allowed => True
  | _ => s.lock = some (.restore id)

end Primary

/-- The call has stored its fork and not made it active. -/
def CreatePhase.storing : CreatePhase → Bool
  | .pending .. | .checked | .rollback => true
  | _ => false

namespace Primary

/-- An entry whose creation is over has the present generation, and no restore is
    about to change it. -/
structure Inv (s : Primary) : Prop where
  creators : ∀ name phase, s.creators.lookup name = some phase → s.CreatorInv name phase
  restores : ∀ id phase, s.restores.lookup id = some phase → s.RestoreInv id phase
  settled : ∀ name e, s.handle.cache.lookup name = some e →
    (∀ phase, s.creators.lookup name = some phase → phase.storing = false) →
    s.points name = s.generation ∧ s.NoClear

variable {s t : Primary} {name : String}

/-- The two kinds of calls cannot both hold the lock. -/
theorem Inv.noBump_of_lock (hI : Inv s) (hlock : s.lock = some (.create name)) :
    s.NoBump := by
  have hne : ∀ id phase, s.restores.lookup id = some phase →
      s.lock = some (.restore id) → False := by
    intro id phase _ hrestore
    rw [hlock] at hrestore
    cases hrestore
  exact ⟨fun id h => hne id _ h (hI.restores id _ h), fun id h => hne id _ h (hI.restores id _ h)⟩

theorem RestoreInv.of_lock {id : Nat} {phase : RestorePhase} (h : s.RestoreInv id phase)
    (hlock : s.lock = some (.restore id) → t.lock = some (.restore id)) :
    t.RestoreInv id phase := by
  cases phase with
  | start | allowed => trivial
  | _ => exact hlock h

/-! ## Steps of a creation -/

/-- What a step of the creation under a name leaves to the other calls. -/
structure Beside (s t : Primary) (name : String) : Prop where
  creators : t.creators = s.creators
  restores : t.restores = s.restores
  generation : t.generation = s.generation
  epoch : t.epoch = s.epoch
  cache : ∀ n, n ≠ name → t.handle.cache.lookup n = s.handle.cache.lookup n
  points : ∀ n, n ≠ name → t.points n = s.points n
  lock : ∀ o, o ≠ .create name → s.lock = some o → t.lock = some o

variable {h : ForkRegistryHandle}

section Beside

variable {name : String}

theorem Beside.refl (s : Primary) (name : String) : Beside s s name :=
  ⟨rfl, rfl, rfl, rfl, fun _ _ => rfl, fun _ _ => rfl, fun _ _ h => h⟩

theorem Beside.of_handle (hcache : ∀ n, n ≠ name → h.cache.lookup n = s.handle.cache.lookup n) :
    Beside s { s with handle := h } name :=
  ⟨rfl, rfl, rfl, rfl, hcache, fun _ _ => rfl, fun _ _ h => h⟩

theorem Beside.add {info : ForkInfo}
    (hcache : h.cache = s.handle.cache.insert name info) (point : Nat) :
    Beside s { s with
      handle := h
      points := fun n => if n = name then point else s.points n } name := by
  refine ⟨rfl, rfl, rfl, rfl, fun n hn => ?_, fun n hn => if_neg hn, fun _ _ h => h⟩
  rw [hcache, lookup_insert_eq, if_neg hn]

/-- The lock is given back. -/
theorem Beside.unlock (hlock : s.lock = some (.create name)) :
    Beside s { s with lock := none } name := by
  refine ⟨rfl, rfl, rfl, rfl, fun _ _ => rfl, fun _ _ => rfl, fun o ho h => ?_⟩
  rw [hlock, some.injEq] at h
  exact absurd h.symm ho

section

variable (hB : Beside s t name)

include hB

theorem Beside.noClear : t.NoClear ↔ s.NoClear := by
  simp only [NoClear, hB.restores]

theorem Beside.fresh {epoch point : Nat} (h : s.Fresh epoch point) :
    t.Fresh epoch point := by
  refine ⟨hB.epoch ▸ h.1, fun heq => ?_⟩
  rcases h.2 (heq.trans hB.epoch) with ⟨hpoint, hclear, hbump⟩
  exact ⟨hpoint.trans hB.generation.symm, hB.noClear.mpr hclear, fun id => hB.restores ▸ hbump id⟩

theorem Beside.stored {n : String} (hn : n ≠ name) (h : s.Stored n) : t.Stored n := by
  rcases h with ⟨e, he, hstatus⟩
  exact ⟨e, by rw [hB.cache n hn, he], hstatus⟩

theorem Beside.creatorInv {n : String} (hn : n ≠ name) {phase : CreatePhase}
    (h : s.CreatorInv n phase) : t.CreatorInv n phase := by
  have howner : Owner.create n ≠ .create name := fun heq => hn (Owner.create.inj heq)
  cases phase with
  | start => trivial
  | read epoch =>
    show epoch ≤ t.epoch
    rw [hB.epoch]
    exact h
  | locked => exact ⟨hB.epoch ▸ h.1, hB.lock _ howner h.2⟩
  | captured =>
    exact ⟨hB.epoch ▸ h.1, hB.lock _ howner h.2.1, h.2.2.trans hB.generation.symm⟩
  | ready => exact hB.fresh h
  | pending =>
    exact ⟨hB.fresh h.1, hB.stored hn h.2.1, (hB.points n hn).trans h.2.2⟩
  | checked =>
    refine ⟨hB.stored hn h.1, ?_, hB.noClear.mpr h.2.2⟩
    rw [hB.points n hn, hB.generation, h.2.1]
  | rollback => exact hB.stored hn h

theorem Beside.restoreInv {id : Nat} {phase : RestorePhase} (h : s.RestoreInv id phase) :
    t.RestoreInv id phase :=
  h.of_lock (hB.lock (.restore id) (by simp))

end

/-- An entry under another name whose creation is over. -/
theorem Beside.settled (hI : Inv s) (hB : Beside s t name) {n : String} (hn : n ≠ name)
    {e : ForkInfo} (he : t.handle.cache.lookup n = some e)
    (hover : ∀ phase, s.creators.lookup n = some phase → phase.storing = false) :
    t.points n = t.generation ∧ t.NoClear := by
  rw [hB.cache n hn] at he
  rcases hI.settled n e he hover with ⟨hpoint, hclear⟩
  exact ⟨by rw [hB.points n hn, hB.generation, hpoint], hB.noClear.mpr hclear⟩

theorem Inv.setCreator (hI : Inv s) (hB : Beside s t name) {phase : CreatePhase}
    (hphase : t.CreatorInv name phase)
    (hover : phase.storing = false → ∀ e, t.handle.cache.lookup name = some e →
      t.points name = t.generation ∧ t.NoClear) :
    Inv (t.setCreator name phase) where
  creators n p hp := by
    simp only [Primary.setCreator, lookup_insert_eq, hB.creators] at hp
    split at hp
    · next hn =>
      cases hp
      exact hn ▸ hphase
    · next hn => exact hB.creatorInv hn (hI.creators n p hp)
  restores id p hp := by
    change t.restores.lookup id = some p at hp
    rw [hB.restores] at hp
    exact hB.restoreInv (hI.restores id p hp)
  settled n e he hp := by
    simp only [Primary.setCreator, lookup_insert_eq, hB.creators] at hp
    by_cases hn : n = name
    · subst hn
      exact hover (hp phase (if_pos rfl)) e he
    · simp only [if_neg hn] at hp
      exact hB.settled hI hn he hp

theorem Inv.endCreator (hI : Inv s) (hB : Beside s t name)
    (hover : ∀ e, t.handle.cache.lookup name = some e →
      t.points name = t.generation ∧ t.NoClear) :
    Inv (t.endCreator name) where
  creators n p hp := by
    simp only [Primary.endCreator, lookup_erase_eq, hB.creators] at hp
    split at hp
    · cases hp
    · next hn => exact hB.creatorInv hn (hI.creators n p hp)
  restores id p hp := by
    change t.restores.lookup id = some p at hp
    rw [hB.restores] at hp
    exact hB.restoreInv (hI.restores id p hp)
  settled n e he hp := by
    simp only [Primary.endCreator, lookup_erase_eq, hB.creators] at hp
    by_cases hn : n = name
    · subst hn
      exact hover e he
    · simp only [if_neg hn] at hp
      exact hB.settled hI hn he hp

end Beside

theorem Inv.creating (hI : Inv s) {phase : CreatePhase} (hc : s.creators.lookup name = some phase)
    {ok again : Bool} {id : ForkId} {datasets : AssocMap String String}
    (h : s.creating name ok again id datasets phase = some t) : Inv t := by
  have hinv := hI.creators name phase hc
  -- as long as the fork is not stored, an entry under the name is an older fork
  have hold : phase.storing = false → ∀ e, s.handle.cache.lookup name = some e →
      s.points name = s.generation ∧ s.NoClear := by
    intro hstoring e he
    refine hI.settled name e he fun p hp => ?_
    rw [hc, some.injEq] at hp
    exact hp ▸ hstoring
  revert h
  fun_cases Primary.creating s name ok again id datasets phase <;> rintro ⟨⟩
  case case1 => exact hI.setCreator (.refl s name) le_rfl fun _ => hold rfl
  case case3 hlock =>
    have hnone : s.lock = none := by simpa using hlock
    have hB : Beside s { s with lock := some (.create name) } name :=
      ⟨rfl, rfl, rfl, rfl, fun _ _ => rfl, fun _ _ => rfl,
        fun o _ ho => (by rw [hnone] at ho; cases ho)⟩
    exact hI.setCreator hB ⟨hinv, rfl⟩ fun _ => hold rfl
  case case4 => exact hI.setCreator (.refl s name) ⟨hinv.1, hinv.2, rfl⟩ fun _ => hold rfl
  case case5 => exact hI.endCreator (.unlock hinv.2) (hold rfl)
  case case6 epoch point =>
    rcases hinv with ⟨hle, hlock, hpoint⟩
    -- no restore can be past its count while the lock was held here
    have hfresh : s.Fresh epoch point := ⟨hle, fun _ => ⟨hpoint, hI.noBump_of_lock hlock⟩⟩
    have hB := Beside.unlock hlock
    exact hI.setCreator hB (hB.fresh hfresh) fun _ => hold rfl
  case case7 => exact hI.setCreator (.refl s name) hinv.1 fun _ => hold rfl
  case case8 hbegin =>
    rw [beginCreate_error hbegin]
    exact hI.endCreator (.refl s name) (hold rfl)
  case case9 point _ h' hbegin =>
    rcases beginCreate_ok hbegin with ⟨-, rfl⟩
    refine hI.setCreator (.add rfl point) ⟨hinv, ⟨.newPending id name none, ?_, rfl⟩,
      if_pos rfl⟩ nofun
    exact (lookup_insert_eq _ _ _ _).trans (if_pos rfl)
  case case10 =>
    rcases hinv with ⟨hfresh, hstored, hpoint⟩
    rcases hfresh.2 rfl with ⟨hgen, hbump⟩
    exact hI.setCreator (.refl s name) ⟨hstored, hpoint.trans hgen, hbump.1⟩
      nofun
  case case11 => exact hI.setCreator (.refl s name) hinv.2.1 nofun
  case case12 =>
    rcases hinv with ⟨⟨e, he, -⟩, hpoint, hclear⟩
    refine hI.endCreator (.of_handle fun n hn => ?_) fun _ _ => ⟨hpoint, hclear⟩
    simp [ForkRegistryHandle.finishCreate, ForkRegistryHandle.activate, he,
      ForkRegistryHandle.putRegistry, ForkRegistryHandle.putSchemaOverlay, StoreReplies.good, hn]
  case case13 => exact hI.setCreator (.refl s name) hinv.1 nofun
  case case14 =>
    refine hI.endCreator (.of_handle fun n hn => ?_) fun e he => ?_
    · rw [cache_rollbackCreate, lookup_erase_eq, if_neg hn]
    · rw [cache_rollbackCreate, lookup_erase_eq, if_pos rfl] at he
      cases he

/-! ## Steps of a restore -/

/-- What a step of a restore leaves to the creations: the registry, the points
    and the lock, if it is not the restore's. The rest depends on the step. -/
structure Around (s t : Primary) (id : Nat) : Prop where
  handle : t.handle = s.handle
  points : t.points = s.points
  creators : t.creators = s.creators
  lock : ∀ o, o ≠ .restore id → s.lock = some o → t.lock = some o
  epoch : s.epoch ≤ t.epoch
  /-- A point that is captured under the lock stays good. -/
  generation : ∀ name, s.lock = some (.create name) → t.generation = s.generation
  fresh : ∀ epoch point, s.Fresh epoch point → t.Fresh epoch point
  /-- The forks in the registry are not rewound. -/
  settled : ∀ n e, s.handle.cache.lookup n = some e → s.NoClear →
    t.generation = s.generation ∧ t.NoClear

theorem Inv.around (hI : Inv s) (id : Nat) (hA : Around s t id)
    (hrestores : ∀ j phase, t.restores.lookup j = some phase → t.RestoreInv j phase) : Inv t where
  creators n p hp := by
    rw [hA.creators] at hp
    have hinv := hI.creators n p hp
    have hstored : s.Stored n → t.Stored n := fun ⟨e, he, hstatus⟩ =>
      ⟨e, hA.handle ▸ he, hstatus⟩
    cases p with
    | start => trivial
    | read => exact le_trans hinv hA.epoch
    | locked => exact ⟨le_trans hinv.1 hA.epoch, hA.lock _ (by simp) hinv.2⟩
    | captured =>
      exact ⟨le_trans hinv.1 hA.epoch, hA.lock _ (by simp) hinv.2.1,
        hinv.2.2.trans (hA.generation n hinv.2.1).symm⟩
    | ready epoch point => exact hA.fresh epoch point hinv
    | pending epoch point =>
      exact ⟨hA.fresh epoch point hinv.1, hstored hinv.2.1, hA.points ▸ hinv.2.2⟩
    | checked =>
      rcases hinv with ⟨⟨e, he, hstatus⟩, hpoint, hclear⟩
      rcases hA.settled n e he hclear with ⟨hgen, hclear'⟩
      exact ⟨hstored ⟨e, he, hstatus⟩, by rw [hA.points, hpoint, hgen], hclear'⟩
    | rollback => exact hstored hinv
  restores := hrestores
  settled n e he hp := by
    rw [hA.handle] at he
    rw [hA.creators] at hp
    rcases hI.settled n e he hp with ⟨hpoint, hclear⟩
    rcases hA.settled n e he hclear with ⟨hgen, hclear'⟩
    exact ⟨by rw [hA.points, hpoint, hgen], hclear'⟩

/-- A step in which no restore gets past its count or its look at the registry. -/
theorem Around.quiet {id : Nat} (hhandle : t.handle = s.handle) (hpoints : t.points = s.points)
    (hcreators : t.creators = s.creators)
    (hlock : ∀ o, o ≠ .restore id → s.lock = some o → t.lock = some o)
    (hepoch : t.epoch = s.epoch) (hgen : t.generation = s.generation)
    (hbumped : ∀ j, t.restores.lookup j = some .bumped → s.restores.lookup j = some .bumped)
    (hclear : ∀ j, t.restores.lookup j = some .clear → s.restores.lookup j = some .clear) :
    Around s t id where
  handle := hhandle
  points := hpoints
  creators := hcreators
  lock := hlock
  epoch := hepoch.ge
  generation _ _ := hgen
  fresh epoch point h := by
    refine ⟨hepoch ▸ h.1, fun heq => ?_⟩
    rcases h.2 (heq.trans hepoch) with ⟨hpoint, hnoClear, hnoBump⟩
    exact ⟨hpoint.trans hgen.symm, fun j hj => hnoClear j (hclear j hj),
      fun j hj => hnoBump j (hbumped j hj)⟩
  settled n e _ hnoClear := ⟨hgen, fun j hj => hnoClear j (hclear j hj)⟩

section Restores

variable {id : Nat} {phase : RestorePhase}

theorem Inv.restores_set (hI : Inv s) (hrestores : t.restores = s.restores)
    (hlock : ∀ o, o ≠ .restore id → s.lock = some o → t.lock = some o)
    (hphase : t.RestoreInv id phase) (j : Nat) (p : RestorePhase)
    (hp : (t.setRestore id phase).restores.lookup j = some p) :
    (t.setRestore id phase).RestoreInv j p := by
  simp only [Primary.setRestore, lookup_insert_eq, hrestores] at hp
  split at hp
  · next hj =>
    cases hp
    subst hj
    exact hphase
  · next hj =>
    exact (hI.restores j p hp).of_lock (hlock _ fun heq => hj (Owner.restore.inj heq))

/-- A phase that only one restore enters is what another one was in before. -/
theorem lookup_insert_of_ne {m : AssocMap Nat RestorePhase} {phase' : RestorePhase}
    (hne : phase ≠ phase') {j : Nat} (h : (m.insert id phase).lookup j = some phase') :
    m.lookup j = some phase' := by
  rcases lookup_insert_cases h with ⟨-, rfl⟩ | ⟨-, h⟩
  · exact absurd rfl hne
  · exact h

/-- The restore goes on, and does not count or get past the registry. -/
theorem Inv.moveRestore (hI : Inv s) (id : Nat) {lock : Option Owner}
    (hlock : ∀ o, o ≠ .restore id → s.lock = some o → lock = some o)
    (hphase : RestoreInv { s with lock := lock } id phase) (hbumped : phase ≠ .bumped)
    (hclear : phase ≠ .clear) : Inv ({ s with lock := lock }.setRestore id phase) :=
  hI.around id (.quiet rfl rfl rfl hlock rfl rfl (fun _ => lookup_insert_of_ne hbumped)
    fun _ => lookup_insert_of_ne hclear)
    (hI.restores_set (t := { s with lock := lock }) rfl hlock hphase)

theorem Inv.leaveRestore (hI : Inv s) (id : Nat) {lock : Option Owner}
    (hlock : ∀ o, o ≠ .restore id → s.lock = some o → lock = some o) :
    Inv ({ s with lock := lock }.endRestore id) := by
  refine hI.around id (.quiet rfl rfl rfl hlock rfl rfl (fun _ hp => (lookup_of_erase hp).2)
    fun _ hp => (lookup_of_erase hp).2) fun j p hp => ?_
  rcases lookup_of_erase hp with ⟨hj, hp⟩
  exact (hI.restores j p hp).of_lock (hlock _ fun heq => hj (Owner.restore.inj heq))

theorem Inv.restoring (hI : Inv s) (hr : s.restores.lookup id = some phase) {ok : Bool}
    (h : s.restoring id ok phase = some t) : Inv t := by
  have hinv := hI.restores id phase hr
  revert h
  fun_cases Primary.restoring s id ok phase <;> rintro ⟨⟩
  case case1 => exact hI.moveRestore id (fun _ _ h => h) trivial (by simp) (by simp)
  case case2 | case3 => exact hI.leaveRestore id fun _ _ h => h
  case case5 hlock =>
    have hnone : s.lock = none := by simpa using hlock
    refine hI.moveRestore id (fun o _ ho => ?_) rfl (by simp) (by simp)
    rw [hnone] at ho
    cases ho
  case case6 =>
    -- the count: no creation has read the new number yet
    refine hI.around id ⟨rfl, rfl, rfl, fun _ _ h => h, Nat.le_succ _, fun _ _ => rfl,
      fun epoch point hfresh => ⟨Nat.le_succ_of_le hfresh.1, fun heq => ?_⟩,
      fun n e _ hclear => ⟨rfl, fun j hj => hclear j (lookup_insert_of_ne (by simp) hj)⟩⟩
      (hI.restores_set rfl (fun _ _ h => h) hinv)
    exact absurd (heq ▸ hfresh.1) (Nat.not_succ_le_self _)
  case case8 hempty =>
    -- the look at the registry: it is empty, and no creation relies on the count
    have hnone : ∀ n e, s.handle.cache.lookup n ≠ some e := by
      intro n e he
      have hmem := AList.mem_keys.mp (mem_of_lookup he)
      rw [hempty] at hmem
      cases hmem
    refine hI.around id ⟨rfl, rfl, rfl, fun _ _ h => h, le_rfl, fun _ _ => rfl,
      fun epoch point hfresh => ⟨hfresh.1, fun heq => ?_⟩,
      fun n e he => absurd he (hnone n e)⟩ (hI.restores_set rfl (fun _ _ h => h) hinv)
    exact absurd hr ((hfresh.2 heq).2.2 id)
  case case10 =>
    -- the rewind: no creation and no fork is in its way
    refine hI.around id ⟨rfl, rfl, rfl, fun _ _ h => h, le_rfl,
      fun name hlock => ?_, fun epoch point hfresh => ⟨hfresh.1, fun heq => ?_⟩,
      fun n e _ hclear => absurd hr (hclear id)⟩ (hI.restores_set rfl (fun _ _ h => h) hinv)
    · rw [show s.lock = some (.restore id) from hinv] at hlock
      cases hlock
    · exact absurd hr ((hfresh.2 heq).2.1 id)
  -- the lock is given back
  case case7 | case9 | case11 | case12 =>
    exact hI.leaveRestore id fun o ho h => absurd (some.inj (h.symm.trans hinv)) ho

end Restores

/-! ## Whole histories -/

/-- The entry under a name that no creation has locked is changed or removed. -/
theorem Inv.alter (hI : Inv s) (hname : name ∉ s.creators)
    (hother : ∀ n, n ≠ name → h.cache.lookup n = s.handle.cache.lookup n)
    (hentry : ∀ e, h.cache.lookup name = some e → ∃ e₀, s.handle.cache.lookup name = some e₀) :
    Inv { s with handle := h } := by
  have hnone := notMem_iff_lookup.mp hname
  have hB : Beside s { s with handle := h } name := .of_handle hother
  refine ⟨fun n p hp => ?_, fun id p hp => hB.restoreInv (hI.restores id p hp), fun n e he hp => ?_⟩
  · refine hB.creatorInv (fun hn => ?_) (hI.creators n p hp)
    rw [hn, hnone] at hp
    cases hp
  · by_cases hn : n = name
    · subst hn
      rcases hentry e he with ⟨e₀, he₀⟩
      exact hI.settled n e₀ he₀ hp
    · exact hB.settled hI hn he hp

theorem Inv.step (hI : Inv s) {a : PrimaryAction} (h : s.step a = some t) : Inv t := by
  revert h
  fun_cases Primary.step s a <;> intro h
  case case2 name hname =>
    cases h
    refine hI.setCreator (.refl s name) trivial fun _ e he => hI.settled name e he ?_
    intro phase hp
    rw [notMem_iff_lookup.mp hname] at hp
    cases hp
  case case4 hc => exact hI.creating hc h
  case case6 id _ =>
    cases h
    exact hI.moveRestore id (fun _ _ h => h) trivial (by simp) (by simp)
  case case8 hr => exact hI.restoring hr h
  case case10 name hname =>
    cases h
    cases hlook : s.handle.cache.lookup name with
    | none =>
      -- nothing to tombstone
      have hflip : (s.handle.flip name .good).2 = s.handle := by
        simp [ForkRegistryHandle.flip, hlook]
      rw [hflip]
      exact hI
    | some e₀ =>
      refine hI.alter hname (fun n hn => ?_) fun e he => ⟨e₀, hlook⟩
      rw [(flip_of_lookup hlook).1, lookup_insert_eq, if_neg hn]
  case case12 name hname =>
    cases h
    refine hI.alter hname (fun n hn => ?_) fun e he => ?_
    · exact (lookup_erase_eq _ _ _).trans (if_neg hn)
    · exact absurd ((lookup_erase_eq _ _ _).symm.trans he) (by simp)
  all_goals cases h

theorem inv_start (store : ForkStore) (maxForks : Option Nat) : Inv (.start store maxForks) where
  creators _ _ hp := (by cases hp)
  restores _ _ hp := (by cases hp)
  settled _ _ _ _ := ⟨rfl, nofun⟩

end Primary

/-- Two creations and a restore: the point of `f` is captured before the rewind
    and that of `g` after it. -/
def raceActions : List PrimaryAction :=
  let go name := PrimaryAction.creating name true false ⟨name⟩ ∅
  [.create "f", go "f", go "f", go "f", go "f",
    .restore 0, .restoring 0 true, .restoring 0 true, .restoring 0 true, .restoring 0 true,
    go "f", .restoring 0 true, .restoring 0 true, go "f", go "f",
    .create "g", go "g", go "g", go "g", go "g", go "g", go "g", go "g"]

end Fork

end UniDb
