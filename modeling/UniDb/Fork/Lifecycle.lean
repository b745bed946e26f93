import UniDb.Fork.Recovery
import UniDb.Lib.Run

/-!
# Forks Over Whole Histories

The database's forks as a system that takes one durable step at a time.

Any number of calls may be creating and dropping forks at once, each on a name
of its own: a call holds the lock of its name from beginning to end, so there is
at most one list of steps left to do per name (`threads`). A crash drops all of
them, and the database is opened again from what the store holds. Recovery then
runs before any other call. It works through the pending entries, the marked
entries and the left-over tombstones in turn, one fork after the other, and it
may be cut off by a crash like everything else.

`trace` is the list of all durable steps so far, over all crashes. It is there
to state theorems with: the code does not keep it.

## Main definitions

* `Forks`: The state of the system.
* `Action`, `Forks.step`: What can happen next.
* `StepCase`: The same, one constructor for each thing that can happen.

## Theorems

* `stepCase_of_step`: Every step is one of these.
* `recover_returns`: Recovery that is not cut off returns, with the result that
  `recoverForks` computes.
-/

namespace UniDb

namespace Fork

/-- The three passes of recovery. -/
inductive RecoveryStage
  | pending
  | tombstoned
  | orphans
  deriving DecidableEq, Repr

/-- What recovery does for one fork in each pass. -/
def RecoveryStage.acts (candidates : List String) (info : ForkInfo) : RecoveryStage → List Act
  | pending => rollbackActs candidates info
  | tombstoned => finishDropActs info
  | orphans => finishDropActs info

/-- The forks that a pass has to deal with, read when the pass begins. -/
def RecoveryStage.snapshot (h : ForkRegistryHandle) : RecoveryStage → List ForkInfo
  | pending => h.withStatus .pending
  | tombstoned => h.withStatus .tombstoned
  | orphans => h.listTombstones

/-- Recovery on its way: the pass, the forks it still has to deal with, and the
    name of the one that it is dealing with. -/
structure Recovering where
  stage : RecoveryStage
  candidates : List String
  current : Option String
  queue : List ForkInfo
  reconciled : Nat

inductive Mode
  | running
  | recovering (r : Recovering)

/-- The forks of a database. `returned` is the result of `recoverForks`, right
    after it has returned. -/
structure Forks where
  handle : ForkRegistryHandle
  mode : Mode
  threads : String → List Act
  trace : List Act
  returned : Option Nat

/-- What can happen next. The flag of a durable step says whether the store
    deletes the tombstone file, if it is asked to. -/
inductive Action
  | create (id : ForkId) (name : String) (parent : Option ForkId) (datasets : List String)
      (restoreRace : Bool)
  | drop (name : String)
  | act (name : String) (deletes : Bool)
  | reopen (candidates : List String)
  | recover (deletes : Bool)

namespace Forks

/-- A new database without forks. -/
def start (maxForks : Option Nat) : Forks :=
  ⟨.load ⟨∅, ∅, ∅, ∅, ∅⟩ maxForks, .running, fun _ => [], [], none⟩

/-- A fork with this id has been created before. -/
def begun (s : Forks) (id : ForkId) : Bool :=
  s.trace.any fun a => match a with
    | .beginCreate info => info.id = id
    | _ => false

/-- The steps left to do under a name. -/
def setThread (s : Forks) (name : String) (acts : List Act) : String → List Act :=
  fun n => if n = name then acts else s.threads n

/-- A durable step is taken. -/
def after (s : Forks) (a : Act) (deletes : Bool) : Forks :=
  { s with
    handle := a.apply { deleteTombstone := deletes } s.handle
    trace := a :: s.trace
    returned := none }

/-- The call under a name takes its next step. -/
def take (s : Forks) (name : String) (deletes : Bool) : Option Forks :=
  match s.threads name with
  | [] => none
  | a :: rest => some { s.after a deletes with threads := s.setThread name rest }

/-- The next pass of recovery begins. -/
def enter (s : Forks) (r : Recovering) (stage : RecoveryStage) : Forks :=
  { s with
    mode := .recovering { r with stage := stage, queue := stage.snapshot s.handle }
    returned := none }

/-- Recovery goes on: with the fork it is dealing with, then the next fork of
    the pass, then the next pass. -/
def recover (s : Forks) (r : Recovering) (deletes : Bool) : Forks :=
  match r.current with
  | some name => match s.take name deletes with
    | some s' => s'
    | none => { s with mode := .recovering { r with current := none }, returned := none }
  | none => match r.queue with
    | info :: queue =>
      { s with
        mode := .recovering
          { r with current := some info.name, queue := queue, reconciled := r.reconciled + 1 }
        threads := s.setThread info.name (r.stage.acts r.candidates info)
        returned := none }
    | [] => match r.stage with
      | .pending => s.enter r .tombstoned
      | .tombstoned => s.enter r .orphans
      | .orphans => { s with mode := .running, returned := some r.reconciled }

/-- A new fork has been stored as pending, and the rest of the call is to do. -/
def enlist (s : Forks) (h : ForkRegistryHandle) (info : ForkInfo) (acts : List Act) : Forks :=
  { s with
    handle := h
    threads := s.setThread info.name acts
    trace := .beginCreate info :: s.trace
    returned := none }

/-- The database is opened again, from what the store holds. The locks and the
    registry in memory are gone with the process. -/
def reopened (s : Forks) (candidates : List String) : Forks :=
  let h := ForkRegistryHandle.load s.handle.store s.handle.maxForks
  { s with
    handle := h
    mode := .recovering ⟨.pending, candidates, none, RecoveryStage.pending.snapshot h, 0⟩
    threads := fun _ => []
    returned := none }

/-- One step of the system. Calls come only while the database is open, and a
    call that is refused at once is not a step. -/
def step (s : Forks) : Action → Option Forks
  | .create id name parent datasets restoreRace => match s.mode with
    | .recovering _ => none
    | .running =>
      if s.threads name ≠ [] ∨ s.begun id then none
      else match s.handle.beginCreate (.newPending id name parent) .good with
        | (.error _, _) => none
        | (.ok (), h) =>
          some (s.enlist h (.newPending id name parent)
            (createActs (.newPending id name parent) datasets restoreRace))
  | .drop name => match s.mode with
    | .recovering _ => none
    | .running =>
      if s.threads name ≠ [] then none
      else match s.handle.cache.lookup name with
        | none => none
        | some info =>
          if s.handle.listChildren info.id ≠ [] then none
          else some { s with threads := s.setThread name (dropActs info), returned := none }
  | .act name deletes => match s.mode with
    | .recovering _ => none
    | .running => s.take name deletes
  | .reopen candidates => some (s.reopened candidates)
  | .recover deletes => match s.mode with
    | .running => none
    | .recovering r => some (s.recover r deletes)

end Forks

/-- The things that can happen in one step. -/
inductive StepCase (s : Forks) : Action → Forks → Prop
  | create {id : ForkId} {name : String} {parent : Option ForkId} {datasets : List String}
      {restoreRace : Bool} {h : ForkRegistryHandle} (hmode : s.mode = .running)
      (hidle : s.threads name = []) (hfresh : s.begun id = false)
      (hbegin : s.handle.beginCreate (.newPending id name parent) .good = (.ok (), h)) :
      StepCase s (.create id name parent datasets restoreRace)
        (s.enlist h (.newPending id name parent)
          (createActs (.newPending id name parent) datasets restoreRace))
  | drop {name : String} {info : ForkInfo} (hmode : s.mode = .running)
      (hidle : s.threads name = []) (hinfo : s.handle.cache.lookup name = some info) :
      StepCase s (.drop name)
        { s with threads := s.setThread name (dropActs info), returned := none }
  | act {name : String} {deletes : Bool} {a : Act} {rest : List Act} (hmode : s.mode = .running)
      (hthread : s.threads name = a :: rest) :
      StepCase s (.act name deletes)
        { s.after a deletes with threads := s.setThread name rest }
  | reopen {candidates : List String} :
      StepCase s (.reopen candidates) (s.reopened candidates)
  | recoverAct {deletes : Bool} {r : Recovering} {name : String} {a : Act} {rest : List Act}
      (hmode : s.mode = .recovering r) (hcurrent : r.current = some name)
      (hthread : s.threads name = a :: rest) :
      StepCase s (.recover deletes)
        { s.after a deletes with threads := s.setThread name rest }
  | recoverDone {deletes : Bool} {r : Recovering} {name : String}
      (hmode : s.mode = .recovering r) (hcurrent : r.current = some name)
      (hthread : s.threads name = []) :
      StepCase s (.recover deletes)
        { s with mode := .recovering { r with current := none }, returned := none }
  | recoverNext {deletes : Bool} {r : Recovering} {info : ForkInfo} {queue : List ForkInfo}
      (hmode : s.mode = .recovering r) (hcurrent : r.current = none)
      (hqueue : r.queue = info :: queue) :
      StepCase s (.recover deletes)
        { s with
          mode := .recovering
            { r with current := some info.name, queue := queue, reconciled := r.reconciled + 1 }
          threads := s.setThread info.name (r.stage.acts r.candidates info)
          returned := none }
  | recoverStage {deletes : Bool} {r : Recovering} {stage : RecoveryStage}
      (hmode : s.mode = .recovering r) (hcurrent : r.current = none) (hqueue : r.queue = [])
      (hstage : r.stage = .pending ∧ stage = .tombstoned ∨
        r.stage = .tombstoned ∧ stage = .orphans) :
      StepCase s (.recover deletes)
        { s with
          mode := .recovering { r with stage := stage, queue := stage.snapshot s.handle }
          returned := none }
  | recoverEnd {deletes : Bool} {r : Recovering} (hmode : s.mode = .recovering r)
      (hcurrent : r.current = none) (hqueue : r.queue = []) (hstage : r.stage = .orphans) :
      StepCase s (.recover deletes) { s with mode := .running, returned := some r.reconciled }

namespace Forks

variable {s : Forks}

theorem take_eq_some {s' : Forks} {name : String} {deletes : Bool}
    (h : s.take name deletes = some s') :
    ∃ a rest, s.threads name = a :: rest ∧
      s' = { s.after a deletes with threads := s.setThread name rest } := by
  unfold take at h
  cases hthread : s.threads name with
  | nil => simp [hthread] at h
  | cons a rest =>
    rw [hthread, Option.some.injEq] at h
    exact ⟨a, rest, rfl, h.symm⟩

variable {r : Recovering}

theorem stepCase_recover (hmode : s.mode = .recovering r) (deletes : Bool) :
    StepCase s (.recover deletes) (s.recover r deletes) := by
  unfold recover
  cases hcurrent : r.current with
  | some name =>
    cases htake : s.take name deletes with
    | some =>
      rcases take_eq_some htake with ⟨a, rest, hthread, rfl⟩
      simp only [htake]
      exact .recoverAct hmode hcurrent hthread
    | none =>
      simp only [htake]
      refine .recoverDone hmode hcurrent ?_
      cases hthread : s.threads name with
      | nil => rfl
      | cons => simp [take, hthread] at htake
  | none =>
    cases hqueue : r.queue with
    | cons => exact .recoverNext hmode hcurrent hqueue
    | nil =>
      cases hstage : r.stage with
      | pending => exact .recoverStage hmode hcurrent hqueue (.inl ⟨hstage, rfl⟩)
      | tombstoned => exact .recoverStage hmode hcurrent hqueue (.inr ⟨hstage, rfl⟩)
      | orphans => exact .recoverEnd hmode hcurrent hqueue hstage

theorem stepCase_of_step {s' : Forks} {action : Action} (h : s.step action = some s') :
    StepCase s action s' := by
  revert h
  fun_cases step s action <;> intro h
  case case4 hmode hguard _ heq =>
    rw [not_or, not_not, Bool.not_eq_true] at hguard
    cases h
    exact .create hmode hguard.1 hguard.2 heq
  case case9 hmode hidle info hinfo _ =>
    cases h
    exact .drop hmode (not_not.mp hidle) hinfo
  case case11 hmode =>
    rcases take_eq_some h with ⟨a, rest, hthread, rfl⟩
    exact .act hmode hthread
  case case12 => exact Option.some.inj h ▸ .reopen
  case case14 r hmode => exact Option.some.inj h ▸ stepCase_recover hmode _
  all_goals cases h

/-! ## Recovery without a crash -/

/-- Recovery is cut off by nothing for `k` steps. -/
abbrev recoverSteps (k : Nat) : List Action := List.replicate k (.recover true)

theorem run_recover_one (hmode : s.mode = .recovering r) {t : Forks} {k : Nat}
    (h : run step (s.recover r true) (recoverSteps k) = some t) :
    run step s (recoverSteps (k + 1)) = some t := by
  simp only [recoverSteps, List.replicate_succ, run, step, hmode]
  exact h

/-- Recovery deals with one fork. -/
theorem run_recover_acts (acts : List Act) {name : String} (hmode : s.mode = .recovering r)
    (hcurrent : r.current = some name) (hthread : s.threads name = acts)
    (hidle : ∀ n, n ≠ name → s.threads n = []) :
    ∃ t, run step s (recoverSteps (acts.length + 1)) = some t ∧
      t.handle = perform .good s.handle acts ∧ t.mode = .recovering { r with current := none } ∧
      ∀ n, t.threads n = [] := by
  induction acts generalizing s with
  | nil =>
    have htake : s.take name true = none := by simp [take, hthread]
    have hnext : s.recover r true =
        { s with mode := .recovering { r with current := none }, returned := none } := by
      simp only [recover, hcurrent, htake]
    refine ⟨_, run_recover_one hmode (congrArg some hnext), rfl, rfl, fun n => ?_⟩
    by_cases hn : n = name
    · rw [hn, hthread]
    · exact hidle n hn
  | cons a rest ih =>
    have htake : s.take name true =
        some { s.after a true with threads := s.setThread name rest } := by
      simp [take, hthread]
    have hnext : s.recover r true = { s.after a true with threads := s.setThread name rest } := by
      simp only [recover, hcurrent, htake]
    rcases ih (s := s.recover r true) (by rw [hnext]; exact hmode)
      (by rw [hnext]; exact if_pos rfl)
      (fun n hn => by rw [hnext]; exact (if_neg hn).trans (hidle n hn)) with ⟨t, ht, hhandle, hrest⟩
    refine ⟨t, run_recover_one hmode ht, ?_, hrest⟩
    rw [hhandle, hnext]
    rfl

theorem run_recover_queue (queue : List ForkInfo) (hmode : s.mode = .recovering r)
    (hcurrent : r.current = none) (hqueue : r.queue = queue) (hidle : ∀ n, s.threads n = []) :
    ∃ k t, run step s (recoverSteps k) = some t ∧
      t.handle = queue.foldl (fun h info => perform .good h (r.stage.acts r.candidates info))
        s.handle ∧
      t.mode = .recovering { r with queue := [], reconciled := r.reconciled + queue.length } ∧
      ∀ n, t.threads n = [] := by
  induction queue generalizing s r with
  | nil =>
    refine ⟨0, s, rfl, rfl, ?_, hidle⟩
    cases r
    cases hqueue
    exact hmode
  | cons info queue ih =>
    have hnext : s.recover r true = { s with
        mode := .recovering
          { r with current := some info.name, queue := queue, reconciled := r.reconciled + 1 }
        threads := s.setThread info.name (r.stage.acts r.candidates info)
        returned := none } := by
      simp only [recover, hcurrent, hqueue]
    rcases run_recover_acts (r.stage.acts r.candidates info) (s := s.recover r true)
      (by rw [hnext]) rfl (by rw [hnext]; exact if_pos rfl)
      (fun n hn => by rw [hnext]; exact (if_neg hn).trans (hidle n)) with
      ⟨u, hu, huhandle, humode, huidle⟩
    rcases ih humode rfl rfl huidle with ⟨k, t, ht, hthandle, htmode, htidle⟩
    have hrun : run step (s.recover r true)
        (recoverSteps ((r.stage.acts r.candidates info).length + 1 + k)) = some t := by
      rw [recoverSteps, List.replicate_add, run_append hu]
      exact ht
    refine ⟨_, t, run_recover_one hmode hrun, ?_, ?_, htidle⟩
    · rw [hthandle, huhandle, hnext, List.foldl_cons]
    · rw [htmode, List.length_cons, Nat.add_assoc, Nat.add_comm 1]
      cases r
      cases hcurrent
      rfl

theorem run_recover_pass {stage : RecoveryStage} (hmode : s.mode = .recovering r)
    (hcurrent : r.current = none) (hidle : ∀ n, s.threads n = [])
    (hstage : r.stage = .pending ∧ stage = .tombstoned ∨ r.stage = .tombstoned ∧ stage = .orphans) :
    ∃ (k : Nat) (t : Forks), run step s (recoverSteps k) = some t ∧
      t.handle = r.queue.foldl (fun h info => perform .good h (r.stage.acts r.candidates info))
        s.handle ∧
      t.mode = .recovering ⟨stage, r.candidates, none, stage.snapshot t.handle,
        r.reconciled + r.queue.length⟩ ∧
      ∀ n, t.threads n = [] := by
  rcases run_recover_queue r.queue hmode hcurrent rfl hidle with ⟨k, t, ht, hhandle, htmode, htidle⟩
  refine ⟨k + 1, t.enter { r with queue := [], reconciled := r.reconciled + r.queue.length } stage,
    ?_, hhandle, ?_, htidle⟩
  · rw [recoverSteps, List.replicate_add, run_append ht]
    refine run_recover_one htmode ?_
    rcases hstage with ⟨hst, rfl⟩ | ⟨hst, rfl⟩ <;> simp only [recover, hcurrent, hst] <;> rfl
  · simp only [enter, hcurrent]

theorem run_recover_end (hmode : s.mode = .recovering r) (hcurrent : r.current = none)
    (hidle : ∀ n, s.threads n = []) (hstage : r.stage = .orphans) :
    ∃ (k : Nat) (t : Forks), run step s (recoverSteps k) = some t ∧
      t.handle = r.queue.foldl (fun h info => perform .good h (r.stage.acts r.candidates info))
        s.handle ∧ t.returned = some (r.reconciled + r.queue.length) := by
  rcases run_recover_queue r.queue hmode hcurrent rfl hidle with ⟨k, t, ht, hhandle, htmode, -⟩
  refine ⟨k + 1, { t with mode := .running, returned := some (r.reconciled + r.queue.length) },
    ?_, hhandle, rfl⟩
  rw [recoverSteps, List.replicate_add, run_append ht]
  refine run_recover_one htmode ?_
  simp only [recover, hcurrent, hstage]
  rfl

/-- Recovery that is not cut off returns what `recoverForks` computes. -/
theorem recover_returns (s : Forks) (candidates : List String) :
    ∃ (k : Nat) (t : Forks), run step s (.reopen candidates :: recoverSteps k) = some t ∧
      t.handle = (recoverForks candidates (.load s.handle.store s.handle.maxForks)).1 ∧
      t.returned = some (recoverForks candidates (.load s.handle.store s.handle.maxForks)).2 := by
  rcases run_recover_pass (s := s.reopened candidates) rfl rfl (fun _ => rfl)
    (.inl ⟨rfl, rfl⟩) with ⟨k₁, t₁, hrun₁, hhandle₁, hmode₁, hidle₁⟩
  rcases run_recover_pass hmode₁ rfl hidle₁ (.inr ⟨rfl, rfl⟩) with
    ⟨k₂, t₂, hrun₂, hhandle₂, hmode₂, hidle₂⟩
  rcases run_recover_end hmode₂ rfl hidle₂ rfl with ⟨k₃, t₃, hrun₃, hhandle₃, hreturned⟩
  refine ⟨k₁ + (k₂ + k₃), t₃, ?_, ?_, ?_⟩
  · simp only [run, step, recoverSteps, List.replicate_add]
    rw [run_append hrun₁, run_append hrun₂]
    exact hrun₃
  · rw [hhandle₃, hhandle₂, hhandle₁]
    rfl
  · rw [hreturned, hhandle₂, hhandle₁]
    simp only [Nat.zero_add]
    rfl

end Forks

end Fork

end UniDb
