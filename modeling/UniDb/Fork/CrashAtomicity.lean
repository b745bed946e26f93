import UniDb.Fork.Stages

/-!
# Crash Atomicity of Forks

A fork is created and dropped as a whole, however often the database crashes.

Every name has at most one owner, the fork whose call last worked under it, and
every fork that has left something in the store owns a name. The invariant says
of each owner that the steps left to do under its name lead through the stages
of a fork to one where it is live or gone, or, while the database recovers,
that it is in some stage and is still in the queue unless the pass that runs
has nothing to do for it. A step belongs to one fork and leaves the views of
all others as they are, so the invariant is kept name by name.

## Main definitions

* `Done`, `Ready`, `Idle`: What recovery has done for a fork and has left to do.
* `Owned`: The invariant, for a choice of owners.
* `Reliable`: The steps of a run in which every request takes effect.

## Theorems

* `Inv.step`: Every reliable step keeps the invariant.
* `Inv.settled`: After recovery every fork is live or gone.
* `forks_atomic`: What recovery leaves, after any history.
-/

namespace UniDb

open AssocMap List

namespace Fork

/-- There is nothing left to do for the fork in this pass or an earlier one. -/
def Done : RecoveryStage → ForkView → Prop
  | .pending, v => ∀ e, v.entry = some e → e.status ≠ .pending
  | .tombstoned, v => ∀ e, v.entry = some e → e.status = .active
  | .orphans, v => (∀ e, v.entry = some e → e.status = .active) ∧ v.tombstone = none

/-- The fork is as the pass expects it. -/
def Ready (r : Recovering) (info : ForkInfo) (v : ForkView) : Prop :=
  match r.stage with
  | .pending => Pending info v ∧ ∀ d, v.branched d → d ∈ r.candidates
  | .tombstoned | .orphans => ∃ t, Dropping t v ∧ t.id = info.id ∧ t.name = info.name ∧
      t.datasets = info.datasets

/-- A fork that no call works on. -/
def Idle (mode : Mode) (name : String) (id : ForkId) (v : ForkView) : Prop :=
  match mode with
  | .running => Settled name id v
  | .recovering r => Stage name id v ∧ ((∀ info ∈ r.queue, info.name ≠ name) → Done r.stage v)

section Passes

variable {name : String} {id : ForkId} {v : ForkView} {e : ForkInfo} (h : Settled name id v)

include h

theorem Settled.entry_active (he : v.entry = some e) : e.status = .active := by
  cases h with
  | gone h =>
    rw [h.entry] at he
    cases he
  | live _ _ h =>
    rw [h.entry, Option.some.injEq] at he
    exact he ▸ h.status

theorem Settled.tombstone : v.tombstone = none := by
  cases h with
  | gone h | live _ _ h => exact h.tombstone

theorem Settled.done (stage : RecoveryStage) : Done stage v := by
  cases stage with
  | pending => exact fun e he => by simp [h.entry_active he]
  | tombstoned => exact fun e he => h.entry_active he
  | orphans => exact ⟨fun e he => h.entry_active he, h.tombstone⟩

theorem Settled.idle (mode : Mode) : Idle mode name id v := by
  cases mode with
  | running => exact h
  | recovering r => exact ⟨h.stage, fun _ => h.done r.stage⟩

omit h

theorem Idle.stage {mode : Mode} (h : Idle mode name id v) : Stage name id v := by
  cases mode with
  | running => exact Settled.stage h
  | recovering => exact h.1

/-- After the last pass a fork is live or gone. -/
theorem Stage.settled (h : Stage name id v) (hdone : Done .orphans v) : Settled name id v := by
  cases h with
  | gone h => exact .gone h
  | live hid hname h => exact .live hid hname h
  | pending _ _ h =>
    have hactive := hdone.1 _ h.entry
    rw [h.status] at hactive
    cases hactive
  | dropping _ _ h =>
    have hnone := hdone.2
    rw [h.tombstone] at hnone
    cases hnone

theorem Stage.pending_of_entry (h : Stage name id v) (he : v.entry = some e)
    (hstatus : e.status = .pending) : Pending e v := by
  cases h with
  | gone h =>
    rw [h.entry] at he
    cases he
  | pending _ _ h =>
    rw [h.entry, Option.some.injEq] at he
    exact he ▸ h
  | live _ _ h =>
    rw [h.entry, Option.some.injEq] at he
    rw [← he, h.status] at hstatus
    cases hstatus
  | dropping _ _ h => exact absurd hstatus (h.entry e he).2.2.2

theorem Stage.dropping_of_entry (h : Stage name id v) (he : v.entry = some e)
    (hstatus : e.status = .tombstoned) :
    ∃ t, Dropping t v ∧ t.id = e.id ∧ t.name = e.name ∧ t.datasets = e.datasets := by
  cases h with
  | gone h =>
    rw [h.entry] at he
    cases he
  | pending _ _ h | live _ _ h =>
    rw [h.entry, Option.some.injEq] at he
    rw [← he, h.status] at hstatus
    cases hstatus
  | dropping _ _ h =>
    rcases h.entry e he with ⟨hid, hname, hdatasets, -⟩
    exact ⟨_, h, hid.symm, hname.symm, hdatasets.symm⟩

/-- What a pass does for a fork that is as the pass expects it. -/
theorem Ready.along {r : Recovering} {info : ForkInfo} (h : Ready r info v) :
    Leads info.name info.id (r.stage.acts r.candidates info) v ∧
      ∀ a ∈ r.stage.acts r.candidates info, a.Of info.name info.id := by
  unfold Ready at h
  cases hstage : r.stage with rw [hstage] at h
  | pending => exact ⟨along_rollback h.1 h.2, fun a => of_mem_rollbackActs h.1.datasets⟩
  | tombstoned | orphans =>
    rcases h with ⟨t, ht, hid, hname, hdatasets⟩
    have hown : OwnBranches info := by
      intro d b hb
      rw [← hid]
      exact ht.own d b (hdatasets ▸ hb)
    refine ⟨?_, fun a => of_mem_finishDropActs hown⟩
    rw [← hid, ← hname]
    exact along_finishDrop ht hdatasets.symm

end Passes

/-! ## The owners of names -/

/-- Every fork that has left something in the store owns its name. -/
structure Names (s : Forks) (own : String → Option ForkId) : Prop where
  inj : ∀ {n n' id}, own n = some id → own n' = some id → n = n'
  begun : ∀ {n id}, own n = some id → s.begun id = true
  entry : ∀ {n}, own n = none → s.handle.store.registry.lookup n = none
  other : ∀ {id}, (∀ n, own n ≠ some id) → ∀ n, Gone { s.view n id with entry := none }

/-- The owner of a name is where its call has got to, or at rest. -/
structure Owned (s : Forks) (own : String → Option ForkId) : Prop extends Names s own where
  free : ∀ {n}, own n = none → s.threads n = []
  acts : ∀ {n id}, own n = some id → ∀ a ∈ s.threads n, a.Of n id
  busy : ∀ {n id}, own n = some id → s.threads n ≠ [] →
    Leads n id (s.threads n) (s.view n id)
  idle : ∀ {n id}, own n = some id → s.threads n = [] → Idle s.mode n id (s.view n id)

/-- Recovery deals with one fork at a time, and those in the queue are as they
    were when the pass began. -/
structure Recovers (s : Forks) (own : String → Option ForkId) (r : Recovering) : Prop where
  nodup : (r.queue.map ForkInfo.name).Nodup
  queue : ∀ info ∈ r.queue, own info.name = some info.id ∧ s.threads info.name = [] ∧
    Ready r info (s.view info.name info.id)
  current : ∀ n, s.threads n ≠ [] → r.current = some n

structure Inv (s : Forks) : Prop where
  coherent : s.handle.Coherent
  traced : ∀ d b, (d, b) ∈ s.handle.store.branches → Act.createBranch d b ∈ s.trace
  activated : ∀ id n m, Act.activate id n m ∈ s.trace → s.begun id = true
  doomed : ∀ info, Act.putTombstone info ∈ s.trace → s.begun info.id = true
  owned : ∃ own, Owned s own ∧ ∀ r, s.mode = .recovering r → Recovers s own r
  returned : ∀ k, s.returned = some k → s.mode = .running ∧ ∀ n, s.threads n = []

variable {s : Forks} {own : String → Option ForkId} {id : ForkId} {n : String}

theorem Owned.stage (h : Owned s own) (hown : own n = some id) :
    Stage n id (s.view n id) := by
  by_cases hthread : s.threads n = []
  · exact (h.idle hown hthread).stage
  · exact Along.head (R := Stage n id) (fun _ _ h => h) (fun _ => Settled.stage)
      (h.busy hown hthread)

/-- The entry under a name is its owner's. -/
theorem Names.own_of_entry (h : Names s own) {e : ForkInfo}
    (he : s.handle.store.registry.lookup n = some e) : ∃ id, own n = some id := by
  cases hown : own n with
  | some id => exact ⟨id, rfl⟩
  | none =>
    rw [h.entry hown] at he
    cases he

theorem Names.own_of_tombstone (h : Names s own) {t : ForkInfo}
    (ht : s.handle.store.tombstones.lookup id = some t) : ∃ n, own n = some id := by
  by_contra hno
  have hgone := (h.other (not_exists.mp hno) "").tombstone
  simp only [Forks.view, ht] at hgone
  cases hgone

theorem begun_cons (h : s.begun id = true) (a : Act) : (a :: s.trace).any (fun a => match a with
      | .beginCreate info => info.id = id
      | _ => false) = true := by
  rw [any_cons, Bool.or_eq_true]
  exact .inr h

/-! ## One durable step -/

section Take

variable {s : Forks} {name : String} {a : Act} {rest : List Act}

theorem setThread_self (acts : List Act) : s.setThread name acts name = acts := if_pos rfl

theorem setThread_ne (hn : n ≠ name) (acts : List Act) :
    s.setThread name acts n = s.threads n := if_neg hn

variable {id : ForkId}

/-- The call under one name gets new steps, and the others are left alone. -/
theorem Owned.setThread {own own' : String → Option ForkId} (hO : Owned s own) {s' : Forks}
    {acts : List Act} (hN : Names s' own') (hown : own' name = some id)
    (hthreads : s'.threads = s.setThread name acts) (hsame : ∀ {n}, n ≠ name → own' n = own n)
    (hview : ∀ {n id'}, own n = some id' → n ≠ name → s'.view n id' = s.view n id')
    (hmode : ∀ n id v, n ≠ name → Idle s.mode n id v → Idle s'.mode n id v)
    (hacts : ∀ a ∈ acts, a.Of name id) (hbusy : acts ≠ [] → Leads name id acts (s'.view name id))
    (hidle : acts = [] → Idle s'.mode name id (s'.view name id)) : Owned s' own' := by
  have hat : ∀ {n id'}, own' n = some id' → s'.threads n = acts ∧ n = name ∧ id' = id ∨
      s'.threads n = s.threads n ∧ n ≠ name ∧ own n = some id' := by
    intro n id' hn
    rw [hthreads]
    by_cases hname : n = name
    · subst hname
      exact .inl ⟨setThread_self _, rfl, Option.some.inj (hn.symm.trans hown)⟩
    · exact .inr ⟨setThread_ne hname _, hname, hsame hname ▸ hn⟩
  refine ⟨hN, fun {n} hn => ?_, fun {n id'} hn a ha => ?_, fun {n id'} hn hthread => ?_,
    fun {n id'} hn hthread => ?_⟩
  · have hname : n ≠ name := fun h => by simp [h, hown] at hn
    rw [hthreads, setThread_ne hname]
    exact hO.free (hsame hname ▸ hn)
  · rcases hat hn with ⟨heq, rfl, rfl⟩ | ⟨heq, hname, hn⟩ <;> rw [heq] at ha
    · exact hacts a ha
    · exact hO.acts hn a ha
  · rcases hat hn with ⟨heq, rfl, rfl⟩ | ⟨heq, hname, hn⟩ <;> rw [heq] at hthread ⊢
    · exact hbusy hthread
    · rw [hview hn hname]
      exact hO.busy hn hthread
  · rcases hat hn with ⟨heq, rfl, rfl⟩ | ⟨heq, hname, hn⟩ <;> rw [heq] at hthread
    · exact hidle hthread
    · rw [hview hn hname]
      exact hmode n _ _ hname (hO.idle hn hthread)

theorem Owned.take {own : String → Option ForkId} (hO : Owned s own) (hc : s.handle.Coherent)
    (hthread : s.threads name = a :: rest) :
    Owned { s.after a true with threads := s.setThread name rest } own := by
  have hbusy : s.threads name ≠ [] := by simp [hthread]
  cases hown : own name with
  | none => exact absurd (hO.free hown) hbusy
  | some id =>
    have ha : a.Of name id := hO.acts hown a (by simp [hthread])
    have hne : ∀ {n id'}, own n = some id' → n ≠ name → id' ≠ id := by
      rintro n id' hn hname rfl
      exact hname (hO.inj hn hown)
    have hother : ∀ {n id'}, own n = some id' → n ≠ name →
        (s.after a true).view n id' = s.view n id' :=
      fun hn hname => view_after_other hc ha true hname (hne hn hname)
    have halong : Leads name id rest ((s.after a true).view name id) := by
      have h := hO.busy hown hbusy
      rw [hthread] at h
      rw [view_after hc ha]
      exact h.2
    refine hO.setThread ⟨hO.inj, fun hn => begun_cons (hO.begun hn) a, fun {n} hn => ?_,
      fun {id'} hno n => ?_⟩ hown rfl (fun _ => rfl) hother (fun _ _ _ _ h => h)
      (fun b hb => hO.acts hown b (by simp [hthread, hb])) (fun _ => halong)
      fun hrest => Settled.idle (hrest ▸ halong) s.mode
    · have hname : n ≠ name := fun h => by simp [h, hown] at hn
      have hentry := (Act.effect hc ha.under true).entry n
      rw [if_neg hname] at hentry
      exact hentry.trans (hO.entry hn)
    · have hid : id' ≠ id := fun h => hno name (h ▸ hown)
      show Gone { (s.after a true).view n id' with entry := none }
      rw [view_after_ne hc ha true hid n]
      exact hO.other hno n

theorem Inv.take (hI : Inv s) (hthread : s.threads name = a :: rest) :
    Inv { s.after a true with threads := s.setThread name rest } := by
  rcases hI.owned with ⟨own, hO, hR⟩
  have hbusy : s.threads name ≠ [] := by simp [hthread]
  rcases hown : own name with _ | id
  · exact absurd (hO.free hown) hbusy
  have ha : a.Of name id := hO.acts hown a (by simp [hthread])
  have heff := Act.effect hI.coherent ha.under true
  refine ⟨heff.coherent, fun d b hb => ?_, fun id' n m hm => ?_, fun info hinfo => ?_,
    ⟨own, hO.take hI.coherent hthread, fun r hr => ?_⟩, nofun⟩
  · -- a branch that is there now was there before or has just been created
    have hb := (heff.branch (d, b)).mp hb
    cases a with
    | createBranch =>
      rcases hb with hb | hb
      · rcases Prod.mk.inj hb with ⟨rfl, rfl⟩
        exact mem_cons_self
      · exact mem_cons_of_mem _ (hI.traced d b hb)
    | deleteBranch => exact mem_cons_of_mem _ (hI.traced d b hb.2)
    | _ => exact mem_cons_of_mem _ (hI.traced d b hb)
  · rcases mem_cons.mp hm with rfl | hm
    · exact begun_cons (ha.1 ▸ hO.begun hown) _
    · exact begun_cons (hI.activated id' n m hm) a
  · rcases mem_cons.mp hinfo with rfl | hinfo
    · exact begun_cons (ha.1 ▸ hO.begun hown) _
    · exact begun_cons (hI.doomed info hinfo) a
  · have hrec := hR r hr
    refine ⟨hrec.nodup, fun info hmem => ?_, fun n hn => ?_⟩
    · rcases hrec.queue info hmem with ⟨hinfo, hidle, hready⟩
      have hname : info.name ≠ name := fun h => hbusy (h ▸ hidle)
      have hid : info.id ≠ id := fun h => hname (hO.inj hinfo (h ▸ hown))
      refine ⟨hinfo, (setThread_ne hname rest).trans hidle, ?_⟩
      rw [← view_after_other hI.coherent ha true hname hid] at hready
      exact hready
    · by_cases hname : n = name
      · exact hname ▸ hrec.current name hbusy
      · refine hrec.current n ?_
        simpa only [setThread_ne hname] using hn

end Take

/-! ## Calls -/

section Calls

variable {s : Forks} {name : String}

theorem view_enlist {info : ForkInfo} {h : ForkRegistryHandle} (hc : s.handle.Coherent)
    (hbegin : s.handle.beginCreate info .good = (.ok (), h)) (acts : List Act) (n : String)
    (id : ForkId) : (s.enlist h info acts).view n id =
      { s.view n id with entry := if n = info.name then some info else (s.view n id).entry } := by
  have hcache : s.handle.cache = s.handle.store.registry := hc
  rcases beginCreate_ok hbegin with ⟨-, rfl⟩
  simp [Forks.view, Forks.enlist, hcache]

theorem Inv.create (hI : Inv s) {parent : Option ForkId} (datasets : List String)
    (restoreRace : Bool) {h : ForkRegistryHandle} (hmode : s.mode = .running)
    (hidle : s.threads name = []) (hfresh : s.begun id = false)
    (hbegin : s.handle.beginCreate (.newPending id name parent) .good = (.ok (), h)) :
    Inv (s.enlist h (.newPending id name parent)
      (createActs (.newPending id name parent) datasets restoreRace)) := by
  rcases hI.owned with ⟨own, hO, _⟩
  have hview := view_enlist hI.coherent hbegin
    (createActs (.newPending id name parent) datasets restoreRace)
  have hother : ∀ {n}, n ≠ name → ∀ id', (s.enlist h (.newPending id name parent)
      (createActs (.newPending id name parent) datasets restoreRace)).view n id' = s.view n id' :=
    fun hn id' => (hview _ id').trans (ForkView.ext (if_neg hn) rfl rfl rfl rfl)
  rcases beginCreate_ok hbegin with ⟨hnone, rfl⟩
  rw [hI.coherent] at hnone
  have hbegun : ∀ {id'}, s.begun id' = true → id' ≠ id := by
    rintro id' h rfl
    rw [h] at hfresh
    cases hfresh
  have hunowned : ∀ n, own n ≠ some id := fun n hn => hbegun (hO.begun hn) rfl
  -- the new fork has left no trace so far
  have hgone := hO.other hunowned name
  have hpending : Pending (.newPending id name parent) { s.view name id with
      entry := some (.newPending id name parent) } := by
    refine ⟨rfl, rfl, rfl, hgone.tombstone, fun n m hm => ?_, ?_⟩
    · exact hbegun (hI.activated id n m hm) rfl
    · rintro ⟨info, rfl, hinfo⟩
      exact hbegun (hI.doomed info hinfo) rfl
  let own' : String → Option ForkId := fun n => if n = name then some id else own n
  have hself : own' name = some id := if_pos rfl
  have hne : ∀ {n}, n ≠ name → own' n = own n := fun hn => if_neg hn
  refine ⟨rfl, fun d b hb => mem_cons_of_mem _ (hI.traced d b hb), fun id' n m hm => ?_,
    fun info hinfo => ?_, ⟨own', ?_, fun r hr => ?_⟩, nofun⟩
  · rcases mem_cons.mp hm with hm | hm
    · cases hm
    · exact begun_cons (hI.activated id' n m hm) _
  · rcases mem_cons.mp hinfo with hinfo | hinfo
    · cases hinfo
    · exact begun_cons (hI.doomed info hinfo) _
  · refine hO.setThread ⟨fun {n n' id'} hn hn' => ?_, fun {n id'} hn => ?_, fun {n} hn => ?_,
      fun {id'} hno n => ?_⟩ hself rfl hne (fun _ hname => hother hname _) (fun _ _ _ _ h => h)
      (fun a => of_mem_createActs) (fun _ => ?_) fun hnil => ?_
    · by_cases hname : n = name <;> by_cases hname' : n' = name
      · rw [hname, hname']
      · rw [hname, hself, Option.some.injEq] at hn
        exact absurd (hn ▸ hne hname' ▸ hn') (hunowned n')
      · rw [hname', hself, Option.some.injEq] at hn'
        exact absurd (hn' ▸ hne hname ▸ hn) (hunowned n)
      · exact hO.inj (hne hname ▸ hn) (hne hname' ▸ hn')
    · by_cases hname : n = name
      · rw [hname, hself, Option.some.injEq] at hn
        simp [Forks.begun, Forks.enlist, ForkInfo.newPending, hn]
      · exact begun_cons (hO.begun (hne hname ▸ hn)) _
    · have hname : n ≠ name := fun h => by simp [h, hself] at hn
      exact (congrArg ForkView.entry (hother hname id)).trans (hO.entry (hne hname ▸ hn))
    · rw [hview]
      by_cases hold : own name = some id'
      · -- the fork that owned the name before is gone
        have hsettled := hO.idle hold hidle
        rw [hmode] at hsettled
        cases hsettled with
        | gone h => exact ⟨rfl, h.tombstone, h.branched, h.history⟩
        | live _ _ h =>
          have hentry := h.entry
          simp only [Forks.view, show s.handle.store.registry.lookup name = none from hnone]
            at hentry
          cases hentry
      · refine hO.other (fun n' hn' => ?_) n
        by_cases hname : n' = name
        · exact hold (hname ▸ hn')
        · exact hno n' ((hne hname).trans hn')
    · rw [hview]
      simp only [ForkInfo.newPending, if_true]
      exact along_create hpending hgone.branched datasets restoreRace
    · cases restoreRace <;> simp [createActs] at hnil
  · rw [show s.mode = .recovering r from hr] at hmode
    cases hmode

/-- A fork at rest is given steps to take. -/
theorem Owned.assign {own : String → Option ForkId} (hO : Owned s own) (hown : own name = some id)
    {acts : List Act} (hne : acts ≠ []) (hacts : ∀ a ∈ acts, a.Of name id)
    (halong : Leads name id acts (s.view name id)) {mode : Mode}
    (hmode : ∀ n id v, n ≠ name → Idle s.mode n id v → Idle mode n id v) :
    Owned { s with mode := mode, threads := s.setThread name acts, returned := none } own :=
  hO.setThread ⟨hO.inj, hO.begun, hO.entry, hO.other⟩ hown rfl (fun _ => rfl) (fun _ _ => rfl)
    hmode hacts (fun _ => halong) fun hnil => absurd hnil hne

/-- A drop begins: the call holds the lock of the name, and nothing is stored yet. -/
theorem Inv.drop (hI : Inv s) {info : ForkInfo} (hmode : s.mode = .running)
    (hidle : s.threads name = []) (hinfo : s.handle.cache.lookup name = some info) :
    Inv { s with threads := s.setThread name (dropActs info), returned := none } := by
  rcases hI.owned with ⟨own, hO, _⟩
  rw [hI.coherent] at hinfo
  rcases hO.own_of_entry hinfo with ⟨id, hown⟩
  have hsettled := hO.idle hown hidle
  rw [hmode] at hsettled
  have hlive : Live info (s.view name id) ∧ info.id = id ∧ info.name = name := by
    cases hsettled with
    | gone h => exact absurd (h.entry.symm.trans hinfo) (by simp)
    | live hid hname h =>
      have heq : some _ = some info := h.entry.symm.trans hinfo
      rw [Option.some.injEq] at heq
      subst heq
      exact ⟨h, hid, hname⟩
  rcases hlive with ⟨hlive, rfl, rfl⟩
  have hne : dropActs info ≠ [] := by simp [dropActs]
  have hO' := hO.assign hown hne (fun a => of_mem_dropActs hlive.own) (along_drop hlive)
    (fun _ _ _ _ h => h)
  refine ⟨hI.coherent, hI.traced, hI.activated, hI.doomed, ⟨own, hO', fun r hr => ?_⟩,
    fun k hk => by cases hk⟩
  rw [show s.mode = .recovering r from hr] at hmode
  cases hmode

end Calls

/-! ## Recovery -/

section Recovery

variable {s : Forks} {own : String → Option ForkId} {h : ForkRegistryHandle} {info : ForkInfo}

theorem mem_withStatus {status : ForkStatus} :
    info ∈ h.withStatus status ↔ (∃ n, h.cache.lookup n = some info) ∧ info.status = status := by
  simp [ForkRegistryHandle.withStatus, mem_toList]

theorem mem_listTombstones :
    info ∈ h.listTombstones ↔ ∃ id, h.store.tombstones.lookup id = some info := by
  simp [ForkRegistryHandle.listTombstones, mem_toList]

/-- The names of entries differ, because the registry is keyed by them. -/
theorem nodup_withStatus (hkey : ∀ n e, h.cache.lookup n = some e → e.name = n)
    (status : ForkStatus) : ((h.withStatus status).map ForkInfo.name).Nodup := by
  have hnames : (h.cache.toList.map Prod.snd).map ForkInfo.name = h.cache.toList.map Prod.fst := by
    rw [map_map]
    refine map_congr_left fun e he => ?_
    exact hkey e.1 e.2 (mem_toList.mp he)
  have hnodup := toList_keys_nodup h.cache
  rw [← hnames] at hnodup
  exact hnodup.sublist (filter_sublist.map ForkInfo.name)

/-- The names of tombstones differ, because each belongs to the owner of its name. -/
theorem nodup_listTombstones (own : String → Option ForkId)
    (hkey : ∀ id t, h.store.tombstones.lookup id = some t → own t.name = some id) :
    (h.listTombstones.map ForkInfo.name).Nodup := by
  unfold ForkRegistryHandle.listTombstones
  rw [map_map]
  refine List.Nodup.map_on ?_ (List.Nodup.of_map Prod.fst (toList_keys_nodup _))
  rintro ⟨id, t⟩ ht ⟨id', t'⟩ ht' hname
  have hown := hkey id t (mem_toList.mp ht)
  have hown' := hkey id' t' (mem_toList.mp ht')
  simp only [Function.comp_apply] at hname
  rw [hname, hown', Option.some.injEq] at hown
  subst hown
  have heq := (mem_toList.mp ht).symm.trans (mem_toList.mp ht')
  rw [Option.some.inj heq]

/-- A state in which no call is under way, so that every owner is in a stage. -/
structure Quiet (s : Forks) (own : String → Option ForkId) : Prop extends Names s own where
  coherent : s.handle.Coherent
  threads : ∀ n, s.threads n = []
  stage : ∀ {n id}, own n = some id → Stage n id (s.view n id)

theorem Quiet.own_entry (hQ : Quiet s own) {e : ForkInfo} (he : s.handle.cache.lookup n = some e) :
    own e.name = some e.id ∧ e.name = n ∧ Stage e.name e.id (s.view e.name e.id) ∧
      (s.view e.name e.id).entry = some e := by
  rw [hQ.coherent] at he
  rcases hQ.own_of_entry he with ⟨id, hown⟩
  rcases (hQ.stage hown).entry he with ⟨rfl, rfl⟩
  exact ⟨hown, rfl, hQ.stage hown, he⟩

theorem Quiet.own_tombstone (hQ : Quiet s own) {t : ForkInfo}
    (ht : s.handle.store.tombstones.lookup id = some t) :
    own t.name = some t.id ∧ t.id = id ∧ Dropping t (s.view t.name t.id) := by
  rcases hQ.own_of_tombstone ht with ⟨n, hown⟩
  rcases (hQ.stage hown).dropping_of_tombstone ht with ⟨rfl, rfl, hdrop⟩
  exact ⟨hown, rfl, hdrop⟩

variable {r : Recovering}

/-- A pass that begins finds its forks as it expects them. -/
theorem Quiet.recovers (hQ : Quiet s own) (hqueue : r.queue = r.stage.snapshot s.handle)
    (hcandidates : r.stage = .pending → ∀ d b, (d, b) ∈ s.handle.store.branches →
      d ∈ r.candidates) :
    Recovers s own r := by
  refine ⟨?_, fun info hmem => ?_, fun n hn => absurd (hQ.threads n) hn⟩
  · rw [hqueue]
    cases hstage : r.stage with
    | pending | tombstoned =>
      exact nodup_withStatus (fun n e he => (hQ.own_entry he).2.1) _
    | orphans =>
      refine nodup_listTombstones own fun id t ht => ?_
      rcases hQ.own_tombstone ht with ⟨hown, rfl, -⟩
      exact hown
  · rw [hqueue] at hmem
    unfold Ready
    cases hstage : r.stage with rw [hstage] at hmem
    | pending =>
      rcases mem_withStatus.mp hmem with ⟨⟨n, he⟩, hstatus⟩
      rcases hQ.own_entry he with ⟨hown, -, hst, hentry⟩
      exact ⟨hown, hQ.threads _, hst.pending_of_entry hentry hstatus,
        fun d hd => hcandidates hstage d _ hd⟩
    | tombstoned =>
      rcases mem_withStatus.mp hmem with ⟨⟨n, he⟩, hstatus⟩
      rcases hQ.own_entry he with ⟨hown, -, hst, hentry⟩
      exact ⟨hown, hQ.threads _, hst.dropping_of_entry hentry hstatus⟩
    | orphans =>
      rcases mem_listTombstones.mp hmem with ⟨id, ht⟩
      rcases hQ.own_tombstone ht with ⟨hown, -, hdrop⟩
      exact ⟨hown, hQ.threads _, info, hdrop, rfl, rfl, rfl⟩

/-- What the pass before this one has done for every fork. -/
def DoneBefore : RecoveryStage → ForkView → Prop
  | .pending, _ => True
  | .tombstoned, v => Done .pending v
  | .orphans, v => Done .tombstoned v

/-- A pass that begins has nothing to do for the forks that are not in its queue. -/
theorem Quiet.done_of_notMem (hQ : Quiet s own) (stage : RecoveryStage)
    (hown : own n = some id) (hbefore : DoneBefore stage (s.view n id))
    (hnot : ∀ info ∈ stage.snapshot s.handle, info.name ≠ n) : Done stage (s.view n id) := by
  have hcache : ∀ {e}, (s.view n id).entry = some e → s.handle.cache.lookup n = some e := by
    intro e he
    rw [hQ.coherent]
    exact he
  cases stage with
  | pending =>
    intro e he hstatus
    exact hnot e (mem_withStatus.mpr ⟨⟨n, hcache he⟩, hstatus⟩) (hQ.own_entry (hcache he)).2.1
  | tombstoned =>
    intro e he
    cases hstatus : e.status with
    | active => rfl
    | pending => exact absurd hstatus (hbefore e he)
    | tombstoned =>
      exact absurd (hQ.own_entry (hcache he)).2.1
        (hnot e (mem_withStatus.mpr ⟨⟨n, hcache he⟩, hstatus⟩))
  | orphans =>
    refine ⟨hbefore, ?_⟩
    cases ht : (s.view n id).tombstone with
    | none => rfl
    | some t =>
      rcases (hQ.stage hown).dropping_of_tombstone ht with ⟨-, hname, -⟩
      exact absurd hname (hnot t (mem_listTombstones.mpr ⟨id, ht⟩))

/-- The database is opened again, and the first pass begins. -/
theorem Inv.reopened (hI : Inv s) {candidates : List String}
    (hcandidates : ∀ d b, Act.createBranch d b ∈ s.trace → d ∈ candidates) :
    Inv (s.reopened candidates) := by
  rcases hI.owned with ⟨own, hO, _⟩
  have hQ : Quiet (s.reopened candidates) own :=
    ⟨⟨hO.inj, hO.begun, hO.entry, hO.other⟩, rfl, fun _ => rfl, hO.stage⟩
  refine ⟨rfl, hI.traced, hI.activated, hI.doomed, ⟨own, ⟨hQ.toNames, fun _ => rfl,
    nofun, fun _ h => absurd rfl h, fun hown _ => ?_⟩,
    fun r hr => ?_⟩, nofun⟩
  · exact ⟨hQ.stage hown, hQ.done_of_notMem .pending hown trivial⟩
  · cases hr
    exact hQ.recovers rfl fun _ d b hb => hcandidates d b (hI.traced d b hb)

theorem Inv.next (hI : Inv s) {queue : List ForkInfo} (hmode : s.mode = .recovering r)
    (hcurrent : r.current = none) (hqueue : r.queue = info :: queue) :
    Inv { s with
      mode := .recovering
        { r with current := some info.name, queue := queue, reconciled := r.reconciled + 1 }
      threads := s.setThread info.name (r.stage.acts r.candidates info)
      returned := none } := by
  rcases hI.owned with ⟨own, hO, hR⟩
  have hrec := hR r hmode
  have hnodup := hrec.nodup
  rw [hqueue, map_cons, nodup_cons] at hnodup
  rcases hrec.queue info (by simp [hqueue]) with ⟨hown, hidle, hready⟩
  have hne : r.stage.acts r.candidates info ≠ [] := by
    cases r.stage <;> simp [RecoveryStage.acts, rollbackActs, finishDropActs]
  refine ⟨hI.coherent, hI.traced, hI.activated, hI.doomed,
    ⟨own, hO.assign hown hne hready.along.2 hready.along.1 ?_, fun r' hr' => ?_⟩,
    fun k hk => by cases hk⟩
  · intro n id v hn h
    rw [hmode] at h
    refine ⟨h.1, fun hnot => h.2 ?_⟩
    rw [hqueue, forall_mem_cons]
    exact ⟨hn.symm, hnot⟩
  · cases hr'
    refine ⟨hnodup.2, fun info' hmem => ?_, fun n hn => ?_⟩
    · rcases hrec.queue info' (by simp [hqueue, hmem]) with ⟨hown', hidle', hready'⟩
      have hname : info'.name ≠ info.name :=
        fun h => hnodup.1 (h ▸ mem_map_of_mem hmem)
      exact ⟨hown', (setThread_ne hname _).trans hidle', hready'⟩
    · by_cases hname : n = info.name
      · rw [hname]
      · have hthread := hrec.current n (by simpa only [setThread_ne hname] using hn)
        rw [hcurrent] at hthread
        cases hthread

/-- No fork is being dealt with, so every owner is in a stage. -/
theorem Inv.quiet (hI : Inv s) (hmode : s.mode = .recovering r) (hcurrent : r.current = none)
    (hqueue : r.queue = []) :
    ∃ own, Quiet s own ∧ ∀ n id, own n = some id → Done r.stage (s.view n id) := by
  rcases hI.owned with ⟨own, hO, hR⟩
  have hthreads : ∀ n, s.threads n = [] := by
    intro n
    by_contra hn
    have hthread := (hR r hmode).current n hn
    rw [hcurrent] at hthread
    cases hthread
  refine ⟨own, ⟨hO.toNames, hI.coherent, hthreads, hO.stage⟩, fun n id hown => ?_⟩
  have hidle := hO.idle hown (hthreads n)
  rw [hmode] at hidle
  exact hidle.2 (by simp [hqueue])

/-- The next pass begins. -/
theorem Inv.stage (hI : Inv s) {stage : RecoveryStage} (hmode : s.mode = .recovering r)
    (hcurrent : r.current = none) (hqueue : r.queue = [])
    (hstage : r.stage = .pending ∧ stage = .tombstoned ∨ r.stage = .tombstoned ∧ stage = .orphans) :
    Inv { s with
      mode := .recovering { r with stage := stage, queue := stage.snapshot s.handle }
      returned := none } := by
  rcases hI.quiet hmode hcurrent hqueue with ⟨own, hQ, hdone⟩
  have hbefore : ∀ n id, own n = some id → DoneBefore stage (s.view n id) := by
    intro n id hown
    have h := hdone n id hown
    rcases hstage with ⟨hst, rfl⟩ | ⟨hst, rfl⟩ <;> rw [hst] at h <;> exact h
  have hQ' : Quiet { s with
      mode := .recovering { r with stage := stage, queue := stage.snapshot s.handle }
      returned := none } own :=
    ⟨⟨hQ.inj, hQ.begun, hQ.entry, hQ.other⟩, hQ.coherent, hQ.threads, hQ.stage⟩
  refine ⟨hI.coherent, hI.traced, hI.activated, hI.doomed, ⟨own, ⟨hQ'.toNames,
    fun _ => hQ.threads _, fun _ a ha => ?_, fun _ h => absurd (hQ.threads _) h,
    fun hown _ => ?_⟩, fun r' hr' => ?_⟩, nofun⟩
  · simp only [hQ.threads, not_mem_nil] at ha
  · exact ⟨hQ.stage hown, hQ'.done_of_notMem stage hown (hbefore _ _ hown)⟩
  · cases hr'
    refine hQ'.recovers rfl fun hpending => ?_
    rcases hstage with ⟨-, rfl⟩ | ⟨-, rfl⟩ <;> cases hpending

theorem Inv.finish (hI : Inv s) (hmode : s.mode = .recovering r) (hcurrent : r.current = none)
    (hqueue : r.queue = []) (hstage : r.stage = .orphans) :
    Inv { s with mode := .running, returned := some r.reconciled } := by
  rcases hI.quiet hmode hcurrent hqueue with ⟨own, hQ, hdone⟩
  refine ⟨hI.coherent, hI.traced, hI.activated, hI.doomed, ⟨own, ⟨⟨hQ.inj, hQ.begun, hQ.entry,
    hQ.other⟩, fun _ => hQ.threads _, fun _ a ha => ?_, fun _ h => absurd (hQ.threads _) h,
    fun hown _ => ?_⟩, nofun⟩, fun k _ => ⟨rfl, hQ.threads⟩⟩
  · simp only [hQ.threads, not_mem_nil] at ha
  · exact (hQ.stage hown).settled (hstage ▸ hdone _ _ hown)

/-- The fork that recovery deals with is finished. -/
theorem Inv.done (hI : Inv s) {name : String} (hmode : s.mode = .recovering r)
    (hcurrent : r.current = some name) (hthread : s.threads name = []) :
    Inv { s with mode := .recovering { r with current := none }, returned := none } := by
  rcases hI.owned with ⟨own, hO, hR⟩
  have hrec := hR r hmode
  refine ⟨hI.coherent, hI.traced, hI.activated, hI.doomed, ⟨own, ⟨⟨hO.inj, hO.begun, hO.entry,
    hO.other⟩, hO.free, hO.acts, hO.busy, fun hown hidle => ?_⟩, fun r' hr' => ?_⟩,
    nofun⟩
  · have h := hO.idle hown hidle
    rw [hmode] at h
    exact h
  · cases hr'
    refine ⟨hrec.nodup, hrec.queue, fun n hn => ?_⟩
    have hname := hrec.current n hn
    rw [hcurrent, Option.some.injEq] at hname
    exact absurd (hname ▸ hthread) hn

end Recovery

/-! ## Whole histories -/

/-- The dataset that a step branches. -/
def Act.branches : Act → Option String
  | .createBranch dataset _ => some dataset
  | _ => none

/-- Every request takes effect, and the candidates that a database is opened
    with name every dataset that was ever branched. -/
def Reliable (s : Forks) : Action → Prop
  | .act _ deletes | .recover deletes => deletes = true
  | .reopen candidates => ∀ d ∈ s.trace.filterMap Act.branches, d ∈ candidates
  | .create .. | .drop _ => True

instance (s : Forks) (action : Action) : Decidable (Reliable s action) := by
  cases action <;> unfold Reliable <;> infer_instance

theorem Inv.step {s' : Forks} {action : Action} (hI : Inv s) (hrel : Reliable s action)
    (h : s.step action = some s') : Inv s' := by
  cases Forks.stepCase_of_step h with
  | create hmode hidle hfresh hbegin => exact hI.create _ _ hmode hidle hfresh hbegin
  | drop hmode hidle hinfo => exact hI.drop hmode hidle hinfo
  | act hmode hthread =>
    cases hrel
    exact hI.take hthread
  | reopen =>
    refine hI.reopened fun d b hb => hrel d ?_
    exact mem_filterMap.mpr ⟨.createBranch d b, hb, rfl⟩
  | recoverAct hmode hcurrent hthread =>
    cases hrel
    exact hI.take hthread
  | recoverDone hmode hcurrent hthread => exact hI.done hmode hcurrent hthread
  | recoverNext hmode hcurrent hqueue => exact hI.next hmode hcurrent hqueue
  | recoverStage hmode hcurrent hqueue hstage => exact hI.stage hmode hcurrent hqueue hstage
  | recoverEnd hmode hcurrent hqueue hstage => exact hI.finish hmode hcurrent hqueue hstage

theorem inv_start (maxForks : Option Nat) : Inv (Forks.start maxForks) where
  coherent := rfl
  traced _ _ hb := absurd hb (AList.notMem_empty _)
  activated _ _ _ h := absurd h not_mem_nil
  doomed _ h := absurd h not_mem_nil
  owned := by
    have hnone : ∀ {id : ForkId}, (none : Option ForkId) ≠ some id := nofun
    refine ⟨fun _ => none, ⟨⟨fun h => absurd h hnone, fun h => absurd h hnone, fun _ => rfl,
      fun _ n => ?_⟩, fun _ => rfl, fun h => absurd h hnone, fun h => absurd h hnone,
      fun h => absurd h hnone⟩, nofun⟩
    exact ⟨rfl, rfl, fun d hd => absurd hd (AList.notMem_empty _),
      .inr nofun⟩
  returned k hk := by cases hk

/-- The activation of the fork was stored and its tombstone never was. -/
def Survives (s : Forks) (id : ForkId) : Prop :=
  (∃ name datasets, Act.activate id name datasets ∈ s.trace) ∧
    ∀ info : ForkInfo, info.id = id → Act.putTombstone info ∉ s.trace

/-- Right after recovery every fork is live or gone. -/
theorem Inv.settled (hI : Inv s) {k : Nat} (hk : s.returned = some k) :
    ∃ own, Names s own ∧ ∀ n id, own n = some id → Settled n id (s.view n id) := by
  rcases hI.owned with ⟨own, hO, _⟩
  rcases hI.returned k hk with ⟨hmode, hthreads⟩
  refine ⟨own, hO.toNames, fun n id hown => ?_⟩
  have h := hO.idle hown (hthreads n)
  rw [hmode] at h
  exact h

section Results

variable {s : Forks} {own : String → Option ForkId}

theorem live_of_entry (hN : Names s own) (hS : ∀ n id, own n = some id → Settled n id (s.view n id))
    {e : ForkInfo} (he : s.handle.store.registry.lookup n = some e) :
    own n = some e.id ∧ e.name = n ∧ Live e (s.view n e.id) := by
  rcases hN.own_of_entry he with ⟨id, hown⟩
  cases hS n id hown with
  | gone h => exact absurd (h.entry.symm.trans he) (by simp)
  | live hid hname h =>
    have heq : some _ = some e := h.entry.symm.trans he
    rw [Option.some.injEq] at heq
    subst heq
    subst hid
    exact ⟨hown, hname, h⟩

theorem live_of_survives (hN : Names s own)
    (hS : ∀ n id, own n = some id → Settled n id (s.view n id)) (hsurvives : Survives s id) :
    ∃ info : ForkInfo, info.id = id ∧
      s.handle.store.registry.lookup info.name = some info ∧ Live info (s.view info.name id) := by
  rcases hsurvives with ⟨⟨name, datasets, hact⟩, hdoomed⟩
  have hgone : ∀ n, ¬ Gone { s.view n id with entry := none } := by
    intro n h
    rcases h.history with ⟨info, hid, htomb⟩ | h
    · exact hdoomed info hid htomb
    · exact h name datasets hact
  by_cases hown : ∃ n, own n = some id
  · rcases hown with ⟨n, hown⟩
    cases hS n id hown with
    | gone h => exact absurd ⟨rfl, h.tombstone, h.branched, h.history⟩ (hgone n)
    | live hid hname h =>
      subst hname
      exact ⟨_, hid, h.entry, h⟩
  · exact absurd (hN.other (not_exists.mp hown) name) (hgone name)

theorem survives_of_branch (hN : Names s own)
    (hS : ∀ n id, own n = some id → Settled n id (s.view n id)) {d : String}
    (hb : (d, branchName id d) ∈ s.handle.store.branches) : Survives s id := by
  by_cases hown : ∃ n, own n = some id
  · rcases hown with ⟨n, hown⟩
    cases hS n id hown with
    | gone h => exact absurd hb (h.branched d)
    | live hid hname h =>
      exact ⟨⟨_, _, (h.activated _ _).mpr ⟨rfl, rfl⟩⟩,
        fun info hinfo htomb => h.doomed ⟨info, hinfo, htomb⟩⟩
  · exact absurd hb ((hN.other (not_exists.mp hown) "").branched d)

end Results

/-- A recovery that finds no pending or marked entry and no tombstone does nothing. -/
theorem recoverForks_of_clean {h : ForkRegistryHandle} (candidates : List String)
    (hactive : ∀ n e, h.cache.lookup n = some e → e.status = .active)
    (htomb : ∀ id, h.store.tombstones.lookup id = none) : recoverForks candidates h = (h, 0) := by
  have hstatus : ∀ status, status ≠ .active → h.withStatus status = [] := by
    intro status hne
    rw [eq_nil_iff_forall_not_mem]
    intro info hinfo
    rcases mem_withStatus.mp hinfo with ⟨⟨n, he⟩, hs⟩
    exact hne (hs.symm.trans (hactive n info he))
  have horphans : h.listTombstones = [] := by
    rw [eq_nil_iff_forall_not_mem]
    intro info hinfo
    rcases mem_listTombstones.mp hinfo with ⟨id, ht⟩
    rw [htomb id] at ht
    cases ht
  simp [recoverForks, hstatus .pending (by simp), hstatus .tombstoned (by simp), horphans]

/-- After any history of creations, drops and crashes, recovery completes, and it leaves exactly the
    forks whose activation was stored and whose tombstone was not. -/
theorem forks_atomic {maxForks : Option Nat} {actions : List Action} {s : Forks}
    (hrel : EveryStep Forks.step Reliable (Forks.start maxForks) actions)
    (hrun : run Forks.step (Forks.start maxForks) actions = some s) :
    (∀ candidates, ∃ (k : Nat) (t : Forks),
      run Forks.step s (.reopen candidates :: Forks.recoverSteps k) = some t ∧
      t.handle = (recoverForks candidates (.load s.handle.store s.handle.maxForks)).1 ∧
      t.returned = some (recoverForks candidates (.load s.handle.store s.handle.maxForks)).2) ∧
    ∀ k, s.returned = some k →
      (∀ n e, s.handle.store.registry.lookup n = some e → e.status = .active) ∧
      (∀ id, s.handle.store.tombstones.lookup id = none) ∧
      (∀ id name datasets, Act.activate id name datasets ∈ s.trace →
        (∀ info : ForkInfo, info.id = id → Act.putTombstone info ∉ s.trace) →
        ∃ info : ForkInfo, s.handle.store.registry.lookup name = some info ∧ info.id = id ∧
          info.datasets = datasets ∧
          ∀ d b, datasets.lookup d = some b → (d, b) ∈ s.handle.store.branches) ∧
      (∀ id, ¬ Survives s id → (∀ n e, s.handle.store.registry.lookup n = some e → e.id ≠ id) ∧
        ∀ d, (d, branchName id d) ∉ s.handle.store.branches) ∧
      ∀ candidates, recoverForks candidates (.load s.handle.store s.handle.maxForks) =
        (.load s.handle.store s.handle.maxForks, 0) := by
  have hI : Inv s :=
    run_invariant_of_everyStep (fun _ _ _ hI hC h => hI.step hC h) (inv_start maxForks) hrel hrun
  refine ⟨s.recover_returns, fun k hk => ?_⟩
  -- once recovery has returned, every fork is live or gone
  rcases hI.settled hk with ⟨own, hN, hS⟩
  have hactive : ∀ n e, s.handle.store.registry.lookup n = some e → e.status = .active :=
    fun n e he => (live_of_entry hN hS he).2.2.status
  have htomb : ∀ id, s.handle.store.tombstones.lookup id = none := by
    intro id
    cases ht : s.handle.store.tombstones.lookup id with
    | none => rfl
    | some =>
      rcases hN.own_of_tombstone ht with ⟨n, hown⟩
      exact ht.symm.trans (hS n id hown).tombstone
  refine ⟨hactive, htomb, fun id name datasets hact hdoomed => ?_, fun id hgone => ⟨?_, ?_⟩,
    fun candidates => recoverForks_of_clean candidates hactive htomb⟩
  · rcases live_of_survives hN hS ⟨⟨name, datasets, hact⟩, hdoomed⟩ with ⟨info, rfl, he, hlive⟩
    rcases (hlive.activated name datasets).mp hact with ⟨rfl, rfl⟩
    refine ⟨info, he, rfl, rfl, fun d b hb => ?_⟩
    rw [hlive.own d b hb]
    exact (hlive.branched d).mpr (mem_of_lookup hb)
  -- an entry is a live fork, and a live fork was activated and has no tombstone
  · rintro n e he rfl
    have hlive := (live_of_entry hN hS he).2.2
    exact hgone ⟨⟨_, _, (hlive.activated _ _).mpr ⟨rfl, rfl⟩⟩,
      fun info hid htomb => hlive.doomed ⟨info, hid, htomb⟩⟩
  · exact fun d hb => hgone (survives_of_branch hN hS hb)

/-- Two forks are created and the drop of one is cut off, with the creation of a third. The recovery
    from that is cut off as well. -/
def cutActions : List Action :=
  [.create ⟨"01"⟩ "a" none ["vertices"] false, .act "a" true, .act "a" true, .act "a" true,
    .create ⟨"03"⟩ "c" none ["vertices"] false, .act "c" true, .act "c" true, .act "c" true,
    .act "c" true, .drop "c", .act "c" true, .act "c" true,
    .create ⟨"02"⟩ "b" none ["vertices"] false, .act "b" true, .act "b" true,
    .reopen ["vertices"], .recover true, .recover true, .reopen ["vertices"]] ++
    Forks.recoverSteps 15

/-- The fork `a` is left, and what was half dropped or half created is gone. -/
theorem forks_atomic_cut :
    EveryStep Forks.step Reliable (Forks.start none) cutActions ∧
    ∃ s, run Forks.step (Forks.start none) cutActions = some s ∧ s.returned = some 2 ∧
      (∀ n e, s.handle.store.registry.lookup n = some e → e.status = .active) ∧
      (∀ id, s.handle.store.tombstones.lookup id = none) ∧
      (∃ info, s.handle.store.registry.lookup "a" = some info ∧ info.id = ⟨"01"⟩) ∧
      ∀ n e, s.handle.store.registry.lookup n = some e → e.id ≠ ⟨"03"⟩ := by
  have hrel : EveryStep Forks.step Reliable (Forks.start none) cutActions := by decide +kernel
  have hreturned : (run Forks.step (Forks.start none) cutActions).bind Forks.returned = some 2 := by
    decide +kernel
  rcases Option.bind_eq_some_iff.mp hreturned with ⟨s, hrun, hk⟩
  have hactivated : ∀ t ∈ run Forks.step (Forks.start none) cutActions, ∃ a ∈ t.trace,
      (match a with
        | .activate id name _ => decide (id = ⟨"01"⟩ ∧ name = "a")
        | _ => false) = true := by
    decide +kernel
  have hkept : ∀ t ∈ run Forks.step (Forks.start none) cutActions, ∀ a ∈ t.trace,
      (match a with
        | .putTombstone info => decide (info.id ≠ ⟨"01"⟩)
        | _ => true) = true := by
    decide +kernel
  have hdropped : ∀ t ∈ run Forks.step (Forks.start none) cutActions, ∃ a ∈ t.trace,
      (match a with
        | .putTombstone info => decide (info.id = ⟨"03"⟩)
        | _ => false) = true := by
    decide +kernel
  rcases (forks_atomic hrel hrun).2 2 hk with ⟨hactive, htomb, hsurvives, hgone, -⟩
  refine ⟨hrel, s, hrun, hk, hactive, htomb, ?_, (hgone ⟨"03"⟩ fun hsurvives => ?_).1⟩
  · rcases hactivated s hrun with ⟨a, ha, hmatch⟩
    cases a with
    | activate =>
      rcases of_decide_eq_true hmatch with ⟨rfl, rfl⟩
      rcases hsurvives _ _ _ ha (fun info hid htrace =>
        of_decide_eq_true (hkept s hrun _ htrace) hid) with ⟨info, he, hid, -⟩
      exact ⟨info, he, hid⟩
    | _ => cases hmatch
  · rcases hdropped s hrun with ⟨a, ha, hmatch⟩
    cases a with
    | putTombstone info => exact hsurvives.2 info (of_decide_eq_true hmatch) ha
    | _ => cases hmatch

end Fork

end UniDb
