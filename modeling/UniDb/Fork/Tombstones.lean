import UniDb.Fork.CrashAtomicity

/-!
# Left-Over Tombstones

Recovery removes only forks that were being dropped, unless a name is used again
while the tombstone of its last fork is still there.

The store may refuse to delete a tombstone file. The drop succeeds all the same,
so the file is left behind and recovery sweeps it when the database is opened
next. The sweep removes the entry under the *name* in the tombstone, whatever
fork it belongs to by then: a fork that was created again under the name is lost
(`recovery_removes_recreated`).

If no fork is created under a name while a tombstone with that name is left,
then the entry under the name of a tombstone is always the tombstone's own, and
recovery removes no active fork but those whose tombstone was stored.

## Main definitions

* `Watch`, `Fit`: The entry under a name, and steps that may be taken on it.
* `Tidy`: The invariant.
* `NoLeftOver`: No fork is created under the name of a left-over tombstone.

## Theorems

* `Tidy.step`: Every such step keeps the invariant.
* `recovery_removes_dropped`: Recovery removes only forks that were dropped.
* `recovery_removes_recreated`: A fork that was created again is removed.
-/

namespace UniDb

open List

namespace Fork

/-- The tombstone of the fork was stored at some point. -/
def Forks.doomed (s : Forks) (id : ForkId) : Prop :=
  ∃ info : ForkInfo, info.id = id ∧ Act.putTombstone info ∈ s.trace

/-! ## Steps on one entry -/

/-- The entry under a name, and the forks that were dropped. -/
structure Watch where
  entry : Option ForkInfo
  doomed : ForkId → Prop

def Watch.step (w : Watch) (a : Act) : Watch where
  entry := a.onEntry w.entry
  doomed id := (∃ info : ForkInfo, info.id = id ∧ Act.putTombstone info = a) ∨ w.doomed id

/-- Steps that remove an entry only if it is not active or was dropped. -/
def Watch.Allows (name : String) (w : Watch) : Act → Prop
  | .beginCreate _ => False
  | .activate _ name' _ => name' = name
  | .putTombstone info => info.name = name ∧ ∀ e, w.entry = some e → e.id = info.id
  | .flip name' | .clear name' => name' = name ∧ ∀ e, w.entry = some e → w.doomed e.id
  | .discard name' => name' = name ∧ ∀ e, w.entry = some e → e.status ≠ .active
  | _ => True

/-- Each of the steps is allowed when its turn comes. -/
abbrev Fit (name : String) : List Act → Watch → Prop :=
  Along Watch.step (Watch.Allows name) fun _ => True

variable {name : String} {w : Watch} {a : Act}

theorem Watch.Allows.under (h : w.Allows name a) : a.Under name := by
  cases a with
  | beginCreate | activate => exact h
  | discard | flip | clear => exact h.1
  | _ => trivial

/-- A fork that is dropped stays dropped. -/
theorem Fit.mono {acts : List Act} {e : Option ForkInfo} {D D' : ForkId → Prop}
    (hD : ∀ id, D id → D' id) (h : Fit name acts ⟨e, D⟩) : Fit name acts ⟨e, D'⟩ := by
  induction acts generalizing e D D' with
  | nil => trivial
  | cons a acts ih =>
    refine ⟨?_, ih (fun id hid => hid.imp_right (hD id)) h.2⟩
    have hallows := h.1
    cases a with
    | flip | clear => exact ⟨hallows.1, fun e he => hD _ (hallows.2 e he)⟩
    | _ => exact hallows

theorem fit_createActs (id : ForkId) (name : String) (parent : Option ForkId)
    (datasets : List String) (restoreRace : Bool) (D : ForkId → Prop) :
    Fit name (createActs (.newPending id name parent) datasets restoreRace)
      ⟨some (.newPending id name parent), D⟩ := by
  cases restoreRace with
  | true =>
    refine ⟨⟨rfl, ?_⟩, trivial, trivial⟩
    rintro e he
    cases he
    simp [ForkInfo.newPending]
  | false =>
    refine ⟨trivial, along_append (R := fun _ => True) ?_ fun _ _ => ⟨rfl, trivial, trivial⟩⟩
    exact along_loop (I := fun _ _ => True) _ (fun _ _ _ _ => trivial) (fun _ _ _ _ => trivial)
      datasets trivial

theorem fit_deletes {β : Type} (g : β → String × String) (bs : List β) {I : Watch → Prop}
    (hI : ∀ w d b, I w → I (w.step (.deleteBranch d b))) (h : I w) :
    Along Watch.step (Watch.Allows name) I (bs.map fun b => .deleteBranch (g b).1 (g b).2) w :=
  along_loop (I := fun _ => I) _ (fun _ _ _ _ => trivial) (fun _ _ w => hI w _ _) bs h

/-- The entry, if there is one, is of a fork that was dropped. -/
def Watch.Dropped (w : Watch) : Prop := ∀ e, w.entry = some e → w.doomed e.id

/-- The entry, if there is one, is not active. -/
def Watch.Inactive (w : Watch) : Prop := ∀ e, w.entry = some e → e.status ≠ .active

theorem fit_finishDropActs (info : ForkInfo) (h : w.Dropped) :
    Fit info.name (finishDropActs info) w := by
  refine along_append (fit_deletes id info.datasets.toList ?_ h) ?_
  · exact fun w d b hw e he => .inr (hw e he)
  · exact fun w hw => ⟨trivial, ⟨rfl, fun e he => .inr (hw e he)⟩, trivial, trivial, trivial⟩

theorem fit_rollbackActs (candidates : List String) (info : ForkInfo) (h : w.Inactive) :
    Fit info.name (rollbackActs candidates info) w := by
  refine along_append (R := Watch.Inactive) (along_append (R := Watch.Inactive) ?_ ?_) ?_
  · split
    · exact h
    · exact fit_deletes id info.datasets.toList (fun _ _ _ hw => hw) h
  · exact fun w hw => fit_deletes (fun d => (d, branchName info.id d)) candidates
      (fun _ _ _ hw => hw) hw
  · exact fun w hw => ⟨⟨rfl, hw⟩, trivial, trivial⟩

theorem fit_dropActs (info : ForkInfo) (D : ForkId → Prop) :
    Fit info.name (dropActs info) ⟨some info, D⟩ := by
  have hdoomed : ∀ e, some info = some e → (∃ i : ForkInfo, i.id = e.id ∧
      Act.putTombstone i = .putTombstone info) ∨ D e.id := by
    rintro e he
    cases he
    exact .inl ⟨info, rfl, rfl⟩
  refine ⟨⟨rfl, fun e he => by cases he; rfl⟩, ⟨rfl, hdoomed⟩, fit_finishDropActs info ?_⟩
  intro e he
  -- the entry that the flip leaves has the same id
  cases he
  exact .inr (.inl ⟨info, rfl, rfl⟩)

/-- Steps that leave an entry as it is or remove it. -/
def Act.Erases (a : Act) : Prop := ∀ e x, a.onEntry e = some x → e = some x

theorem erases_of_mem_finishDropActs {info : ForkInfo} (ha : a ∈ finishDropActs info) :
    a.Erases := by
  simp only [finishDropActs, deleteAllBranches, mem_append, mem_map, mem_cons,
    not_mem_nil, or_false] at ha
  intro e x hx
  rcases ha with ⟨b, -, rfl⟩ | rfl | rfl | rfl | rfl
  · exact hx
  · exact hx
  · cases hx
  · exact hx
  · exact hx

theorem erases_of_mem_rollbackActs {candidates : List String} {info : ForkInfo}
    (ha : a ∈ rollbackActs candidates info) : a.Erases := by
  have hshape : (∃ d b, a = .deleteBranch d b) ∨ a = .discard info.name ∨ a = .reap info.id := by
    simp only [rollbackActs, rollbackBranches, mem_append, mem_map, mem_cons,
      not_mem_nil, or_false] at ha
    rcases ha with (ha | ⟨d, -, rfl⟩) | ha
    · split at ha
      · cases ha
      · rcases mem_map.mp ha with ⟨b, -, rfl⟩
        exact .inl ⟨_, _, rfl⟩
    · exact .inl ⟨_, _, rfl⟩
    · exact .inr ha
  intro e x hx
  rcases hshape with ⟨d, b, rfl⟩ | rfl | rfl
  · exact hx
  · cases hx
  · exact hx

/-- A step never changes which fork an entry is of. -/
theorem Act.onEntry_eq_some {e : Option ForkInfo} {x : ForkInfo} (h : a.onEntry e = some x) :
    ∃ y, e = some y ∧ x.id = y.id ∧ x.name = y.name ∧
      (x.status = .tombstoned → y.status = .tombstoned ∨ ∃ name, a = .flip name) := by
  cases a with
  | activate =>
    rcases Option.map_eq_some_iff.mp h with ⟨y, rfl, rfl⟩
    exact ⟨y, rfl, rfl, rfl, nofun⟩
  | flip name =>
    rcases Option.map_eq_some_iff.mp h with ⟨y, rfl, rfl⟩
    exact ⟨y, rfl, rfl, rfl, fun _ => .inr ⟨name, rfl⟩⟩
  | discard | clear => cases h
  | _ => exact ⟨x, h, rfl, rfl, .inl⟩

theorem Act.onTombstone_eq_some {deletes : Bool} {id : ForkId} {o : Option ForkInfo} {t : ForkInfo}
    (h : a.onTombstone deletes id o = some t) :
    a = .putTombstone t ∧ t.id = id ∨ o = some t := by
  revert h
  fun_cases Act.onTombstone deletes id a o <;> intro h
  case case1 hid =>
    cases h
    exact .inl ⟨rfl, hid⟩
  case case3 => cases h
  all_goals exact .inr h

/-! ## The invariant -/

/-- Why recovery may deal with a fork of its queue. -/
def RecoveryStage.Due (stage : RecoveryStage) (w : Watch) : Prop :=
  match stage with
  | .pending => w.Inactive
  | .tombstoned | .orphans => w.Dropped

/-- The entry under a name and the forks that were dropped so far. -/
def Forks.watch (s : Forks) (name : String) : Watch :=
  ⟨s.handle.store.registry.lookup name, s.doomed⟩

/-- The entry under the name of a tombstone is the tombstone's own. -/
structure Tidy (s : Forks) : Prop where
  coherent : s.handle.Coherent
  keyed : ∀ n e, s.handle.store.registry.lookup n = some e → e.name = n
  marked : ∀ n e, s.handle.store.registry.lookup n = some e → e.status = .tombstoned →
    s.doomed e.id
  tombstones : ∀ id t, s.handle.store.tombstones.lookup id = some t → t.id = id ∧ s.doomed id ∧
    ∀ e, s.handle.store.registry.lookup t.name = some e → e.id = id
  threads : ∀ n, Fit n (s.threads n) (s.watch n)
  erases : ∀ r, s.mode = .recovering r → ∀ n, ∀ a ∈ s.threads n, a.Erases
  queue : ∀ r, s.mode = .recovering r → ∀ info ∈ r.queue, r.stage.Due (s.watch info.name)

theorem doomed_cons {s s' : Forks} (htrace : s'.trace = a :: s.trace) (id : ForkId) :
    s'.doomed id ↔ (∃ info : ForkInfo, info.id = id ∧ Act.putTombstone info = a) ∨ s.doomed id := by
  simp only [Forks.doomed, htrace, mem_cons, and_or_left, exists_or]

/-- What is due to a fork stays due when entries are only removed. -/
theorem RecoveryStage.Due.mono {stage : RecoveryStage} {w' : Watch} (h : stage.Due w)
    (hentry : ∀ e, w'.entry = some e → w.entry = some e)
    (hdoomed : ∀ id, w.doomed id → w'.doomed id) : stage.Due w' := by
  cases stage with
  | pending => exact fun e he => h e (hentry e he)
  | tombstoned | orphans => exact fun e he => hdoomed _ (h e (hentry e he))

section Steps

variable {s : Forks} {name : String} (hT : Tidy s)

include hT

theorem Tidy.take {a : Act} {rest : List Act} (deletes : Bool)
    (hthread : s.threads name = a :: rest) :
    Tidy { s.after a deletes with threads := s.setThread name rest } := by
  have hfit := hT.threads name
  rw [hthread] at hfit
  have hallows := hfit.1
  have heff := Act.effect hT.coherent hallows.under deletes
  have hdoomed : ∀ id, s.doomed id → (s.after a deletes).doomed id :=
    fun id h => (doomed_cons rfl id).mpr (.inr h)
  -- the entry that a step leaves was there before, of the same fork
  have hentry : ∀ n x, (s.after a deletes).handle.store.registry.lookup n = some x →
      ∃ y, s.handle.store.registry.lookup n = some y ∧ x.id = y.id ∧ x.name = y.name ∧
        (x.status = .tombstoned → (s.after a deletes).doomed y.id) := by
    intro n x hx
    rw [show (s.after a deletes).handle.store.registry.lookup n = _ from heff.entry n] at hx
    split at hx
    · next hn =>
      subst hn
      rcases Act.onEntry_eq_some hx with ⟨y, hy, hid, hname, hstatus⟩
      refine ⟨y, hy, hid, hname, fun hx => ?_⟩
      rcases hstatus hx with hy' | ⟨m, rfl⟩
      · exact hdoomed _ (hT.marked n y hy hy')
      · exact hdoomed _ (hallows.2 y hy)
    · exact ⟨x, hx, rfl, rfl, fun hx' => hdoomed _ (hT.marked n x hx hx')⟩
  have hwatch : ∀ n, n ≠ name → (s.after a deletes).watch n =
      ⟨s.handle.store.registry.lookup n, (s.after a deletes).doomed⟩ := by
    intro n hn
    have h := heff.entry n
    rw [if_neg hn] at h
    exact congrArg₂ Watch.mk h rfl
  refine ⟨heff.coherent, fun n x hx => ?_, fun n x hx hstatus => ?_, fun id t ht => ?_,
    fun n => ?_, fun r hr n b hb => ?_, fun r hr info hinfo => ?_⟩
  · rcases hentry n x hx with ⟨y, hy, -, hname, -⟩
    exact hname.trans (hT.keyed n y hy)
  · rcases hentry n x hx with ⟨y, hy, hid, -, hdoom⟩
    exact hid ▸ hdoom hstatus
  · rcases Act.onTombstone_eq_some ((heff.tombstone id).symm.trans ht) with ⟨rfl, hid⟩ | ht
    · refine ⟨hid, (doomed_cons rfl id).mpr (.inl ⟨t, hid, rfl⟩), fun x hx => ?_⟩
      rcases hentry t.name x hx with ⟨y, hy, hxy, -⟩
      rw [hallows.1] at hy
      exact hxy.trans ((hallows.2 y hy).trans hid)
    · rcases hT.tombstones id t ht with ⟨hid, hdoom, hown⟩
      refine ⟨hid, hdoomed id hdoom, fun x hx => ?_⟩
      rcases hentry t.name x hx with ⟨y, hy, hxy, -⟩
      exact hxy.trans (hown y hy)
  · by_cases hn : n = name
    · subst hn
      have hstep : (s.after a deletes).watch n = (s.watch n).step a := by
        have h := heff.entry n
        rw [if_pos rfl] at h
        exact congrArg₂ Watch.mk h (funext fun id => propext (doomed_cons rfl id))
      show Fit n (s.setThread n rest n) ((s.after a deletes).watch n)
      rw [setThread_self, hstep]
      exact hfit.2
    · show Fit n (s.setThread ..) ((s.after a deletes).watch n)
      rw [setThread_ne hn, hwatch n hn]
      exact (hT.threads n).mono hdoomed
  · by_cases hn : n = name
    · subst hn
      simp only [setThread_self] at hb
      exact hT.erases r hr n b (by simp [hthread, hb])
    · simp only [setThread_ne hn] at hb
      exact hT.erases r hr n b hb
  · refine (hT.queue r hr info hinfo).mono (fun x hx => ?_) hdoomed
    have herases := hT.erases r hr name a (by simp [hthread])
    have hx := (heff.entry info.name).symm.trans hx
    split at hx
    · exact herases _ _ hx
    · exact hx

theorem Tidy.create {id : ForkId} {parent : Option ForkId} (datasets : List String)
    (restoreRace : Bool) {h : ForkRegistryHandle} (hmode : s.mode = .running)
    (hbegin : s.handle.beginCreate (.newPending id name parent) .good = (.ok (), h))
    (hleft : ∀ id t, s.handle.store.tombstones.lookup id = some t → t.name ≠ name) :
    Tidy (s.enlist h (.newPending id name parent)
      (createActs (.newPending id name parent) datasets restoreRace)) := by
  -- of the steps only matters that they fit the new entry
  have hfit := fit_createActs id name parent datasets restoreRace
  generalize createActs (.newPending id name parent) datasets restoreRace = acts at hfit ⊢
  have hview := view_enlist hT.coherent hbegin acts
  have hentry : ∀ n, (s.enlist h (.newPending id name parent) acts).handle.store.registry.lookup n =
      if n = name then some (.newPending id name parent)
      else s.handle.store.registry.lookup n :=
    fun n => congrArg ForkView.entry (hview n id)
  have hdoomed : ∀ id', s.doomed id' → (s.enlist h (.newPending id name parent) acts).doomed id' :=
    fun id' h => (doomed_cons rfl id').mpr (.inr h)
  have hcoherent : h.Coherent := by
    rcases beginCreate_ok hbegin with ⟨-, rfl⟩
    rfl
  refine ⟨hcoherent, fun n e he => ?_, fun n e he hstatus => ?_, fun id' t ht => ?_, fun n => ?_,
    fun r hr => ?_, fun r hr => ?_⟩
  · rw [hentry] at he
    split at he
    · next hn =>
      cases he
      exact hn.symm
    · exact hT.keyed n e he
  · rw [hentry] at he
    split at he
    · cases he
      cases hstatus
    · exact hdoomed _ (hT.marked n e he hstatus)
  · have ht : s.handle.store.tombstones.lookup id' = some t :=
      (congrArg ForkView.tombstone (hview name id')).symm.trans ht
    rcases hT.tombstones id' t ht with ⟨hid, hdoom, hown⟩
    refine ⟨hid, hdoomed id' hdoom, fun e he => hown e ?_⟩
    rwa [hentry, if_neg (hleft id' t ht)] at he
  · by_cases hn : n = name
    · subst hn
      simp only [Forks.watch, hentry, if_true]
      simp only [Forks.enlist, ForkInfo.newPending, setThread_self]
      exact hfit _
    · simp only [Forks.watch, hentry, if_neg hn]
      simp only [Forks.enlist, ForkInfo.newPending, setThread_ne hn]
      exact (hT.threads n).mono hdoomed
  · rw [show s.mode = .recovering r from hr] at hmode
    cases hmode
  · rw [show s.mode = .recovering r from hr] at hmode
    cases hmode

/-- Steps are given to a fork. -/
theorem Tidy.assign {acts : List Act} (hfit : Fit name acts (s.watch name)) {mode : Mode}
    (herases : ∀ r, mode = .recovering r → (∀ a ∈ acts, a.Erases) ∧ ∃ r', s.mode = .recovering r')
    (hqueue : ∀ r, mode = .recovering r → ∀ info ∈ r.queue, r.stage.Due (s.watch info.name)) :
    Tidy { s with mode := mode, threads := s.setThread name acts, returned := none } := by
  refine ⟨hT.coherent, hT.keyed, hT.marked, hT.tombstones, fun n => ?_, fun r hr n a ha => ?_,
    hqueue⟩
  · show Fit n (s.setThread ..) (s.watch n)
    by_cases hn : n = name
    · subst hn
      rw [setThread_self]
      exact hfit
    · rw [setThread_ne hn]
      exact hT.threads n
  · rcases herases r hr with ⟨hacts, r', hr'⟩
    by_cases hn : n = name
    · subst hn
      simp only [setThread_self] at ha
      exact hacts a ha
    · simp only [setThread_ne hn] at ha
      exact hT.erases r' hr' n a ha

variable {info : ForkInfo}

theorem Tidy.drop (hmode : s.mode = .running) (hinfo : s.handle.cache.lookup name = some info) :
    Tidy { s with threads := s.setThread name (dropActs info), returned := none } := by
  rw [hT.coherent] at hinfo
  have hfit : Fit name (dropActs info) (s.watch name) := by
    have h := fit_dropActs info s.doomed
    rw [hT.keyed name info hinfo, ← hinfo] at h
    exact h
  have hrunning : ∀ r, s.mode ≠ .recovering r := fun r hr => by
    rw [hmode] at hr
    cases hr
  exact hT.assign hfit (fun r hr => absurd hr (hrunning r)) fun r hr => absurd hr (hrunning r)

/-- What a pass finds when it begins is due. -/
theorem Tidy.due (stage : RecoveryStage) (hinfo : info ∈ stage.snapshot s.handle) :
    stage.Due (s.watch info.name) := by
  have hentry : ∀ {status}, info ∈ s.handle.withStatus status →
      s.handle.store.registry.lookup info.name = some info ∧ info.status = status := by
    intro status hmem
    rcases mem_withStatus.mp hmem with ⟨⟨n, he⟩, hstatus⟩
    rw [hT.coherent] at he
    exact ⟨(hT.keyed n info he).symm ▸ he, hstatus⟩
  cases stage with
  | pending =>
    intro e he
    rcases hentry hinfo with ⟨hlook, hstatus⟩
    have heq : info = e := Option.some.inj (hlook.symm.trans he)
    rw [← heq, hstatus]
    decide
  | tombstoned =>
    intro e he
    rcases hentry hinfo with ⟨hlook, hstatus⟩
    have heq : info = e := Option.some.inj (hlook.symm.trans he)
    exact heq ▸ hT.marked _ info hlook hstatus
  | orphans =>
    intro e he
    rcases mem_listTombstones.mp hinfo with ⟨id, ht⟩
    rcases hT.tombstones id info ht with ⟨-, hdoom, hown⟩
    exact hown e he ▸ hdoom

theorem Tidy.reopened (candidates : List String) : Tidy (s.reopened candidates) := by
  have hload : Tidy { s with
      handle := .load s.handle.store s.handle.maxForks
      mode := .running
      threads := fun _ => [] } :=
    ⟨rfl, hT.keyed, hT.marked, hT.tombstones, fun _ => trivial, nofun,
      nofun⟩
  refine ⟨rfl, hT.keyed, hT.marked, hT.tombstones, fun _ => trivial,
    nofun, fun r hr info hinfo => ?_⟩
  cases hr
  exact hload.due .pending hinfo

theorem Tidy.next {r : Recovering} {queue : List ForkInfo} (hmode : s.mode = .recovering r)
    (hqueue : r.queue = info :: queue) : Tidy { s with
      mode := .recovering
        { r with current := some info.name, queue := queue, reconciled := r.reconciled + 1 }
      threads := s.setThread info.name (r.stage.acts r.candidates info)
      returned := none } := by
  have hdue : ∀ i ∈ info :: queue, r.stage.Due (s.watch i.name) := hqueue ▸ hT.queue r hmode
  have hthis := hdue info mem_cons_self
  have hfit : Fit info.name (r.stage.acts r.candidates info) (s.watch info.name) ∧
      ∀ a ∈ r.stage.acts r.candidates info, a.Erases := by
    cases hstage : r.stage with rw [hstage] at hthis
    | pending =>
      exact ⟨fit_rollbackActs r.candidates info hthis, fun a => erases_of_mem_rollbackActs⟩
    | tombstoned | orphans =>
      exact ⟨fit_finishDropActs info hthis, fun a => erases_of_mem_finishDropActs⟩
  refine hT.assign hfit.1 (fun _ _ => ⟨hfit.2, r, hmode⟩) fun r' hr' i hi => ?_
  cases hr'
  exact hdue i (mem_cons_of_mem _ hi)

end Steps

/-! ## Whole histories -/

/-- No fork is created under the name of a tombstone that is still stored. -/
def NoLeftOver (s : Forks) : Action → Prop
  | .create _ name _ _ _ => ∀ t ∈ s.handle.listTombstones, t.name ≠ name
  | _ => True

instance (s : Forks) : ∀ action : Action, Decidable (NoLeftOver s action)
  | .create _ _ _ _ _ => List.decidableBAll _ _
  | .drop _ | .act _ _ | .reopen _ | .recover _ => instDecidableTrue

theorem Tidy.step {s s' : Forks} {action : Action} (hT : Tidy s) (hleft : NoLeftOver s action)
    (h : s.step action = some s') : Tidy s' := by
  cases Forks.stepCase_of_step h with
  | create hmode hidle hfresh hbegin =>
    exact hT.create _ _ hmode hbegin
      fun id t ht => hleft t (mem_listTombstones.mpr ⟨id, ht⟩)
  | drop hmode hidle hinfo => exact hT.drop hmode hinfo
  | act hmode hthread => exact hT.take _ hthread
  | reopen => exact hT.reopened _
  | recoverAct hmode hcurrent hthread => exact hT.take _ hthread
  | @recoverDone _ r name hmode hcurrent hthread =>
    refine { hT with erases := fun _ _ => hT.erases r hmode, queue := fun r' hr' => ?_ }
    cases hr'
    exact hT.queue r hmode
  | recoverNext hmode hcurrent hqueue => exact hT.next hmode hqueue
  | recoverStage hmode =>
    refine { hT with
      erases := fun _ _ => hT.erases _ hmode, queue := fun r' hr' info hinfo => ?_ }
    cases hr'
    exact hT.due _ hinfo
  | recoverEnd =>
    exact { hT with erases := nofun, queue := nofun }

theorem tidy_start (maxForks : Option Nat) : Tidy (Forks.start maxForks) :=
  ⟨rfl, nofun, nofun, nofun,
    fun _ => trivial, nofun, nofun⟩

/-- Recovery removes the entry of an active fork only if the fork's own tombstone was stored. -/
theorem recovery_removes_dropped {maxForks : Option Nat} {actions : List Action} {s s' : Forks}
    {deletes : Bool} (hleft : EveryStep Forks.step NoLeftOver (Forks.start maxForks) actions)
    (hrun : run Forks.step (Forks.start maxForks) actions = some s)
    (hstep : s.step (.recover deletes) = some s') {n : String} {e : ForkInfo}
    (he : s.handle.store.registry.lookup n = some e) (hactive : e.status = .active)
    (hgone : ∀ e', s'.handle.store.registry.lookup n = some e' → e'.id ≠ e.id) :
    ∃ info : ForkInfo, info.id = e.id ∧ Act.putTombstone info ∈ s.trace := by
  have hT : Tidy s :=
    run_invariant_of_everyStep (fun _ _ _ hT hC h => hT.step hC h) (tidy_start maxForks) hleft hrun
  cases Forks.stepCase_of_step hstep with
  | @recoverAct _ r name a rest hmode hcurrent hthread =>
    have hallows := hT.threads name
    rw [hthread] at hallows
    have hentry := (Act.effect hT.coherent hallows.1.under deletes).entry n
    by_cases hn : n = name
    · subst hn
      rw [if_pos rfl, he] at hentry
      -- only `discard` and `clear` take an entry away
      cases a with
      | clear => exact hallows.1.2 e he
      | discard => exact absurd hactive (hallows.1.2 e he)
      | activate id name' datasets =>
        exact absurd rfl (hgone { e with datasets := datasets, status := .active } hentry)
      | flip => exact absurd rfl (hgone { e with status := .tombstoned } hentry)
      | _ => exact absurd rfl (hgone e hentry)
    · rw [if_neg hn, he] at hentry
      exact absurd rfl (hgone e hentry)
  | recoverDone | recoverNext | recoverStage | recoverEnd => exact absurd rfl (hgone e he)

/-- What is left to show of a run that ends right before recovery takes an entry away. -/
theorem removal_of_run (actions : List Action) (n : String) (id : ForkId)
    (hbefore : ∀ s ∈ run Forks.step (Forks.start none) actions,
      (s.handle.store.registry.lookup n).map (fun e => (e.id, e.status)) = some (id, .active))
    (hafter : ∀ s ∈ run Forks.step (Forks.start none) actions, ∀ s' ∈ s.step (.recover true),
      s'.handle.store.registry.lookup n = none)
    (hsome : ((run Forks.step (Forks.start none) actions).bind fun s =>
      s.step (.recover true)).isSome = true) :
    ∃ s s', ∃ e : ForkInfo, run Forks.step (Forks.start none) actions = some s ∧
      s.step (.recover true) = some s' ∧ s.handle.store.registry.lookup n = some e ∧ e.id = id ∧
      e.status = .active ∧ s'.handle.store.registry.lookup n = none := by
  rcases Option.isSome_iff_exists.mp hsome with ⟨s', hs'⟩
  rcases Option.bind_eq_some_iff.mp hs' with ⟨s, hrun, hstep⟩
  rcases Option.map_eq_some_iff.mp (hbefore s hrun) with ⟨e, he, heq⟩
  rcases Prod.mk.inj heq with ⟨hid, hstatus⟩
  exact ⟨s, s', e, hrun, hstep, he, hid, hstatus, hafter s hrun s' hstep⟩

/-- The drop of a fork is cut off right after its tombstone was stored. -/
def cutDropActions : List Action :=
  [.create ⟨"01"⟩ "f" none [] false, .act "f" true, .act "f" true, .act "f" true, .drop "f",
    .act "f" true, .reopen []] ++ Forks.recoverSteps 4

theorem recovery_removes_dropped_cut : ∃ s s', ∃ e : ForkInfo,
    EveryStep Forks.step NoLeftOver (Forks.start none) cutDropActions ∧
    run Forks.step (Forks.start none) cutDropActions = some s ∧
    s.step (.recover true) = some s' ∧ s.handle.store.registry.lookup "f" = some e ∧
    e.status = .active ∧ s'.handle.store.registry.lookup "f" = none ∧
    ∃ info : ForkInfo, info.id = e.id ∧ Act.putTombstone info ∈ s.trace := by
  have hleft : EveryStep Forks.step NoLeftOver (Forks.start none) cutDropActions := by
    decide +kernel
  rcases removal_of_run cutDropActions "f" ⟨"01"⟩ (by decide +kernel)
    (by decide +kernel) (by decide +kernel) with ⟨s, s', e, hrun, hstep, he, -, hactive, hgone⟩
  refine ⟨s, s', e, hleft, hrun, hstep, he, hactive, hgone, ?_⟩
  exact recovery_removes_dropped hleft hrun hstep he hactive fun e' he' => by
    rw [hgone] at he'
    cases he'

/-- A fork is dropped and its tombstone is left behind. The name is used again
    before the database is opened next. -/
def recreateActions : List Action :=
  [.create ⟨"01"⟩ "f" none [] false, .act "f" true, .act "f" true, .act "f" true, .drop "f",
    .act "f" true, .act "f" true, .act "f" true, .act "f" true, .act "f" false, .act "f" true,
    .create ⟨"02"⟩ "f" none [] false, .act "f" true, .act "f" true, .act "f" true,
    .reopen []] ++ Forks.recoverSteps 4

/-- The sweep removes the entry under the name, which is another fork's by now. -/
theorem recovery_removes_recreated : ∃ s s', ∃ e : ForkInfo,
    run Forks.step (Forks.start none) recreateActions = some s ∧
    s.step (.recover true) = some s' ∧ s.handle.store.registry.lookup "f" = some e ∧
    e.status = .active ∧ s'.handle.store.registry.lookup "f" = none ∧
    ∀ info : ForkInfo, info.id = e.id → Act.putTombstone info ∉ s.trace := by
  rcases removal_of_run recreateActions "f" ⟨"02"⟩ (by decide +kernel)
    (by decide +kernel) (by decide +kernel) with ⟨s, s', e, hrun, hstep, he, hid, hactive, hgone⟩
  have hkept : ∀ t ∈ run Forks.step (Forks.start none) recreateActions, ∀ a ∈ t.trace,
      (match a with
        | .putTombstone info => decide (info.id ≠ ⟨"02"⟩)
        | _ => true) = true := by
    decide +kernel
  refine ⟨s, s', e, hrun, hstep, he, hactive, hgone, fun info hinfo htrace => ?_⟩
  exact of_decide_eq_true (hkept s hrun _ htrace) (hinfo.trans hid)

end Fork

end UniDb
