import UniDb.Fork.Lifecycle
import UniDb.Lib.Cut

/-!
# The Stages of One Fork

What one fork looks like at each point of its life, and that every protocol
goes through these stages only.

A `ForkView` is all that the store and the history say of one fork: the entry
under its name, its tombstone, the datasets on which its branch exists, and
whether its activation and its tombstone were ever stored. A fork is `Gone`,
`Pending`, `Live` or `Dropping`. These are the states that a crash may leave, and
recovery can tell from the store which of them a fork is in.

The protocols are lists of steps, so each of them has one lemma: started in the
right stage it is in some stage before every step, and it ends with the fork
live or gone.

## Main definitions

* `ForkView`, `ForkView.step`: One fork, and a step of one of its own calls.
* `Act.Of`: A step that belongs to a fork.
* `Gone`, `Pending`, `Live`, `Dropping`, `Stage`: The stages.
* `Settled`: The stages in which no call is under way.
* `Leads`: Steps that take a fork through its stages.

## Theorems

* `along_create`, `along_drop`, `along_rollback`, `along_finishDrop`: The
  protocols.
* `view_after`: A step of a fork changes its view as `ForkView.step` says.
* `view_after_other`: The steps of other forks do not change it.
-/

namespace UniDb

open AssocMap List

namespace Fork

/-- One fork, as the store and the history show it. -/
@[ext] structure ForkView where
  entry : Option ForkInfo
  tombstone : Option ForkInfo
  branched : String → Prop
  activated : String → AssocMap String String → Prop
  doomed : Prop

/-- The fork with this name and id. -/
def Forks.view (s : Forks) (name : String) (id : ForkId) : ForkView where
  entry := s.handle.store.registry.lookup name
  tombstone := s.handle.store.tombstones.lookup id
  branched dataset := (dataset, branchName id dataset) ∈ s.handle.store.branches
  activated name' datasets := Act.activate id name' datasets ∈ s.trace
  doomed := ∃ info : ForkInfo, info.id = id ∧ Act.putTombstone info ∈ s.trace

/-- The step belongs to the fork with this name and id. -/
def Act.Of (name : String) (id : ForkId) : Act → Prop
  | beginCreate _ => False
  | bootstrap id' | deleteArtifacts id' | deleteTombstone id' | reap id' => id' = id
  | createBranch dataset branch | deleteBranch dataset branch => branch = branchName id dataset
  | activate id' name' _ | putOverlay id' name' => id' = id ∧ name' = name
  | discard name' | flip name' | clear name' => name' = name
  | putTombstone info => info.id = id ∧ info.name = name

/-- The step changes no entry but the one under this name. -/
def Act.Under (name : String) : Act → Prop
  | beginCreate _ => False
  | activate _ name' _ | discard name' | flip name' | clear name' => name' = name
  | _ => True

variable {name : String} {a : Act} {id : ForkId}

theorem Act.Of.under (h : a.Of name id) : a.Under name := by
  cases a with
  | beginCreate => exact h
  | activate => exact h.2
  | discard | flip | clear => exact h
  | _ => trivial

/-- What a step of its own does to a fork. -/
def ForkView.step (v : ForkView) : Act → ForkView
  | .createBranch dataset _ => { v with branched := fun d => d = dataset ∨ v.branched d }
  | .activate _ name datasets =>
    { v with
      entry := v.entry.map fun e => { e with datasets := datasets, status := .active }
      activated := fun n m => (n = name ∧ m = datasets) ∨ v.activated n m }
  -- rolling back a create and finishing a drop both remove the entry
  | .discard _ | .clear _ => { v with entry := none }
  | .putTombstone info => { v with tombstone := some info, doomed := True }
  | .flip _ => { v with entry := v.entry.map fun e => { e with status := .tombstoned } }
  | .deleteBranch dataset _ => { v with branched := fun d => d ≠ dataset ∧ v.branched d }
  | .deleteTombstone _ => { v with tombstone := none }
  -- artifacts, overlays and the reaper touch nothing that the view shows
  | _ => v

/-! ## The stages -/

/-- Nothing is left of the fork. It never became active, or it was dropped. -/
structure Gone (v : ForkView) : Prop where
  entry : v.entry = none
  tombstone : v.tombstone = none
  branched : ∀ d, ¬ v.branched d
  history : v.doomed ∨ ∀ n m, ¬ v.activated n m

/-- The fork is being created. Any of its branches may exist. -/
structure Pending (info : ForkInfo) (v : ForkView) : Prop where
  entry : v.entry = some info
  status : info.status = .pending
  datasets : info.datasets = ∅
  tombstone : v.tombstone = none
  activated : ∀ n m, ¬ v.activated n m
  doomed : ¬ v.doomed

/-- The dataset map lists branches of the fork itself. -/
def OwnBranches (info : ForkInfo) : Prop :=
  ∀ d b, info.datasets.lookup d = some b → b = branchName info.id d

/-- The fork can be used: the branches of its map exist, and no others. -/
structure Live (info : ForkInfo) (v : ForkView) : Prop where
  entry : v.entry = some info
  status : info.status = .active
  own : OwnBranches info
  tombstone : v.tombstone = none
  branched : ∀ d, v.branched d ↔ d ∈ info.datasets
  activated : ∀ n m, v.activated n m ↔ n = info.name ∧ m = info.datasets
  doomed : ¬ v.doomed

/-- The fork is being dropped. The tombstone lists every branch that is left. -/
structure Dropping (info : ForkInfo) (v : ForkView) : Prop where
  tombstone : v.tombstone = some info
  own : OwnBranches info
  entry : ∀ e, v.entry = some e →
    e.id = info.id ∧ e.name = info.name ∧ e.datasets = info.datasets ∧ e.status ≠ .pending
  branched : ∀ d, v.branched d → d ∈ info.datasets
  doomed : v.doomed

/-- What a crash may leave of a fork. -/
inductive Stage (name : String) (id : ForkId) (v : ForkView) : Prop
  | gone (h : Gone v)
  | pending {info : ForkInfo} (hid : info.id = id) (hname : info.name = name) (h : Pending info v)
  | live {info : ForkInfo} (hid : info.id = id) (hname : info.name = name) (h : Live info v)
  | dropping {info : ForkInfo} (hid : info.id = id) (hname : info.name = name)
      (h : Dropping info v)

/-- The fork is there or it is not. -/
inductive Settled (name : String) (id : ForkId) (v : ForkView) : Prop
  | gone (h : Gone v)
  | live {info : ForkInfo} (hid : info.id = id) (hname : info.name = name) (h : Live info v)

variable {v : ForkView}

/-- A settled fork is in a stage that a crash may leave. -/
theorem Settled.stage (h : Settled name id v) : Stage name id v := by
  cases h with
  | gone h => exact .gone h
  | live hid hname h => exact .live hid hname h

/-- The steps take the fork through its stages until it is live or gone. -/
abbrev Leads (name : String) (id : ForkId) : List Act → ForkView → Prop :=
  Along ForkView.step (fun v _ => Stage name id v) (Settled name id)

/-- The entry of a fork names it. -/
theorem Stage.entry (h : Stage name id v) {e : ForkInfo}
    (he : v.entry = some e) : e.id = id ∧ e.name = name := by
  cases h with
  | gone h =>
    rw [h.entry] at he
    cases he
  | pending hid hname h | live hid hname h =>
    rw [h.entry, Option.some.injEq] at he
    exact he ▸ ⟨hid, hname⟩
  | dropping hid hname h =>
    rcases h.entry e he with ⟨hid', hname', _⟩
    exact ⟨hid'.trans hid, hname'.trans hname⟩

/-- A tombstone tells recovery that the fork is being dropped, whatever its entry says. It is
    stored first and deleted last. -/
theorem Stage.dropping_of_tombstone (h : Stage name id v)
    {t : ForkInfo} (ht : v.tombstone = some t) : t.id = id ∧ t.name = name ∧ Dropping t v := by
  cases h with
  | gone h | pending _ _ h | live _ _ h =>
    rw [h.tombstone] at ht
    cases ht
  | dropping hid hname h =>
    have heq := h.tombstone
    rw [ht, Option.some.injEq] at heq
    subst heq
    exact ⟨hid, hname, h⟩

/-! ## Dropping -/

section Protocols

variable {name : String} {id : ForkId} {info : ForkInfo} {v : ForkView}

theorem Live.settled (h : Live info v) : Settled info.name info.id v := .live rfl rfl h

section

variable (h : Dropping info v)

include h

theorem Dropping.stage : Stage info.name info.id v := .dropping rfl rfl h

/-- A branch less is still a drop under way: the tombstone may list branches that are gone. -/
theorem Dropping.deleteBranch (dataset branch : String) :
    Dropping info (v.step (.deleteBranch dataset branch)) :=
  ⟨h.tombstone, h.own, h.entry, fun d hd => h.branched d hd.2, h.doomed⟩

/-- The entry may go while the tombstone is there. -/
theorem Dropping.clear (n : String) : Dropping info (v.step (.clear n)) :=
  ⟨h.tombstone, h.own, fun _ he => (Option.some_ne_none _ he.symm).elim, h.branched, h.doomed⟩

/-- The tombstone goes last, when neither the entry nor a branch is left. -/
theorem Dropping.gone (hentry : v.entry = none) (hbranch : ∀ d, ¬ v.branched d) (id : ForkId) :
    Gone (v.step (.deleteTombstone id)) :=
  ⟨hentry, rfl, hbranch, .inl h.doomed⟩

variable {from' : ForkInfo}

/-- The loop over the branches of a drop. Its invariant is that the branches visited so far are
    gone. -/
theorem along_deleteAllBranches (hdatasets : from'.datasets = info.datasets) :
    Along ForkView.step (fun w _ => Stage info.name info.id w)
      (fun w => Dropping info w ∧ ∀ d, ¬ w.branched d) (deleteAllBranches from') v := by
  have hloop : Along ForkView.step (fun w _ => Stage info.name info.id w)
      (fun w => Dropping info w ∧ ∀ e ∈ from'.datasets.toList, ¬ w.branched e.1)
      (deleteAllBranches from') v := by
    refine along_loop (I := fun done w => Dropping info w ∧ ∀ e ∈ done, ¬ w.branched e.1)
      (fun e => Act.deleteBranch e.1 e.2) ?_ ?_ from'.datasets.toList ⟨h, ?_⟩
    · exact fun _ _ _ hI => hI.1.stage
    · rintro done b w ⟨hw, hdone⟩
      refine ⟨hw.deleteBranch b.1 b.2, fun e he hbranched => ?_⟩
      rcases mem_append.mp he with he | he
      · exact hdone e he hbranched.2
      · exact hbranched.1 (congrArg Prod.fst (mem_singleton.mp he))
    · exact nofun
  refine hloop.mono ?_
  rintro w ⟨hw, hdone⟩
  refine ⟨hw, fun d hd => ?_⟩
  -- every branch that is left is in the map, and the loop has visited it
  rcases mem_iff_lookup.mp (hdatasets ▸ hw.branched d hd) with ⟨b, hb⟩
  exact hdone (d, b) (mem_toList.mpr hb) hd

/-- The second half of a drop, as the call makes it and as recovery repeats it from the tombstone
    or from the entry. -/
theorem along_finishDrop (hdatasets : from'.datasets = info.datasets) :
    Leads info.name info.id (finishDropActs from') v := by
  refine along_append (along_deleteAllBranches h hdatasets) ?_
  rintro w ⟨hw, hbranch⟩
  have hclear := hw.clear from'.name
  have hgone : Gone ((w.step (.clear from'.name)).step (.deleteTombstone from'.id)) :=
    hclear.gone rfl hbranch from'.id
  exact ⟨hw.stage, hw.stage, hclear.stage, .gone hgone, .gone hgone⟩

end

/-- The tombstone is stored before the entry is flipped, so from the first step on the fork is
    `Dropping`. -/
theorem along_drop (h : Live info v) : Leads info.name info.id (dropActs info) v := by
  have htomb : Dropping info (v.step (.putTombstone info)) := by
    refine ⟨rfl, h.own, fun e he => ?_, fun d => (h.branched d).mp, trivial⟩
    have heq : info = e := Option.some.inj (h.entry.symm.trans he)
    subst heq
    exact ⟨rfl, rfl, rfl, by simp [h.status]⟩
  have hflip : Dropping info ((v.step (.putTombstone info)).step (.flip info.name)) := by
    refine ⟨rfl, h.own, fun e he => ?_, htomb.branched, trivial⟩
    simp only [ForkView.step, h.entry, Option.map_some, Option.some.injEq] at he
    subst he
    exact ⟨rfl, rfl, rfl, by simp⟩
  exact ⟨h.settled.stage, htomb.stage, along_finishDrop hflip rfl⟩

/-! ## Creating -/

theorem Pending.stage (h : Pending info v) : Stage info.name info.id v := .pending rfl rfl h

/-- A pending fork without branches is gone once its entry is. -/
theorem Pending.discard (h : Pending info v) (hbranch : ∀ d, ¬ v.branched d) (n : String) :
    Gone (v.step (.discard n)) :=
  ⟨rfl, h.tombstone, hbranch, .inr h.activated⟩

/-- The dataset map of a fork names its own branch of each dataset. -/
theorem lookup_forkDatasets (id : ForkId) (datasets : List String) (d : String) :
    (forkDatasets id datasets).lookup d =
      if d ∈ datasets then some (branchName id d) else none := by
  -- over any map, since the loop starts from what it has inserted before
  have hgen : ∀ (l : List String) (m : AssocMap String String),
      (l.foldl (fun m dataset => m.insert dataset (branchName id dataset)) m).lookup d =
        if d ∈ l then some (branchName id d) else m.lookup d := by
    intro l
    induction l with
    | nil => intro m; simp
    | cons a l ih =>
      intro m
      rw [foldl_cons, ih, lookup_insert_eq]
      by_cases hd : d = a
      · subst hd
        simp
      · simp [hd]
  exact hgen datasets ∅

/-- The entry is activated with the branches that exist, so the fork is usable at once. -/
theorem Pending.activate (h : Pending info v) {datasets : List String}
    (hbranch : ∀ d, v.branched d ↔ d ∈ datasets) :
    Live { info with datasets := forkDatasets info.id datasets, status := .active }
      (v.step (.activate info.id info.name (forkDatasets info.id datasets))) := by
  refine ⟨?_, rfl, ?_, h.tombstone, fun d => ?_, fun n m => ?_, h.doomed⟩
  · simp only [ForkView.step, h.entry, Option.map_some]
  · intro d b hb
    simp only [lookup_forkDatasets] at hb
    split at hb
    · exact (Option.some.inj hb).symm
    · cases hb
  · rw [mem_iff_lookup, lookup_forkDatasets]
    by_cases hd : d ∈ datasets <;> simp [ForkView.step, hbranch, hd]
  · simp only [ForkView.step, h.activated, or_false]

/-- Creating a fork whose entry has been stored: a branch for each dataset, then the activation. If
    a restore came in between, the entry is discarded. -/
theorem along_create (h : Pending info v) (hbranch : ∀ d, ¬ v.branched d) (datasets : List String)
    (restoreRace : Bool) :
    Leads info.name info.id (createActs info datasets restoreRace) v := by
  cases restoreRace with
  | true =>
    have hgone := h.discard hbranch info.name
    exact ⟨h.stage, .gone hgone, .gone hgone⟩
  | false =>
    refine ⟨h.stage, along_append (R := fun w => Pending info w ∧
      ∀ d, w.branched d ↔ d ∈ datasets) ?_ ?_⟩
    -- the branches that exist are those the loop has made
    · refine along_loop (I := fun done w => Pending info w ∧ ∀ d, w.branched d ↔ d ∈ done)
        (fun d => Act.createBranch d (branchName info.id d)) ?_ ?_ datasets ⟨h, ?_⟩
      · exact fun _ _ _ hI => hI.1.stage
      · rintro done dataset w ⟨hw, hdone⟩
        refine ⟨⟨hw.entry, hw.status, hw.datasets, hw.tombstone, hw.activated, hw.doomed⟩, ?_⟩
        intro d
        simp only [ForkView.step, hdone, mem_append, mem_singleton, or_comm]
      · exact fun d => iff_of_false (hbranch d) not_mem_nil
    · rintro w ⟨hw, hdone⟩
      have hlive := hw.activate hdone
      exact ⟨hw.stage, hlive.settled.stage, hlive.settled⟩

/-! ## Rolling back -/

theorem Pending.deleteBranch (h : Pending info v) (dataset branch : String) :
    Pending info (v.step (.deleteBranch dataset branch)) :=
  ⟨h.entry, h.status, h.datasets, h.tombstone, h.activated, h.doomed⟩

/-- Recovery of a pending fork. Its entry lists no branches, so it tries every dataset there is,
    and that has to cover the branches that exist. -/
theorem along_rollback (h : Pending info v) {candidates : List String}
    (hbranch : ∀ d, v.branched d → d ∈ candidates) :
    Leads info.name info.id (rollbackActs candidates info) v := by
  unfold rollbackActs rollbackBranches
  rw [if_pos (by rw [h.datasets]; rfl), nil_append]
  refine along_append (R := fun w => Pending info w ∧ ∀ d, ¬ w.branched d) ?_ ?_
  -- a branch that is left is a candidate, and a candidate not visited: after the loop there is
  -- none
  · refine Along.mono (Q := fun w => Pending info w ∧
      ∀ d, w.branched d → d ∈ candidates ∧ d ∉ candidates) ?_ ?_
    · rintro w ⟨hw, hdone⟩
      exact ⟨hw, fun d hd => (hdone d hd).2 (hdone d hd).1⟩
    · refine along_loop
        (I := fun done w => Pending info w ∧ ∀ d, w.branched d → d ∈ candidates ∧ d ∉ done)
        (fun d => Act.deleteBranch d (branchName info.id d)) ?_ ?_ candidates ⟨h, ?_⟩
      · exact fun _ _ _ hI => hI.1.stage
      · rintro done dataset w ⟨hw, hdone⟩
        refine ⟨hw.deleteBranch _ _, ?_⟩
        rintro d ⟨hne, hd⟩
        refine ⟨(hdone d hd).1, ?_⟩
        simp only [mem_append, mem_singleton, not_or]
        exact ⟨(hdone d hd).2, hne⟩
      · exact fun d hd => ⟨hbranch d hd, not_mem_nil⟩
  · rintro w ⟨hw, hdone⟩
    have hgone := hw.discard hdone info.name
    exact ⟨hw.stage, .gone hgone, .gone hgone⟩

end Protocols

/-! ## The steps of the system -/

/-- The registry in memory is the stored one. -/
def ForkRegistryHandle.Coherent (h : ForkRegistryHandle) : Prop :=
  h.cache = h.store.registry

section Effects

variable {h : ForkRegistryHandle} {io : StoreReplies}

/-- What a step does to the entry it names. -/
def Act.onEntry : Act → Option ForkInfo → Option ForkInfo
  | .activate _ _ datasets, e => e.map fun e => { e with datasets := datasets, status := .active }
  | .discard _, _ | .clear _, _ => none
  | .flip _, e => e.map fun e => { e with status := .tombstoned }
  | _, e => e

/-- What a step does to the tombstone of the fork `id`. -/
def Act.onTombstone (deletes : Bool) (id : ForkId) : Act → Option ForkInfo → Option ForkInfo
  | .putTombstone info, t => if info.id = id then some info else t
  | .deleteTombstone id', t => if id' = id ∧ deletes then none else t
  | _, t => t

/-- What a step does to a branch. -/
def Act.onBranch (branch : String × String) : Act → Prop → Prop
  | .createBranch d b, p => branch = (d, b) ∨ p
  | .deleteBranch d b, p => branch ≠ (d, b) ∧ p
  | _, p => p

/-- All that a step of the fork `name` changes in the store. -/
structure Act.Effect (a : Act) (deletes : Bool) (name : String) (h h' : ForkRegistryHandle) :
    Prop where
  coherent : h'.Coherent
  entry : ∀ n, h'.store.registry.lookup n =
    if n = name then a.onEntry (h.store.registry.lookup n) else h.store.registry.lookup n
  tombstone : ∀ id, h'.store.tombstones.lookup id =
    a.onTombstone deletes id (h.store.tombstones.lookup id)
  branch : ∀ b, b ∈ h'.store.branches ↔ a.onBranch b (b ∈ h.store.branches)

/-- Changing the entry under a name, if there is one, and storing the registry. -/
theorem effect_of_modify {deletes : Bool} {name : String} (hc : h.Coherent)
    {g : ForkInfo → ForkInfo} (hentry : ∀ e, a.onEntry e = e.map g)
    (htomb : ∀ id t, a.onTombstone deletes id t = t) (hbranch : ∀ b p, a.onBranch b p ↔ p)
    {h' : ForkRegistryHandle} (hnone : h.cache.lookup name = none → h' = h)
    (hsome : ∀ e, h.cache.lookup name = some e → h' =
      { h with
        store := { h.store with registry := h.cache.insert name (g e) }
        cache := h.cache.insert name (g e) }) :
    a.Effect deletes name h h' := by
  cases hlook : h.cache.lookup name with
  | none =>
    rw [hnone hlook]
    rw [hc] at hlook
    refine ⟨hc, fun n => ?_, fun id => (htomb id _).symm, fun b => (hbranch b _).symm⟩
    rw [hentry]
    split
    · next hn =>
      rw [hn, hlook]
      rfl
    · rfl
  | some e =>
    rw [hsome e hlook]
    rw [hc] at hlook
    refine ⟨rfl, fun n => ?_, fun id => (htomb id _).symm, fun b => (hbranch b _).symm⟩
    rw [hentry, hc, lookup_insert_eq]
    split
    · next hn => rw [hn, hlook, Option.map_some]
    · rfl

/-- A step changes the entry under its own name, its own tombstone or one branch. -/
theorem Act.effect (hc : h.Coherent) (ha : a.Under name) (deletes : Bool) :
    a.Effect deletes name h (a.apply { deleteTombstone := deletes } h) := by
  cases a with
  | beginCreate => exact ha.elim
  | activate | flip =>
    rcases ha with rfl
    refine effect_of_modify hc (fun _ => rfl) (fun _ _ => rfl) (fun _ _ => Iff.rfl) ?_ ?_
    · intro hlook
      simp [Act.apply, ForkRegistryHandle.activate, ForkRegistryHandle.flip, hlook]
    · intro e hlook
      simp [Act.apply, ForkRegistryHandle.activate, ForkRegistryHandle.flip,
        ForkRegistryHandle.putRegistry, hlook]
  -- the registry is stored as a whole, without the entry
  | discard name' | clear name' =>
    rcases ha with rfl
    refine ⟨rfl, fun n => ?_, fun _ => rfl, fun _ => Iff.rfl⟩
    rw [← hc]
    exact lookup_erase_eq h.cache name' n
  | putTombstone =>
    refine ⟨hc, fun n => (ite_self _).symm, fun i => ?_, fun _ => Iff.rfl⟩
    simp only [Act.apply, ForkRegistryHandle.putTombstone, if_true, lookup_insert_eq,
      Act.onTombstone, eq_comm]
  | deleteTombstone =>
    simp only [Act.apply, ForkRegistryHandle.deleteTombstone]
    -- a tombstone that could not be deleted stays, and the call goes on
    cases deletes with refine ⟨hc, fun n => (ite_self _).symm, fun i => ?_, fun _ => Iff.rfl⟩
    | true => simp only [if_true, lookup_erase_eq, Act.onTombstone, and_true, eq_comm]
    | false => simp [Act.onTombstone]
  | createBranch =>
    exact ⟨hc, fun n => (ite_self _).symm, fun _ => rfl, fun _ => AList.mem_insert _⟩
  | deleteBranch =>
    exact ⟨hc, fun n => (ite_self _).symm, fun _ => rfl, fun _ => AList.mem_erase⟩
  | putOverlay | reap | bootstrap | deleteArtifacts =>
    exact ⟨hc, fun n => (ite_self _).symm, fun _ => rfl, fun _ => Iff.rfl⟩

end Effects

section Views

variable {s : Forks} {a : Act} {name : String} {id : ForkId}

/-- The dataset identifies the branch of a fork. -/
theorem branch_eq_iff {d d' : String} : (d', branchName id d') = (d, branchName id d) ↔ d' = d := by
  constructor
  · exact congrArg Prod.fst
  · exact fun h => by rw [h]

/-- A step of a fork changes its view as `ForkView.step` says. The branches of other datasets are
    kept, since the dataset identifies the branch. -/
theorem view_after (hc : s.handle.Coherent) (ha : a.Of name id) :
    (s.after a true).view name id = (s.view name id).step a := by
  have heff := Act.effect hc ha.under true
  have hentry := heff.entry name
  rw [if_pos rfl] at hentry
  simp only [Forks.view, Forks.after, hentry, heff.tombstone, heff.branch, mem_cons]
  cases a with
  | beginCreate => exact ha.elim
  | createBranch | deleteBranch =>
    rcases ha with rfl
    simp only [Act.onEntry, Act.onTombstone, Act.onBranch, ForkView.step, branch_eq_iff, ne_eq,
      reduceCtorEq, false_or]
  | putTombstone info =>
    rcases ha with ⟨rfl, rfl⟩
    have hdoomed : ∃ t : ForkInfo, t.id = info.id ∧
        (Act.putTombstone t = .putTombstone info ∨ Act.putTombstone t ∈ s.trace) :=
      ⟨info, rfl, .inl rfl⟩
    simp only [Act.onEntry, Act.onTombstone, Act.onBranch, ForkView.step, reduceCtorEq, false_or,
      if_true, eq_true hdoomed]
  | activate =>
    rcases ha with ⟨rfl, rfl⟩
    simp only [Act.onEntry, Act.onTombstone, Act.onBranch, ForkView.step, reduceCtorEq, false_or,
      Act.activate.injEq, true_and]
  | deleteTombstone =>
    rcases ha with rfl
    simp only [Act.onEntry, Act.onTombstone, Act.onBranch, ForkView.step, reduceCtorEq, false_or,
      and_self, if_true]
  | _ =>
    simp only [Act.onEntry, Act.onTombstone, Act.onBranch, ForkView.step, reduceCtorEq, false_or]

/-- A step of another fork does not change what belongs to the id. -/
theorem view_after_ne (hc : s.handle.Coherent) (ha : a.Of name id) (deletes : Bool) {id' : ForkId}
    (hid : id' ≠ id) (name' : String) : (s.after a deletes).view name' id' =
      { s.view name' id' with
        entry := (s.after a deletes).handle.store.registry.lookup name' } := by
  have heff := Act.effect hc ha.under deletes
  -- the name of a branch holds the id of its fork, so forks do not share branches
  have hbranch : ∀ d d', (d', branchName id' d') ≠ (d, branchName id d) := by
    intro d d' heq
    rcases Prod.mk.inj heq with ⟨rfl, hb⟩
    exact hid (branchName_injective hb)
  simp only [Forks.view, Forks.after, heff.tombstone, heff.branch, mem_cons]
  cases a with
  | beginCreate => exact ha.elim
  | createBranch | deleteBranch =>
    rcases ha with rfl
    simp only [Act.onTombstone, Act.onBranch, hbranch, ne_eq, not_false_eq_true, true_and,
      reduceCtorEq, false_or]
  | putTombstone info =>
    rcases ha with ⟨rfl, rfl⟩
    -- the new tombstone is not one of this fork
    have hdoomed : (∃ t : ForkInfo, t.id = id' ∧
        (Act.putTombstone t = .putTombstone info ∨ Act.putTombstone t ∈ s.trace)) ↔
        ∃ t : ForkInfo, t.id = id' ∧ Act.putTombstone t ∈ s.trace := by
      refine exists_congr fun t => and_congr_right fun ht => or_iff_right fun heq => ?_
      exact hid (ht.symm.trans (congrArg ForkInfo.id (Act.putTombstone.inj heq)))
    simp only [Act.onTombstone, Act.onBranch, if_neg hid.symm, reduceCtorEq, false_or, hdoomed]
  | activate =>
    rcases ha with ⟨rfl, rfl⟩
    simp [Act.onTombstone, Act.onBranch, hid]
  | deleteTombstone =>
    rcases ha with rfl
    simp [Act.onTombstone, Act.onBranch, hid.symm]
  | _ => simp [Act.onTombstone, Act.onBranch]

/-- Calls on different forks do not interfere, so they can be interleaved. -/
theorem view_after_other (hc : s.handle.Coherent) (ha : a.Of name id) (deletes : Bool)
    {name' : String} {id' : ForkId} (hname : name' ≠ name) (hid : id' ≠ id) :
    (s.after a deletes).view name' id' = s.view name' id' := by
  have hentry := (Act.effect hc ha.under deletes).entry name'
  rw [if_neg hname] at hentry
  rw [view_after_ne hc ha deletes hid]
  exact ForkView.ext hentry rfl rfl rfl rfl

end Views

/-! ## The steps of each protocol belong to its fork -/

section Belong

variable {info : ForkInfo}

/-- A create, a drop and a rollback make steps of their own fork only. -/
theorem of_mem_createActs {datasets : List String} {restoreRace : Bool}
    (ha : a ∈ createActs info datasets restoreRace) : a.Of info.name info.id := by
  cases restoreRace with
  | true =>
    simp only [createActs, if_true, mem_cons, not_mem_nil, or_false] at ha
    rcases ha with rfl | rfl <;> rfl
  | false =>
    simp only [createActs, Bool.false_eq_true, if_false, cons_append, mem_cons,
      mem_append, mem_map, not_mem_nil, or_false] at ha
    rcases ha with rfl | ⟨d, _, rfl⟩ | rfl | rfl
    · rfl
    · rfl
    · exact ⟨rfl, rfl⟩
    · exact ⟨rfl, rfl⟩

theorem of_mem_finishDropActs (hown : OwnBranches info) (ha : a ∈ finishDropActs info) :
    a.Of info.name info.id := by
  simp only [finishDropActs, deleteAllBranches, mem_append, mem_map, mem_cons,
    not_mem_nil, or_false] at ha
  rcases ha with ⟨⟨d, b⟩, he, rfl⟩ | rfl | rfl | rfl | rfl
  -- the branches are read from the map, so this needs the map to list own branches
  · exact hown d b (mem_toList.mp he)
  all_goals rfl

theorem of_mem_dropActs (hown : OwnBranches info) (ha : a ∈ dropActs info) :
    a.Of info.name info.id := by
  simp only [dropActs, mem_cons] at ha
  rcases ha with rfl | rfl | ha
  · exact ⟨rfl, rfl⟩
  · rfl
  · exact of_mem_finishDropActs hown ha

theorem of_mem_rollbackActs (hdatasets : info.datasets = ∅) {candidates : List String}
    (ha : a ∈ rollbackActs candidates info) : a.Of info.name info.id := by
  unfold rollbackActs rollbackBranches at ha
  rw [if_pos (by rw [hdatasets]; rfl), nil_append] at ha
  simp only [mem_append, mem_map, mem_cons, not_mem_nil, or_false] at ha
  rcases ha with ⟨d, _, rfl⟩ | rfl | rfl <;> rfl

end Belong

end Fork

end UniDb
