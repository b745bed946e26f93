import UniDb.Fork.CrashAtomicity
import UniDb.Lib.KeyedFold

/-!
# The Registry in Memory and the Stored One

When the registry in memory may run ahead of the stored registry.

A call builds the new registry in memory first and then stores it. If the store
refuses, the call returns an error, but the registry in memory keeps the change:
a fork whose activation was refused is active in memory and pending in the store
(`finishCreate_runs_ahead`), and if the database crashes then, recovery deletes
it together with everything that was written to it.

Exactly the calls that have nothing to change leave the registry as it was when
the store refuses it (`restores_iff_harmless`). As long as no other call meets a
refusal, the two registries are the same, and a fork that is active in memory
survives a crash, unless a tombstone was stored for its name.

## Main definitions

* `RegistryCall`, `ForkRegistryHandle.call`: The calls.
* `RegistryCall.newCache`: The registry that a call builds before it stores it.
* `Restores`: A call that the store refuses leaves the registry as it was.
* `Harmless`: A call that the store refuses had nothing to change.

## Theorems

* `call_spec`: What a call leaves in memory and in the store.
* `restores_iff_harmless`: These are the same calls.
* `recover_keeps_iff`: The active forks that recovery keeps.
* `memory_stored_iff`: Over whole sequences of calls.
-/

namespace UniDb

open AssocMap Option

namespace Fork

inductive RegistryCall
  | beginCreate (info : ForkInfo)
  | finishCreate (name : String) (datasets : AssocMap String String)
  | rollbackCreate (name : String)
  | beginDrop (name : String)
  | finishDrop (info : ForkInfo)
  | registerDatasetBranch (id : ForkId) (dataset branch : String)

/-- The error of a result, if it is one. -/
def failure {α : Type} : Except ForkError α → Option ForkError
  | .ok _ => none
  | .error e => some e

namespace ForkRegistryHandle

/-- A call, with the replies of the store: its error and what it leaves. -/
def call (h : ForkRegistryHandle) (io : StoreReplies) :
    RegistryCall → Option ForkError × ForkRegistryHandle
  | .beginCreate info => (failure (h.beginCreate info io).1, (h.beginCreate info io).2)
  | .finishCreate name datasets =>
    (failure (h.finishCreate name datasets io).1, (h.finishCreate name datasets io).2)
  | .rollbackCreate name => (failure (h.rollbackCreate name io).1, (h.rollbackCreate name io).2)
  | .beginDrop name => (failure (h.beginDrop name io).1, (h.beginDrop name io).2)
  | .finishDrop info => (failure (h.finishDrop info io).1, (h.finishDrop info io).2)
  | .registerDatasetBranch id dataset branch =>
    (failure (h.registerDatasetBranch id dataset branch io).1,
      (h.registerDatasetBranch id dataset branch io).2)

/-- One call of a sequence. -/
def next (h : ForkRegistryHandle) (c : RegistryCall × StoreReplies) : Option ForkRegistryHandle :=
  some (h.call c.2 c.1).2

end ForkRegistryHandle

open ForkRegistryHandle

/-- The registry that a call builds in memory before it stores it, if it gets that far. -/
def RegistryCall.newCache (h : ForkRegistryHandle) (io : StoreReplies) :
    RegistryCall → Option (AssocMap String ForkInfo)
  | .beginCreate info =>
    if info.name ∈ h.cache then none
    else if h.maxForks.any (· ≤ h.cache.keys.length) then none
    else some (h.cache.insert info.name info)
  | .finishCreate name datasets => (h.cache.lookup name).map fun e =>
    h.cache.insert name { e with datasets := datasets, status := .active }
  | .rollbackCreate name => some (h.cache.erase name)
  | .beginDrop name => (h.cache.lookup name).bind fun e =>
    if 0 < h.holderCount e.id then none
    else if io.tombstone then some (h.cache.insert name { e with status := .tombstoned })
    else none
  | .finishDrop info => some (h.cache.erase info.name)
  | .registerDatasetBranch id dataset branch => (h.findById id).bind fun e =>
    if dataset ∈ e.2.datasets then none
    else some (h.cache.insert e.1
      { e.2 with datasets := e.2.datasets.insert dataset branch })

/-- What a call leaves: the registry that it has built is in memory, and it is
    in the store unless the store has refused it. -/
structure CallSpec (h : ForkRegistryHandle) (io : StoreReplies)
    (built : Option (AssocMap String ForkInfo)) (r : Option ForkError × ForkRegistryHandle) :
    Prop where
  cache : r.2.cache = built.getD h.cache
  stored : r.2.store.registry =
    if io.registry then built.getD h.store.registry else h.store.registry
  refused : built.isSome → io.registry = false → r.1.isSome

section Spec

variable {h : ForkRegistryHandle} {io : StoreReplies}

theorem CallSpec.nothing {e : Option ForkError} : CallSpec h io none (e, h) :=
  ⟨rfl, by simp, nofun⟩

variable {m : AssocMap String ForkInfo}

/-- A registry is built, and the store takes it or refuses it. -/
theorem CallSpec.put {r : Option ForkError × ForkRegistryHandle}
    (htaken : io.registry = true → r.2.cache = m ∧ r.2.store.registry = m)
    (hrefused : io.registry = false → r.2.cache = m ∧ r.2.store.registry = h.store.registry ∧
      r.1.isSome) :
    CallSpec h io (some m) r := by
  cases hio : io.registry with
  | true =>
    rcases htaken hio with ⟨hcache, hstore⟩
    exact ⟨hcache, by rw [hstore, hio]; rfl, fun _ hf => by simp [hio] at hf⟩
  | false =>
    rcases hrefused hio with ⟨hcache, hstore, herror⟩
    exact ⟨hcache, by rw [hstore, hio]; rfl, fun _ _ => herror⟩

variable (id : ForkId)

theorem cache_reap : (h.reap id io).cache = h.cache := by
  unfold reap deleteSchemaOverlay
  split <;> rfl

theorem registry_reap : (h.reap id io).store.registry = h.store.registry := by
  unfold reap deleteSchemaOverlay
  split <;> rfl

theorem deleteTombstone_frame : (h.deleteTombstone id io).cache = h.cache ∧
    (h.deleteTombstone id io).store.registry = h.store.registry := by
  unfold deleteTombstone
  split <;> exact ⟨rfl, rfl⟩

theorem CallSpec.putRegistry {g : ForkRegistryHandle} {name stage : String} (hcache : g.cache = m)
    (hstore : g.store = h.store) :
    CallSpec h io (some m)
      (failure (g.putRegistry name stage io).1, (g.putRegistry name stage io).2) := by
  unfold ForkRegistryHandle.putRegistry
  refine .put (fun hio => ?_) fun hio => ?_
  · simp [hio, hcache]
  · simp [hio, failure, hcache, hstore]

theorem beginCreate_spec (info : ForkInfo) :
    CallSpec h io ((RegistryCall.beginCreate info).newCache h io)
      (h.call io (.beginCreate info)) := by
  simp only [RegistryCall.newCache, call, beginCreate]
  split
  · exact .nothing
  · cases hmax : h.maxForks with
    | none =>
      simp only [any_none, Bool.false_eq_true, if_false]
      refine CallSpec.putRegistry ?_ ?_ <;> rfl
    | some cap =>
      by_cases hcap : cap ≤ h.cache.keys.length
      · simp only [any_some, hcap, decide_true, if_true]
        exact .nothing
      · simp only [any_some, hcap, decide_false, Bool.false_eq_true, if_false]
        refine CallSpec.putRegistry ?_ ?_ <;> rfl

theorem finishCreate_spec (name : String) (datasets : AssocMap String String) :
    CallSpec h io ((RegistryCall.finishCreate name datasets).newCache h io)
      (h.call io (.finishCreate name datasets)) := by
  simp only [RegistryCall.newCache, call, finishCreate,
    activate, putRegistry]
  cases h.cache.lookup name with
  | none => exact .nothing
  | some =>
    refine .put (fun hio => ?_) fun hio => ?_
    · -- the overlay is stored after the registry, and may be refused on its own
      simp only [hio, if_true, putSchemaOverlay]
      cases io.overlay <;> exact ⟨rfl, rfl⟩
    · simp [hio, failure]

theorem rollbackCreate_spec (name : String) :
    CallSpec h io ((RegistryCall.rollbackCreate name).newCache h io)
      (h.call io (.rollbackCreate name)) := by
  simp only [RegistryCall.newCache, ForkRegistryHandle.call, ForkRegistryHandle.rollbackCreate,
    ForkRegistryHandle.discard, ForkRegistryHandle.putRegistry]
  refine .put (fun hio => ?_) fun hio => ?_
  · simp only [hio, if_true]
    cases h.cache.lookup name with
    | none => exact ⟨rfl, rfl⟩
    | some e => exact ⟨cache_reap e.id, registry_reap e.id⟩
  · simp [hio, failure]

theorem beginDrop_spec (name : String) :
    CallSpec h io ((RegistryCall.beginDrop name).newCache h io) (h.call io (.beginDrop name)) := by
  simp only [RegistryCall.newCache, ForkRegistryHandle.call, ForkRegistryHandle.beginDrop,
    ForkRegistryHandle.get, ForkRegistryHandle.putTombstone, ForkRegistryHandle.flip,
    ForkRegistryHandle.putRegistry]
  cases hentry : h.cache.lookup name with
  | none => exact .nothing
  | some e =>
    by_cases hheld : 0 < h.holderCount e.id
    · simp only [hheld, if_true, bind_some]
      exact .nothing
    · simp only [hheld, if_false, bind_some]
      cases htomb : io.tombstone with
      | false => exact .nothing
      | true =>
        simp only [if_true, hentry]
        refine .put (fun hio => ?_) fun hio => ?_
        · simp [hio]
        · simp [hio, failure]

theorem finishDrop_spec (info : ForkInfo) :
    CallSpec h io ((RegistryCall.finishDrop info).newCache h io)
      (h.call io (.finishDrop info)) := by
  simp only [RegistryCall.newCache, call, finishDrop,
    clear, putRegistry]
  refine .put (fun hio => ?_) fun hio => ?_
  · simp [hio, cache_reap, registry_reap, deleteTombstone_frame]
  · simp [hio, failure]

theorem registerDatasetBranch_spec (dataset branch : String) :
    CallSpec h io ((RegistryCall.registerDatasetBranch id dataset branch).newCache h io)
      (h.call io (.registerDatasetBranch id dataset branch)) := by
  simp only [RegistryCall.newCache, call,
    registerDatasetBranch]
  cases h.findById id with
  | none => exact .nothing
  | some e =>
    simp only [bind_some]
    cases hlook : e.2.datasets.lookup dataset with
    | none =>
      rw [if_neg (notMem_iff_lookup.mpr hlook)]
      refine CallSpec.putRegistry ?_ ?_ <;> rfl
    | some =>
      rw [if_pos (mem_of_lookup hlook)]
      simp only
      split <;> exact .nothing

theorem call_spec (h : ForkRegistryHandle) (io : StoreReplies) (c : RegistryCall) :
    CallSpec h io (c.newCache h io) (h.call io c) := by
  cases c with
  | beginCreate info => exact beginCreate_spec info
  | finishCreate name datasets => exact finishCreate_spec name datasets
  | rollbackCreate name => exact rollbackCreate_spec name
  | beginDrop name => exact beginDrop_spec name
  | finishDrop info => exact finishDrop_spec info
  | registerDatasetBranch id dataset branch => exact registerDatasetBranch_spec id dataset branch

end Spec

/-! ## Refused registries -/

/-- Two registries hold the same forks. -/
def SameForks (m m' : AssocMap String ForkInfo) : Prop := ∀ n, m.lookup n = m'.lookup n

/-- A call whose registry the store refuses leaves the registry as it was. -/
def Restores (h : ForkRegistryHandle) (c : RegistryCall × StoreReplies) : Prop :=
  (c.1.newCache h c.2).isSome → c.2.registry = false →
    SameForks (h.call c.2 c.1).2.cache h.cache

/-- The call has nothing to change in the registry. -/
def RegistryCall.Vacuous (h : ForkRegistryHandle) : RegistryCall → Prop
  | .beginCreate _ | .registerDatasetBranch .. => False
  | .finishCreate name datasets => ∃ e, h.cache.lookup name = some e ∧
      e.status = .active ∧ e.datasets = datasets
  | .rollbackCreate name => name ∉ h.cache
  | .beginDrop name => ∃ e, h.cache.lookup name = some e ∧ e.status = .tombstoned
  | .finishDrop info => info.name ∉ h.cache

/-- The store refuses a registry only if there was nothing to change. -/
def Harmless (h : ForkRegistryHandle) (c : RegistryCall × StoreReplies) : Prop :=
  (c.1.newCache h c.2).isSome → c.2.registry = false → c.1.Vacuous h

variable {m : AssocMap String ForkInfo} {name : String}

theorem sameForks_insert_iff {e : ForkInfo} :
    SameForks (m.insert name e) m ↔ m.lookup name = some e := by
  constructor
  · intro h
    have hname := h name
    rw [lookup_insert_eq, if_pos rfl] at hname
    exact hname.symm
  · intro h n
    rw [lookup_insert_eq]
    split
    · next hn => rw [hn, h]
    · rfl

theorem sameForks_erase_iff : SameForks (m.erase name) m ↔ name ∉ m := by
  rw [notMem_iff_lookup]
  constructor
  · intro h
    have hname := h name
    rw [lookup_erase_eq, if_pos rfl] at hname
    exact hname.symm
  · intro h n
    rw [lookup_erase_eq]
    split
    · next hn => rw [hn, h]
    · rfl

variable {h : ForkRegistryHandle}

/-- The registry that a call builds is the old one exactly if there was nothing to change. -/
theorem sameForks_newCache_iff {io : StoreReplies} {c : RegistryCall}
    (hm : c.newCache h io = some m) : SameForks m h.cache ↔ c.Vacuous h := by
  cases c with simp only [RegistryCall.newCache, bind_eq_some_iff, map_eq_some_iff,
    ite_none_left_eq_some, ite_none_right_eq_some, some.injEq] at hm
  | beginCreate =>
    rcases hm with ⟨hname, -, rfl⟩
    rw [sameForks_insert_iff, notMem_iff_lookup.mp hname]
    exact iff_of_false (by simp) fun hf => hf
  | finishCreate =>
    rcases hm with ⟨e, he, rfl⟩
    rw [sameForks_insert_iff, he, some.injEq]
    simp only [RegistryCall.Vacuous, he, some.injEq, exists_eq_left']
    constructor
    · intro heq
      rw [heq]
      exact ⟨rfl, rfl⟩
    · rintro ⟨hstatus, hdatasets⟩
      rw [← hstatus, ← hdatasets]
  | rollbackCreate => exact hm ▸ sameForks_erase_iff
  | beginDrop =>
    rcases hm with ⟨e, he, -, -, rfl⟩
    rw [sameForks_insert_iff, he, some.injEq]
    simp only [RegistryCall.Vacuous, he, some.injEq, exists_eq_left']
    constructor
    · intro heq
      rw [heq]
    · intro hstatus
      rw [← hstatus]
  | finishDrop => exact hm ▸ sameForks_erase_iff
  | registerDatasetBranch id dataset =>
    rcases hm with ⟨⟨key, e⟩, he, hdataset, rfl⟩
    rw [sameForks_insert_iff]
    -- the entry did not have the dataset, and now it has
    have hlook : h.cache.lookup key = some e := mem_toList.mp (List.mem_of_find?_eq_some he)
    refine iff_of_false (fun heq => ?_) fun hf => hf
    rw [hlook, some.injEq] at heq
    exact hdataset (heq ▸ (AList.mem_insert _).mpr (.inl rfl))

theorem restores_iff_harmless (h : ForkRegistryHandle) (c : RegistryCall × StoreReplies) :
    Restores h c ↔ Harmless h c := by
  unfold Restores Harmless
  cases hm : c.1.newCache h c.2 with
  | none => exact ⟨nofun, nofun⟩
  | some =>
    have hcache := (call_spec h c.2 c.1).cache
    rw [hm, getD_some] at hcache
    rw [hcache, sameForks_newCache_iff hm]

/-! ## Recovery -/

section Recovery

variable {h : ForkRegistryHandle}

theorem perform_deletes {β : Type} (g : β → String × String) (bs : List β)
    (h : ForkRegistryHandle) :
    (perform .good h (bs.map fun b => .deleteBranch (g b).1 (g b).2)).cache = h.cache ∧
      (perform .good h (bs.map fun b => .deleteBranch (g b).1 (g b).2)).store.tombstones =
        h.store.tombstones := by
  induction bs generalizing h with
  | nil => exact ⟨rfl, rfl⟩
  | cons b bs ih => exact ih (Act.apply .good h (.deleteBranch (g b).1 (g b).2))

theorem perform_append (acts acts' : List Act) (h : ForkRegistryHandle) :
    perform .good h (acts ++ acts') = perform .good (perform .good h acts) acts' :=
  List.foldl_append

theorem perform_finishDropActs (info : ForkInfo) (h : ForkRegistryHandle) :
    (perform .good h (finishDropActs info)).cache = h.cache.erase info.name ∧
      (perform .good h (finishDropActs info)).store.tombstones =
        h.store.tombstones.erase info.id := by
  rw [finishDropActs, perform_append]
  rcases perform_deletes id info.datasets.toList h with ⟨hcache, htomb⟩
  exact ⟨congrArg (AList.erase info.name) hcache, congrArg (AList.erase info.id) htomb⟩

theorem perform_rollbackActs (candidates : List String) (info : ForkInfo) (h : ForkRegistryHandle) :
    (perform .good h (rollbackActs candidates info)).cache = h.cache.erase info.name ∧
      (perform .good h (rollbackActs candidates info)).store.tombstones = h.store.tombstones := by
  have hbranches : (perform .good h (rollbackBranches candidates info)).cache = h.cache ∧
      (perform .good h (rollbackBranches candidates info)).store.tombstones =
        h.store.tombstones := by
    rw [rollbackBranches, perform_append]
    rcases perform_deletes (fun d => (d, branchName info.id d)) candidates
      (perform .good h (if info.datasets.entries = [] then [] else deleteAllBranches info)) with
      ⟨hcache, htomb⟩
    refine ⟨hcache.trans ?_, htomb.trans ?_⟩
    all_goals split
    · rfl
    · exact (perform_deletes id info.datasets.toList h).1
    · rfl
    · exact (perform_deletes id info.datasets.toList h).2
  rw [rollbackActs, perform_append]
  exact ⟨congrArg (AList.erase info.name) hbranches.1, hbranches.2⟩

/-- A pass removes the entries under the names that it has to deal with. -/
theorem lookup_pass {acts : ForkInfo → List Act}
    (hacts : ∀ info h, (perform .good h (acts info)).cache = h.cache.erase info.name)
    (infos : List ForkInfo) (h : ForkRegistryHandle) (n : String) :
    (infos.foldl (fun h info => perform .good h (acts info)) h).cache.lookup n =
      if n ∈ infos.map ForkInfo.name then none else h.cache.lookup n := by
  induction infos generalizing h with
  | nil => simp
  | cons info infos ih =>
    rw [List.foldl_cons, ih, hacts, lookup_erase_eq]
    by_cases hn : n = info.name <;> simp [hn]

theorem tombstones_finishDrops (infos : List ForkInfo) (h : ForkRegistryHandle) (id : ForkId) :
    (infos.foldl (fun h info => perform .good h (finishDropActs info))
        h).store.tombstones.lookup id =
      if id ∈ infos.map ForkInfo.id then none else h.store.tombstones.lookup id := by
  induction infos generalizing h with
  | nil => simp
  | cons info infos ih =>
    rw [List.foldl_cons, ih, (perform_finishDropActs info h).2, lookup_erase_eq]
    by_cases hid : id = info.id <;> simp [hid]

/-- An active fork survives recovery exactly if no tombstone with its name is
    left for the last pass. -/
theorem recover_keeps_iff (hkeyed : ∀ n e, h.cache.lookup n = some e → e.name = n) {name : String}
    {info : ForkInfo} (he : h.cache.lookup name = some info) (hactive : info.status = .active)
    (candidates : List String) : (recoverForks candidates h).1.cache.lookup name = some info ↔
      ∀ id t, h.store.tombstones.lookup id = some t → t.name = name →
        ∃ e ∈ h.withStatus .tombstoned, e.id = id := by
  -- the names of entries that are not active are other names
  have hother : ∀ {h' : ForkRegistryHandle} {status : ForkStatus}, status ≠ .active →
      (∀ {n e}, h'.cache.lookup n = some e → h.cache.lookup n = some e) →
      name ∉ (h'.withStatus status).map ForkInfo.name := by
    intro h' status hne hsub hmem
    rcases List.mem_map.mp hmem with ⟨e, hin, rfl⟩
    rcases mem_withStatus.mp hin with ⟨⟨n, hn⟩, hstatus⟩
    rw [hkeyed n e (hsub hn), hsub hn, some.injEq] at he
    exact hne (hstatus.symm.trans (he ▸ hactive))
  have hpending : name ∉ (h.withStatus .pending).map ForkInfo.name := hother (by simp) id
  -- so the first two passes leave the fork alone
  generalize hh₁ : (h.withStatus .pending).foldl
    (fun h info => perform .good h (rollbackActs candidates info)) h = h₁
  have hcache₁ : ∀ n, h₁.cache.lookup n =
      if n ∈ (h.withStatus .pending).map ForkInfo.name then none else h.cache.lookup n :=
    fun n => hh₁ ▸ lookup_pass (fun info h => (perform_rollbackActs candidates info h).1) _ h n
  have htomb₁ : h₁.store.tombstones = h.store.tombstones :=
    hh₁ ▸ foldl_eq_of_forall (·.store.tombstones)
      (fun h info => (perform_rollbackActs candidates info h).2) _ h
  have hsub : ∀ {n e}, h₁.cache.lookup n = some e → h.cache.lookup n = some e := by
    intro n e hn
    rw [hcache₁] at hn
    split at hn
    · cases hn
    · exact hn
  have htombstoned : name ∉ (h₁.withStatus .tombstoned).map ForkInfo.name :=
    hother (by simp) hsub
  generalize hh₂ : (h₁.withStatus .tombstoned).foldl
    (fun h info => perform .good h (finishDropActs info)) h₁ = h₂
  have hcache₂ : h₂.cache.lookup name = some info := by
    rw [← hh₂, lookup_pass (fun info h => (perform_finishDropActs info h).1),
      if_neg htombstoned, hcache₁, if_neg hpending, he]
  -- and the last pass meets the tombstones that the second one has not deleted
  have hlast : (recoverForks candidates h).1.cache.lookup name =
      if name ∈ h₂.listTombstones.map ForkInfo.name then none else some info := by
    rw [recoverForks, hh₁, hh₂, lookup_pass (fun info h => (perform_finishDropActs info h).1),
      hcache₂]
  have hids : ∀ id, id ∈ (h₁.withStatus .tombstoned).map ForkInfo.id ↔
      ∃ e ∈ h.withStatus .tombstoned, e.id = id := by
    intro id
    rw [List.mem_map]
    refine exists_congr fun e => and_congr_left fun _ => ?_
    rw [mem_withStatus, mem_withStatus]
    refine and_congr_left fun hstatus => exists_congr fun n => ⟨hsub, fun hn => ?_⟩
    rw [hcache₁, if_neg, hn]
    intro hmem
    rcases List.mem_map.mp hmem with ⟨e', hmem, hname⟩
    rcases mem_withStatus.mp hmem with ⟨⟨n', hn'⟩, hstatus'⟩
    have heq : some e' = some e := by rw [← hn', ← hn, ← hname, hkeyed n' e' hn']
    cases heq
    rw [hstatus] at hstatus'
    cases hstatus'
  have htomb₂ : ∀ id, h₂.store.tombstones.lookup id =
      if id ∈ (h₁.withStatus .tombstoned).map ForkInfo.id then none
      else h.store.tombstones.lookup id :=
    fun id => by rw [← hh₂, tombstones_finishDrops, htomb₁]
  rw [hlast]
  constructor
  · intro hkept id t ht hname
    by_contra hnot
    rw [if_pos] at hkept
    · cases hkept
    · refine List.mem_map.mpr ⟨t, mem_listTombstones.mpr ⟨id, ?_⟩, hname⟩
      rw [htomb₂, if_neg (mt (hids id).mp hnot), ht]
  · intro hall
    rw [if_neg]
    intro hmem
    rcases List.mem_map.mp hmem with ⟨t, hmem, hname⟩
    rcases mem_listTombstones.mp hmem with ⟨id, ht⟩
    rw [htomb₂] at ht
    split at ht
    · cases ht
    · next hnot => exact hnot ((hids id).mpr (hall id t ht hname))

end Recovery

/-! ## Sequences of calls -/

/-- Every entry stands under its own name. -/
def Keyed (m : AssocMap String ForkInfo) : Prop := ∀ n e, m.lookup n = some e → e.name = n

theorem Keyed.insert (hm : Keyed m) {e : ForkInfo} (he : e.name = name) :
    Keyed (m.insert name e) := by
  intro n e' hn
  rcases lookup_insert_cases hn with ⟨rfl, rfl⟩ | ⟨-, hn⟩
  · exact he
  · exact hm n e' hn

theorem Keyed.erase (hm : Keyed m) (name : String) : Keyed (m.erase name) :=
  fun n e hn => hm n e (lookup_of_erase hn).2

theorem Keyed.newCache {io : StoreReplies} {c : RegistryCall} (hkeyed : Keyed h.cache)
    (hm : c.newCache h io = some m) : Keyed m := by
  cases c with simp only [RegistryCall.newCache, bind_eq_some_iff, map_eq_some_iff,
    ite_none_left_eq_some, ite_none_right_eq_some, some.injEq] at hm
  | beginCreate =>
    rcases hm with ⟨-, -, rfl⟩
    exact hkeyed.insert rfl
  | finishCreate name =>
    rcases hm with ⟨e, he, rfl⟩
    exact hkeyed.insert (hkeyed name e he)
  | rollbackCreate name => exact hm ▸ hkeyed.erase name
  | beginDrop name =>
    rcases hm with ⟨e, he, -, -, rfl⟩
    exact hkeyed.insert (hkeyed name e he)
  | finishDrop info => exact hm ▸ hkeyed.erase info.name
  | registerDatasetBranch =>
    rcases hm with ⟨⟨key, e⟩, he, -, rfl⟩
    exact hkeyed.insert (hkeyed key e (mem_toList.mp (List.mem_of_find?_eq_some he)))

/-- The registry in memory is the stored one. -/
structure InStep (h : ForkRegistryHandle) : Prop where
  keyed : Keyed h.cache
  same : SameForks h.cache h.store.registry

theorem InStep.next {h' : ForkRegistryHandle} {c : RegistryCall × StoreReplies} (hin : InStep h)
    (hharm : Harmless h c) (hnext : h.next c = some h') : InStep h' := by
  cases hnext
  have hspec := call_spec h c.2 c.1
  cases hm : c.1.newCache h c.2 with rw [hm] at hspec
  | none =>
    have hstored := hspec.stored
    simp only [getD_none, ite_self] at hstored
    exact ⟨hspec.cache ▸ hin.keyed, fun n => by rw [hspec.cache, hstored]; exact hin.same n⟩
  | some =>
    have hcache := hspec.cache
    have hstored := hspec.stored
    rw [getD_some] at hcache hstored
    refine ⟨hcache ▸ hin.keyed.newCache hm, fun n => ?_⟩
    rw [hcache, hstored]
    cases hio : c.2.registry with
    | true => rfl
    | false =>
      -- the refused registry is the old one, which is stored
      have hsame := (sameForks_newCache_iff hm).mpr (hharm (hm ▸ rfl) hio)
      exact (hsame n).trans (hin.same n)

/-- The registry in memory stays as it was under every refusal exactly if every refused call had
    nothing to change, and then a fork that is active in memory is stored as active, and survives a
    crash unless recovery finds a left-over tombstone with its name. -/
theorem memory_stored_iff {h h' : ForkRegistryHandle} {calls : List (RegistryCall × StoreReplies)}
    (hin : InStep h) (hrun : run next h calls = some h') : (EveryStep next Restores h calls ↔
      EveryStep next Harmless h calls) ∧
    (EveryStep next Harmless h calls →
      SameForks h'.cache h'.store.registry ∧
      ∀ name info, h'.get name = .ok info → info.status = .active →
        h'.store.registry.lookup name = some info ∧
        ∀ candidates maxForks,
          ((recoverForks candidates (.load h'.store maxForks)).1.cache.lookup name = some info ↔
            ∀ id t, h'.store.tombstones.lookup id = some t → t.name = name →
              ∃ e ∈ (load h'.store maxForks).withStatus .tombstoned,
                e.id = id)) := by
  have hcalls : Restores = Harmless :=
    funext fun h => funext fun c => propext (restores_iff_harmless h c)
  refine ⟨by rw [hcalls], fun hharm => ?_⟩
  have hin' : InStep h' := run_invariant_of_everyStep (fun _ _ _ => InStep.next) hin hharm hrun
  refine ⟨hin'.same, fun name info hget hactive => ?_⟩
  have he : h'.store.registry.lookup name = some info := by
    rw [← hin'.same name]
    exact get_ok hget
  refine ⟨he, fun candidates maxForks => ?_⟩
  -- a reopened handle has the stored registry in memory
  exact recover_keeps_iff (h := .load h'.store maxForks)
    (fun n e hn => hin'.keyed n e ((hin'.same n).trans hn)) he hactive candidates

theorem inStep_start : InStep (Forks.start none).handle :=
  ⟨fun n e he => (by cases he), fun n => rfl⟩

/-- A fork is created, and the registry is refused when a fork that does not
    exist is rolled back. -/
def harmlessCalls : List (RegistryCall × StoreReplies) :=
  [(.beginCreate (.newPending ⟨"01"⟩ "f" none), .good), (.finishCreate "f" ∅, .good),
    (.rollbackCreate "g", { StoreReplies.good with registry := false })]

theorem everyStep_harmlessCalls :
    EveryStep next Harmless (Forks.start none).handle harmlessCalls := by
  refine ⟨nofun, fun h hh => ?_⟩
  refine ⟨nofun, fun h' hh' => ⟨fun _ _ => ?_, fun _ _ => trivial⟩⟩
  cases hh
  cases hh'
  exact notMem_iff_lookup.mpr rfl

theorem memory_stored_rollback : ∃ h' : ForkRegistryHandle, ∃ info,
    run next (Forks.start none).handle harmlessCalls = some h' ∧
    h'.store.registry.lookup "f" = some info ∧ info.status = .active ∧
    (recoverForks [] (.load h'.store none)).1.cache.lookup "f" = some info := by
  refine ⟨_, ⟨⟨"01"⟩, "f", none, ∅, .active⟩, rfl, ?_⟩
  rcases (memory_stored_iff inStep_start rfl).2 everyStep_harmlessCalls with ⟨-, hactive⟩
  rcases hactive "f" _ rfl rfl with ⟨hstored, hkept⟩
  exact ⟨hstored, rfl, (hkept [] none).mpr nofun⟩

/-- A fork is created, and the registry file cannot be written when it is to become active. -/
def refusedCalls : List (RegistryCall × StoreReplies) :=
  [(.beginCreate (.newPending ⟨"01"⟩ "f" none), .good),
    (.finishCreate "f" ∅, { StoreReplies.good with registry := false })]

/-- The call fails, but the fork is active in memory. The store has it pending,
    and recovery deletes it. -/
theorem finishCreate_runs_ahead : ∃ h : ForkRegistryHandle,
    run next (Forks.start none).handle refusedCalls = some h ∧
    ¬ EveryStep next Restores (Forks.start none).handle refusedCalls ∧
    (∃ info, h.get "f" = .ok info ∧ info.status = .active) ∧
    (∃ info, h.store.registry.lookup "f" = some info ∧ info.status = .pending) ∧
    (recoverForks [] (.load h.store none)).1.cache.lookup "f" = none := by
  refine ⟨_, rfl, fun hall => ?_, ⟨_, rfl, rfl⟩, ⟨_, rfl, rfl⟩, rfl⟩
  have hsame := (hall.2 _ rfl).1 rfl rfl "f"
  exact absurd (congrArg (Option.map ForkInfo.status) hsame) (by decide +kernel)

end Fork

end UniDb
