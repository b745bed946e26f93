import Mathlib.Data.Prod.Lex
import UniDb.Snapshot.Restore

/-!
# Restores Are Atomic

A restore that is cut off any number of times ends like one that is not.

The writes of a restore fall into two parts. Those before the intent is stored leave
the tables alone, so a store that is opened after a crash there is the store from
before, except that the catalog may have lost endpoint verifications made since the
snapshot. From the intent on, a rewind can be started at any point: the versions to go
back to are still there (`Held`), and each phase of the rewind puts one more part of
the store into its final state, whatever state that part was in.

The phases from the intent on are therefore described by the part of the store that is
final already (`Progress`), and a crash takes the process back to the first of them.

## Main definitions

* `Plan`: A restore that is about to start, with what it will lead to.
* `Early`, `Late`, `Done`: The states before the intent, with it and after it.
* `Progress`: What is final in each phase.
* `Unrestored`, `SameOutcome`: The two ways in which a restore can end.

## Theorems

* `Late.step`: A step of the rewind, a crash or a reopen.
* `finishes`: A restore that is left alone ends.
* `restore_atomic`: A restore is atomic across crashes.
-/

namespace UniDb.Restore

open AList AssocMap Datasets List

variable {T V I X : Type}

section Catalogs

/-- A catalog without its version and without what the open recorded. -/
def Catalog.shape (c : Catalog T X) : Catalog T X :=
  { c with schema := { c.schema with schemaVersion := 0 }, trustedUnmarkedManifest := none }

theorem distrust_version (s : Schema T) (v time : Nat) :
    ({ s with schemaVersion := v }.distrustVerificationsAfter time).1 =
      { (s.distrustVerificationsAfter time).1 with schemaVersion := v } := by
  simp only [Schema.distrustVerificationsAfter]
  split <;> rfl

theorem schema_of_shape {a b : Catalog T X} (h : a.shape = b.shape) :
    a.schema.labels = b.schema.labels ∧ a.schema.edgeTypes = b.schema.edgeTypes ∧
      a.schema.properties = b.schema.properties := by
  have hl : a.shape.schema.labels = b.shape.schema.labels := by rw [h]
  have he : a.shape.schema.edgeTypes = b.shape.schema.edgeTypes := by rw [h]
  have hp : a.shape.schema.properties = b.shape.schema.properties := by rw [h]
  exact ⟨hl, he, hp⟩

theorem rewiden_congr (e : Engine T V I X) {s s' : Schema T} (hl : s.labels = s'.labels)
    (he : s.edgeTypes = s'.edgeTypes) (ps : List (String × AssocMap String (PropertyMeta T)))
    (c : String → Option (TableData V)) : rewiden e s ps c = rewiden e s' ps c := by
  rcases s with ⟨v, labels, edgeTypes, properties, registry⟩
  rcases s' with ⟨v', labels', edgeTypes', properties', registry'⟩
  cases hl
  cases he
  induction ps generalizing c with
  | nil => rfl
  | cons p ps ih =>
    rw [rewiden, rewiden, ih]
    rfl

theorem rewidenDeclaredProperties_of_shape (e : Engine T V I X) {a b : Catalog T X}
    (h : a.shape = b.shape) (c : String → Option (TableData V)) :
    rewidenDeclaredProperties e a.schema c = rewidenDeclaredProperties e b.schema c := by
  rcases schema_of_shape h with ⟨hl, he, hp⟩
  rw [rewidenDeclaredProperties, hp, rewiden_congr e hl he]
  rfl

end Catalogs

section Rows

variable (snapshot : SnapshotManifest) (data : TableData V)

/-- A table after the deletion of the rows outside the snapshot. -/
def TableData.rewound : TableData V :=
  if versionColumn ∈ data.columns then data.dropOutside snapshot else data

/-- If a table has versions, none of its rows is outside the snapshot. -/
def TableData.Within : Prop :=
  versionColumn ∈ data.columns → ∀ r ∈ data.rows,
    r.version ≤ snapshot.versionHighWaterMark ∧
      r.version ∉ snapshot.unpublishedBulkVersions

theorem within_rewound :
    (data.rewound snapshot).Within snapshot := by
  intro hcol r hr
  unfold TableData.rewound at hcol hr
  split at hr
  · simp only [TableData.dropOutside, outside, mem_filter, decide_eq_true_eq, not_or,
      not_lt] at hr
    exact hr.2
  · rename_i h
    rw [if_neg h] at hcol
    exact absurd hcol h

theorem contents_dropRowsOutside (m : Datasets (TableData V))
    (table name : String) : contents (dropRowsOutside snapshot m table) name =
      if name = table then (contents m name).map (TableData.rewound snapshot)
      else contents m name := by
  by_cases hn : name = table
  · subst hn
    rw [if_pos rfl]
    unfold dropRowsOutside
    cases ht : m.lookup name with
    | none => rw [contents, ht, Option.map_none, Option.map_none]
    | some t =>
      have hc : contents m name = some t.data := by rw [contents, ht, Option.map_some]
      by_cases hcol : versionColumn ∈ t.data.columns
      · by_cases hcount : t.data.rows.countP (outside snapshot) = 0
        · -- nothing is outside, so the table stays at its version
          have hrows : t.data.dropOutside snapshot = t.data := by
            have hfilter : t.data.rows.filter (fun r => ¬ outside snapshot r) = t.data.rows := by
              refine filter_eq_self.mpr fun r hr => ?_
              simpa using countP_eq_zero.mp hcount r hr
            rw [TableData.dropOutside, hfilter]
          simp [hcol, hcount, hc, TableData.rewound, hrows]
        · simp [hcol, hcount, hc, TableData.rewound, contents_insert]
      · simp [hcol, hc, TableData.rewound]
  · rw [if_neg hn]
    unfold dropRowsOutside
    split
    · rfl
    · split
      · rfl
      · split
        · rfl
        · rw [contents_insert, if_neg hn]

variable {c : String → Option (TableData V)}

theorem held_dropRowsOutside {recorded : AssocMap String Nat} {m : Datasets (TableData V)}
    (h : Held recorded m c) (snapshot : SnapshotManifest) (table : String) :
    Held recorded (dropRowsOutside snapshot m table) c := by
  unfold Restore.dropRowsOutside
  split
  · exact h
  · rename_i t ht
    split
    · exact h
    · split
      · exact h
      · exact h.commit ht _

variable {snapshot : SnapshotManifest}

/-- Widening puts no row into a table that was not in it. -/
theorem within_foldl_put {c' : String → Option (TableData V)} {ws : List (String × TableData V)}
    (hc : ∀ name data, c name = some data → data.Within snapshot)
    (hc' : ∀ name data, c' name = some data → data.Within snapshot)
    (hws : ∀ w ∈ ws, ∃ data, c w.1 = some data ∧
      (versionColumn ∈ w.2.columns → versionColumn ∈ data.columns) ∧
        ∀ r ∈ w.2.rows, ∃ r' ∈ data.rows, r'.version = r.version) :
    ∀ name data, ws.foldl put c' name = some data → data.Within snapshot := by
  induction ws generalizing c' with
  | nil => exact hc'
  | cons w ws ih =>
    refine ih (fun name data hput => ?_) fun w' hw' => hws w' (mem_cons_of_mem w hw')
    unfold put at hput
    split at hput
    · rcases Option.map_eq_some_iff.mp hput with ⟨-, -, rfl⟩
      rcases hws w mem_cons_self with ⟨old, hold, hcol, hrows⟩
      intro hv r hr
      rcases hrows r hr with ⟨r', hr', hver⟩
      rw [← hver]
      exact hc w.1 old hold (hcol hv) r' hr'
    · exact hc' name data hput

theorem within_rewiden (e : Engine T V I X) (s : Schema T)
    (ps : List (String × AssocMap String (PropertyMeta T)))
    (hc : ∀ name data, c name = some data → data.Within snapshot) :
    ∀ name data, (rewiden e s ps c).foldl put c name = some data → data.Within snapshot := by
  induction ps generalizing c with
  | nil => exact hc
  | cons p ps ih =>
    simp only [rewiden, foldl_append]
    refine ih (within_foldl_put hc hc fun w hw => ?_)
    split at hw
    · cases hw
    · exact e.widen_rows _ _ _ _ c w hw

end Rows

/-- A restore that is about to start. `tables` and `indexDatasets` are the contents at
    the recorded versions. -/
structure Plan (T V I X : Type) where
  base : Store T V I X
  live : Catalog T X
  job : Job T X
  catalog : Catalog T X
  f : Flush V I
  now : Nat
  tables : String → Option (TableData V)
  indexDatasets : String → Option I
  base_intent : base.intent = none
  point_catalog : job.point.catalog = some catalog
  no_rebuild : job.intent.rebuildIndexesFor = []
  stored_point : base.restorePoints.lookup job.intent.snapshotId = some job.point
  stored_target : base.manifests.lookup job.intent.snapshotId = some job.target
  valid : f.Valid base
  fresh : job.intent.manifestId ∉ (base.flush f).manifests
  features : live.writerFeatures = currentWriterFeatures
  held_tables : Held job.point.tables (base.flush f).tables tables
  held_indexDatasets : Held job.point.indexDatasets (base.flush f).indexDatasets indexDatasets

namespace Plan

variable (p : Plan T V I X)

/-- The catalog without the verifications made since the snapshot. -/
def withdrawn : Catalog T X :=
  { p.live with
    schema := (p.live.schema.distrustVerificationsAfter p.job.target.createdAt).1 }

/-- The manifest that the flush of the restore publishes. -/
def current : SnapshotManifest := { p.f.manifest with writerFeatures := currentWriterFeatures }

/-- The manifest that the restore publishes. -/
def manifest : SnapshotManifest :=
  { preparedManifest p.withdrawn p.catalog p.job.target p.current p.job.intent.manifestId p.now with
    writerFeatures := currentWriterFeatures }

def flushed : Store T V I X := p.base.flush p.f

def distrusted : Store T V I X :=
  if (p.live.schema.distrustVerificationsAfter p.job.target.createdAt).2 then
    { p.flushed with catalog := p.withdrawn } else p.flushed

def prepared : Store T V I X :=
  p.distrusted.saveSnapshot
    (preparedManifest p.withdrawn p.catalog p.job.target p.current p.job.intent.manifestId p.now)

/-- The tables after the deletion of rows. -/
def rewound (name : String) : Option (TableData V) :=
  (p.tables name).map (TableData.rewound p.job.target)

def restored : Catalog T X := restoredCatalog p.live p.catalog p.job.target.createdAt

def writes (e : Engine T V I X) : List (String × TableData V) :=
  rewidenDeclaredProperties e p.restored.schema p.rewound

/-- The tables after the restore. -/
def final (e : Engine T V I X) : String → Option (TableData V) :=
  (p.writes e).foldl put p.rewound

/-- The record of the open is the one in memory, or the one on disk. -/
def Trusts (x : Option String) : Prop :=
  x = p.live.trustedUnmarkedManifest ∨ x = p.base.catalog.trustedUnmarkedManifest

/-- The stores that a crash before the intent can leave. -/
def EarlyDisk (d : Store T V I X) : Prop :=
  d = p.base ∨ d = p.flushed ∨ d = p.distrusted ∨ d = p.prepared

end Plan

/-- From the intent on, the rewind can be started again. -/
structure Recoverable (p : Plan T V I X) (d : Store T V I X) : Prop where
  intent : d.intent = some p.job.intent
  point : d.restorePoints.lookup p.job.intent.snapshotId = some p.job.point
  target : d.manifests.lookup p.job.intent.snapshotId = some p.job.target
  manifest : d.manifests.lookup p.job.intent.manifestId = some p.manifest
  latest : d.loadLatestSnapshot = some p.current ∨ d.loadLatestSnapshot = some p.manifest
  tables : Held p.job.point.tables d.tables p.tables
  indexDatasets : Held p.job.point.indexDatasets d.indexDatasets p.indexDatasets
  trusted : p.Trusts d.catalog.trustedUnmarkedManifest

/-- The part of the store that is final in each phase of the rewind. -/
def Progress (e : Engine T V I X) (p : Plan T V I X) (d : Store T V I X) (live : Catalog T X) :
    Phase V I → Prop
  | .rewindingTables todo failures => failures = [] ∧
      ∀ name, name ∉ todo → contents d.tables name = p.tables name
  | .deletingRows todo => todo.Nodup ∧
      ∀ name, contents d.tables name = if name ∈ todo then p.tables name else p.rewound name
  | .rewindingIndexDatasets todo failures => failures = [] ∧ contents d.tables = p.rewound ∧
      ∀ name, name ∉ todo → contents d.indexDatasets name = p.indexDatasets name
  | .widening todo => live.shape = p.restored.shape ∧
      contents d.indexDatasets = p.indexDatasets ∧
      ∃ finished, p.writes e = finished ++ todo ∧ contents d.tables = finished.foldl put p.rewound
  | .savingCatalog => live.shape = p.restored.shape ∧
      contents d.indexDatasets = p.indexDatasets ∧ contents d.tables = p.final e
  | .publishing => d.catalog.shape = p.restored.shape ∧
      contents d.indexDatasets = p.indexDatasets ∧ contents d.tables = p.final e
  | .rebuilding todo => todo = [] ∧ d.latest = some p.job.intent.manifestId ∧
      d.catalog.shape = p.restored.shape ∧ contents d.indexDatasets = p.indexDatasets ∧
      contents d.tables = p.final e
  | .finishing => d.latest = some p.job.intent.manifestId ∧
      d.catalog.shape = p.restored.shape ∧ contents d.indexDatasets = p.indexDatasets ∧
      contents d.tables = p.final e
  | _ => False

/-- Before the intent is stored. -/
inductive Early (p : Plan T V I X) : State T V I X → Prop
  | flushing : Early p ⟨p.base, .busy p.live p.job (.flushing p.f p.now)⟩
  | withdrawing : Early p ⟨p.flushed, .busy p.live p.job (.withdrawing p.now)⟩
  | preparing : Early p ⟨p.distrusted, .busy p.withdrawn p.job (.preparing p.now)⟩
  | intending : Early p ⟨p.prepared, .busy p.withdrawn p.job .intending⟩
  | down {d : Store T V I X} : p.EarlyDisk d → Early p ⟨d, .down⟩
  | idle {d : Store T V I X} {live : Catalog T X} : p.EarlyDisk d → Early p ⟨d, .idle live⟩

/-- From the intent on. -/
inductive Late (e : Engine T V I X) (p : Plan T V I X) : State T V I X → Prop
  | busy {d : Store T V I X} {live : Catalog T X} {phase : Phase V I} : Recoverable p d →
      live.writerFeatures = currentWriterFeatures → p.Trusts live.trustedUnmarkedManifest →
      Progress e p d live phase → Late e p ⟨d, .busy live p.job phase⟩
  | down {d : Store T V I X} : Recoverable p d → Late e p ⟨d, .down⟩

/-- What a restore leaves on disk. -/
structure Restored (e : Engine T V I X) (p : Plan T V I X) (d : Store T V I X) : Prop where
  intent : d.intent = none
  latest : d.loadLatestSnapshot = some p.manifest
  catalog : d.catalog.shape = p.restored.shape
  trusted : p.Trusts d.catalog.trustedUnmarkedManifest
  indexDatasets : contents d.indexDatasets = p.indexDatasets
  tables : contents d.tables = p.final e

/-- After the intent is cleared. -/
inductive Done (e : Engine T V I X) (p : Plan T V I X) : State T V I X → Prop
  | down {d : Store T V I X} : Restored e p d → Done e p ⟨d, .down⟩
  | idle {d : Store T V I X} {live : Catalog T X} : Restored e p d → Done e p ⟨d, .idle live⟩

variable {a : Action}

section Before

variable {e : Engine T V I X} {p : Plan T V I X}

theorem Plan.lookup_current (p : Plan T V I X) :
    p.flushed.manifests.lookup p.f.manifest.snapshotId = some p.current :=
  lookup_insert p.base.manifests

theorem Plan.distrusted_fields (p : Plan T V I X) : p.distrusted.tables = p.flushed.tables ∧
    p.distrusted.indexDatasets = p.flushed.indexDatasets ∧
    p.distrusted.manifests = p.flushed.manifests ∧ p.distrusted.latest = p.flushed.latest ∧
    p.distrusted.restorePoints = p.flushed.restorePoints ∧
    p.distrusted.intent = p.flushed.intent := by
  unfold Plan.distrusted
  split <;> exact ⟨rfl, rfl, rfl, rfl, rfl, rfl⟩

theorem Plan.catalog_distrusted (p : Plan T V I X) :
    p.distrusted.catalog = p.base.catalog ∨ p.distrusted.catalog = p.withdrawn := by
  unfold Plan.distrusted
  split
  · exact .inr rfl
  · exact .inl rfl

theorem Plan.loadLatestSnapshot_flushed (p : Plan T V I X) :
    p.flushed.loadLatestSnapshot = some p.current :=
  p.lookup_current

theorem Plan.loadLatestSnapshot_distrusted (p : Plan T V I X) :
    p.distrusted.loadLatestSnapshot = some p.current := by
  rcases p.distrusted_fields with ⟨-, -, hm, hl, -, -⟩
  rw [Store.loadLatestSnapshot, hm, hl]
  exact p.lookup_current

/-- The manifest that the restore prepares has an id of its own. -/
theorem Plan.manifestId_ne (p : Plan T V I X) {id : String} (h : id ∈ p.flushed.manifests) :
    id ≠ p.job.intent.manifestId := by
  rintro rfl
  exact p.fresh h

theorem Plan.manifests_prepared (p : Plan T V I X) : p.prepared.manifests =
    p.flushed.manifests.insert p.job.intent.manifestId p.manifest := by
  rw [← p.distrusted_fields.2.2.1]
  rfl

theorem Plan.loadLatestSnapshot_prepared (p : Plan T V I X) :
    p.prepared.loadLatestSnapshot = some p.current := by
  have hl : p.prepared.latest = some p.f.manifest.snapshotId := p.distrusted_fields.2.2.2.1
  have hne := p.manifestId_ne (mem_of_lookup p.lookup_current)
  rw [Store.loadLatestSnapshot, hl, Option.bind_some, p.manifests_prepared, lookup_insert_ne hne]
  exact p.lookup_current

theorem Plan.intent_of_earlyDisk {d : Store T V I X} (h : p.EarlyDisk d) : d.intent = none := by
  have hd : p.distrusted.intent = none := p.distrusted_fields.2.2.2.2.2.trans p.base_intent
  rcases h with rfl | rfl | rfl | rfl
  · exact p.base_intent
  · exact p.base_intent
  · exact hd
  · exact hd

theorem Plan.recoverable_prepared (p : Plan T V I X) :
    Recoverable p { p.prepared with intent := some p.job.intent } := by
  rcases p.distrusted_fields with ⟨ht, hi, -, -, hr, -⟩
  have hmem : p.job.intent.snapshotId ∈ p.base.manifests := mem_of_lookup p.stored_target
  have hflush : p.flushed.manifests.lookup p.job.intent.snapshotId = some p.job.target := by
    have hne : p.job.intent.snapshotId ≠ p.f.manifest.snapshotId := by
      intro heq
      exact p.valid.fresh (heq ▸ hmem)
    exact (lookup_insert_ne hne).trans p.stored_target
  refine ⟨rfl, ?_, ?_, ?_, .inl p.loadLatestSnapshot_prepared, ?_, ?_, ?_⟩
  · show p.distrusted.restorePoints.lookup _ = _
    rw [hr]
    exact p.stored_point
  · rw [p.manifests_prepared, lookup_insert_ne (p.manifestId_ne (mem_of_lookup hflush))]
    exact hflush
  · rw [p.manifests_prepared, lookup_insert]
  · show Held _ p.distrusted.tables _
    rw [ht]
    exact p.held_tables
  · show Held _ p.distrusted.indexDatasets _
    rw [hi]
    exact p.held_indexDatasets
  · show p.Trusts p.distrusted.catalog.trustedUnmarkedManifest
    rcases p.catalog_distrusted with h | h
    · rw [h]
      exact .inr rfl
    · rw [h]
      exact .inl rfl

theorem Recoverable.progress_start {d : Store T V I X} (h : Recoverable p d) (live : Catalog T X) :
    Progress e p d live (.rewindingTables d.tables.keys []) :=
  ⟨rfl, fun _ hn => h.tables.contents_of_keys hn⟩

theorem Early.earlyDisk {s : State T V I X} (h : Early p s) : p.EarlyDisk s.disk := by
  cases h with
  | flushing => exact .inl rfl
  | withdrawing => exact .inr (.inl rfl)
  | preparing => exact .inr (.inr (.inl rfl))
  | intending => exact .inr (.inr (.inr rfl))
  | down hd | idle hd => exact hd

/-- One step before the intent is stored. -/
theorem Early.step {s t : State T V I X} (h : Early p s)
    (hstep : Restore.step e s a = some t) : Early p t ∨ Late e p t := by
  cases a with
  | crash =>
    cases hstep
    exact .inl (.down h.earlyDisk)
  | reopen =>
    cases h with cases hstep
    | down hd =>
      simp only [reopen, p.intent_of_earlyDisk hd]
      exact .inl (.idle hd)
  | advance =>
    cases h with cases hstep
    | flushing => exact .inl .withdrawing
    | withdrawing => exact .inl .preparing
    | preparing =>
      simp only [advance, p.loadLatestSnapshot_distrusted, p.point_catalog]
      exact .inl .intending
    | intending =>
      exact .inr (.busy p.recoverable_prepared p.features (.inl rfl)
        (p.recoverable_prepared.progress_start _))

end Before

section Rewind

variable {e : Engine T V I X} {p : Plan T V I X} {d : Store T V I X} {live : Catalog T X}

theorem Recoverable.of_tables (h : Recoverable p d) {tables : Datasets (TableData V)}
    (ht : Held p.job.point.tables tables p.tables) : Recoverable p { d with tables := tables } :=
  ⟨h.intent, h.point, h.target, h.manifest, h.latest, ht, h.indexDatasets, h.trusted⟩

theorem contents_after_rewindOne {α : Type} {m m' : Datasets α} {c : String → Option α}
    {name : String} {todo : List String} (hother : ∀ n, n ≠ name → m'.lookup n = m.lookup n)
    (hname : contents m' name = c name) (hdone : ∀ n, n ∉ name :: todo → contents m n = c n) :
    ∀ n, n ∉ todo → contents m' n = c n := by
  intro n hn
  by_cases heq : n = name
  · rw [heq, hname]
  · rw [contents, hother n heq]
    exact hdone n (by simp [heq, hn])

/-- The rewind of the catalog does not depend on when it happens. -/
theorem shape_restored (p : Plan T V I X) (h : live.writerFeatures = currentWriterFeatures) :
    (restoredCatalog live p.catalog p.job.target.createdAt).shape = p.restored.shape := by
  simp only [Plan.restored, restoredCatalog, Catalog.shape, distrust_version, h, p.features]

/-- One write of the rewind. -/
theorem Late.advance {phase : Phase V I} (h : Recoverable p d)
    (hw : live.writerFeatures = currentWriterFeatures)
    (ht : p.Trusts live.trustedUnmarkedManifest) (hp : Progress e p d live phase) :
    Late e p (advance e d live p.job phase) ∨ Done e p (Restore.advance e d live p.job phase) := by
  cases phase with
  | flushing | withdrawing | preparing | intending => exact hp.elim
  | rewindingTables todo =>
    rcases hp with ⟨rfl, hdone⟩
    cases todo with
    | nil =>
      refine .inl (.busy h hw ht ⟨p.job.point.tables.keys_nodup, fun name => ?_⟩)
      rw [hdone name not_mem_nil]
      split
      · rfl
      · -- a table that is not recorded is gone
        rename_i hn
        have hnone : p.tables name = none :=
          h.tables.unrecorded (lookup_eq_none.mpr hn)
        rw [Plan.rewound, hnone, Option.map_none]
    | cons name =>
      rcases h.tables.rewindOne name with ⟨m, hm, hheld, hother, hname⟩
      simp only [Restore.advance, hm]
      exact .inl (.busy (h.of_tables hheld) hw ht
        ⟨rfl, contents_after_rewindOne hother hname hdone⟩)
  | deletingRows todo =>
    rcases hp with ⟨hnodup, hcont⟩
    cases todo with
    | nil =>
      refine .inl (.busy h hw ht ⟨rfl, funext fun name => ?_, fun name hn => ?_⟩)
      -- no table is left with rows to delete
      · rw [hcont name, if_neg not_mem_nil]
      · exact h.indexDatasets.contents_of_keys hn
    | cons name =>
      rw [nodup_cons] at hnodup
      refine .inl (.busy (h.of_tables (held_dropRowsOutside h.tables p.job.target name)) hw ht
        ⟨hnodup.2, fun n => ?_⟩)
      rw [contents_dropRowsOutside, hcont n]
      by_cases heq : n = name
      · subst heq
        rw [if_pos rfl, if_pos mem_cons_self, if_neg hnodup.1, Plan.rewound]
      · rw [if_neg heq]
        simp [heq]
  | rewindingIndexDatasets todo =>
    rcases hp with ⟨rfl, hcont, hdone⟩
    cases todo with
    | nil =>
      -- all tables are back, so the columns that the catalog declares are widened next
      have hshape := shape_restored p hw
      simp only [Restore.advance, isEmpty_nil, if_true, p.point_catalog]
      refine .inl (.busy h hw ht ⟨hshape, funext fun n => hdone n not_mem_nil, [], ?_, hcont⟩)
      rw [nil_append, Plan.writes, hcont, rewidenDeclaredProperties_of_shape e hshape]
    | cons name =>
      rcases h.indexDatasets.rewindOne name with ⟨m, hm, hheld, hother, hname⟩
      simp only [Restore.advance, hm]
      exact .inl (.busy { h with indexDatasets := hheld } hw ht
        ⟨rfl, hcont, contents_after_rewindOne hother hname hdone⟩)
  | widening todo =>
    rcases hp with ⟨hshape, hi, finished, hwrites, hcont⟩
    cases todo with
    | nil =>
      simp only [Restore.advance, p.point_catalog, Option.isSome_some, if_true]
      rw [append_nil] at hwrites
      exact .inl (.busy h hw ht ⟨hshape, hi, by rw [hcont, Plan.final, hwrites]⟩)
    | cons w =>
      refine .inl (.busy (h.of_tables (h.tables.writeExisting w.1 w.2)) hw ht
        ⟨hshape, hi, finished ++ [w], by simp [hwrites], funext fun n => ?_⟩)
      rw [contents_writeExisting, hcont, foldl_append]
      rfl
  | savingCatalog =>
    rcases hp with ⟨hshape, hi, hcont⟩
    -- of the catalog on disk, recovery only needs which manifest it trusts
    have hrec : Recoverable p { d with catalog := live } :=
      ⟨h.intent, h.point, h.target, h.manifest, h.latest, h.tables, h.indexDatasets, ht⟩
    exact .inl (.busy hrec hw ht ⟨hshape, hi, hcont⟩)
  | publishing =>
    have hrec : Recoverable p { d with latest := some p.job.intent.manifestId } :=
      ⟨h.intent, h.point, h.target, h.manifest, .inr h.manifest, h.tables, h.indexDatasets,
        h.trusted⟩
    exact .inl (.busy hrec hw ht ⟨p.no_rebuild, rfl, hp⟩)
  | rebuilding =>
    rcases hp with ⟨rfl, hp⟩
    exact .inl (.busy h hw ht hp)
  | finishing =>
    rcases hp with ⟨hl, hshape, hi, hcont⟩
    refine .inr (.idle ⟨rfl, ?_, hshape, h.trusted, hi, hcont⟩)
    rw [hl]
    exact h.manifest

theorem Late.step {s t : State T V I X} (h : Late e p s)
    (hstep : Restore.step e s a = some t) : Late e p t ∨ Done e p t := by
  cases h with
  | busy hr hw ht hp =>
    cases a with cases hstep
    | advance => exact Late.advance hr hw ht hp
    | crash => exact .inl (.down hr)
  | down hr =>
    cases a with cases hstep
    | crash => exact .inl (.down hr)
    | reopen =>
      simp only [reopen, hr.intent, hr.point, hr.target]
      exact .inl (.busy hr rfl hr.trusted (hr.progress_start _))

/-- One step after the intent is cleared. -/
theorem Done.step {s t : State T V I X} (h : Done e p s)
    (hstep : Restore.step e s a = some t) : Done e p t := by
  cases h with
  | down hr =>
    cases a with cases hstep
    | crash => exact .down hr
    | reopen =>
      simp only [reopen, hr.intent]
      exact .idle hr
  | idle hr =>
    cases a with cases hstep
    | crash => exact .down hr

end Rewind

section Ends

variable {e : Engine T V I X} {p : Plan T V I X}

/-- Any state of a restore. -/
def Good (e : Engine T V I X) (p : Plan T V I X) (s : State T V I X) : Prop :=
  Early p s ∨ Late e p s ∨ Done e p s

theorem Good.step {s t : State T V I X} (h : Good e p s)
    (hstep : Restore.step e s a = some t) : Good e p t := by
  rcases h with h | h | h
  · exact (h.step hstep).imp_right .inl
  · exact .inr (h.step hstep)
  · exact .inr (.inr (h.step hstep))

/-- How much is left of a restore: the phases, and then what is left of a loop. -/
def Phase.rank : Phase V I → Nat ×ₗ Nat
  | .flushing _ _ => toLex (11, 0)
  | .withdrawing _ => toLex (10, 0)
  | .preparing _ => toLex (9, 0)
  | .intending => toLex (8, 0)
  | .rewindingTables todo _ => toLex (7, todo.length)
  | .deletingRows todo => toLex (6, todo.length)
  | .rewindingIndexDatasets todo _ => toLex (5, todo.length)
  | .widening todo => toLex (4, todo.length)
  | .savingCatalog => toLex (3, 0)
  | .publishing => toLex (2, 0)
  | .rebuilding todo => toLex (1, todo.length)
  | .finishing => toLex (0, 0)

variable {d d' : Store T V I X} {live : Catalog T X} {job : Job T X} {phase : Phase V I}

/-- Every write brings a restore nearer to its end. -/
theorem rank_advance {live' : Catalog T X} {job' : Job T X} {phase' : Phase V I}
    (h : advance e d live job phase = ⟨d', .busy live' job' phase'⟩) :
    phase'.rank < phase.rank := by
  revert h
  fun_cases advance e d live job phase <;> intro h
  all_goals simp only [State.mk.injEq, Proc.busy.injEq, reduceCtorEq, and_false] at h
  all_goals rcases h with ⟨-, -, -, rfl⟩
  -- after the last widening the catalog decides between two phases of a lower rank
  case case17 => split <;> simp [Phase.rank, Prod.Lex.toLex_lt_toLex]
  all_goals simp [Phase.rank, Prod.Lex.toLex_lt_toLex]

/-- The process is open and has nothing left to do. -/
def State.Open (s : State T V I X) : Prop := ∃ live, s.proc = .idle live

/-- The process is done only when it has cleared the intent. -/
theorem advance_idle {live' : Catalog T X} (h : advance e d live job phase = ⟨d', .idle live'⟩) :
    phase = .finishing := by
  revert h
  unfold advance
  repeat' split
  all_goals intro h
  all_goals first
    | rfl
    | cases h

theorem advance_up : advance e d live job phase ≠ ⟨d', .down⟩ := by
  unfold advance
  repeat' split
  all_goals intro h; cases h

/-- A restore that is left alone ends, with the intent cleared. -/
theorem finishes (h : Good e p ⟨d, .busy live job phase⟩) :
    ∃ n t, run (step e) ⟨d, .busy live job phase⟩ (replicate n .advance) = some t ∧
      t.Open ∧ Done e p t := by
  induction hr : phase.rank using WellFoundedLT.induction generalizing d live job phase with
  | ind r ih =>
  have hnext : step e ⟨d, .busy live job phase⟩ .advance = some (advance e d live job phase) := rfl
  have hgood : Good e p (advance e d live job phase) := h.step hnext
  -- the process is still there after the write, so it is busy or open
  have hcont : ∀ s : State T V I X, advance e d live job phase = s → Good e p s →
      ∃ n t, run (step e) s (replicate n .advance) = some t ∧ t.Open ∧ Done e p t := by
    rintro ⟨d', proc⟩ hs hg
    cases proc with
    | busy => exact ih _ (hr ▸ rank_advance hs) hg rfl
    | idle live' =>
      refine ⟨0, _, rfl, ⟨live', rfl⟩, ?_⟩
      rw [← hs]
      cases advance_idle hs
      rcases h with h | h | h
      · cases h
      · rcases h.step hnext with h' | h'
        · cases h'
        · exact h'
      · cases h
    | down => exact absurd hs advance_up
    | failed => rcases hg with hg | hg | hg <;> cases hg
  rcases hcont _ rfl hgood with ⟨n, t, hrun, hopen⟩
  refine ⟨n + 1, t, ?_, hopen⟩
  rw [replicate_succ, run, hnext]
  exact hrun

/-- So does every reopen. -/
theorem recovers {s : State T V I X} (h : Good e p s) :
    ∃ n t, run (step e) s (.crash :: .reopen :: replicate n .advance) = some t ∧ t.Open := by
  have hcrash : step e s .crash = some { s with proc := .down } := rfl
  have hopen : step e { s with proc := .down } .reopen = some (reopen s.disk) := rfl
  have hgood : Good e p (reopen s.disk) := (h.step hcrash).step hopen
  have hcont : ∀ t : State T V I X, reopen s.disk = t → Good e p t →
      ∃ n u, run (step e) t (replicate n .advance) = some u ∧ u.Open := by
    rintro ⟨d, proc⟩ ht hg
    cases proc with
    | busy =>
      rcases finishes hg with ⟨n, u, hu, hopen, -⟩
      exact ⟨n, u, hu, hopen⟩
    | idle live => exact ⟨0, _, rfl, live, rfl⟩
    | down =>
      exfalso
      revert ht
      unfold reopen
      repeat' split
      all_goals intro ht; cases ht
    | failed => rcases hg with hg | hg | hg <;> cases hg
  rcases hcont _ rfl hgood with ⟨n, t, hrun, ht⟩
  refine ⟨n, t, ?_, ht⟩
  rw [run, hcrash]
  dsimp only
  rw [run, hopen]
  exact hrun

end Ends

section History

/-- What holds of a snapshot from the time it is taken. -/
structure Snapshotted (id : String) (point : RestorePoint T X) (target : SnapshotManifest)
    (tables : String → Option (TableData V)) (indexDatasets : String → Option I)
    (d : Store T V I X) : Prop where
  intent : d.intent = none
  stored_point : d.restorePoints.lookup id = some point
  stored_target : d.manifests.lookup id = some target
  tables : Kept point.tag point.tables tables d.tables
  indexDatasets : Kept point.tag point.indexDatasets indexDatasets d.indexDatasets

variable {id : String} {point : RestorePoint T X} {target : SnapshotManifest}
  {tables : String → Option (TableData V)} {indexDatasets : String → Option I}
  {d d' : Store T V I X}

theorem snapshotted_createSnapshot (h : d.intent = none) (live : Catalog T X) (f : Flush V I) :
    Snapshotted f.manifest.snapshotId (captureRestorePoint (d.flush f) live f.manifest.snapshotId)
      { f.manifest with writerFeatures := currentWriterFeatures }
      (contents (d.flush f).tables) (contents (d.flush f).indexDatasets)
      (createSnapshot d live f) :=
  ⟨h, lookup_insert _, lookup_insert _, kept_pinAll _ _, kept_pinAll _ _⟩

section

variable (h : Snapshotted id point target tables indexDatasets d)

include h

theorem Snapshotted.flush {f : Flush V I} (hf : f.Valid d) :
    Snapshotted id point target tables indexDatasets (d.flush f) := by
  have hne : id ≠ f.manifest.snapshotId := by
    rintro rfl
    exact hf.fresh (mem_of_lookup h.stored_target)
  exact ⟨h.intent, h.stored_point, (lookup_insert_ne hne).trans h.stored_target,
    h.tables.writeAll _,
    h.indexDatasets.writeAll _⟩

theorem Snapshotted.change {c : Change T V I X} (hc : d.change c = some d') :
    Snapshotted id point target tables indexDatasets d' := by
  cases c with
  | writeTable name data =>
    cases hc
    exact ⟨h.intent, h.stored_point, h.stored_target, h.tables.write name data, h.indexDatasets⟩
  | writeIndexDataset name data =>
    cases hc
    exact ⟨h.intent, h.stored_point, h.stored_target, h.tables, h.indexDatasets.write name data⟩
  | cleanupTable name =>
    cases hc
    exact ⟨h.intent, h.stored_point, h.stored_target, h.tables.cleanup name, h.indexDatasets⟩
  | cleanupIndexDataset name =>
    cases hc
    exact ⟨h.intent, h.stored_point, h.stored_target, h.tables, h.indexDatasets.cleanup name⟩
  | flush =>
    simp only [Store.change] at hc
    split at hc
    · rename_i hf
      cases hc
      exact h.flush hf
    · cases hc
  | saveCatalog =>
    cases hc
    exact ⟨h.intent, h.stored_point, h.stored_target, h.tables, h.indexDatasets⟩

theorem Snapshotted.run {cs : List (Change T V I X)} (hcs : UniDb.run Store.change d cs = some d') :
    Snapshotted id point target tables indexDatasets d' :=
  run_invariant (fun _ _ _ hs hc => hs.change hc) h hcs

end

end History

section Atomicity

/-- The marks of the latest manifest are not below those from before. -/
def MarksKept (before after : Store T V I X) : Prop :=
  ∀ m ∈ before.loadLatestSnapshot, ∃ m' ∈ after.loadLatestSnapshot,
    m.versionHighWaterMark ≤ m'.versionHighWaterMark ∧ m.walHighWaterMark ≤ m'.walHighWaterMark

/-- The store from before a restore, flushed or not. Its catalog may have lost endpoint
    verifications. -/
structure Unrestored (before : Store T V I X) (f : Flush V I) (withdrawn : Catalog T X)
    (d : Store T V I X) : Prop where
  data : ∃ d', (d' = before ∨ d' = before.flush f) ∧ d.tables = d'.tables ∧
    d.indexDatasets = d'.indexDatasets ∧ d.loadLatestSnapshot = d'.loadLatestSnapshot
  catalog : d.catalog = before.catalog ∨ d.catalog = withdrawn
  intent : d.intent = none

/-- The same tables, index datasets, catalog and latest manifest. -/
structure SameOutcome (a b : Store T V I X) : Prop where
  tables : contents a.tables = contents b.tables
  indexDatasets : contents a.indexDatasets = contents b.indexDatasets
  catalog : a.catalog.shape = b.catalog.shape
  latest : a.loadLatestSnapshot = b.loadLatestSnapshot
  intent : a.intent = b.intent

variable {e : Engine T V I X} {p : Plan T V I X}

theorem Plan.marks_current (p : Plan T V I X) : ∀ m ∈ p.base.loadLatestSnapshot,
    m.versionHighWaterMark ≤ p.current.versionHighWaterMark ∧
      m.walHighWaterMark ≤ p.current.walHighWaterMark :=
  fun m hm => ⟨p.valid.version m hm, p.valid.wal m hm⟩

variable {d : Store T V I X}

theorem Plan.marksKept_of_latest
    (h : d.loadLatestSnapshot = some p.current ∨ d.loadLatestSnapshot = some p.manifest) :
    MarksKept p.base d := by
  intro m hm
  rcases h with h | h
  · exact ⟨p.current, h, p.marks_current m hm⟩
  · exact ⟨p.manifest, h, p.marks_current m hm⟩

theorem Plan.marksKept_of_earlyDisk (h : p.EarlyDisk d) : MarksKept p.base d := by
  rcases h with rfl | rfl | rfl | rfl
  · exact fun m hm => ⟨m, hm, le_rfl, le_rfl⟩
  · exact Plan.marksKept_of_latest (.inl p.loadLatestSnapshot_flushed)
  · exact Plan.marksKept_of_latest (.inl p.loadLatestSnapshot_distrusted)
  · exact Plan.marksKept_of_latest (.inl p.loadLatestSnapshot_prepared)

variable {s : State T V I X}

theorem Good.marksKept (h : Good e p s) : MarksKept p.base s.disk := by
  rcases h with h | h | h
  · exact Plan.marksKept_of_earlyDisk h.earlyDisk
  · cases h with
    | busy hr | down hr => exact Plan.marksKept_of_latest hr.latest
  · cases h with
    | down hr | idle hr => exact Plan.marksKept_of_latest (.inr hr.latest)

theorem Plan.unrestored_of_earlyDisk (h : p.EarlyDisk d) :
    Unrestored p.base p.f p.withdrawn d := by
  refine ⟨?_, ?_, p.intent_of_earlyDisk h⟩
  · rcases p.distrusted_fields with ⟨ht, hi, -, -, -, -⟩
    rcases h with rfl | rfl | rfl | rfl
    · exact ⟨_, .inl rfl, rfl, rfl, rfl⟩
    · exact ⟨_, .inr rfl, rfl, rfl, rfl⟩
    · exact ⟨_, .inr rfl, ht, hi,
        p.loadLatestSnapshot_distrusted.trans p.loadLatestSnapshot_flushed.symm⟩
    · exact ⟨_, .inr rfl, ht, hi,
        p.loadLatestSnapshot_prepared.trans p.loadLatestSnapshot_flushed.symm⟩
  · rcases h with rfl | rfl | rfl | rfl
    · exact .inl rfl
    · exact .inl rfl
    · exact p.catalog_distrusted
    · exact p.catalog_distrusted

theorem Early.intent (h : Early p s) : s.disk.intent = none :=
  p.intent_of_earlyDisk h.earlyDisk

theorem Late.intent (h : Late e p s) : s.disk.intent ≠ none := by
  cases h with
  | busy hr | down hr => simp [hr.intent]

theorem Done.restored (h : Done e p s) : Restored e p s.disk := by
  cases h with
  | down hr | idle hr => exact hr

theorem Restored.sameOutcome {a b : Store T V I X} (ha : Restored e p a) (hb : Restored e p b) :
    SameOutcome a b :=
  ⟨ha.tables.trans hb.tables.symm, ha.indexDatasets.trans hb.indexDatasets.symm,
    ha.catalog.trans hb.catalog.symm, ha.latest.trans hb.latest.symm,
    ha.intent.trans hb.intent.symm⟩

/-- After a restore, no row is outside the snapshot. -/
theorem Restored.within (h : Restored e p d) (name : String) (data : TableData V)
    (hd : contents d.tables name = some data) : data.Within p.job.target := by
  rw [h.tables, Plan.final, Plan.writes, rewidenDeclaredProperties] at hd
  refine within_rewiden e _ _ (fun n data' hn => ?_) name data hd
  rcases Option.map_eq_some_iff.mp hn with ⟨old, -, rfl⟩
  exact within_rewound p.job.target old

variable {t : State T V I X} {as : List Action}

theorem Good.run (h : Good e p s) (hrun : UniDb.run (Restore.step e) s as = some t) : Good e p t :=
  run_invariant (fun _ _ _ hs hstep => hs.step hstep) h hrun

theorem early_of_run (h : Early p s) (hrun : UniDb.run (step e) s as = some t)
    (hnone : ∀ bs u, bs <+: as → UniDb.run (step e) s bs = some u → u.disk.intent = none) :
    Early p t := by
  induction as generalizing s with
  | nil =>
    cases hrun
    exact h
  | cons a as ih =>
    rcases run_cons hrun with ⟨s', hs', hrun'⟩
    have hpre : ∀ bs u, bs <+: as → UniDb.run (step e) s' bs = some u → u.disk.intent = none := by
      intro bs u hbs hu
      refine hnone (a :: bs) u (cons_prefix_cons.mpr ⟨rfl, hbs⟩) ?_
      simp only [UniDb.run, hs']
      exact hu
    rcases h.step hs' with hs | hs
    · exact ih hs hrun' hpre
    · exact absurd (hpre [] s' nil_prefix rfl) hs.intent

/-- Once the intent is stored, a process that is open again has finished. -/
theorem done_of_open (h : Good e p s) (hs : s.disk.intent ≠ none)
    (hrun : UniDb.run (step e) s as = some t) (hopen : t.Open) : Done e p t := by
  have hlate : Late e p s ∨ Done e p s := by
    rcases h with h | h
    · exact absurd h.intent hs
    · exact h
  have hend : Late e p t ∨ Done e p t := by
    refine run_invariant (I := fun s => Late e p s ∨
      Done e p s) (fun s a s' hI hstep => ?_) hlate hrun
    rcases hI with hI | hI
    · exact hI.step hstep
    · exact .inr (hI.step hstep)
  rcases hend with hend | hend
  · rcases hopen with ⟨live, hproc⟩
    cases hend <;> cases hproc
  · exact hend

theorem indexesNeedingRebuild_self [DecidableEq X] (point : RestorePoint T X) :
    indexesNeedingRebuild point.indexes point = [] := by
  have hfilter : (point.indexes.filter fun i => ¬ point.indexes.any fun old =>
      old.name = i.name ∧ (old.label = i.label ∧ old.config = i.config) ∧
        old.lastBuiltAt = i.lastBuiltAt) = [] := by
    rw [filter_eq_nil_iff]
    intro i hi
    simp only [decide_not, Bool.not_eq_true', decide_eq_false_iff_not, not_not, any_eq_true,
      decide_eq_true_eq]
    exact ⟨i, hi, rfl, ⟨rfl, rfl⟩, rfl⟩
  simp only [indexesNeedingRebuild]
  rw [hfilter, map_nil, dedup_nil, insertionSort_nil]

theorem restoreSnapshot_ok [DecidableEq X] {live : Catalog T X} {o : Obstacles} {r : Request V I}
    (h : restoreSnapshot d live o r = .ok s) :
    ∃ target point catalog, d.manifests.lookup r.snapshotId = some target ∧
      d.restorePoints.lookup r.snapshotId = some point ∧ point.catalog = some catalog ∧
      s = ⟨d, .busy live ⟨point, target, ⟨r.snapshotId, r.manifestId,
        indexesNeedingRebuild catalog.indexes point⟩⟩ (.flushing r.flush r.now)⟩ := by
  unfold restoreSnapshot at h
  repeat' split at h
  all_goals first
    | exact ⟨_, _, _, by assumption, by assumption, by assumption, (Except.ok.inj h).symm⟩
    | cases h

/-- The plan of a restore that is about to start. -/
def planOf [DecidableEq X] (live : Catalog T X) (r : Request V I) {base : Store T V I X}
    {point : RestorePoint T X} {target : SnapshotManifest} {catalog : Catalog T X}
    {tables : String → Option (TableData V)} {indexDatasets : String → Option I}
    (h : Snapshotted r.snapshotId point target tables indexDatasets base)
    (hcatalog : point.catalog = some catalog) (hindexes : point.indexes = catalog.indexes)
    (hflush : r.flush.Valid base) (hfresh : r.manifestId ∉ (base.flush r.flush).manifests)
    (hlive : live.writerFeatures = currentWriterFeatures) : Plan T V I X where
  base := base
  live := live
  job := ⟨point, target, ⟨r.snapshotId, r.manifestId, indexesNeedingRebuild catalog.indexes point⟩⟩
  catalog := catalog
  f := r.flush
  now := r.now
  tables := tables
  indexDatasets := indexDatasets
  base_intent := h.intent
  point_catalog := hcatalog
  no_rebuild := by rw [← hindexes, indexesNeedingRebuild_self]
  stored_point := h.stored_point
  stored_target := h.stored_target
  valid := hflush
  fresh := hfresh
  features := hlive
  held_tables := (h.flush hflush).tables.held
  held_indexDatasets := (h.flush hflush).indexDatasets.held

/-- A restore is atomic across crashes. Take any store, a snapshot of it and any history after that,
    and start a restore of the snapshot. Left alone, it ends. However often it and the reopens after
    it are cut off, the next reopen that is left alone ends as well, with marks that are not below
    those from before, and in one of two ways. If the intent was never stored, the store is the one
    from before, except that verifications of edge endpoints recorded after the snapshot may be
    withdrawn. If it was, the store has the tables, the index datasets, the catalog and the latest
    manifest of a restore that was left alone, and no row outside the snapshot; of the catalog, the
    version may differ, and the record of the open if it was not saved. -/
theorem restore_atomic [DecidableEq X] (e : Engine T V I X) {d base : Store T V I X}
    (hintent : d.intent = none) (catalog : Catalog T X) (f : Flush V I)
    {cs : List (Change T V I X)} (hcs : run Store.change (createSnapshot d catalog f) cs =
      some base)
    (trusted : Option String) {o : Obstacles} {r : Request V I}
    (hid : r.snapshotId = f.manifest.snapshotId) (hflush : r.flush.Valid base)
    (hfresh : r.manifestId ∉ (base.flush r.flush).manifests) {s₀ : State T V I X}
    (hstart : restoreSnapshot base { base.catalog.load with trustedUnmarkedManifest := trusted } o r
      = .ok s₀) :
    ∃ n u, run (step e) s₀ (replicate n .advance) = some u ∧ u.Open ∧
      ∀ as s, run (step e) s₀ as = some s →
        (∃ k t, run (step e) s (.crash :: .reopen :: replicate k .advance) = some t ∧ t.Open) ∧
        MarksKept base s.disk ∧
        (s.Open → ((∀ bs t, bs <+: as → run (step e) s₀ bs = some t → t.disk.intent = none) →
            Unrestored base r.flush
              { base.catalog.load with
                schema := (base.catalog.schema.distrustVerificationsAfter f.manifest.createdAt).1
                trustedUnmarkedManifest := trusted } s.disk) ∧
          ((∃ bs t, bs <+: as ∧ run (step e) s₀ bs = some t ∧ t.disk.intent ≠ none) →
            SameOutcome u.disk s.disk ∧
            (s.disk.catalog.trustedUnmarkedManifest = trusted ∨
              s.disk.catalog.trustedUnmarkedManifest = base.catalog.trustedUnmarkedManifest) ∧
            ∀ name data, contents s.disk.tables name = some data → data.Within f.manifest)) := by
  rcases r with ⟨id, manifestId, now, rf⟩
  cases hid
  have hsnap := (snapshotted_createSnapshot hintent catalog f).run hcs
  rcases restoreSnapshot_ok hstart with ⟨target, point, catalog', htarget, hpoint, hcat, rfl⟩
  rw [hsnap.stored_target, Option.some.injEq] at htarget
  rw [hsnap.stored_point, Option.some.injEq] at hpoint
  subst htarget hpoint
  cases hcat
  -- from here on everything is about the plan
  let p : Plan T V I X := planOf
    { base.catalog.load with trustedUnmarkedManifest := trusted }
    ⟨f.manifest.snapshotId, manifestId, now, rf⟩ hsnap rfl rfl hflush hfresh rfl
  have hearly : Early p ⟨base, .busy p.live p.job (.flushing rf now)⟩ := .flushing
  have hgood : Good e p ⟨base, .busy p.live p.job (.flushing rf now)⟩ := .inl hearly
  rcases finishes hgood with ⟨n, u, hu, huopen, hudone⟩
  refine ⟨n, u, hu, huopen, fun as s hs => ?_⟩
  have hsgood := hgood.run hs
  refine ⟨recovers hsgood, hsgood.marksKept, fun hopen => ⟨fun hnone => ?_, ?_⟩⟩
  · exact Plan.unrestored_of_earlyDisk (early_of_run hearly hs hnone).earlyDisk
  · rintro ⟨bs, t, ⟨rest, rfl⟩, ht, hti⟩
    rw [run_append ht] at hs
    have hdone := (done_of_open (hgood.run ht) hti hs hopen).restored
    exact ⟨hudone.restored.sameOutcome hdone, hdone.trusted, hdone.within⟩

end Atomicity

section Sample

/-- An engine that never widens. -/
def sampleEngine : Engine Unit Unit Unit Unit where
  widen _ _ _ _ _ := []
  rebuildIndexesForLabel _ d := d
  widen_rows := by simp

variable (conformance : EndpointConformance)

/-- A catalog with one edge type. -/
def sampleCatalog : Catalog Unit Unit where
  schema := { Schema.empty with
    edgeTypes := (∅ : AssocMap String EdgeTypeMeta).insert "KNOWS" ⟨1, [], [], none, conformance⟩ }
  indexes := []
  writerFeatures := currentWriterFeatures
  trustedUnmarkedManifest := none

def sampleManifest (id : String) (createdAt version : Nat) : SnapshotManifest :=
  ⟨id, none, createdAt, none, 1, version, version, ∅, ∅, currentWriterFeatures, []⟩

/-- The latest manifest is from a binary that did not mark its features yet. -/
def sampleStore : Store Unit Unit Unit Unit where
  tables := ∅
  indexDatasets := ∅
  catalog := sampleCatalog .unverified
  manifests := AList.insert "old" { sampleManifest "old" 1 0 with writerFeatures := [] } ∅
  latest := some "old"
  restorePoints := ∅
  intent := none

/-- The table of the snapshot has a row above its mark. -/
def sampleFlush : Flush Unit Unit :=
  ⟨[("vertices", ⟨[versionColumn], [⟨1, ()⟩, ⟨9, ()⟩]⟩)], [], sampleManifest "snapshot" 3 2⟩

def sampleSnapshot : Store Unit Unit Unit Unit :=
  createSnapshot sampleStore (sampleCatalog .unverified) sampleFlush

/-- After the snapshot a table is written, one is created and the catalog is saved. -/
def sampleChanges : List (Change Unit Unit Unit Unit) :=
  [.writeTable "vertices" ⟨[versionColumn], [⟨4, ()⟩]⟩, .writeTable "edges" ⟨[], []⟩,
    .saveCatalog (sampleCatalog conformance)]

/-- The store before the restore. -/
def sampleBase : Store Unit Unit Unit Unit :=
  (run Store.change sampleSnapshot (sampleChanges conformance)).getD sampleSnapshot

def sampleRequest : Request Unit Unit :=
  ⟨"snapshot", "restored", 7, [], [], sampleManifest "flush" 6 4⟩

/-- The restore starts, in a process with a record of its open that is not saved. -/
def sampleStart : Except RestoreError
    (State Unit Unit Unit Unit) :=
  restoreSnapshot (sampleBase conformance)
    { (sampleBase conformance).catalog.load with trustedUnmarkedManifest := some "old" }
    ⟨false, false, false, false⟩ sampleRequest

def conformanceOf (s : State Unit Unit Unit Unit) : Option EndpointConformance :=
  (s.disk.catalog.schema.edgeTypes.lookup "KNOWS").map EdgeTypeMeta.endpointConformance

/-- A restore that is cut off in the middle of its tables and twice more. -/
theorem restore_atomic_cut : ∃ s n u t,
    sampleStart (.verified 5) = .ok s ∧
    run (step sampleEngine) s (replicate n .advance) = some u ∧ u.Open ∧
    run (step sampleEngine) s (replicate 5 .advance ++ [.crash, .reopen, .advance, .advance,
      .crash, .reopen] ++ replicate 10 .advance) = some t ∧ t.Open ∧
    SameOutcome u.disk t.disk ∧
    contents t.disk.tables "vertices" = some ⟨[versionColumn], [⟨1, ()⟩]⟩ ∧
    contents t.disk.tables "edges" = none := by
  have hcs : run Store.change sampleSnapshot (sampleChanges (.verified 5)) =
      some (sampleBase (.verified 5)) := rfl
  rcases restore_atomic sampleEngine (d := sampleStore) rfl (sampleCatalog .unverified)
    sampleFlush hcs (some "old") (o := ⟨false, false, false, false⟩) (r := sampleRequest) rfl
    (by decide +kernel) (by decide +kernel) rfl with ⟨n, u, hu, hopen, hall⟩
  rcases hall (replicate 5 .advance ++ [.crash, .reopen, .advance, .advance, .crash,
    .reopen] ++ replicate 10 .advance) _ rfl with ⟨-, -, hend⟩
  have hstored : replicate 4 Action.advance <+: replicate 5 .advance ++
      [.crash, .reopen, .advance, .advance, .crash, .reopen] ++ replicate 10 .advance :=
    by decide
  have hsame := ((hend ⟨_, rfl⟩).2 ⟨_, _, hstored, rfl, nofun⟩).1
  exact ⟨_, n, u, _, rfl, hu, hopen, rfl, ⟨_, rfl⟩, hsame, rfl, rfl⟩

/-- Before the intent is stored, a crash leaves the catalog without the verification.
    After it, a crash loses the record of the open, which a restore that is left alone
    saves with the catalog. -/
theorem interrupted_restore_withdraws :
    (∃ s t, sampleStart (.verified 5) = .ok s ∧ conformanceOf s = some (.verified 5) ∧
      run (step sampleEngine) s [.advance, .advance, .crash, .reopen] = some t ∧ t.Open ∧
      t.disk.intent = none ∧ conformanceOf t = some .unverified) ∧
    (∃ s t u, sampleStart .unverified = .ok s ∧
      run (step sampleEngine) s (replicate 15 .advance) = some u ∧ u.Open ∧
      u.disk.catalog.trustedUnmarkedManifest = some "old" ∧
      run (step sampleEngine) s (replicate 5 .advance ++ [.crash, .reopen] ++
        replicate 10 .advance) = some t ∧ t.Open ∧
      t.disk.catalog.trustedUnmarkedManifest = none) := by
  refine ⟨⟨_, _, rfl, rfl, rfl, ⟨_, rfl⟩, rfl, rfl⟩,
    ⟨_, _, _, rfl, rfl, ⟨_, rfl⟩, rfl, rfl, ⟨_, rfl⟩, rfl⟩⟩

end Sample

end UniDb.Restore
