import UniDb.Lib.Run
import UniDb.Storage.AdjacencyCompaction
import UniDb.Storage.AdjacencyReads
import UniDb.Storage.Delta

/-!
# Re-warming the Main CSR

What happens to writes that are not in storage yet when the Main CSR of a key is
read again from storage.

A warm reads the adjacency table and the visible deltas of an edge type and
replaces the Main CSR of the key by what it read. The overlay is not touched, so
a write that is still in the overlay survives. But a compaction of the overlay
moves its inserts into the Main CSR and drops its tombstones, and it does so
whether or not the writes have been flushed. A warm after that forgets an insert
that storage does not have, and brings back an edge that storage still has.

So the writes are kept exactly if every warm that replaces the CSR comes while
the overlay still has them, or reads them from storage. `rewarm_keeps_iff` says
this for every sequence of compactions and warms, and `rewarm_loses_writes` is
the shortest sequence that loses them.

## Main definitions

* `EdgeStore`: What storage answers to a warm.
* `readStorage`, `warmOnce`: One warm.
* `Stored`: Storage has an edge, and no visible deletion of it.
* `KeepsInsert`, `KeepsTombstone`: A step that does not lose the write.

## Theorems

* `mem_liveEntries`: What a warm reads.
* `inMain_compact`: What the Main CSR lists after a compaction.
* `mem_mainEntries_warmOnce`: What a warm replaces.
* `rewarm_keeps_iff`: When a write to the overlay is kept.
* `rewarm_loses_writes`: A compaction and a warm that lose writes.
-/

namespace UniDb

open List AssocMap Except

namespace Adjacency

structure EdgeTypeMeta where
  srcLabels : List String
  dstLabels : List String

/-- What storage answers to a warm. A table that does not exist is empty; a scan may fail. -/
structure EdgeStore where
  edgeTypeNameById : Nat → Option String
  edgeTypes : String → Option EdgeTypeMeta
  adjacencyDataset : String → String → Direction → Except String (List AdjacencyRow)
  deltaDataset : String → Direction → Except String (List L1Entry)

/-- What a warm has read so far. -/
structure WarmScan where
  shadow : ShadowCsr
  entries : List EdgeRow
  deletedEids : AssocSet Eid

namespace EdgeStore

def labelsToLoad (store : EdgeStore) (edgeTypeName : String) (direction : Direction) :
    List String :=
  match direction, store.edgeTypes edgeTypeName with
  | .outgoing, some edgeMeta => edgeMeta.srcLabels
  | .incoming, some edgeMeta => edgeMeta.dstLabels
  | .both, some edgeMeta => sortDedup (· ≤ ·) (edgeMeta.srcLabels ++ edgeMeta.dstLabels)
  | _, none => []

end EdgeStore

/-- Adjacency rows carry no version: they are visible to everyone. -/
def AdjacencyRow.entries (row : AdjacencyRow) : List EdgeRow :=
  row.edges.map fun e => ⟨row.srcVid, ⟨e.1, e.2, 0⟩⟩

def L1Entry.row (x : L1Entry) (dir : Direction) : EdgeRow :=
  ⟨(x.endsAt dir).1, ⟨(x.endsAt dir).2, x.eid, x.version⟩⟩

def readDelta (edgeType : Nat) (dir : Direction) (scan : WarmScan) (x : L1Entry) : WarmScan :=
  match x.op with
  | .insert => { scan with entries := scan.entries ++ [x.row dir] }
  | .delete =>
    { scan with
      deletedEids := scan.deletedEids.insert x.eid ()
      shadow := scan.shadow.addDeletedEdge (x.endsAt dir).1
        ⟨(x.endsAt dir).2, x.eid, edgeType, 0, x.version⟩ dir }

variable (store : EdgeStore)

/-- Read the tables of one direction. On an error the tombstones that were read
    before stay in the shadow. -/
def readTables (edgeType : Nat) (name : String) (labels : List String)
    (vis : RowVisibility) (scan : WarmScan) (dir : Direction) :
    Except (String × ShadowCsr) WarmScan := do
  let tables ← (labels.mapM fun label => store.adjacencyDataset name label dir).mapError
    fun e => (e, scan.shadow)
  let deltas ← (store.deltaDataset name dir).mapError fun e => (e, scan.shadow)
  let rows := tables.flatten.flatMap AdjacencyRow.entries
  return (deltas.filter fun x => vis.admits x.version).foldl (readDelta edgeType dir)
    { scan with entries := scan.entries ++ rows }

def readStorage (edgeType : Nat) (direction : Direction)
    (vis : RowVisibility) (shadow : ShadowCsr) : Except (String × ShadowCsr) WarmScan :=
  match store.edgeTypeNameById edgeType with
  | none => .error (s!"Edge type {edgeType} not found", shadow)
  | some name =>
    direction.expand.foldlM
      (readTables store edgeType name (store.labelsToLoad name direction) vis) ⟨shadow, [], ∅⟩

/-- The entries that the CSR is built from. -/
def WarmScan.liveEntries (scan : WarmScan) : List EdgeRow :=
  dedupEntriesByEid (scan.entries.filter fun r => !decide (r.entry.eid ∈ scan.deletedEids))

/-- One read of the CSR, and whether it was installed: the gate must still be at
    the epoch that the read began in. -/
def AdjacencyManager.warmOnce (m : AdjacencyManager) (store : EdgeStore) (edgeType : Nat)
    (direction : Direction) (vis : RowVisibility) (epoch gateEpoch : Nat) :
    AdjacencyManager × Except String Bool :=
  match readStorage store edgeType direction vis m.shadow with
  | .error (e, shadow) => ({ m with shadow := shadow }, .error e)
  | .ok scan =>
    let entries := scan.liveEntries
    let csr := MainCsr.fromEdgeEntries (maxOffset entries) entries
    if epoch = gateEpoch then
      ({ m with
          shadow := scan.shadow
          mainCsr := m.mainCsr.insert (edgeType, direction) csr }, .ok true)
    else ({ m with shadow := scan.shadow }, .ok false)

/-! ## What a warm reads -/

/-- The deltas that a warm reads. -/
def EdgeStore.visibleDeltas (name : String) (dir : Direction)
    (vis : RowVisibility) : List L1Entry :=
  match store.deltaDataset name dir with
  | .error _ => []
  | .ok deltas => deltas.filter fun x => vis.admits x.version

/-- Storage has the edge, and no visible deletion of it. -/
def EdgeStore.Stored (key : OverlayKey) (vis : RowVisibility) (vid : Vid)
    (p : Vid × Eid) : Prop :=
  ∃ name, store.edgeTypeNameById key.1 = some name ∧
    ((∃ label ∈ store.labelsToLoad name key.2, ∃ rows,
        store.adjacencyDataset name label key.2 = .ok rows ∧
          ∃ r ∈ rows, r.srcVid = vid ∧ p ∈ r.edges) ∨
      ∃ x ∈ store.visibleDeltas name key.2 vis, x.op = .insert ∧
        x.endsAt key.2 = (vid, p.1) ∧ x.eid = p.2) ∧
    ∀ x ∈ store.visibleDeltas name key.2 vis, x.op = .delete → x.eid ≠ p.2

/-- The tables list edges where their endpoints say. -/
structure EdgeStore.Fits (ends : Eid → EdgeEnds) (store : EdgeStore) : Prop where
  adjacency : ∀ edgeType name label dir rows, store.edgeTypeNameById edgeType = some name →
    dir ≠ .both → store.adjacencyDataset name label dir = .ok rows →
    ∀ r ∈ rows, ∀ e ∈ r.edges, Placed ends (edgeType, dir) r.srcVid e.1 e.2
  deltas : ∀ edgeType name dir rows, store.edgeTypeNameById edgeType = some name →
    store.deltaDataset name dir = .ok rows →
    ∀ x ∈ rows, x.Fits ends ∧ (ends x.eid).edgeType = edgeType

section ReadDelta

variable (edgeType : Nat) (dir : Direction) (deltas : List L1Entry) (scan : WarmScan)

theorem mem_entries_foldl_readDelta (r : EdgeRow) :
    r ∈ (deltas.foldl (readDelta edgeType dir) scan).entries ↔
      r ∈ scan.entries ∨ ∃ x ∈ deltas, x.op = .insert ∧ r = x.row dir := by
  induction deltas generalizing scan with
  | nil => simp
  | cons x deltas ih =>
    rw [foldl_cons, ih]
    simp only [mem_cons, exists_eq_or_imp]
    cases hop : x.op with
    | insert => simp [readDelta, hop, or_assoc]
    | delete => simp [readDelta, hop]

theorem mem_deletedEids_foldl_readDelta (eid : Eid) :
    eid ∈ (deltas.foldl (readDelta edgeType dir) scan).deletedEids ↔
      eid ∈ scan.deletedEids ∨ ∃ x ∈ deltas, x.op = .delete ∧ x.eid = eid := by
  induction deltas generalizing scan with
  | nil => simp
  | cons x deltas ih =>
    rw [foldl_cons, ih]
    simp only [mem_cons, exists_eq_or_imp]
    cases hop : x.op with
    | insert => simp [readDelta, hop]
    | delete =>
      simp only [readDelta, hop, AList.mem_insert, true_and, or_assoc]
      rw [or_left_comm, eq_comm]

end ReadDelta

theorem mem_of_mapM_ok {α β ε : Type} {f : α → Except ε (List β)} {l : List α}
    {tables : List (List β)} (h : l.mapM f = .ok tables) (b : β) :
    b ∈ tables.flatten ↔ ∃ a ∈ l, ∃ rows, f a = .ok rows ∧ b ∈ rows := by
  induction l generalizing tables with
  | nil =>
    obtain rfl : tables = [] := by simpa [pure, Except.pure] using h.symm
    simp
  | cons a l ih =>
    rw [mapM_cons] at h
    cases ha : f a with
    | error => simp [ha, bind, Except.bind] at h
    | ok rows =>
      cases hl : l.mapM f with
      | error => simp [ha, hl, bind, Except.bind] at h
      | ok rest =>
        obtain rfl : tables = rows :: rest := by
          simpa [ha, hl, bind, Except.bind, pure, Except.pure] using h.symm
        simp [ha, ih hl]

/-- A warm of one direction that reads everything. -/
theorem readStorage_ok {store : EdgeStore} {edgeType : Nat} {dir : Direction}
    {vis : RowVisibility} {shadow : ShadowCsr} {scan : WarmScan} (hdir : dir ≠ .both)
    (h : readStorage store edgeType dir vis shadow = .ok scan) :
    ∃ name tables, store.edgeTypeNameById edgeType = some name ∧
      ((store.labelsToLoad name dir).mapM fun label => store.adjacencyDataset name label dir) =
        .ok tables ∧
      (∃ deltas, store.deltaDataset name dir = .ok deltas) ∧
      scan = (store.visibleDeltas name dir vis).foldl (readDelta edgeType dir)
        ⟨shadow, tables.flatten.flatMap AdjacencyRow.entries, ∅⟩ := by
  have hexpand : dir.expand = [dir] := by
    cases dir with
    | outgoing | incoming => rfl
    | both => exact absurd rfl hdir
  rw [readStorage] at h
  cases hname : store.edgeTypeNameById edgeType with
  | none => simp [hname] at h
  | some name =>
    simp only [hname, hexpand, foldlM_cons, foldlM_nil, readTables] at h
    cases htables : (store.labelsToLoad name dir).mapM
        fun label => store.adjacencyDataset name label dir with
    | error => simp [htables, Except.mapError, bind, Except.bind] at h
    | ok tables =>
      cases hdeltas : store.deltaDataset name dir with
      | error => simp [htables, hdeltas, Except.mapError, bind, Except.bind] at h
      | ok deltas =>
        refine ⟨name, tables, rfl, htables, ⟨deltas, hdeltas⟩, ?_⟩
        simp only [htables, hdeltas, Except.mapError, bind, Except.bind, pure, Except.pure,
          nil_append, Except.ok.injEq] at h
        rw [← h, EdgeStore.visibleDeltas, hdeltas]

section Read

variable {ends : Eid → EdgeEnds} {store : EdgeStore} {edgeType : Nat} {dir : Direction}
  {vis : RowVisibility} {shadow : ShadowCsr} {scan : WarmScan}

theorem EdgeStore.Fits.row_placed (h : store.Fits ends) {name : String}
    (hname : store.edgeTypeNameById edgeType = some name) (hdir : dir ≠ .both) {x : L1Entry}
    (hx : x ∈ store.visibleDeltas name dir vis) :
    Placed ends (edgeType, dir) (x.endsAt dir).1 (x.endsAt dir).2 x.eid := by
  rw [EdgeStore.visibleDeltas] at hx
  cases hdeltas : store.deltaDataset name dir with
  | error => simp [hdeltas] at hx
  | ok deltas =>
    rw [hdeltas] at hx
    rcases h.deltas edgeType name dir deltas hname hdeltas x (mem_filter.mp hx).1 with
      ⟨hends, htype⟩
    exact ⟨htype, hends.listedAt hdir⟩

theorem EdgeStore.Fits.stored_placed (h : store.Fits ends) {key : OverlayKey}
    (hdir : key.2 ≠ .both) {vid : Vid} {p : Vid × Eid} (hstored : store.Stored key vis vid p) :
    Placed ends key vid p.1 p.2 := by
  rcases hstored with
    ⟨name, hname, ⟨label, _, rows, hok, r, hr, rfl, hp⟩ | ⟨x, hx, _, hends, heid⟩, _⟩
  · exact h.adjacency key.1 name label key.2 rows hname hdir hok r hr p hp
  · have hplaced := h.row_placed hname hdir hx
    rw [hends, heid] at hplaced
    exact hplaced

theorem mem_liveEntries (hfits : store.Fits ends) (hdir : dir ≠ .both)
    (h : readStorage store edgeType dir vis shadow = .ok scan) (vid : Vid) (p : Vid × Eid) :
    (∃ version, ⟨vid, ⟨p.1, p.2, version⟩⟩ ∈ scan.liveEntries) ↔
      store.Stored (edgeType, dir) vis vid p := by
  rcases readStorage_ok hdir h with ⟨name, tables, hname, htables, ⟨deltas, hdeltas⟩, rfl⟩
  have hrows : ∀ r, r ∈ tables.flatten.flatMap AdjacencyRow.entries ↔
      ∃ label ∈ store.labelsToLoad name dir, ∃ rows,
        store.adjacencyDataset name label dir = .ok rows ∧
          ∃ row ∈ rows, ∃ e ∈ row.edges, r = ⟨row.srcVid, ⟨e.1, e.2, 0⟩⟩ := by
    intro r
    simp only [mem_flatMap, mem_of_mapM_ok htables, AdjacencyRow.entries, mem_map]
    constructor
    · rintro ⟨row, ⟨label, hlabel, rows, hok, hrow⟩, e, he, rfl⟩
      exact ⟨label, hlabel, rows, hok, row, hrow, e, he, rfl⟩
    · rintro ⟨label, hlabel, rows, hok, row, hrow, e, he, rfl⟩
      exact ⟨row, ⟨label, hlabel, rows, hok, hrow⟩, e, he, rfl⟩
  have hplaced : ∀ r ∈ ((store.visibleDeltas name dir vis).foldl (readDelta edgeType dir)
      ⟨shadow, tables.flatten.flatMap AdjacencyRow.entries, ∅⟩).entries,
      Placed ends (edgeType, dir) r.src r.entry.neighborVid r.entry.eid := by
    intro r hr
    rcases (mem_entries_foldl_readDelta _ _ _ _ r).mp hr with hr | ⟨x, hx, _, rfl⟩
    · rcases (hrows r).mp hr with ⟨label, _, rows, hok, row, hrow, e, he, rfl⟩
      exact hfits.adjacency edgeType name label dir rows hname hdir hok row hrow e he
    · exact hfits.row_placed hname hdir hx
  rw [WarmScan.liveEntries, exists_mem_dedup_iff fun r hr => hplaced r (mem_filter.mp hr).1]
  simp only [mem_filter, mem_entries_foldl_readDelta, mem_deletedEids_foldl_readDelta, hrows,
    AList.notMem_empty, false_or, Bool.not_eq_true', decide_eq_false_iff_not, not_exists, not_and,
    EdgeStore.Stored, hname, Option.some.injEq, exists_eq_left', exists_and_right]
  refine and_congr ?_ Iff.rfl
  constructor
  · rintro ⟨version, ⟨label, hlabel, rows, hok, row, hrow, e, he, heq⟩ | ⟨x, hx, hop, heq⟩⟩
    · simp only [EdgeRow.mk.injEq, CsrEdgeEntry.mk.injEq] at heq
      rcases heq with ⟨rfl, hn, heid, _⟩
      exact .inl ⟨label, hlabel, rows, hok, row, hrow, rfl, Prod.ext hn heid ▸ he⟩
    · simp only [L1Entry.row, EdgeRow.mk.injEq, CsrEdgeEntry.mk.injEq] at heq
      rcases heq with ⟨hvid, hn, heid, _⟩
      exact .inr ⟨x, hx, hop, (Prod.ext hvid hn).symm, heid.symm⟩
  · rintro (⟨label, hlabel, rows, hok, row, hrow, rfl, he⟩ | ⟨x, hx, hop, hends, heid⟩)
    · exact ⟨0, .inl ⟨label, hlabel, rows, hok, row, hrow, p, he, rfl⟩⟩
    · refine ⟨x.version, .inr ⟨x, hx, hop, ?_⟩⟩
      rw [L1Entry.row, hends, heid]

end Read

/-! ## What a compaction and a warm do to the Main CSR -/

/-- The layers list edges where their endpoints say. -/
structure AdjacencyManager.Fits (ends : Eid → EdgeEnds) (m : AdjacencyManager) : Prop where
  main : ∀ key vid, key.2 ≠ .both → ∀ x ∈ m.mainEntries key vid,
    Placed ends key vid x.neighborVid x.eid
  layers : ∀ s ∈ m.layers, ∀ key vid, ∀ x ∈ s.entriesFor key vid,
    Placed ends key vid x.neighborVid x.eid
  tombstones : ∀ s ∈ m.layers, ∀ eid ts, s.tombstones.lookup eid = some ts →
    ts.edgeType = (ends eid).edgeType

theorem layers_compact (m : AdjacencyManager) : m.compact.layers = [L0CsrSegment.new] := by
  rw [AdjacencyManager.layers, m.compact_frozenSegments, m.compact_activeOverlay, nil_append]

namespace AdjacencyManager.Fits

variable {ends : Eid → EdgeEnds} {m : AdjacencyManager} {key : OverlayKey}

/-- The tombstones of an edge are among those of its type. -/
theorem tombstoned_iff (h : m.Fits ends) {eid : Eid} (htype : (ends eid).edgeType = key.1) :
    (∀ d ∈ tombstonesOf m.layers key.1, d.1 ≠ eid) ↔ ¬ Tombstoned m.layers eid := by
  simp only [tombstonesOf, mem_flatMap, mem_filter, beq_iff_eq]
  constructor
  · rintro hnone ⟨s, hs, hmem⟩
    rcases mem_iff_lookup.mp hmem with ⟨ts, hts⟩
    exact hnone (eid, ts) ⟨s, hs, mem_toList.mpr hts,
      (h.tombstones s hs eid ts hts).trans htype⟩ rfl
  · rintro hnot ⟨e, ts⟩ ⟨s, hs, hts, _⟩ rfl
    exact hnot ⟨s, hs, mem_of_lookup (mem_toList.mp hts)⟩

theorem liveRows_placed (h : m.Fits ends) (hdir : key.2 ≠ .both) :
    ∀ r ∈ liveRows m.layers key (m.mainCsr.lookup key),
      Placed ends key r.src r.entry.neighborVid r.entry.eid := by
  intro r hr
  rcases ((m.mem_liveRows key r.src r.entry).mp hr).1 with hmain | ⟨s, hs, hx⟩
  · exact h.main key r.src hdir r.entry hmain
  · exact h.layers s hs key r.src r.entry hx

theorem inMain_compact (h : m.Fits ends) {vid n : Vid} {eid : Eid}
    (hplaced : Placed ends key vid n eid) (hdir : key.2 ≠ .both) :
    m.compact.InMain key vid (n, eid) ↔
      (m.InMain key vid (n, eid) ∨ Inserted m.layers key vid (n, eid)) ∧
        ¬ Tombstoned m.layers eid := by
  simp only [AdjacencyManager.InMain, AdjacencyManager.mem_mainEntries_compact,
    exists_mem_dedup_iff (h.liveRows_placed hdir), AdjacencyManager.mem_liveRows,
    h.tombstoned_iff hplaced.1, exists_and_right, Inserted]
  refine and_congr_left' ?_
  rw [exists_or]
  refine or_congr Iff.rfl ?_
  constructor
  · rintro ⟨version, s, hs, hx⟩
    exact ⟨s, hs, version, hx⟩
  · rintro ⟨s, hs, version, hx⟩
    exact ⟨version, s, hs, hx⟩

theorem compact (h : m.Fits ends) : m.compact.Fits ends := by
  constructor
  case main =>
    intro key vid hdir x hx
    rw [AdjacencyManager.mem_mainEntries_compact] at hx
    exact h.liveRows_placed hdir _ (dedupEntriesByEid_mem hx).1
  case layers =>
    intro s hs key vid x hx
    rw [layers_compact, mem_singleton] at hs
    rw [hs, L0CsrSegment.entriesFor_new] at hx
    cases hx
  case tombstones =>
    intro s hs eid ts hts
    rw [layers_compact, mem_singleton] at hs
    rw [hs] at hts
    cases hts

end AdjacencyManager.Fits

section Warm

variable {ends : Eid → EdgeEnds} (m : AdjacencyManager) (store : EdgeStore) (edgeType : Nat)
  (direction : Direction) (vis : RowVisibility) (epoch gateEpoch : Nat)

theorem layers_warmOnce :
    (m.warmOnce store edgeType direction vis epoch gateEpoch).1.layers = m.layers := by
  rw [AdjacencyManager.warmOnce]
  split
  · rfl
  · simp only
    split <;> rfl

theorem mem_mainEntries_warmOnce (key : OverlayKey) (vid : Vid) (x : CsrEdgeEntry) :
    x ∈ (m.warmOnce store edgeType direction vis epoch gateEpoch).1.mainEntries key vid ↔
      if key = (edgeType, direction) ∧
          (m.warmOnce store edgeType direction vis epoch gateEpoch).2 = .ok true then
        ∃ scan, readStorage store edgeType direction vis m.shadow = .ok scan ∧
          ⟨vid, x⟩ ∈ scan.liveEntries else x ∈ m.mainEntries key vid := by
  rw [AdjacencyManager.warmOnce]
  cases hread : readStorage store edgeType direction vis m.shadow with
  | error =>
    simp only [reduceCtorEq, and_false, if_false]
    rfl
  | ok =>
    by_cases hepoch : epoch = gateEpoch
    · simp only [hepoch, if_true, and_true, ok.injEq, exists_eq_left',
        AdjacencyManager.mainEntries, lookup_insert_eq]
      by_cases hkey : key = (edgeType, direction)
      · simp only [hkey, if_true]
        exact MainCsr.mem_getEntries_fromEdgeEntries (fun r hr => src_le_maxOffset hr) vid x
      · simp [hkey]
    · simp only [hepoch, if_false, ok.injEq, Bool.false_eq_true, and_false]
      rfl

theorem inMain_warmOnce (hfits : store.Fits ends) {key : OverlayKey} (hdir : key.2 ≠ .both)
    (vid : Vid) (p : Vid × Eid) :
    (m.warmOnce store edgeType direction vis epoch gateEpoch).1.InMain key vid p ↔
      if key = (edgeType, direction) ∧
          (m.warmOnce store edgeType direction vis epoch gateEpoch).2 = .ok true then
        store.Stored key vis vid p else m.InMain key vid p := by
  rw [AdjacencyManager.InMain]
  simp only [mem_mainEntries_warmOnce]
  split
  · rename_i hinstalled
    obtain ⟨rfl, hok⟩ := hinstalled
    -- an installed warm has read everything
    have hread : ∃ scan, readStorage store edgeType direction vis m.shadow = .ok scan := by
      cases hread : readStorage store edgeType direction vis m.shadow with
      | error =>
        rw [AdjacencyManager.warmOnce, hread] at hok
        cases hok
      | ok scan => exact ⟨scan, rfl⟩
    rcases hread with ⟨scan, hread⟩
    simp only [hread, ok.injEq, exists_eq_left']
    exact mem_liveEntries hfits hdir hread vid p
  · exact Iff.rfl

theorem AdjacencyManager.Fits.warmOnce {m : AdjacencyManager} {store : EdgeStore}
    (h : m.Fits ends) (hfits : store.Fits ends) (edgeType : Nat) (direction : Direction)
    (vis : RowVisibility) (epoch gateEpoch : Nat) :
    (m.warmOnce store edgeType direction vis epoch gateEpoch).1.Fits ends := by
  have hlayers := layers_warmOnce m store edgeType direction vis epoch gateEpoch
  constructor
  case main =>
    intro key vid hdir x hx
    have hmain := (inMain_warmOnce m store edgeType direction vis epoch gateEpoch hfits hdir vid
      (x.neighborVid, x.eid)).mp ⟨x.createdVersion, hx⟩
    split at hmain
    · exact hfits.stored_placed hdir hmain
    · rcases hmain with ⟨version, hx'⟩
      have hplaced := h.main key vid hdir _ hx'
      exact hplaced
  case layers => exact fun s hs => h.layers s (hlayers ▸ hs)
  case tombstones => exact fun s hs => h.tombstones s (hlayers ▸ hs)

end Warm

/-! ## Sequences of compactions and warms -/

/-- A compaction, or a warm of some key. -/
inductive Rebuild (ends : Eid → EdgeEnds)
  | compact
  | warmOnce (store : { s : EdgeStore // s.Fits ends }) (edgeType : Nat) (direction : Direction)
      (vis : RowVisibility) (epoch gateEpoch : Nat)

namespace Rebuild

variable {ends : Eid → EdgeEnds}

def apply (m : AdjacencyManager) : Rebuild ends → AdjacencyManager
  | .compact => m.compact
  | .warmOnce store edgeType direction vis epoch gateEpoch =>
    (m.warmOnce store edgeType direction vis epoch gateEpoch).1

/-- A warm that replaces the CSR of the key finds the insertion in the overlay or in storage. -/
def KeepsInsert (key : OverlayKey) (vid : Vid) (p : Vid × Eid) (m : AdjacencyManager) :
    Rebuild ends → Prop
  | .compact => True
  | .warmOnce store edgeType direction vis epoch gateEpoch =>
    key = (edgeType, direction) →
      (m.warmOnce store edgeType direction vis epoch gateEpoch).2 = .ok true →
      Inserted m.layers key vid p ∨ store.val.Stored key vis vid p

/-- A warm that replaces the CSR of the key finds the tombstone in the overlay, or
    storage does not have the edge any more. -/
def KeepsTombstone (key : OverlayKey) (vid : Vid) (p : Vid × Eid) (m : AdjacencyManager) :
    Rebuild ends → Prop
  | .compact => True
  | .warmOnce store edgeType direction vis epoch gateEpoch =>
    key = (edgeType, direction) →
      (m.warmOnce store edgeType direction vis epoch gateEpoch).2 = .ok true →
      Tombstoned m.layers p.2 ∨ ¬ store.val.Stored key vis vid p

/-- Rebuilds are always possible. -/
def step (m : AdjacencyManager) (a : Rebuild ends) : Option AdjacencyManager := some (a.apply m)

theorem apply_fits {m : AdjacencyManager} (h : m.Fits ends) (a : Rebuild ends) :
    (a.apply m).Fits ends := by
  cases a with
  | compact => exact h.compact
  | warmOnce store edgeType direction vis epoch gateEpoch =>
    exact h.warmOnce store.property edgeType direction vis epoch gateEpoch

end Rebuild

section Keeps

variable {ends : Eid → EdgeEnds} {key : OverlayKey} {vid n : Vid} {eid : Eid}

/-- A read in one direction. -/
theorem mem_getNeighbors_iff (hdir : key.2 ≠ .both) (m : AdjacencyManager) (p : Vid × Eid) :
    p ∈ m.getNeighbors vid key.1 key.2 ↔
      (m.InMain key vid p ∧ ¬ Tombstoned m.layers p.2) ∨
        LiveIn (.atMost none) key vid p m.layers := by
  have hexpand : key.2.expand = [key.2] := by
    cases hkey : key.2 with
    | outgoing | incoming => rfl
    | both => exact absurd hkey hdir
  rw [AdjacencyManager.mem_getNeighbors, hexpand]
  simp [hdir]

variable {m : AdjacencyManager}

/-- Without a tombstone a read returns what some layer has. -/
theorem mem_getNeighbors_of_not_tombstoned (hdir : key.2 ≠ .both) {p : Vid × Eid}
    (hnot : ¬ Tombstoned m.layers p.2) :
    p ∈ m.getNeighbors vid key.1 key.2 ↔ m.InMain key vid p ∨ Inserted m.layers key vid p := by
  rw [mem_getNeighbors_iff hdir]
  refine or_congr (and_iff_left hnot) ⟨LiveIn.inserted, ?_⟩
  exact fun hins => hins.liveIn ((unhidden_iff _ _).mpr hnot)

theorem not_tombstoned_compact (m : AdjacencyManager) (eid : Eid) :
    ¬ Tombstoned m.compact.layers eid := by
  rw [layers_compact]
  rintro ⟨s, hs, hmem⟩
  rw [mem_singleton.mp hs] at hmem
  exact AList.notMem_empty eid hmem

theorem not_inserted_compact (m : AdjacencyManager) (p : Vid × Eid) :
    ¬ Inserted m.compact.layers key vid p := by
  rw [layers_compact]
  rintro ⟨s, hs, version, hx⟩
  rw [mem_singleton.mp hs, L0CsrSegment.entriesFor_new] at hx
  cases hx

theorem mem_getNeighbors_compact (h : m.Fits ends) (hplaced : Placed ends key vid n eid)
    (hdir : key.2 ≠ .both) : (n, eid) ∈ m.compact.getNeighbors vid key.1 key.2 ↔
      (m.InMain key vid (n, eid) ∨ Inserted m.layers key vid (n, eid)) ∧
        ¬ Tombstoned m.layers eid := by
  rw [mem_getNeighbors_of_not_tombstoned hdir (not_tombstoned_compact m eid),
    h.inMain_compact hplaced hdir]
  exact or_iff_left (not_inserted_compact m (n, eid))

/-- An insertion is lost exactly by a warm that finds it nowhere. -/
theorem step_keepsInsert (h : m.Fits ends) (hnot : ¬ Tombstoned m.layers eid)
    (hplaced : Placed ends key vid n eid) (hdir : key.2 ≠ .both)
    (hmem : (n, eid) ∈ m.getNeighbors vid key.1 key.2) (a : Rebuild ends) :
    (n, eid) ∈ (a.apply m).getNeighbors vid key.1 key.2 ↔ a.KeepsInsert key vid (n, eid) m := by
  rw [mem_getNeighbors_of_not_tombstoned hdir hnot] at hmem
  cases a with
  | compact =>
    rw [Rebuild.apply, mem_getNeighbors_compact h hplaced hdir]
    exact iff_of_true ⟨hmem, hnot⟩ trivial
  | warmOnce store edgeType direction vis epoch gateEpoch =>
    have hlayers := layers_warmOnce m store edgeType direction vis epoch gateEpoch
    rw [Rebuild.apply, mem_getNeighbors_of_not_tombstoned hdir (by rw [hlayers]; exact hnot),
      inMain_warmOnce m store.val edgeType direction vis epoch gateEpoch store.property hdir,
      hlayers, Rebuild.KeepsInsert]
    split
    · rename_i hinstalled
      exact ⟨fun hread _ _ => hread.symm, fun hread => (hread hinstalled.1 hinstalled.2).symm⟩
    · rename_i hkept
      exact iff_of_true hmem fun hkey hok => absurd ⟨hkey, hok⟩ hkept

/-- A deletion is lost exactly by a warm that finds the edge and no tombstone. -/
theorem step_keepsTombstone (h : m.Fits ends) (hplaced : Placed ends key vid n eid)
    (hdir : key.2 ≠ .both) (hmem : (n, eid) ∉ m.getNeighbors vid key.1 key.2) (a : Rebuild ends) :
    (n, eid) ∉ (a.apply m).getNeighbors vid key.1 key.2 ↔ a.KeepsTombstone key vid (n, eid) m := by
  cases a with
  | compact =>
    refine iff_of_true ?_ trivial
    rw [Rebuild.apply, mem_getNeighbors_compact h hplaced hdir]
    rintro ⟨hlisted, hnot⟩
    exact hmem ((mem_getNeighbors_of_not_tombstoned hdir hnot).mpr hlisted)
  | warmOnce store edgeType direction vis epoch gateEpoch =>
    rw [mem_getNeighbors_iff hdir, not_or] at hmem
    rw [Rebuild.apply, mem_getNeighbors_iff hdir, layers_warmOnce,
      inMain_warmOnce m store.val edgeType direction vis epoch gateEpoch store.property hdir,
      or_iff_left hmem.2, Rebuild.KeepsTombstone]
    split
    · rename_i hinstalled
      rw [not_and, not_not, imp_iff_not_or]
      exact ⟨fun hread _ _ => hread.symm, fun hread => (hread hinstalled.1 hinstalled.2).symm⟩
    · rename_i hkept
      exact iff_of_true hmem.1 fun hkey hok => absurd ⟨hkey, hok⟩ hkept

theorem not_tombstoned_apply (hnot : ¬ Tombstoned m.layers eid) (a : Rebuild ends) :
    ¬ Tombstoned (a.apply m).layers eid := by
  cases a with
  | compact => exact not_tombstoned_compact m eid
  | warmOnce =>
    rw [Rebuild.apply, layers_warmOnce]
    exact hnot

theorem not_mem_of_tombstoned (hdir : key.2 ≠ .both) (htomb : eid ∈ m.activeOverlay.tombstones) :
    (n, eid) ∉ m.getNeighbors vid key.1 key.2 := by
  rw [mem_getNeighbors_iff hdir]
  rintro (⟨_, hnot⟩ | hlive)
  · exact hnot ((tombstoned_append_singleton _ _ _).mpr (.inr htomb))
  · have hunhidden := hlive.newest_unhidden
    rw [(L0CsrSegment.hides_all_eq_true_iff _ _).mpr htomb] at hunhidden
    cases hunhidden

end Keeps

/-- A write to the overlay is kept through a sequence of compactions and warms exactly if every warm
    that replaces the CSR of its key finds it in the overlay or in storage. -/
theorem rewarm_keeps_iff (ends : Eid → EdgeEnds) (m : AdjacencyManager) (h : m.Fits ends)
    (acts : List (Rebuild ends)) (key : OverlayKey) (vid n : Vid) (eid : Eid)
    (hplaced : Placed ends key vid n eid) :
    (Inserted m.layers key vid (n, eid) → ¬ Tombstoned m.layers eid →
      ((∀ pre, pre <+: acts →
          (n, eid) ∈ (pre.foldl Rebuild.apply m).getNeighbors vid key.1 key.2) ↔
        EveryStep Rebuild.step (Rebuild.KeepsInsert key vid (n, eid)) m acts)) ∧
    (eid ∈ m.activeOverlay.tombstones →
      ((∀ pre, pre <+: acts →
          (n, eid) ∉ (pre.foldl Rebuild.apply m).getNeighbors vid key.1 key.2) ↔
        EveryStep Rebuild.step (Rebuild.KeepsTombstone key vid (n, eid)) m acts)) := by
  have hdir : key.2 ≠ .both := by
    intro hboth
    rw [Placed, hboth] at hplaced
    exact nomatch hplaced.2
  have hrun : ∀ acts : List (Rebuild ends),
      run Rebuild.step m acts = some (acts.foldl Rebuild.apply m) := run_some Rebuild.apply m
  -- the prefixes of a run are the prefixes of the list of actions
  have hprefix : ∀ I : AdjacencyManager → Prop,
      (∀ pre u, pre <+: acts → run Rebuild.step m pre = some u → I u) ↔
        ∀ pre, pre <+: acts → I (pre.foldl Rebuild.apply m) := by
    intro I
    constructor
    · exact fun hall pre hpre => hall pre _ hpre (hrun pre)
    · intro hall pre u hpre hu
      rw [hrun, Option.some.injEq] at hu
      exact hu ▸ hall pre hpre
  constructor
  · intro hins hnot
    rw [← hprefix fun m => (n, eid) ∈ m.getNeighbors vid key.1 key.2]
    refine forall_prefix_iff_everyStep
      (J := fun m : AdjacencyManager => m.Fits ends ∧ ¬ Tombstoned m.layers eid) ?_ ?_ ⟨h, hnot⟩
        ((mem_getNeighbors_of_not_tombstoned hdir hnot).mpr (.inr hins)) (hrun acts)
    · rintro m a m' ⟨hm, hnot⟩ hs
      exact Option.some.inj hs ▸ ⟨Rebuild.apply_fits hm a, not_tombstoned_apply hnot a⟩
    · rintro m a m' ⟨hm, hnot⟩ hmem hs
      exact Option.some.inj hs ▸ step_keepsInsert hm hnot hplaced hdir hmem a
  · intro htomb
    rw [← hprefix fun m => (n, eid) ∉ m.getNeighbors vid key.1 key.2]
    refine forall_prefix_iff_everyStep (J := fun m : AdjacencyManager => m.Fits ends)
      ?_ ?_ h (not_mem_of_tombstoned hdir htomb) (hrun acts)
    · intro m a m' hm hs
      exact Option.some.inj hs ▸ Rebuild.apply_fits hm a
    · intro m a m' hm hmem hs
      exact Option.some.inj hs ▸ step_keepsTombstone hm hplaced hdir hmem a

/-- The one edge of the examples, from vertex 1 to vertex 2. -/
def knowsEdge : Eid → EdgeEnds := fun _ => ⟨1, 2, 0⟩

def knowsStore (stored : Bool) : EdgeStore where
  edgeTypeNameById edgeType := if edgeType = 0 then some "KNOWS" else none
  edgeTypes _ := some ⟨["Person"], ["Person"]⟩
  adjacencyDataset _ _ dir := .ok <|
    match stored, dir with
    | true, .outgoing => [⟨1, [(2, 7)]⟩]
    | true, .incoming => [⟨2, [(1, 7)]⟩]
    | _, _ => []
  deltaDataset _ _ := .ok []

theorem knowsStore_fits (stored : Bool) : (knowsStore stored).Fits knowsEdge := by
  constructor
  case adjacency =>
    intro edgeType name label dir rows hname hdir hrows r hr e he
    obtain rfl : edgeType = 0 := by
      by_contra hne
      simp [knowsStore, hne] at hname
    obtain rfl := ok.inj hrows
    cases stored with
    | false => cases dir <;> cases hr
    | true =>
      cases dir with
      | outgoing | incoming =>
        obtain rfl := mem_singleton.mp hr
        obtain rfl := mem_singleton.mp he
        exact ⟨rfl, rfl⟩
      | both => exact absurd rfl hdir
  case deltas =>
    intro edgeType name dir rows _ hrows x hx
    obtain rfl := ok.inj hrows
    cases hx

/-- A warm of the edge's outgoing key that is installed. -/
def warmKnows (stored : Bool) : Rebuild knowsEdge :=
  .warmOnce ⟨knowsStore stored, knowsStore_fits stored⟩ 0 .outgoing (.atMost none) 0 0

/-- An unflushed insertion of the edge. -/
def inserted : AdjacencyManager := AdjacencyManager.new.insertEdge 1 2 7 0 5

/-- An unflushed deletion of the edge, which was read from storage. -/
def deleted : AdjacencyManager :=
  ((warmKnows true).apply AdjacencyManager.new).addTombstone 7 1 2 0 5

theorem inserted_fits : inserted.Fits knowsEdge := by
  constructor
  case main => exact nofun
  case layers =>
    intro s hs key vid x hx
    obtain rfl := mem_singleton.mp hs
    rcases (AdjacencyManager.mem_entriesFor_insertEdge ..).mp hx with
      hold | ⟨rfl, rfl, rfl⟩ | ⟨rfl, rfl, rfl⟩
    · cases hold
    · exact ⟨rfl, rfl⟩
    · exact ⟨rfl, rfl⟩
  case tombstones =>
    intro s hs eid ts hts
    obtain rfl := mem_singleton.mp hs
    cases hts

theorem deleted_fits : deleted.Fits knowsEdge := by
  have hwarm : ((warmKnows true).apply AdjacencyManager.new).Fits knowsEdge := by
    refine Rebuild.apply_fits ⟨fun _ _ _ _ hx => (by cases hx), ?_, ?_⟩ _
    · intro s hs key vid x hx
      obtain rfl := mem_singleton.mp hs
      cases hx
    · intro s hs eid ts hts
      obtain rfl := mem_singleton.mp hs
      cases hts
  refine { hwarm with layers := ?_, tombstones := ?_ }
  · intro s hs key vid x hx
    obtain rfl := mem_singleton.mp hs
    exact hwarm.layers _ (mem_singleton_self _) key vid x hx
  · intro s hs eid ts hts
    obtain rfl := mem_singleton.mp hs
    rcases lookup_insert_cases hts with ⟨rfl, rfl⟩ | ⟨-, hts⟩
    · rfl
    · cases hts

/-- An insertion and a deletion, each through a warm and a compaction. -/
theorem rewarm_keeps_iff_inserted : ((∀ pre, pre <+: [warmKnows false, .compact] →
        (2, 7) ∈ (pre.foldl Rebuild.apply inserted).getNeighbors 1 0 .outgoing) ↔
      EveryStep Rebuild.step (Rebuild.KeepsInsert (0, .outgoing) 1 (2, 7)) inserted
        [warmKnows false, .compact]) ∧
    ((∀ pre, pre <+: [warmKnows true, .compact] →
        (2, 7) ∉ (pre.foldl Rebuild.apply deleted).getNeighbors 1 0 .outgoing) ↔
      EveryStep Rebuild.step (Rebuild.KeepsTombstone (0, .outgoing) 1 (2, 7)) deleted
        [warmKnows true, .compact]) := by
  have hinserted : Inserted inserted.layers (0, .outgoing) 1 (2, 7) :=
    ⟨_, mem_singleton_self _, 5, by decide⟩
  have hnot : ¬ Tombstoned inserted.layers 7 := by
    rintro ⟨s, hs, hmem⟩
    rw [mem_singleton.mp hs] at hmem
    exact AList.notMem_empty _ hmem
  have htomb : 7 ∈ deleted.activeOverlay.tombstones := by decide
  constructor
  · exact (rewarm_keeps_iff knowsEdge inserted inserted_fits _ (0, .outgoing) 1 2 7 ⟨rfl, rfl⟩).1
      hinserted hnot
  · exact (rewarm_keeps_iff knowsEdge deleted deleted_fits _ (0, .outgoing) 1 2 7 ⟨rfl, rfl⟩).2
      htomb

/-- A compaction and a warm lose an insertion that storage does not have, and
    bring back a deleted edge that storage still has. -/
theorem rewarm_loses_writes : (inserted.getNeighbors 1 0 .outgoing = [(2, 7)] ∧
      ([.compact, warmKnows false].foldl Rebuild.apply inserted).getNeighbors 1 0 .outgoing = []) ∧
    (deleted.getNeighbors 1 0 .outgoing = [] ∧
      ([.compact, warmKnows true].foldl Rebuild.apply deleted).getNeighbors 1 0 .outgoing =
        [(2, 7)]) := by
  decide

end Adjacency

end UniDb
