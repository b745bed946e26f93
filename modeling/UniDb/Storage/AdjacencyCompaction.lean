import UniDb.Lib.KeyedFold
import UniDb.Storage.Adjacency

/-!
# Compaction of the Overlay

The merge of the overlay segments into the Main CSR.

A compaction freezes the active segment and rebuilds the Main CSR of every key
that has entries: the rows of the old CSR and of the segments, without the
tombstoned edges, and of each edge only the copy with the highest version. The
tombstones themselves go into the shadow.

The keys are independent of each other: rebuilding one changes the CSR and the
shadow of that key only. So the loop over the keys, whose order is that of a
hash set, is read off key by key (`csr_compact`, `shadow_compact`).

## Main definitions

* `dedupEntriesByEid`: Keep the newest copy of each edge.
* `liveRows`: What a key's new CSR is built from.
* `compactKey`, `compact`: The merge.

## Theorems

* `dedupEntriesByEid_mem`, `dedupEntriesByEid_exists`: The newest copy is kept.
* `compactKey_actsAt`: One key at a time.
* `exists_mem_dedup_iff`: No edge is lost.
* `csr_compact`, `mem_mainEntries_compact`: The new CSR of a key.
* `shadow_compact`: The new shadow of a key.
-/

namespace UniDb

open AssocMap List Prod

namespace Adjacency

variable (entries : List EdgeRow)

def versionAt (i : Nat) : Nat :=
  (entries[i]?.map fun r => r.entry.createdVersion).getD 0

/-- Remember where the newest copy of an edge is, the first one of equals. -/
def recordBest (best : AssocMap Eid Nat) (x : EdgeRow × Nat) :
    AssocMap Eid Nat :=
  match best.lookup x.1.entry.eid with
  | none => best.insert x.1.entry.eid x.2
  | some i =>
    if versionAt entries i < x.1.entry.createdVersion then best.insert x.1.entry.eid x.2 else best

/-- Of each edge keep the entry with the highest version. -/
def dedupEntriesByEid : List EdgeRow :=
  let best := entries.zipIdx.foldl (recordBest entries) ∅
  let keep := best.toList.map snd
  (entries.zipIdx.filter fun x => keep.contains x.2).map fst

variable (segments : List FrozenCsrSegment)

def tombstonesOf (edgeType : Nat) :
    List (Eid × OverlayTombstone) :=
  segments.flatMap fun s => s.tombstones.toList.filter fun e => e.2.edgeType == edgeType

/-- The vertex that a tombstone's edge is listed at, and its neighbor there. -/
def OverlayTombstone.endsAt (ts : OverlayTombstone) (dir : Direction) : Vid × Vid :=
  if dir = .incoming then (ts.dstVid, ts.srcVid) else (ts.srcVid, ts.dstVid)

variable (key : OverlayKey)

def shadowEdgeOf (x : Eid × OverlayTombstone) : ShadowEdge where
  neighborVid := (x.2.endsAt key.2).2
  eid := x.1
  edgeType := key.1
  createdVersion := 0
  deletedVersion := x.2.version

def addToShadow (shadow : ShadowCsr) (x : Eid × OverlayTombstone) : ShadowCsr :=
  shadow.addDeletedEdge (x.2.endsAt key.2).1 (shadowEdgeOf key x) key.2

/-- The rows of a CSR, vertex by vertex. -/
def MainCsr.rows (csr : MainCsr) : List EdgeRow :=
  (List.range csr.numVertices).flatMap fun vid => (csr.getEntries vid).map (EdgeRow.mk vid)

/-- The inserts of a segment as rows. -/
def L0CsrSegment.rows (s : L0CsrSegment) (key : OverlayKey) : List EdgeRow :=
  match s.inserts.lookup key with
  | none => []
  | some adj => adj.toList.flatMap fun e => e.2.map (EdgeRow.mk e.1)

def liveRows (old : Option MainCsr) :
    List EdgeRow :=
  let tombstoned := (tombstonesOf segments key.1).map fst
  ((old.map MainCsr.rows).getD [] ++ segments.flatMap (·.rows key)).filter fun r =>
    !tombstoned.contains r.entry.eid

def maxOffset (rows : List EdgeRow) : Nat := rows.foldl (fun m r => max m r.src) 0

def newCsr (old : Option MainCsr) : MainCsr :=
  let rows := liveRows segments key old
  MainCsr.fromEdgeEntries (maxOffset rows) (dedupEntriesByEid rows)

namespace AdjacencyManager

/-- Merge one key, and move its tombstones to the shadow. -/
def compactKey (segments : List FrozenCsrSegment) (m : AdjacencyManager) (key : OverlayKey) :
    AdjacencyManager :=
  { m with
    mainCsr := m.mainCsr.insert key (newCsr segments key (m.mainCsr.lookup key))
    shadow := (tombstonesOf segments key.1).foldl (addToShadow key) m.shadow }

variable (m : AdjacencyManager)

def allKeys (segments : List FrozenCsrSegment) : AssocSet OverlayKey :=
  AssocSet.ofList (segments.flatMap (fun s => s.inserts.keys) ++ m.mainCsr.keys)

/-- The new CSRs are installed before the merged segments are dropped. -/
def compact : AdjacencyManager :=
  let frozen := m.freeze
  let segments := frozen.frozenSegments
  let merged := (frozen.allKeys segments).keys.foldl (compactKey segments) frozen
  { merged with frozenSegments := merged.frozenSegments.drop segments.length }

def gcShadow (floor : Nat) : AdjacencyManager :=
  { m with shadow := m.shadow.gc floor }

end AdjacencyManager

/-! ## Keeping the newest copy -/

/-- What `recordBest` knows after the first `n` rows. -/
def BestOf (entries : List EdgeRow) (n : Nat) (best : AssocMap Eid Nat) : Prop :=
  (∀ i r, i < n → entries[i]? = some r → ∃ j, best.lookup r.entry.eid = some j) ∧
  ∀ e j, best.lookup e = some j → j < n ∧ ∃ r, entries[j]? = some r ∧ r.entry.eid = e ∧
    ∀ i r', i < n → entries[i]? = some r' → r'.entry.eid = e →
      r'.entry.createdVersion ≤ r.entry.createdVersion

namespace BestOf

variable {entries : List EdgeRow} {n : Nat} {best : AssocMap Eid Nat}

theorem forall_lt_succ {r : EdgeRow} (hr : entries[n]? = some r) {P : EdgeRow → Prop}
    (hold : ∀ i r', i < n → entries[i]? = some r' → P r') (hnew : P r) :
    ∀ i r', i < n + 1 → entries[i]? = some r' → P r' := by
  intro i r' hi hr'
  rcases Nat.lt_succ_iff_lt_or_eq.mp hi with hlt | rfl
  · exact hold i r' hlt hr'
  · rw [hr, Option.some.injEq] at hr'
    exact hr' ▸ hnew

/-- One more row. -/
theorem recordBest (h : BestOf entries n best) {r : EdgeRow} (hr : entries[n]? = some r) :
    BestOf entries (n + 1) (Adjacency.recordBest entries best (r, n)) := by
  -- the row becomes the best of its edge, where `bound` covers the rows before
  have hnew : (∀ i r', i < n → entries[i]? = some r' → r'.entry.eid = r.entry.eid →
        r'.entry.createdVersion ≤ r.entry.createdVersion) →
      BestOf entries (n + 1) (best.insert r.entry.eid n) := by
    intro bound
    constructor
    · refine forall_lt_succ hr (fun i r' hi hr' => ?_) ⟨n, by simp⟩
      rw [lookup_insert_eq]
      split
      · exact ⟨n, rfl⟩
      · exact h.1 i r' hi hr'
    · intro e j hj
      rcases lookup_insert_cases hj with ⟨rfl, rfl⟩ | ⟨hne, hj⟩
      · exact ⟨Nat.lt_succ_self _, r, hr, rfl, forall_lt_succ hr bound fun _ => le_rfl⟩
      · rcases h.2 e j hj with ⟨hjn, rj, hrj, hej, hmax⟩
        exact ⟨by omega, rj, hrj, hej, forall_lt_succ hr hmax fun he => absurd he.symm hne⟩
  unfold Adjacency.recordBest
  split
  · rename_i hnone
    refine hnew ?_
    intro i r' hi hr' he'
    rcases h.1 i r' hi hr' with ⟨j, hj⟩
    rw [he', hnone] at hj
    cases hj
  · rename_i j hj
    rcases h.2 _ j hj with ⟨hjn, rj, hrj, hej, hmax⟩
    have hver : versionAt entries j = rj.entry.createdVersion := by
      rw [versionAt, hrj, Option.map_some, Option.getD_some]
    split
    · rename_i hlt
      rw [hver] at hlt
      refine hnew ?_
      intro i r' hi hr' he'
      exact le_of_lt (lt_of_le_of_lt (hmax i r' hi hr' he') hlt)
    · -- an older or equal copy stays the best
      rename_i hge
      rw [hver] at hge
      refine ⟨forall_lt_succ hr h.1 ⟨j, hj⟩, fun e k hk => ?_⟩
      rcases h.2 e k hk with ⟨hkn, rk, hrk, hek, hmaxk⟩
      refine ⟨by omega, rk, hrk, hek, forall_lt_succ hr hmaxk ?_⟩
      rintro rfl
      rw [hj, Option.some.injEq] at hk
      subst hk
      rw [hrj, Option.some.injEq] at hrk
      rw [← hrk]
      exact Nat.le_of_not_lt hge

theorem foldl (pre rest : List EdgeRow) (hsplit : entries = pre ++ rest)
    (h : BestOf entries pre.length best) :
    BestOf entries entries.length
      ((rest.zipIdx pre.length).foldl (Adjacency.recordBest entries) best) := by
  induction rest generalizing pre best with
  | nil =>
    rw [append_nil] at hsplit
    rw [hsplit] at h ⊢
    exact h
  | cons r rest ih =>
    rw [zipIdx_cons, foldl_cons]
    have hr : entries[pre.length]? = some r := by
      rw [hsplit, getElem?_append_right le_rfl, Nat.sub_self]
      rfl
    have hnext := h.recordBest hr
    have hlen : (pre ++ [r]).length = pre.length + 1 := by simp
    rw [← hlen] at hnext ⊢
    exact ih (pre ++ [r]) (by rw [hsplit, append_assoc, singleton_append]) hnext

end BestOf

theorem bestOf_dedup (entries : List EdgeRow) :
    BestOf entries entries.length (entries.zipIdx.foldl (recordBest entries) ∅) := by
  have hstart : BestOf entries 0 ∅ :=
    ⟨fun i r hi => absurd hi (Nat.not_lt_zero i), nofun⟩
  exact BestOf.foldl [] entries rfl hstart

theorem mem_dedupEntriesByEid (entries : List EdgeRow) (r : EdgeRow) :
    r ∈ dedupEntriesByEid entries ↔ ∃ i, entries[i]? = some r ∧
      ∃ e, (entries.zipIdx.foldl (recordBest entries) ∅).lookup e = some i := by
  simp only [dedupEntriesByEid, mem_map, mem_filter, contains_iff_mem,
    Prod.exists, mem_zipIdx_iff_getElem?, exists_and_right, exists_eq_right,
    mem_toList]

variable {entries : List EdgeRow} {r : EdgeRow}

/-- A kept row is one of the rows, and the newest of its edge. -/
theorem dedupEntriesByEid_mem (h : r ∈ dedupEntriesByEid entries) :
    r ∈ entries ∧ ∀ r' ∈ entries, r'.entry.eid = r.entry.eid →
      r'.entry.createdVersion ≤ r.entry.createdVersion := by
  rcases (mem_dedupEntriesByEid entries r).mp h with ⟨i, hi, e, he⟩
  rcases (bestOf_dedup entries).2 e i he with ⟨_, r', hr', hre, hmax⟩
  rw [hi, Option.some.injEq] at hr'
  subst hr'
  refine ⟨mem_of_getElem? hi, ?_⟩
  intro r' hr' heid
  rcases mem_iff_getElem?.mp hr' with ⟨j, hj⟩
  exact hmax j r' (List.getElem?_eq_some_iff.mp hj).1 hj (heid.trans hre)

/-- Each edge keeps a row. -/
theorem dedupEntriesByEid_exists (h : r ∈ entries) :
    ∃ r' ∈ dedupEntriesByEid entries, r'.entry.eid = r.entry.eid := by
  rcases List.mem_iff_getElem?.mp h with ⟨i, hi⟩
  rcases (bestOf_dedup entries).1 i r (List.getElem?_eq_some_iff.mp hi).1 hi with ⟨j, hj⟩
  rcases (bestOf_dedup entries).2 _ j hj with ⟨_, r', hr', heid, _⟩
  exact ⟨r', (mem_dedupEntriesByEid ..).mpr ⟨j, hr', _, hj⟩, heid⟩

theorem exists_mem_dedup_iff {ends : Eid → EdgeEnds} {key : OverlayKey}
    (hplaced : ∀ r ∈ entries, Placed ends key r.src r.entry.neighborVid r.entry.eid) (vid n : Vid)
    (eid : Eid) : (∃ version, ⟨vid, ⟨n, eid, version⟩⟩ ∈ dedupEntriesByEid entries) ↔
      ∃ version, ⟨vid, ⟨n, eid, version⟩⟩ ∈ entries := by
  constructor
  · rintro ⟨version, hx⟩
    exact ⟨version, (dedupEntriesByEid_mem hx).1⟩
  · rintro ⟨version, hx⟩
    rcases dedupEntriesByEid_exists hx with ⟨⟨vid', n', eid', version'⟩, hy, heid⟩
    have heid' : eid' = eid := heid
    subst heid'
    -- the kept row is of the same edge, hence at the same vertex
    have hx' : Placed ends key vid n eid' := hplaced _ hx
    have hy' : Placed ends key vid' n' eid' := hplaced _ (dedupEntriesByEid_mem hy).1
    rcases placed_unique hx' hy' with ⟨rfl, rfl⟩
    exact ⟨version', hy⟩

/-! ## Rows -/

theorem MainCsr.mem_rows (csr : MainCsr) (vid : Vid) (x : CsrEdgeEntry) :
    ⟨vid, x⟩ ∈ csr.rows ↔ x ∈ csr.getEntries vid := by
  simp only [MainCsr.rows, mem_flatMap, mem_range, mem_map, EdgeRow.mk.injEq]
  constructor
  · rintro ⟨v, _, y, hy, rfl, rfl⟩
    exact hy
  · intro hx
    refine ⟨vid, ?_, x, hx, rfl, rfl⟩
    by_contra hle
    rw [MainCsr.getEntries_of_le (Nat.le_of_not_lt hle)] at hx
    cases hx

theorem L0CsrSegment.mem_rows (s : L0CsrSegment) (key : OverlayKey) (vid : Vid)
    (x : CsrEdgeEntry) : ⟨vid, x⟩ ∈ s.rows key ↔ x ∈ s.entriesFor key vid := by
  rw [L0CsrSegment.rows, L0CsrSegment.entriesFor, lookup₂]
  cases s.inserts.lookup key with
  | none => simp
  | some adj =>
    simp only [mem_flatMap, mem_map, EdgeRow.mk.injEq, Prod.exists, mem_toList, Option.bind_some]
    constructor
    · rintro ⟨v, l, hl, y, hy, rfl, rfl⟩
      rw [hl]
      exact hy
    · intro hx
      cases hl : adj.lookup vid with
      | none => simp [hl] at hx
      | some l =>
        rw [hl] at hx
        exact ⟨vid, l, hl, x, hx, rfl, rfl⟩

theorem src_le_maxOffset {rows : List EdgeRow} (h : r ∈ rows) : r.src ≤ maxOffset rows := by
  have hle : ∀ (rows : List EdgeRow) (n : Nat),
      n ≤ rows.foldl (fun m r => max m r.src) n ∧
        ∀ r ∈ rows, r.src ≤ rows.foldl (fun m r => max m r.src) n := by
    intro rows
    induction rows with
    | nil => exact fun n => ⟨Nat.le_refl n, nofun⟩
    | cons a rows ih =>
      intro n
      rcases ih (max n a.src) with ⟨hn, hrows⟩
      refine ⟨by rw [foldl_cons]; omega, ?_⟩
      intro r hr
      rw [foldl_cons]
      rcases mem_cons.mp hr with rfl | hmem
      · omega
      · exact hrows r hmem
  exact (hle rows 0).2 r h

theorem mem_getEntries_newCsr (segments : List FrozenCsrSegment) (key : OverlayKey)
    (old : Option MainCsr) (vid : Vid) (x : CsrEdgeEntry) :
    x ∈ (newCsr segments key old).getEntries vid ↔
      ⟨vid, x⟩ ∈ dedupEntriesByEid (liveRows segments key old) := by
  rw [newCsr, MainCsr.mem_getEntries_fromEdgeEntries]
  intro r hr
  exact src_le_maxOffset (dedupEntriesByEid_mem hr).1

/-! ## One key at a time -/

/-- The deleted edges of a key, by vertex, with one more tombstone. -/
def addShadowEdge (key : OverlayKey) (edges : Vid → List ShadowEdge)
    (x : Eid × OverlayTombstone) : Vid → List ShadowEdge := fun vid =>
  if vid = (x.2.endsAt key.2).1 ∧ ∀ e ∈ edges vid, e.eid ≠ x.1 then
    edges vid ++ [shadowEdgeOf key x]
  else edges vid

theorem getEntries_addToShadow (key key' : OverlayKey) (shadow : ShadowCsr)
    (x : Eid × OverlayTombstone) (vid : Vid) :
    (addToShadow key shadow x).getEntries vid key'.1 key'.2 =
      if key' = key then
        addShadowEdge key (fun v => shadow.getEntries v key.1 key.2) x vid
      else shadow.getEntries vid key'.1 key'.2 := by
  simp only [addToShadow, ShadowCsr.addDeletedEdge, ShadowCsr.getEntries, shadowEdgeOf,
    lookup₂_insert₂, mk.eta]
  by_cases hkey : key' = key
  · subst hkey
    rw [if_pos rfl]
    simp only [true_and, addShadowEdge, shadowEdgeOf]
    by_cases hvid : vid = (x.2.endsAt key'.2).1
    · subst hvid
      simp only [if_true, true_and, Option.getD_some]
      by_cases hany : ∀ e ∈ (shadow.entries.lookup₂ key' (x.2.endsAt key'.2).1).getD [], e.eid ≠ x.1
      · rw [if_pos hany, if_neg]
        simp only [any_eq_true, beq_iff_eq, not_exists, not_and]
        exact hany
      · rw [if_neg hany, if_pos]
        simp only [any_eq_true, beq_iff_eq]
        simpa using hany
    · simp [hvid]
  · simp [hkey]

namespace AdjacencyManager

/-- What a compaction changes of a key. -/
def keyView (m : AdjacencyManager) (key : OverlayKey) :
    Option MainCsr × (Vid → List ShadowEdge) :=
  (m.mainCsr.lookup key, fun vid => m.shadow.getEntries vid key.1 key.2)

/-- Merging a key changes what is kept for that key only. -/
theorem compactKey_actsAt (segments : List FrozenCsrSegment) :
    ActsAt keyView id (compactKey segments) fun key w =>
      (some (newCsr segments key w.1),
        (tombstonesOf segments key.1).foldl (addShadowEdge key) w.2) := by
  intro m key key'
  simp only [keyView, compactKey, id, lookup_insert_eq]
  by_cases hkey : key' = key
  · subst hkey
    simp only [if_pos]
    refine congrArg _ (foldl_comm_of_forall
      (fun sh vid => ShadowCsr.getEntries sh vid key'.1 key'.2) (fun sh x => ?_) ..)
    funext vid
    rw [getEntries_addToShadow, if_pos rfl]
  · simp only [if_neg hkey]
    refine congrArg _ (foldl_eq_of_forall
      (fun sh vid => ShadowCsr.getEntries sh vid key'.1 key'.2) (fun sh x => ?_) ..)
    funext vid
    rw [getEntries_addToShadow, if_neg hkey]

variable (m : AdjacencyManager) (key : OverlayKey)

theorem keyView_compact : m.compact.keyView key =
      if key ∈ m.freeze.allKeys m.layers then
        (some (newCsr m.layers key (m.mainCsr.lookup key)),
          (tombstonesOf m.layers key.1).foldl (addShadowEdge key)
            fun vid => m.shadow.getEntries vid key.1 key.2)
      else m.keyView key :=
  (compactKey_actsAt m.layers).foldl_keys (m.freeze.allKeys m.layers) m.freeze key

theorem mem_allKeys (segments : List FrozenCsrSegment) (key : OverlayKey) :
    key ∈ m.allKeys segments ↔ (∃ s ∈ segments, key ∈ s.inserts) ∨ key ∈ m.mainCsr := by
  rw [allKeys, AssocSet.mem_ofList, mem_append, mem_flatMap]
  rfl

theorem compact_frame :
    m.compact.activeOverlay = L0CsrSegment.new ∧ m.compact.frozenSegments = [] := by
  have hactive : _ = m.freeze.activeOverlay := foldl_eq_of_forall activeOverlay
    (fun m' key => show (compactKey m.layers m' key).activeOverlay = m'.activeOverlay from rfl)
    (m.freeze.allKeys m.layers).keys m.freeze
  have hfrozen := foldl_eq_of_forall frozenSegments
    (fun m' key => show (compactKey m.layers m' key).frozenSegments = m'.frozenSegments from rfl)
    (m.freeze.allKeys m.layers).keys m.freeze
  refine ⟨hactive, ?_⟩
  have hdrop : m.compact.frozenSegments = (((m.freeze.allKeys m.layers).keys.foldl
      (compactKey m.layers) m.freeze).frozenSegments).drop m.layers.length := rfl
  rw [hdrop, hfrozen]
  exact drop_length

@[simp] theorem compact_activeOverlay :
    m.compact.activeOverlay = L0CsrSegment.new := m.compact_frame.1

@[simp] theorem compact_frozenSegments : m.compact.frozenSegments = [] :=
  m.compact_frame.2

/-- The keys that a compaction merges. -/
def mergedKeys (m : AdjacencyManager) : AssocSet OverlayKey :=
  m.freeze.allKeys m.layers

/-- The new CSR of a key. -/
theorem csr_compact : m.compact.mainCsr.lookup key = if key ∈ m.mergedKeys then
      some (newCsr m.layers key (m.mainCsr.lookup key)) else m.mainCsr.lookup key := by
  have hview := congrArg fst (m.keyView_compact key)
  rw [apply_ite fst] at hview
  exact hview

variable (vid : Vid)

/-- The new shadow of a key. -/
theorem shadow_compact :
    m.compact.shadow.getEntries vid key.1 key.2 = if key ∈ m.mergedKeys then
      (tombstonesOf m.layers key.1).foldl (addShadowEdge key)
        (fun vid => m.shadow.getEntries vid key.1 key.2) vid
    else m.shadow.getEntries vid key.1 key.2 := by
  have hview := congrFun (congrArg snd (m.keyView_compact key)) vid
  rw [apply_ite snd, ite_apply] at hview
  exact hview

theorem mem_liveRows (x : CsrEdgeEntry) :
    ⟨vid, x⟩ ∈ liveRows m.layers key (m.mainCsr.lookup key) ↔
      (x ∈ m.mainEntries key vid ∨ ∃ s ∈ m.layers, x ∈ s.entriesFor key vid) ∧
        ∀ d ∈ tombstonesOf m.layers key.1, d.1 ≠ x.eid := by
  have hmain : ⟨vid, x⟩ ∈ ((m.mainCsr.lookup key).map MainCsr.rows).getD [] ↔
      x ∈ m.mainEntries key vid := by
    rw [mainEntries]
    cases m.mainCsr.lookup key with
    | none => exact iff_of_false not_mem_nil not_mem_nil
    | some csr => exact csr.mem_rows vid x
  rw [liveRows, mem_filter, mem_append, hmain]
  simp only [mem_flatMap, L0CsrSegment.mem_rows, Bool.not_eq_true', contains_eq_mem,
    decide_eq_false_iff_not, mem_map, not_exists, not_and]

theorem mem_mainEntries_compact (x : CsrEdgeEntry) : x ∈ m.compact.mainEntries key vid ↔
      ⟨vid, x⟩ ∈ dedupEntriesByEid (liveRows m.layers key (m.mainCsr.lookup key)) := by
  rw [mainEntries, csr_compact]
  by_cases hkey : key ∈ m.mergedKeys
  · rw [if_pos hkey]
    exact mem_getEntries_newCsr _ _ _ vid x
  · -- there is nothing to merge, and there is no CSR for the key
    rw [if_neg hkey]
    rw [mergedKeys, mem_allKeys, not_or, notMem_iff_lookup] at hkey
    have hmain : m.mainCsr.lookup key = none := hkey.2
    refine iff_of_false ?_ ?_
    · rw [hmain]
      exact not_mem_nil
    · intro hx
      rcases ((m.mem_liveRows key vid x).mp (dedupEntriesByEid_mem hx).1).1 with hx | ⟨s, hs, hx⟩
      · rw [mainEntries, hmain] at hx
        cases hx
      · have hnone : s.hasEntriesFor key.1 key.2 = false :=
          decide_eq_false fun hmem => hkey.1 ⟨s, hs, hmem⟩
        rw [s.entriesFor_of_not_hasEntriesFor vid key.1 key.2 hnone] at hx
        cases hx

theorem mem_mergedKeys {m : AdjacencyManager} (hfrozen : m.frozenSegments = []) (key : OverlayKey) :
    key ∈ m.mergedKeys ↔ key ∈ m.activeOverlay.inserts ∨ key ∈ m.mainCsr := by
  rw [mergedKeys, mem_allKeys, layers, hfrozen]
  simp only [nil_append, mem_singleton, exists_eq_left]
  rfl

end AdjacencyManager

end Adjacency

end UniDb
