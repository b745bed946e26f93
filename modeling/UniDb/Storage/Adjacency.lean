import UniDb.Lib.AssocMap
import UniDb.Storage.MainCsr

/-!
# The Adjacency Manager

Neighbor reads over layers: a packed base, segments of recent inserts and
tombstones on top of it, and a shadow of deleted edges for older readers.

A read goes through the layers from the oldest to the newest. Each segment adds
its inserts to the result and then removes from the result whatever it has a
tombstone for, its own inserts included. For a versioned reader an insert counts
if the reader admits its version, a tombstone likewise, and at the end the
shadow adds the edges that were created at a version the reader admits and
deleted at one it does not. An undirected read makes one pass per direction over
one and the same result.

What a pass does to the result is said once, for versioned readers
(`mem_readVisible`): an element survives if no later layer hides it. The
unversioned read is the read of a reader that admits everything
(`getNeighbors_eq_getNeighborsVisible`).

## Main definitions

* `L0CsrSegment`, `ShadowCsr`, `AdjacencyManager`: The layers.
* `getNeighbors`, `getNeighborsVisible`: The reads.
* `collectSourceVids`: The vertices that a read may return something for.
* `insertEdge`, `addTombstone`, `freeze`: The writes.
* `LiveIn`: An insert that no later layer hides.

## Theorems

* `mem_readLayers`: What is in the result after the segments.
* `mem_readVisible`: What one pass adds and keeps.
* `getNeighbors_eq_getNeighborsVisible`: The two reads are one.
-/

namespace UniDb

open List AssocMap

namespace Adjacency

inductive Direction
  | outgoing
  | incoming
  | both
  deriving DecidableEq, Repr

def Direction.expand : Direction → List Direction
  | .both => [.outgoing, .incoming]
  | .outgoing => [.outgoing]
  | .incoming => [.incoming]

/-- An edge type and a direction. -/
abbrev OverlayKey := Nat × Direction

/-- Which row versions a reader sees. -/
structure RowVisibility where
  hwm : Option Nat
  hidden : List Nat
  deriving DecidableEq, Repr

namespace RowVisibility

/-- A ceiling, and nothing hidden. -/
def atMost (hwm : Option Nat) : RowVisibility := ⟨hwm, []⟩

def admits (vis : RowVisibility) (version : Nat) : Bool :=
  vis.hwm.all (fun hwm => decide (version ≤ hwm)) && !vis.hidden.contains version

@[simp] theorem admits_atMost_none (version : Nat) : (atMost none).admits version = true := rfl

@[simp] theorem admits_atMost_some (hwm version : Nat) :
    (atMost (some hwm)).admits version = decide (version ≤ hwm) := by
  simp [atMost, admits]

end RowVisibility

structure OverlayTombstone where
  srcVid : Vid
  dstVid : Vid
  edgeType : Nat
  version : Nat
  deriving DecidableEq, Repr

/-- A segment of inserts and tombstones. A frozen segment has the same data. -/
structure L0CsrSegment where
  inserts : AssocMap OverlayKey (AssocMap Vid (List CsrEdgeEntry))
  tombstones : AssocMap Eid OverlayTombstone

abbrev FrozenCsrSegment := L0CsrSegment

namespace L0CsrSegment

def new : L0CsrSegment := ⟨∅, ∅⟩

variable (s : L0CsrSegment)

def insertEdge (src dst : Vid) (eid : Eid) (edgeType version : Nat)
    (direction : Direction) : L0CsrSegment :=
  let neighbors := (s.inserts.lookup₂ (edgeType, direction) src).getD []
  { s with
    inserts := s.inserts.insert₂ (edgeType, direction) src (neighbors ++ [⟨dst, eid, version⟩]) }

def addTombstone (eid : Eid) (src dst : Vid) (edgeType version : Nat) :
    L0CsrSegment :=
  { s with tombstones := s.tombstones.insert eid ⟨src, dst, edgeType, version⟩ }

def hasEntriesFor (edgeType : Nat) (direction : Direction) : Bool :=
  decide ((edgeType, direction) ∈ s.inserts)

def freeze : FrozenCsrSegment := s

/-- The inserts of a segment at a vertex. -/
def entriesFor (key : OverlayKey) (vid : Vid) : List CsrEdgeEntry :=
  (s.inserts.lookup₂ key vid).getD []

/-- The segment has a tombstone for the edge that the reader sees. -/
def hides (vis : RowVisibility) (eid : Eid) : Bool :=
  match s.tombstones.lookup eid with
  | none => false
  | some ts => vis.admits ts.version

/-- A read's step through a segment: add the inserts, then remove what is tombstoned. -/
def read (vid : Vid) (edgeType : Nat) (dir : Direction)
    (result : List (Vid × Eid)) : List (Vid × Eid) :=
  let hasInserts := s.hasEntriesFor edgeType dir
  let hasTombstones := !s.tombstones.keys.isEmpty
  if !hasInserts && !hasTombstones then result
  else
    let result := if hasInserts then
        result ++ (s.entriesFor (edgeType, dir) vid).map fun x => (x.neighborVid, x.eid)
      else result
    if hasTombstones then result.filter fun p => !decide (p.2 ∈ s.tombstones) else result

/-- A versioned read's step through a frozen segment. -/
def readFrozenVisible (s : FrozenCsrSegment) (vis : RowVisibility) (vid : Vid) (edgeType : Nat)
    (dir : Direction) (result : List (Vid × Eid)) : List (Vid × Eid) :=
  let hasInserts := s.hasEntriesFor edgeType dir
  let hasTombstones := !s.tombstones.keys.isEmpty
  if !hasInserts && !hasTombstones then result
  else
    let result := if hasInserts then
        result ++ ((s.entriesFor (edgeType, dir) vid).filter fun x =>
          vis.admits x.createdVersion).map fun x => (x.neighborVid, x.eid)
      else result
    if hasTombstones then result.filter fun p => !s.hides vis p.2 else result

/-- A versioned read's step through the active segment, which tests the
    segment's own inserts against its tombstones as they are added. -/
def readActiveVisible (vis : RowVisibility) (vid : Vid) (edgeType : Nat)
    (dir : Direction) (result : List (Vid × Eid)) : List (Vid × Eid) :=
  let hasInserts := s.hasEntriesFor edgeType dir
  let hasTombstones := !s.tombstones.keys.isEmpty
  let result := if hasInserts then
      result ++ ((s.entriesFor (edgeType, dir) vid).filter fun x =>
        vis.admits x.createdVersion && !s.hides vis x.eid).map fun x => (x.neighborVid, x.eid)
    else result
  if hasTombstones then result.filter fun p => !s.hides vis p.2 else result

end L0CsrSegment

structure ShadowEdge where
  neighborVid : Vid
  eid : Eid
  edgeType : Nat
  createdVersion : Nat
  deletedVersion : Nat
  deriving DecidableEq, Repr

/-- The deleted edges, by edge type and direction and by vertex. -/
structure ShadowCsr where
  entries : AssocMap OverlayKey (AssocMap Vid (List ShadowEdge))

namespace ShadowCsr

def new : ShadowCsr := ⟨∅⟩

variable (s : ShadowCsr)

/-- The deleted edges at a vertex, of all versions. -/
def getEntries (vid : Vid) (edgeType : Nat) (direction : Direction) :
    List ShadowEdge :=
  (s.entries.lookup₂ (edgeType, direction) vid).getD []

/-- Record a deleted edge, unless the vertex has one with its id already. -/
def addDeletedEdge (srcVid : Vid) (edge : ShadowEdge) (direction : Direction) :
    ShadowCsr :=
  let edges := (s.entries.lookup₂ (edge.edgeType, direction) srcVid).getD []
  let edges' := if edges.any fun e => e.eid == edge.eid then edges else edges ++ [edge]
  ⟨s.entries.insert₂ (edge.edgeType, direction) srcVid edges'⟩

def getEntriesVisible (vid : Vid) (edgeType : Nat) (direction : Direction)
    (vis : RowVisibility) : List (Vid × Eid) :=
  ((s.getEntries vid edgeType direction).filter fun e =>
    vis.admits e.createdVersion && !vis.admits e.deletedVersion).map fun e => (e.neighborVid, e.eid)

def collectVids (edgeType : Nat) (direction : Direction) : List Vid :=
  match s.entries.lookup (edgeType, direction) with
  | none => []
  | some bucket => (bucket.toList.filter fun e => !e.2.isEmpty).map Prod.fst

/-- Drop what no reader at or above the floor can see. -/
def gc (floor : Nat) : ShadowCsr :=
  ⟨s.entries.filterMapVal fun _ bucket => some (bucket.filterMapVal fun _ edges =>
    let kept := edges.filter fun e => decide (floor < e.deletedVersion)
    if kept.isEmpty then none else some kept)⟩

end ShadowCsr

/-- The order of neighbor lists: by neighbor, then by edge. -/
def neighborLe (a b : Vid × Eid) : Prop := a.1 < b.1 ∨ (a.1 = b.1 ∧ a.2 ≤ b.2)

instance : DecidableRel neighborLe := fun a b =>
  inferInstanceAs (Decidable (a.1 < b.1 ∨ (a.1 = b.1 ∧ a.2 ≤ b.2)))

def intoCanonicalOrder (neighbors : List (Vid × Eid)) : List (Vid × Eid) :=
  if 1 < neighbors.length then sortDedup neighborLe neighbors else neighbors

structure AdjacencyManager where
  mainCsr : AssocMap OverlayKey MainCsr
  activeOverlay : L0CsrSegment
  /-- Oldest first. -/
  frozenSegments : List FrozenCsrSegment
  shadow : ShadowCsr

namespace AdjacencyManager

def new : AdjacencyManager := ⟨∅, L0CsrSegment.new, [], ShadowCsr.new⟩

variable (m : AdjacencyManager)

def mainEntries (key : OverlayKey) (vid : Vid) : List CsrEdgeEntry :=
  match m.mainCsr.lookup key with
  | none => []
  | some csr => csr.getEntries vid

def readDirection (vid : Vid) (edgeType : Nat)
    (result : List (Vid × Eid)) (dir : Direction) : List (Vid × Eid) :=
  let result := result ++
    (m.mainEntries (edgeType, dir) vid).map fun x => (x.neighborVid, x.eid)
  let result := m.frozenSegments.foldl (fun result s => s.read vid edgeType dir result) result
  m.activeOverlay.read vid edgeType dir result

def getNeighbors (vid : Vid) (edgeType : Nat) (direction : Direction) :
    List (Vid × Eid) :=
  intoCanonicalOrder (direction.expand.foldl (m.readDirection vid edgeType) [])

def readDirectionVisible (vis : RowVisibility) (vid : Vid) (edgeType : Nat)
    (result : List (Vid × Eid)) (dir : Direction) : List (Vid × Eid) :=
  let result := result ++ ((m.mainEntries (edgeType, dir) vid).filter fun x =>
    vis.admits x.createdVersion).map fun x => (x.neighborVid, x.eid)
  let result := m.frozenSegments.foldl
    (fun result s => s.readFrozenVisible vis vid edgeType dir result) result
  let result := m.activeOverlay.readActiveVisible vis vid edgeType dir result
  result ++ m.shadow.getEntriesVisible vid edgeType dir vis

def getNeighborsVisible (vid : Vid) (edgeType : Nat)
    (direction : Direction) (vis : RowVisibility) : List (Vid × Eid) :=
  intoCanonicalOrder (direction.expand.foldl (m.readDirectionVisible vis vid edgeType) [])

def getNeighborsAtVersion (vid : Vid) (edgeType : Nat)
    (direction : Direction) (version : Nat) : List (Vid × Eid) :=
  m.getNeighborsVisible vid edgeType direction (.atMost (some version))

/-- The vertices that a segment has inserts for. -/
def segmentVids (s : L0CsrSegment) (key : OverlayKey) : List Vid :=
  match s.inserts.lookup key with
  | none => []
  | some adj => adj.keys

def mainVids (key : OverlayKey) : List Vid :=
  match m.mainCsr.lookup key with
  | none => []
  | some csr => csr.vidsWithEntries

/-- The vertices that a read may return neighbors for, added to `out`. -/
def collectSourceVids (edgeType : Nat) (direction : Direction)
    (includeShadow : Bool) (out : List Vid) : List Vid :=
  direction.expand.foldl (fun out dir =>
    out ++ m.mainVids (edgeType, dir) ++
      m.frozenSegments.flatMap (segmentVids · (edgeType, dir)) ++
      segmentVids m.activeOverlay (edgeType, dir) ++
      if includeShadow then m.shadow.collectVids edgeType dir else []) out

/-- Record an inserted edge, in both directions. -/
def insertEdge (src dst : Vid) (eid : Eid) (edgeType version : Nat) :
    AdjacencyManager :=
  { m with
    activeOverlay := (m.activeOverlay.insertEdge src dst eid edgeType version .outgoing).insertEdge
      dst src eid edgeType version .incoming }

def addTombstone (eid : Eid) (src dst : Vid) (edgeType version : Nat) :
    AdjacencyManager :=
  { m with activeOverlay := m.activeOverlay.addTombstone eid src dst edgeType version }

/-- The first step of a compaction: a new segment takes the writes. -/
def freeze : AdjacencyManager :=
  { m with
    activeOverlay := L0CsrSegment.new
    frozenSegments := m.frozenSegments ++ [m.activeOverlay.freeze] }

/-- The segments, oldest first. -/
def layers : List L0CsrSegment := m.frozenSegments ++ [m.activeOverlay]

end AdjacencyManager

/-! ## The canonical order -/

instance : Std.Total neighborLe where
  total a b := by
    simp only [neighborLe]
    rcases Nat.lt_trichotomy a.1 b.1 with h | h | h
    · exact .inl (.inl h)
    · rcases Nat.le_total a.2 b.2 with h' | h'
      · exact .inl (.inr ⟨h, h'⟩)
      · exact .inr (.inr ⟨h.symm, h'⟩)
    · exact .inr (.inl h)

instance : IsTrans (Vid × Eid) neighborLe where
  trans a b c := by
    rintro (hab | ⟨hab, hab'⟩) (hbc | ⟨hbc, hbc'⟩)
    · exact .inl (Nat.lt_trans hab hbc)
    · exact .inl (hbc ▸ hab)
    · exact .inl (hab.symm ▸ hbc)
    · exact .inr ⟨hab.trans hbc, Nat.le_trans hab' hbc'⟩

instance : Std.Antisymm neighborLe where
  antisymm a b := by
    rintro (hab | ⟨hab, hab'⟩) (hba | ⟨hba, hba'⟩)
    · exact absurd hba (Nat.lt_asymm hab)
    · exact absurd hba (Nat.ne_of_lt hab).symm
    · exact absurd hab (Nat.ne_of_lt hba).symm
    · exact Prod.ext hab (Nat.le_antisymm hab' hba')

/-- Lists of at most one element are in order already. -/
theorem intoCanonicalOrder_eq (neighbors : List (Vid × Eid)) :
    intoCanonicalOrder neighbors = sortDedup neighborLe neighbors := by
  unfold intoCanonicalOrder
  split
  · rfl
  · match neighbors with
    | [] => rfl
    | [_] => rfl
    | _ :: _ :: _ => simp at *

@[simp] theorem mem_intoCanonicalOrder (neighbors : List (Vid × Eid)) (p : Vid × Eid) :
    p ∈ intoCanonicalOrder neighbors ↔ p ∈ neighbors := by
  rw [intoCanonicalOrder_eq, mem_sortDedup]

theorem intoCanonicalOrder_pairwise (neighbors : List (Vid × Eid)) :
    (intoCanonicalOrder neighbors).Pairwise fun a b => neighborLe a b ∧ a ≠ b := by
  rw [intoCanonicalOrder_eq]
  exact sortDedup_pairwise neighborLe neighbors

theorem intoCanonicalOrder_eq_iff (l l' : List (Vid × Eid)) :
    intoCanonicalOrder l = intoCanonicalOrder l' ↔ ∀ p, p ∈ l ↔ p ∈ l' := by
  rw [intoCanonicalOrder_eq, intoCanonicalOrder_eq, sortDedup_eq_iff]

/-! ## One segment -/

/-- The edges that a list of entries shows a reader. -/
def visibleEdges (vis : RowVisibility) (entries : List CsrEdgeEntry) : List (Vid × Eid) :=
  (entries.filter fun x => vis.admits x.createdVersion).map fun x => (x.neighborVid, x.eid)

theorem mem_visibleEdges (vis : RowVisibility) (entries : List CsrEdgeEntry) (p : Vid × Eid) :
    p ∈ visibleEdges vis entries ↔
      ∃ version, ⟨p.1, p.2, version⟩ ∈ entries ∧ vis.admits version = true := by
  simp only [visibleEdges, mem_map, mem_filter]
  constructor
  · rintro ⟨x, ⟨hx, hvis⟩, rfl⟩
    exact ⟨x.createdVersion, hx, hvis⟩
  · rintro ⟨version, hx, hvis⟩
    exact ⟨_, ⟨hx, hvis⟩, rfl⟩

namespace L0CsrSegment

@[simp] theorem entriesFor_addTombstone (s : L0CsrSegment) (eid : Eid) (src dst : Vid)
    (edgeType version : Nat) (key : OverlayKey) (vid : Vid) :
    (s.addTombstone eid src dst edgeType version).entriesFor key vid = s.entriesFor key vid :=
  rfl

@[simp] theorem entriesFor_new (key : OverlayKey) (vid : Vid) :
    L0CsrSegment.new.entriesFor key vid = [] :=
  rfl

end L0CsrSegment

variable (m : AdjacencyManager)

/-- The entries that an insert adds, one for each direction. -/
theorem AdjacencyManager.mem_entriesFor_insertEdge (src dst : Vid) (eid : Eid)
    (edgeType version : Nat) (key : OverlayKey) (vid : Vid) (x : CsrEdgeEntry) :
    x ∈ (m.insertEdge src dst eid edgeType version).activeOverlay.entriesFor key vid ↔
      x ∈ m.activeOverlay.entriesFor key vid ∨
      (key = (edgeType, .outgoing) ∧ vid = src ∧ x = ⟨dst, eid, version⟩) ∨
      (key = (edgeType, .incoming) ∧ vid = dst ∧ x = ⟨src, eid, version⟩) := by
  have hone : ∀ (s : L0CsrSegment) (a b : Vid) (dir : Direction),
      x ∈ (s.insertEdge a b eid edgeType version dir).entriesFor key vid ↔
      x ∈ s.entriesFor key vid ∨ (key = (edgeType, dir) ∧ vid = a ∧ x = ⟨b, eid, version⟩) := by
    intro s a b dir
    simp only [L0CsrSegment.insertEdge, L0CsrSegment.entriesFor, lookup₂_insert₂]
    split
    · rename_i h
      simp [h]
    · rename_i h
      refine ⟨.inl, ?_⟩
      rintro (hx | ⟨h1, h2, _⟩)
      · exact hx
      · exact absurd ⟨h1, h2⟩ h
  rw [AdjacencyManager.insertEdge, hone, hone, or_assoc]

namespace L0CsrSegment

variable (s : L0CsrSegment) (vis : RowVisibility) (vid : Vid) (edgeType : Nat) (dir : Direction)
  (result : List (Vid × Eid))

theorem entriesFor_of_not_hasEntriesFor (h : s.hasEntriesFor edgeType dir = false) :
    s.entriesFor (edgeType, dir) vid = [] := by
  have hnone := notMem_iff_lookup.mp (of_decide_eq_false h)
  rw [entriesFor, lookup₂, hnone, Option.bind_none, Option.getD_none]

theorem lookup_tombstones_of_isEmpty (h : s.tombstones.keys.isEmpty = true) (eid : Eid) :
    s.tombstones.lookup eid = none := by
  refine notMem_iff_lookup.mp ?_
  rw [AList.mem_keys, isEmpty_iff.mp h]
  exact not_mem_nil

theorem hides_of_isEmpty (h : s.tombstones.keys.isEmpty = true) (eid : Eid) :
    s.hides vis eid = false := by
  rw [hides, s.lookup_tombstones_of_isEmpty h]

/-- The flags skip work only: without inserts or tombstones there is none. -/
theorem mem_readFrozenVisible (p : Vid × Eid) :
    p ∈ s.readFrozenVisible vis vid edgeType dir result ↔
      (p ∈ result ∨ p ∈ visibleEdges vis (s.entriesFor (edgeType, dir) vid)) ∧
        s.hides vis p.2 = false := by
  unfold readFrozenVisible
  cases hins : s.hasEntriesFor edgeType dir with
  | false =>
    have hnil := s.entriesFor_of_not_hasEntriesFor vid edgeType dir hins
    cases htomb : s.tombstones.keys.isEmpty with
    | true => simp [hnil, visibleEdges, s.hides_of_isEmpty vis htomb]
    | false => simp [hnil, visibleEdges]
  | true =>
    cases htomb : s.tombstones.keys.isEmpty with
    | true => simp [visibleEdges, s.hides_of_isEmpty vis htomb]
    | false => simp [visibleEdges, or_and_right]

/-- Testing the inserts twice makes no difference. -/
theorem readActiveVisible_eq : s.readActiveVisible vis vid edgeType dir result =
    s.readFrozenVisible vis vid edgeType dir result := by
  unfold readActiveVisible readFrozenVisible
  cases s.hasEntriesFor edgeType dir with
  | false => cases s.tombstones.keys.isEmpty <;> rfl
  | true =>
    cases htomb : s.tombstones.keys.isEmpty with
    | true => simp [s.hides_of_isEmpty vis htomb]
    | false => simp [filter_filter, filter_map, Function.comp_def, Bool.and_comm]

/-- The unversioned step is that of a reader who admits everything. -/
theorem read_eq_readFrozenVisible :
    s.read vid edgeType dir result =
      s.readFrozenVisible (.atMost none) vid edgeType dir result := by
  have hides_eq : ∀ eid, s.hides (.atMost none) eid = decide (eid ∈ s.tombstones) := by
    intro eid
    rw [Bool.eq_iff_iff, decide_eq_true_eq, mem_iff_lookup, hides]
    cases s.tombstones.lookup eid <;> simp
  unfold read readFrozenVisible
  simp only [hides_eq, RowVisibility.admits_atMost_none, filter_true]

end L0CsrSegment

/-! ## All layers -/

/-- One of the segments shows the edge, and neither that nor a later one hides it. -/
def LiveIn (vis : RowVisibility) (key : OverlayKey) (vid : Vid) (p : Vid × Eid) :
    List L0CsrSegment → Prop
  | [] => False
  | s :: newer =>
    (p ∈ visibleEdges vis (s.entriesFor key vid) ∧ ∀ t ∈ s :: newer, t.hides vis p.2 = false) ∨
      LiveIn vis key vid p newer

/-- What is in the result after reading through segments, oldest first. -/
theorem mem_readLayers (vis : RowVisibility) (vid : Vid) (edgeType : Nat) (dir : Direction)
    (segments : List L0CsrSegment) (result : List (Vid × Eid)) (p : Vid × Eid) :
    p ∈ segments.foldl (fun r s => s.readFrozenVisible vis vid edgeType dir r) result ↔
      (p ∈ result ∧ ∀ t ∈ segments, t.hides vis p.2 = false) ∨
        LiveIn vis (edgeType, dir) vid p segments := by
  induction segments generalizing result with
  | nil => simp [LiveIn]
  | cons s newer ih =>
    rw [foldl_cons, ih, L0CsrSegment.mem_readFrozenVisible]
    simp only [LiveIn, forall_mem_cons]
    constructor
    · rintro (⟨⟨hold | hnew, hs⟩, hrest⟩ | hlive)
      · exact .inl ⟨hold, hs, hrest⟩
      · exact .inr (.inl ⟨hnew, hs, hrest⟩)
      · exact .inr (.inr hlive)
    · rintro (⟨hold, hs, hrest⟩ | ⟨hnew, hs, hrest⟩ | hlive)
      · exact .inl ⟨⟨.inl hold, hs⟩, hrest⟩
      · exact .inl ⟨⟨.inr hnew, hs⟩, hrest⟩
      · exact .inr hlive

namespace AdjacencyManager

/-- No layer has a tombstone for the edge that the reader sees. -/
def Unhidden (m : AdjacencyManager) (vis : RowVisibility) (eid : Eid) : Prop :=
  ∀ s ∈ m.layers, s.hides vis eid = false

/-- What one pass of a versioned read adds to the result, and what it keeps. -/
theorem mem_readVisible (vis : RowVisibility) (vid : Vid) (edgeType : Nat)
    (result : List (Vid × Eid)) (dir : Direction) (p : Vid × Eid) :
    p ∈ m.readDirectionVisible vis vid edgeType result dir ↔
      ((p ∈ result ∨ p ∈ visibleEdges vis (m.mainEntries (edgeType, dir) vid)) ∧
        m.Unhidden vis p.2) ∨
      LiveIn vis (edgeType, dir) vid p m.layers ∨
      p ∈ m.shadow.getEntriesVisible vid edgeType dir vis := by
  -- the active segment is read like one more frozen segment
  have hlayers : ∀ r, p ∈ m.activeOverlay.readActiveVisible vis vid edgeType dir
      (m.frozenSegments.foldl (fun r s => s.readFrozenVisible vis vid edgeType dir r) r) ↔
      p ∈ m.layers.foldl (fun r s => s.readFrozenVisible vis vid edgeType dir r) r := by
    intro r
    rw [L0CsrSegment.readActiveVisible_eq, layers, foldl_append, foldl_cons, foldl_nil]
  rw [readDirectionVisible, mem_append, hlayers, mem_readLayers, mem_append]
  exact or_assoc

/-- A reader who admits everything sees no deleted edge in the shadow. -/
theorem shadow_getEntriesVisible_all (s : ShadowCsr) (vid : Vid) (edgeType : Nat)
    (dir : Direction) : s.getEntriesVisible vid edgeType dir (.atMost none) = [] := by
  simp [ShadowCsr.getEntriesVisible]

theorem mem_readDirection_iff (vid : Vid) (edgeType : Nat) (result : List (Vid × Eid))
    (dir : Direction) (p : Vid × Eid) : p ∈ m.readDirection vid edgeType result dir ↔
      p ∈ m.readDirectionVisible (.atMost none) vid edgeType result dir := by
  rw [readDirectionVisible, shadow_getEntriesVisible_all, append_nil,
    L0CsrSegment.readActiveVisible_eq, readDirection]
  simp [L0CsrSegment.read_eq_readFrozenVisible]

theorem getNeighborsVisible_eq_iff (m m' : AdjacencyManager) (vid : Vid) (edgeType : Nat)
    (direction : Direction) (vis : RowVisibility) :
    m'.getNeighborsVisible vid edgeType direction vis =
        m.getNeighborsVisible vid edgeType direction vis ↔
      ∀ p, p ∈ m'.getNeighborsVisible vid edgeType direction vis ↔
        p ∈ m.getNeighborsVisible vid edgeType direction vis := by
  simp [getNeighborsVisible, intoCanonicalOrder_eq_iff]

/-- The unversioned read is the read of a reader who admits everything. -/
theorem getNeighbors_eq_getNeighborsVisible (vid : Vid) (edgeType : Nat) (direction : Direction) :
    m.getNeighbors vid edgeType direction =
      m.getNeighborsVisible vid edgeType direction (.atMost none) := by
  rw [getNeighbors, getNeighborsVisible, intoCanonicalOrder_eq_iff]
  have hone := m.mem_readDirection_iff vid edgeType []
  intro p
  cases direction with
  | outgoing => exact hone .outgoing p
  | incoming => exact hone .incoming p
  | both =>
    simp only [Direction.expand, foldl_cons, foldl_nil]
    rw [mem_readDirection_iff, mem_readVisible, mem_readVisible, hone .outgoing p]

end AdjacencyManager

/-! ## Edges with fixed endpoints -/

/-- The endpoints and the type that an edge has for good. -/
structure EdgeEnds where
  srcVid : Vid
  dstVid : Vid
  edgeType : Nat

/-- The vertex that lists an edge in a direction, and its neighbor there. -/
def EdgeEnds.listedAt (x : EdgeEnds) : Direction → Option (Vid × Vid)
  | .outgoing => some (x.srcVid, x.dstVid)
  | .incoming => some (x.dstVid, x.srcVid)
  | .both => none

/-- A read of `key` at `vid` lists the edge with this neighbor. -/
def Placed (ends : Eid → EdgeEnds) (key : OverlayKey) (vid neighbor : Vid) (eid : Eid) : Prop :=
  (ends eid).edgeType = key.1 ∧ (ends eid).listedAt key.2 = some (vid, neighbor)

theorem placed_unique {ends : Eid → EdgeEnds} {key : OverlayKey} {vid vid' n n' : Vid} {eid : Eid}
    (h : Placed ends key vid n eid) (h' : Placed ends key vid' n' eid) : vid' = vid ∧ n' = n := by
  have heq := h'.2.symm.trans h.2
  rw [Option.some.injEq, Prod.mk.injEq] at heq
  exact heq

end Adjacency

end UniDb
