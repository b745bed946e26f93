import Mathlib.Data.List.Forall2
import UniDb.Lib.WriteLog
import UniDb.Storage.Delta

/-!
# The Fold of a Delta Log

The edges of an edge type are stored once per direction: an adjacency table (L2)
with a row for each vertex, and a delta log (L1) with the inserts and deletes since
then. A compaction folds deltas into L2 vertex by vertex, by a map from edge ids to
neighbors. A reader leaves L2 alone and applies the deltas that it sees to the
edges it gets from there.

Both come to the same. For each edge the newest delta decides, and an edge without
one is as in L2. Deltas are grouped by the vertex that lists the edge, and this
loses nothing because the endpoints of an edge never change: all its deltas are at
one vertex, and so is the row of L2 that has it.

## Main definitions

* `mergeAdjacency`: L2 after the deltas are folded.
* `applyVisible`: The edges that a reader with a ceiling makes of L2 and the log.
* `deltaWrites`: A delta log as a log of writes.
* `RowsFit`: L2 has the edges where they belong.

## Theorems

* `mem_applyVisible`: A reader overlays the visible deltas.
* `storedEdges_mergeAdjacency`: The fold makes of L2 what the deltas make of it.
-/

namespace UniDb

open List AssocMap Prod

namespace Adjacency

/-- The direction of a table. -/
inductive Side
  | fwd
  | bwd
  deriving DecidableEq, Repr

def Side.dir : Side → Direction
  | .fwd => .outgoing
  | .bwd => .incoming

variable (side : Side)

theorem Side.dir_ne_both : side.dir ≠ .both := by
  cases side <;> exact Direction.noConfusion

/-- An edge id, with the vertex that lists the edge and its neighbor there. -/
abbrev ListedEdge := Eid × Vid × Vid

def storedEdges (rows : List AdjacencyRow) : List ListedEdge :=
  rows.flatMap fun row => row.edges.map fun e => (e.2, row.srcVid, e.1)

/-! ## Merging -/

def applyDeltasToEdges (currentEdges : AssocMap Eid Vid) (ops : List L1Entry) :
    AssocMap Eid Vid :=
  ops.foldl (fun current op =>
    match op.op with
    | .insert => current.insert op.eid (op.endsAt side.dir).2
    | .delete => current.erase op.eid) currentEdges

/-- The row of a vertex, sorted by edge id. A vertex without edges has none. -/
def appendEdgesToBuilders (vid : Vid) (currentEdges : AssocMap Eid Vid) : List AdjacencyRow :=
  if currentEdges.keys.isEmpty then []
  else
    [⟨vid, (currentEdges.keys.insertionSort (· ≤ ·)).filterMap fun eid =>
      (currentEdges.lookup eid).map (·, eid)⟩]

/-- The deltas of each vertex, in the order of their versions. -/
def deltaMap (deltas : List L1Entry) : AssocMap Vid (List L1Entry) :=
  (deltas.foldl (fun m entry => m.insert (entry.endsAt side.dir).1
      ((m.lookup (entry.endsAt side.dir).1).getD [] ++ [entry]))
    (∅ : AssocMap Vid (List L1Entry))).filterMapVal
      fun _ ops => some (ops.insertionSort fun a b => a.version ≤ b.version)

def AdjacencyRow.currentEdges (row : AdjacencyRow) : AssocMap Eid Vid :=
  row.edges.foldl (fun current e => current.insert e.2 e.1) ∅

/-- L2 with the deltas folded: its rows, and then the vertices that it does not have. -/
def mergeAdjacency (rows : List AdjacencyRow) (deltas : List L1Entry) :
    List AdjacencyRow :=
  (rows.flatMap fun row => appendEdgesToBuilders row.srcVid
    (applyDeltasToEdges side row.currentEdges
      (((deltaMap side deltas).lookup row.srcVid).getD []))) ++
  ((deltaMap side deltas).toList.filter fun e => e.1 ∉ rows.map AdjacencyRow.srcVid).flatMap
    fun e => appendEdgesToBuilders e.1 (applyDeltasToEdges side ∅ e.2)

/-! ## Readers -/

/-- One delta, as a reader applies it. -/
def applyDelta (edges : List ListedEdge) (entry : L1Entry) : List ListedEdge :=
  match entry.op with
  | .insert => (entry.eid, entry.endsAt side.dir) :: edges.filter (·.1 ≠ entry.eid)
  | .delete => edges.filter (·.1 ≠ entry.eid)

def visibleDeltas (ceiling : Nat) (deltas : List L1Entry) : List L1Entry :=
  deltas.filter (·.version ≤ ceiling)

/-- The visible deltas, applied in the order of their versions. -/
def applyVisible (ceiling : Nat) (edges : List ListedEdge) (deltas : List L1Entry) :
    List ListedEdge :=
  ((visibleDeltas ceiling deltas).insertionSort fun a b => a.version ≤ b.version).foldl
    (applyDelta side) edges

def deltaWrites : WriteLog L1Entry Eid (Vid × Vid) where
  key := L1Entry.eid
  version := L1Entry.version
  put entry :=
    match entry.op with
    | .insert => some (entry.endsAt side.dir)
    | .delete => none

/-- At most one delta per edge and version. -/
abbrev SingleDeltas (deltas : List L1Entry) : Prop :=
  (deltas.map fun entry => (entry.eid, entry.version)).Nodup

/-- What a delta puts is where the edge belongs. -/
theorem L1Entry.Fits.listedAt_of_put {ends : Eid → EdgeEnds} {entry : L1Entry} (h : entry.Fits ends)
    {side : Side} {p : Vid × Vid} (hput : (deltaWrites side).put entry = some p) :
    (ends entry.eid).listedAt side.dir = some p := by
  rw [h.listedAt side.dir_ne_both]
  unfold deltaWrites at hput
  cases hop : entry.op with
  | insert => simpa [hop] using hput
  | delete => simp [hop] at hput

theorem SingleDeltas.sublist {deltas deltas' : List L1Entry}
    (h : SingleDeltas deltas) (hsub : deltas'.Sublist deltas) : (deltaWrites side).Single deltas' :=
  List.Nodup.sublist (hsub.map _) h

theorem actsAt_applyDelta :
    ActsAt (fun (edges : List ListedEdge) eid => {p | (eid, p) ∈ edges}) L1Entry.eid
      (applyDelta side) fun entry _ => {p | (deltaWrites side).put entry = some p} := by
  intro edges entry eid
  ext p
  unfold applyDelta deltaWrites
  by_cases heid : eid = entry.eid
  · subst heid
    cases hop : entry.op <;> simp [hop, eq_comm]
  · cases entry.op <;> simp [heid]

/-- A reader gets what the newest visible delta of an edge says, or what is in L2. -/
theorem mem_applyVisible {side : Side} {ceiling : Nat} {edges : List ListedEdge}
    {deltas : List L1Entry} (h : SingleDeltas deltas) :
    {x | x ∈ applyVisible side ceiling edges deltas} =
      (deltaWrites side).overlay (visibleDeltas ceiling deltas) {x | x ∈ edges} := by
  have hsingle : (deltaWrites side).Single (visibleDeltas ceiling deltas) :=
    SingleDeltas.sublist side h filter_sublist
  ext ⟨eid, p⟩
  have hview := WriteLog.view_foldl_inOrder (actsAt_applyDelta side) hsingle edges eid
  have hp := Set.ext_iff.mp hview p
  refine hp.trans ?_
  unfold WriteLog.overlay
  simp only [Set.mem_ofPred_eq]
  cases (deltaWrites side).newest (visibleDeltas ceiling deltas) eid <;> rfl

/-! ## The fold -/

section Merge

variable {ends : Eid → EdgeEnds} {side : Side} {rows : List AdjacencyRow} {deltas : List L1Entry}

/-- The rows of L2 have the edges where they belong. -/
def RowsFit (ends : Eid → EdgeEnds) (side : Side) (rows : List AdjacencyRow) : Prop :=
  ∀ x ∈ storedEdges rows, (ends x.1).listedAt side.dir = some x.2

variable {x : ListedEdge}

theorem mem_storedEdges : x ∈ storedEdges rows ↔
    ∃ row ∈ rows, row.srcVid = x.2.1 ∧ (x.2.2, x.1) ∈ row.edges := by
  rcases x with ⟨eid, vid, n⟩
  simp only [storedEdges, mem_flatMap, mem_map, Prod.mk.injEq, Prod.exists]
  constructor
  · rintro ⟨row, hrow, n', eid', hmem, rfl, rfl, rfl⟩
    exact ⟨row, hrow, rfl, hmem⟩
  · rintro ⟨row, hrow, rfl, hmem⟩
    exact ⟨row, hrow, n, eid, hmem, rfl, rfl, rfl⟩

theorem mem_storedEdges_append {rows' : List AdjacencyRow} :
    x ∈ storedEdges (rows ++ rows') ↔ x ∈ storedEdges rows ∨ x ∈ storedEdges rows' := by
  unfold storedEdges
  rw [flatMap_append, mem_append]

theorem mem_storedEdges_flatMap {α : Type} {l : List α} {f : α → List AdjacencyRow} :
    x ∈ storedEdges (l.flatMap f) ↔ ∃ a ∈ l, x ∈ storedEdges (f a) := by
  unfold storedEdges
  rw [flatMap_assoc, mem_flatMap]

def deltasAt (side : Side) (deltas : List L1Entry) (vid : Vid) : List L1Entry :=
  deltas.filter fun entry => (entry.endsAt side.dir).1 = vid

theorem lookup_deltaMap (side : Side) (deltas : List L1Entry) (vid : Vid) :
    (deltaMap side deltas).lookup vid =
      if deltasAt side deltas vid = [] then none
      else some ((deltasAt side deltas vid).insertionSort fun a b => a.version ≤ b.version) := by
  have hconcat : ∀ (xs acc : List L1Entry), xs.foldl (fun acc x => acc ++ [x]) acc = acc ++ xs := by
    intro xs
    induction xs with
    | nil => simp
    | cons x xs ih => simp [ih]
  unfold deltaMap
  rw [lookup_filterMapVal, lookup_foldl_update
    (fun entry : L1Entry => (entry.endsAt side.dir).1) (fun ops entry => ops ++ [entry]) [],
    hconcat, nil_append]
  unfold deltasAt
  split <;> rfl

theorem getD_lookup_deltaMap (side : Side) (deltas : List L1Entry) (vid : Vid) :
    ((deltaMap side deltas).lookup vid).getD [] =
      (deltaWrites side).inOrder (deltasAt side deltas vid) := by
  rw [lookup_deltaMap]
  split
  · next hnil =>
    rw [hnil]
    rfl
  · rfl

theorem actsAt_applyDeltas (side : Side) :
    ActsAt (fun (current : AssocMap Eid Vid) eid => current.lookup eid) L1Entry.eid
      (fun current op => match op.op with
        | .insert => current.insert op.eid (op.endsAt side.dir).2
        | .delete => current.erase op.eid)
      fun op _ => ((deltaWrites side).put op).map snd := by
  intro current op eid
  unfold deltaWrites
  cases hop : op.op <;> simp [hop]

/-- The edges of a vertex after its deltas are applied. -/
theorem lookup_applyDeltasToEdges (h : SingleDeltas deltas) (current : AssocMap Eid Vid) (vid : Vid)
    (eid : Eid) : (applyDeltasToEdges side current
      ((deltaWrites side).inOrder (deltasAt side deltas vid))).lookup eid =
      ((deltaWrites side).newest (deltasAt side deltas vid) eid).elim (current.lookup eid)
        fun entry => ((deltaWrites side).put entry).map snd :=
  WriteLog.view_foldl_inOrder (actsAt_applyDeltas side)
    (SingleDeltas.sublist side h filter_sublist) current eid

theorem mem_appendEdgesToBuilders {vid : Vid} {current : AssocMap Eid Vid} :
    x ∈ storedEdges (appendEdgesToBuilders vid current) ↔
      vid = x.2.1 ∧ current.lookup x.1 = some x.2.2 := by
  rw [mem_storedEdges]
  unfold appendEdgesToBuilders
  split
  · next hempty =>
    rw [List.isEmpty_iff] at hempty
    have hnone : current.lookup x.1 = none := by
      rw [← notMem_iff_lookup, AList.mem_keys, hempty]
      exact not_mem_nil
    simp [hnone]
  · simp only [mem_singleton, exists_eq_left, mem_filterMap, mem_insertionSort,
      Option.map_eq_some_iff, mk.injEq]
    refine and_congr_right fun _ => ?_
    constructor
    · rintro ⟨eid, -, n, hlookup, rfl, rfl⟩
      exact hlookup
    · intro hlookup
      exact ⟨x.1, AList.mem_keys.mp (mem_of_lookup hlookup), x.2.2, hlookup, rfl, rfl⟩

/-- A row has each edge once or several times with one neighbor. -/
theorem lookup_currentEdges (hrows : RowsFit ends side rows) {row : AdjacencyRow}
    (hrow : row ∈ rows) (eid : Eid) (n : Vid) :
    row.currentEdges.lookup eid = some n ↔ (n, eid) ∈ row.edges := by
  have hacts : ActsAt (fun (current : AssocMap Eid Vid) eid => current.lookup eid)
      (snd : Vid × Eid → Eid) (fun current e => current.insert e.2 e.1)
      fun e _ => some e.1 :=
    fun current e eid => lookup_insert_eq current e.2 eid e.1
  have hlookup : row.currentEdges.lookup eid =
      ((row.edges.filter (·.2 = eid)).getLast?).elim none fun e => some e.1 :=
    hacts.foldl_last row.edges ∅ eid
  have hfits : ∀ e ∈ row.edges, (ends e.2).listedAt side.dir = some (row.srcVid, e.1) :=
    fun e he => hrows (e.2, row.srcVid, e.1) (mem_storedEdges.mpr ⟨row, hrow, rfl, he⟩)
  rw [hlookup]
  cases hlast : (row.edges.filter (·.2 = eid)).getLast? with
  | none =>
    rw [getLast?_eq_none_iff, filter_eq_nil_iff] at hlast
    refine ⟨nofun, fun hmem => ?_⟩
    exact absurd (decide_eq_true rfl) (hlast (n, eid) hmem)
  | some e =>
    rcases mem_filter.mp (mem_of_getLast? hlast) with ⟨he, heid⟩
    rw [decide_eq_true_eq] at heid
    subst heid
    show some e.1 = some n ↔ _
    rw [Option.some.injEq]
    constructor
    · rintro rfl
      exact he
    · intro hmem
      have heq := (hfits e he).symm.trans (hfits (n, e.2) hmem)
      simpa using heq

/-- The deltas of an edge are all at the vertex that lists it. -/
theorem newest_deltasAt (hdeltas : ∀ entry ∈ deltas, entry.Fits ends) {eid : Eid} {p : Vid × Vid}
    (hp : (ends eid).listedAt side.dir = some p) (vid : Vid) :
    (deltaWrites side).newest (deltasAt side deltas vid) eid =
      if p.1 = vid then (deltaWrites side).newest deltas eid else none := by
  have hat : ∀ entry ∈ deltas, entry.eid = eid → (entry.endsAt side.dir).1 = p.1 := by
    rintro entry hentry rfl
    have hlisted := (hdeltas entry hentry).listedAt side.dir_ne_both
    rw [hp, Option.some.injEq] at hlisted
    rw [hlisted]
  split
  · next hvid =>
    unfold WriteLog.newest deltasAt
    rw [filter_filter]
    congr 1
    refine filter_congr fun entry hentry => ?_
    by_cases heid : entry.eid = eid
    · simp [deltaWrites, heid, hat entry hentry heid, hvid]
    · simp [deltaWrites, heid]
  · next hvid =>
    rw [WriteLog.newest_eq_none_iff]
    intro entry hentry heid
    rcases mem_filter.mp hentry with ⟨hmem, hent⟩
    exact hvid ((hat entry hmem heid).symm.trans (of_decide_eq_true hent))

/-- The edges that the fold leaves, vertex by vertex. -/
theorem mem_mergeAdjacency (h : SingleDeltas deltas) :
    x ∈ storedEdges (mergeAdjacency side rows deltas) ↔
      (∃ row ∈ rows, row.srcVid = x.2.1 ∧
        ((deltaWrites side).newest (deltasAt side deltas x.2.1) x.1).elim
          (row.currentEdges.lookup x.1) (fun entry => ((deltaWrites side).put entry).map snd) =
            some x.2.2) ∨
      ((∀ row ∈ rows, row.srcVid ≠ x.2.1) ∧
        ((deltaWrites side).newest (deltasAt side deltas x.2.1) x.1).elim none
          (fun entry => ((deltaWrites side).put entry).map snd) = some x.2.2) := by
  unfold mergeAdjacency
  rw [mem_storedEdges_append, mem_storedEdges_flatMap, mem_storedEdges_flatMap]
  refine or_congr ?_ ?_
  · refine exists_congr fun row => and_congr_right fun _ => ?_
    rw [mem_appendEdgesToBuilders, getD_lookup_deltaMap]
    refine and_congr_right fun hvid => ?_
    rw [hvid, lookup_applyDeltasToEdges h]
  · simp only [mem_filter, decide_eq_true_eq, mem_map, not_exists, not_and,
      mem_appendEdgesToBuilders, Prod.exists, mem_toList, lookup_deltaMap]
    constructor
    · rintro ⟨vid, ops, ⟨hops, hnew⟩, rfl, hlookup⟩
      split at hops
      · cases hops
      · rw [Option.some.injEq] at hops
        subst hops
        refine ⟨hnew, ?_⟩
        rw [← hlookup]
        exact (lookup_applyDeltasToEdges h ∅ x.2.1 x.1).symm
    · rintro ⟨hnew, hlookup⟩
      refine ⟨x.2.1, (deltaWrites side).inOrder (deltasAt side deltas x.2.1), ⟨?_, hnew⟩, rfl, ?_⟩
      · rw [if_neg]
        · rfl
        · intro hnil
          rw [hnil] at hlookup
          cases hlookup
      · rw [← hlookup]
        exact lookup_applyDeltasToEdges h ∅ x.2.1 x.1

/-- The fold makes of L2 what the deltas make of it. -/
theorem storedEdges_mergeAdjacency (hrows : RowsFit ends side rows)
    (hdeltas : ∀ entry ∈ deltas, entry.Fits ends) (h : SingleDeltas deltas) :
    {x | x ∈ storedEdges (mergeAdjacency side rows deltas)} =
      (deltaWrites side).overlay deltas {x | x ∈ storedEdges rows} := by
  ext ⟨eid, vid, n⟩
  obtain ⟨p, hp⟩ : ∃ p, (ends eid).listedAt side.dir = some p := by
    cases side <;> exact ⟨_, rfl⟩
  refine (mem_mergeAdjacency h).trans ?_
  show _ ↔ ((deltaWrites side).newest deltas eid).elim ((eid, vid, n) ∈ storedEdges rows) _
  simp only [newest_deltasAt hdeltas hp]
  cases hnewest : (deltaWrites side).newest deltas eid with
  | none =>
    -- no delta of the edge: L2 decides
    simp only [ite_self, Option.elim_none, mem_storedEdges]
    constructor
    · rintro (⟨row, hrow, hvid, hlookup⟩ | ⟨-, hnone⟩)
      · exact ⟨row, hrow, hvid, (lookup_currentEdges hrows hrow eid n).mp hlookup⟩
      · cases hnone
    · rintro ⟨row, hrow, hvid, hmem⟩
      exact .inl ⟨row, hrow, hvid, (lookup_currentEdges hrows hrow eid n).mpr hmem⟩
  | some entry =>
    rcases WriteLog.mem_of_newest hnewest with ⟨hmem, heid⟩
    have hput : ∀ q, (deltaWrites side).put entry = some q → q = p := by
      intro q hq
      have hlisted := (hdeltas entry hmem).listedAt_of_put hq
      rw [show entry.eid = eid from heid, hp, Option.some.injEq] at hlisted
      exact hlisted.symm
    by_cases hvid : p.1 = vid
    · -- the vertex lists the edge: the delta decides, with a row and without
      simp only [hvid, if_true, Option.elim_some]
      have hsnd : ((deltaWrites side).put entry).map snd = some n ↔
          (deltaWrites side).put entry = some (vid, n) := by
        rw [Option.map_eq_some_iff]
        constructor
        · rintro ⟨q, hq, rfl⟩
          rw [hq, hput q hq, ← hvid]
        · intro hq
          exact ⟨_, hq, rfl⟩
      rw [hsnd]
      constructor
      · rintro (⟨-, -, -, hq⟩ | ⟨-, hq⟩)
        · exact hq
        · exact hq
      · intro hq
        by_cases hrow : ∃ row ∈ rows, row.srcVid = vid
        · rcases hrow with ⟨row, hrow, hsrc⟩
          exact .inl ⟨row, hrow, hsrc, hq⟩
        · exact .inr ⟨fun row hmem hsrc => hrow ⟨row, hmem, hsrc⟩, hq⟩
    · -- another vertex neither has the edge nor gets it
      simp only [hvid, if_false, Option.elim_none, Option.elim_some]
      constructor
      · rintro (⟨row, hrow, hsrc, hlookup⟩ | ⟨-, hnone⟩)
        · have hedge := (lookup_currentEdges hrows hrow eid n).mp hlookup
          have hlisted := hrows (eid, vid, n) (mem_storedEdges.mpr ⟨row, hrow, hsrc, hedge⟩)
          rw [hp, Option.some.injEq] at hlisted
          exact absurd (congrArg fst hlisted) hvid
        · cases hnone
      · intro hq
        exact absurd (congrArg fst (hput _ hq)).symm hvid

end Merge

end Adjacency

end UniDb
