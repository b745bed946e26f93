import UniDb.Lib.KeyedFold
import UniDb.Runtime.L0Merge

/-!
# What the Operations of a Buffer Do

A buffer seen vertex by vertex, and seen by its edges alone.

Every operation on a vertex changes what the buffer holds about that vertex and
nothing about any other, although it updates half a dozen maps to do so.
`vertexView` collects these maps into one record per vertex, `VertexView` has
the effect of each operation on such a record, and the lemmas below say that the
operations of the buffer have exactly these effects. The edge maps are
collected in `EdgeSide` as they stand: an operation on a vertex either leaves
them alone or changes them in a way that does not depend on the vertex maps.

Invariants and comparisons of whole buffers are then proved for one vertex at a
time, and the loops of a merge by the rules for loops over distinct keys.

## Main definitions

* `VertexView`: What a buffer holds about one vertex.
* `VertexView.write`, `VertexView.delete`, `VertexView.setLabels`,
  `VertexView.append`, `VertexView.removeLabel`: The effects of the operations.
* `L0Buffer.vertexView`: The view of a buffer.
* `EdgeSide`: The edge maps of a buffer.

## Theorems

* `mem_indexVid`, `mem_unindexVid`: What the label index holds after an update.
* `vertexView_insertVertexWithLabelsImpl`, `vertexView_applyVertexDeletion`,
  `vertexView_relabelVertex` and the like: The effect of each operation.
* `edges_applyVertexDeletion`: A deletion's effect on the edges.
-/

namespace UniDb

open AssocMap

/-- What a buffer holds about one vertex: whether it is tombstoned, its
    properties, its label list, the labels it is indexed under, and its times. -/
@[ext] structure VertexView (V : Type) where
  dead : Prop
  props : Option (Properties V)
  labels : Option (List String)
  indexed : String → Prop
  created : Option Int
  updated : Option Int

namespace VertexView

variable {V : Type}

/-- The label list, empty if the vertex has no entry. -/
def labelList (w : VertexView V) : List String := w.labels.getD []

variable (labels : List String) (w : VertexView V)

/-- Append labels and index the vertex under them. -/
def append : VertexView V :=
  { w with
    labels := some (appendUniqueLabels w.labelList labels)
    indexed := fun l => w.indexed l ∨ l ∈ labels }

/-- Replace the labels: the old ones leave the index, the new ones enter it. -/
def setLabels : VertexView V :=
  { w with
    labels := some labels
    indexed := fun l => (w.indexed l ∧ l ∉ w.labelList) ∨ l ∈ labels }

/-- Adopt labels where there is no entry. -/
def adopt : VertexView V :=
  match w.labels with
  | some _ => w
  | none => { w with labels := some labels, indexed := fun l => w.indexed l ∨ l ∈ labels }

def removeLabel (label : String) (w : VertexView V) : VertexView V :=
  if label ∈ w.labelList then
    { w with
      labels := some (w.labelList.erase label)
      indexed := fun l => w.indexed l ∧ l ≠ label }
  else w

/-- Delete the vertex. The label list stays. -/
def delete : VertexView V :=
  { w with
    dead := True
    props := none
    indexed := fun l => w.indexed l ∧ l ∉ w.labelList }

/-- Write properties and labels, with the times given. -/
def write [PropertyValue V] (properties : Properties V) (labels : List String)
    (created updated : Option Int) (w : VertexView V) : VertexView V :=
  append labels { w with
    dead := False
    props := some (mergeCrdtProperties (w.props.getD ∅) properties)
    created := w.created.or created
    updated := updated.or w.updated }

/-- A vertex with a label entry adopts nothing. -/
theorem adopt_of_labels {w : VertexView V} (h : w.labels.isSome) (labels : List String) :
    w.adopt labels = w := by
  rcases Option.isSome_iff_exists.mp h with ⟨existing, hlabels⟩
  unfold adopt
  rw [hlabels]

/-- Adopting labels touches nothing but the labels. -/
@[simp] theorem adopt_frame :
    (w.adopt labels).dead = w.dead ∧ (w.adopt labels).props = w.props ∧
      (w.adopt labels).created = w.created ∧ (w.adopt labels).updated = w.updated := by
  unfold adopt
  cases w.labels <;> exact ⟨rfl, rfl, rfl, rfl⟩

end VertexView

section

variable (index : AssocMap String (AssocSet Vid)) (vid a : Vid) (labels : List String) (l : String)

theorem mem_indexVid : a ∈ ((indexVid index vid labels).lookup l).getD ∅ ↔
      a ∈ (index.lookup l).getD ∅ ∨ (a = vid ∧ l ∈ labels) := by
  unfold indexVid
  induction labels generalizing index with
  | nil => simp
  | cons label labels ih =>
    rw [List.foldl_cons, ih, lookup_insert_eq, List.mem_cons]
    by_cases hl : l = label
    · subst hl
      simp only [if_true, Option.getD_some, AList.mem_insert]
      tauto
    · rw [if_neg hl]
      simp [hl]

theorem mem_unindexVid : a ∈ ((unindexVid index vid labels).lookup l).getD ∅ ↔
      a ∈ (index.lookup l).getD ∅ ∧ ¬ (a = vid ∧ l ∈ labels) := by
  unfold unindexVid
  induction labels generalizing index with
  | nil => simp
  | cons label labels ih =>
    rw [List.foldl_cons, ih, List.mem_cons]
    cases hlook : index.lookup label with
    | none =>
      -- no vertex is indexed under a label without an entry
      by_cases hl : l = label
      · subst hl
        simp [hlook]
      · simp [hl]
    | some =>
      simp only [lookup_insert_eq]
      by_cases hl : l = label
      · subst hl
        simp only [if_true, Option.getD_some, AList.mem_erase, hlook]
        tauto
      · simp [hl]

end

namespace L0Buffer

variable {V : Type}

/-- What a buffer holds about a vertex. -/
def vertexView (b : L0Buffer V) (v : Vid) : VertexView V where
  dead := v ∈ b.vertexTombstones
  props := b.vertexProperties.lookup v
  labels := b.vertexLabels.lookup v
  indexed l := v ∈ (b.labelToVids.lookup l).getD ∅
  created := b.vertexCreatedAt.lookup v
  updated := b.vertexUpdatedAt.lookup v

section

variable (b : L0Buffer V)

theorem mem_vidsForLabel (label : String) (v : Vid) :
    v ∈ b.vidsForLabel label ↔ (b.vertexView v).indexed label := by
  unfold vidsForLabel
  rw [← AList.mem_keys]
  rfl

@[simp] theorem vertexView_bumpVersion : b.bumpVersion.vertexView = b.vertexView :=
  rfl

/-- Label updates made of a new list and a new index. -/
theorem vertexView_relabel (vid : Vid) (list : List String) (index : AssocMap String (AssocSet Vid))
    (p : String → Prop) (hindex : ∀ a l, a ∈ (index.lookup l).getD ∅ ↔
      if a = vid then p l else (b.vertexView a).indexed l) (v : Vid) :
    vertexView { b with vertexLabels := b.vertexLabels.insert vid list, labelToVids := index } v =
      if v = vid then { b.vertexView v with labels := some list, indexed := p }
      else b.vertexView v := by
  by_cases hv : v = vid
  · subst hv
    rw [if_pos rfl]
    have hp : (fun l => v ∈ (index.lookup l).getD ∅) = p := by
      funext l
      rw [hindex v l, if_pos rfl]
    simp [vertexView, hp]
  · rw [if_neg hv]
    have hp : (fun l => v ∈ (index.lookup l).getD ∅) = (b.vertexView v).indexed := by
      funext l
      rw [hindex v l, if_neg hv]
    simp [vertexView, hv, hp]

variable (vid : Vid) (labels : List String)

theorem indexed_indexVid (a : Vid) (l : String) :
    a ∈ ((indexVid b.labelToVids vid labels).lookup l).getD ∅ ↔
      if a = vid then (b.vertexView vid).indexed l ∨ l ∈ labels
      else (b.vertexView a).indexed l := by
  rw [mem_indexVid]
  by_cases ha : a = vid
  · subst ha
    simp [vertexView]
  · simp [ha, vertexView]

theorem vertexView_appendLabels (v : Vid) : (b.appendLabels vid labels).vertexView v =
      if v = vid then (b.vertexView v).append labels else b.vertexView v := by
  have h := vertexView_relabel b vid (appendUniqueLabels (b.labelsOf vid) labels)
    (indexVid b.labelToVids vid labels) (fun l => (b.vertexView vid).indexed l ∨ l ∈ labels)
    (indexed_indexVid b vid labels) v
  refine h.trans ?_
  by_cases hv : v = vid
  · subst hv
    rfl
  · rw [if_neg hv, if_neg hv]

/-- What remains in the index after a vertex is taken out under its labels. -/
theorem removeVidFromLabelIndex_eq :
    b.removeVidFromLabelIndex vid =
      { b with labelToVids := unindexVid b.labelToVids vid (b.labelsOf vid) } := by
  unfold removeVidFromLabelIndex labelsOf
  cases b.vertexLabels.lookup vid <;> rfl

theorem vertexView_replaceLabels (v : Vid) :
    (((b.removeVidFromLabelIndex vid).putLabels vid labels).indexLabelsForVid vid
        labels).vertexView v =
      if v = vid then (b.vertexView v).setLabels labels else b.vertexView v := by
  rw [removeVidFromLabelIndex_eq]
  have h := vertexView_relabel b vid labels
    (indexVid (unindexVid b.labelToVids vid (b.labelsOf vid)) vid labels)
    (fun l => ((b.vertexView vid).indexed l ∧ l ∉ b.labelsOf vid) ∨ l ∈ labels)
    (by
      intro a l
      rw [mem_indexVid, mem_unindexVid]
      by_cases ha : a = vid
      · subst ha
        simp [vertexView]
      · simp [ha, vertexView]) v
  refine h.trans ?_
  by_cases hv : v = vid
  · subst hv
    rfl
  · rw [if_neg hv, if_neg hv]

theorem vertexView_relabelVertex (previous labels : List String) (v : Vid) :
    (b.relabelVertex vid previous labels).vertexView v =
      if v = vid then (b.vertexView v).setLabels labels else b.vertexView v :=
  vertexView_replaceLabels { b with
    vertexLabelsBefore := b.vertexLabelsBefore.orInsert vid previous } vid labels v

theorem vertexView_replaySetVertexLabels (v : Vid) :
    (b.replaySetVertexLabels vid labels).vertexView v =
      if v = vid then (b.vertexView v).setLabels labels else b.vertexView v :=
  vertexView_replaceLabels { b.bumpVersion with
    vertexLabelVersions := b.vertexLabelVersions.insert vid (b.currentVersion + 1) } vid labels v

theorem vertexView_adoptLabels (vl : Vid × List String) (v : Vid) :
    (b.adoptLabels vl).vertexView v =
      if v = vl.1 then (b.vertexView v).adopt vl.2 else b.vertexView v := by
  unfold adoptLabels
  by_cases hmem : vl.1 ∈ b.vertexLabels
  · -- the vertex has labels of its own
    rw [if_pos hmem]
    rcases mem_iff_lookup.mp hmem with ⟨labels, hl⟩
    by_cases hv : v = vl.1
    · subst hv
      simp [VertexView.adopt, vertexView, hl]
    · rw [if_neg hv]
  · rw [if_neg hmem]
    have hnone : b.vertexLabels.lookup vl.1 = none := notMem_iff_lookup.mp hmem
    have h := vertexView_relabel b vl.1 vl.2 (indexVid b.labelToVids vl.1 vl.2)
      (fun l => (b.vertexView vl.1).indexed l ∨ l ∈ vl.2)
      (indexed_indexVid b vl.1 vl.2) v
    refine h.trans ?_
    by_cases hv : v = vl.1
    · subst hv
      simp [VertexView.adopt, vertexView, hnone]
    · rw [if_neg hv, if_neg hv]

theorem vertexView_overwriteLabels (other b : L0Buffer V) (vid v : Vid) :
    (overwriteLabels other b vid).vertexView v =
      if v = vid ∧ vid ∉ other.vertexTombstones then (b.vertexView v).setLabels (other.labelsOf vid)
      else b.vertexView v := by
  unfold overwriteLabels
  by_cases hmem : vid ∈ other.vertexTombstones
  · simp [hmem]
  · rw [if_neg hmem]
    refine (vertexView_replaceLabels b vid (other.labelsOf vid) v).trans ?_
    by_cases hv : v = vid
    · simp [hv, hmem]
    · simp [hv]

theorem vertexView_removeVertexLabel (label : String) (v : Vid) :
    (b.removeVertexLabel vid label).1.vertexView v =
      if v = vid then (b.vertexView v).removeLabel label else b.vertexView v := by
  unfold removeVertexLabel
  cases hl : b.vertexLabels.lookup vid with
  | none =>
    by_cases hv : v = vid
    · subst hv
      simp [VertexView.removeLabel, VertexView.labelList, vertexView, hl]
    · simp [hv]
  | some labels =>
    by_cases hmem : label ∈ labels
    · simp only [if_pos hmem]
      have h := vertexView_relabel b vid (labels.erase label)
        (unindexVid b.labelToVids vid [label])
        (fun l => (b.vertexView vid).indexed l ∧ l ≠ label)
        (by
          intro a l
          rw [mem_unindexVid]
          by_cases ha : a = vid
          · subst ha
            simp [vertexView]
          · simp [ha, vertexView]) v
      refine h.trans ?_
      by_cases hv : v = vid
      · subst hv
        simp [VertexView.removeLabel, VertexView.labelList, vertexView, hl, hmem]
      · rw [if_neg hv, if_neg hv]
    · simp only [if_neg hmem]
      by_cases hv : v = vid
      · subst hv
        simp [VertexView.removeLabel, VertexView.labelList, vertexView, hl, hmem]
      · rw [if_neg hv]

variable (eid : Eid) (src dst : Vid) (edgeType : Nat)

theorem vertexView_cascadeEdge (version : Nat) (acc : L0Buffer V × List TombstoneEntry)
    (eid : Eid) : (cascadeEdge version acc eid).1.vertexView = acc.1.vertexView := by
  unfold cascadeEdge
  cases acc.1.edgeEndpoints.lookup eid <;> rfl

theorem vertexView_recordEdgeType (name : Option String) :
    (b.recordEdgeType eid name).vertexView = b.vertexView := by
  cases name <;> rfl

theorem vertexView_stampEdge (created updated : Option Int) :
    (b.stampEdge eid created updated).vertexView = b.vertexView := rfl

/-- Only the index of external ids changes. -/
theorem syncExtidIndex_eq (old new : Option String) :
    b.syncExtidIndex vid old new =
      { b with extidIndex := (b.syncExtidIndex vid old new).extidIndex } := by
  unfold syncExtidIndex
  by_cases h : old = new
  · rw [if_pos h]
  · rw [if_neg h]

theorem vertexView_clearTombstone (v : Vid) : (b.clearTombstone vid).vertexView v =
      if v = vid then { b.vertexView v with dead := False } else b.vertexView v := by
  by_cases hv : v = vid
  · subst hv
    simp [clearTombstone, vertexView]
  · simp [clearTombstone, vertexView, hv]

theorem vertexView_stampVertex (version : Nat) (created updated : Option Int) (v : Vid) :
    (b.stampVertex vid version created updated).vertexView v =
      if v = vid then
        { b.vertexView v with
          created := (b.vertexView v).created.or created
          updated := updated.or (b.vertexView v).updated }
      else b.vertexView v := by
  by_cases hv : v = vid
  · simp [stampVertex, vertexView, hv, lookup_orInsertSome, lookup_insertSome]
  · simp [stampVertex, vertexView, hv, lookup_orInsertSome, lookup_insertSome]

end

section Writes

variable [PropertyValue V]

section

variable (b : L0Buffer V)

include b

variable (vid : Vid)

/-- Only the index of external ids changes. -/
theorem dropExtid_eq : b.dropExtid vid = { b with extidIndex := (b.dropExtid vid).extidIndex } := by
  unfold dropExtid
  cases (b.vertexProperties.lookup vid).bind extidOf with
  | none => rfl
  | some ext =>
    by_cases h : b.extidIndex.lookup ext = some vid
    · simp only [if_pos h]
    · simp only [if_neg h]

variable (properties : Properties V)

theorem writeProperties_eq : b.writeProperties vid properties = { b with
      vertexProperties := b.vertexProperties.insert vid
        (mergeCrdtProperties ((b.vertexProperties.lookup vid).getD ∅) properties)
      extidIndex := (b.writeProperties vid properties).extidIndex } := by
  unfold writeProperties
  by_cases hext : "ext_id" ∈ properties
  · simp only [if_pos hext]
    rw [syncExtidIndex_eq]
  · simp only [if_neg hext]

theorem vertexView_writeProperties (v : Vid) : (b.writeProperties vid properties).vertexView v =
      if v = vid then
        { b.vertexView v with
          props := some (mergeCrdtProperties ((b.vertexView v).props.getD ∅) properties) }
      else b.vertexView v := by
  rw [writeProperties_eq]
  by_cases hv : v = vid
  · subst hv
    simp [vertexView]
  · simp [vertexView, hv]

variable (labels : List String)

/-- What a vertex write comes to, however its caller orders the other maps. -/
theorem vertexView_writeVertex (version : Nat) (created updated : Option Int) (v : Vid) :
    ((((b.clearTombstone vid).writeProperties vid properties).stampVertex vid version created
        updated).appendLabels vid labels).vertexView v =
      if v = vid then (b.vertexView v).write properties labels created updated
      else b.vertexView v := by
  rw [vertexView_appendLabels, vertexView_stampVertex, vertexView_writeProperties,
    vertexView_clearTombstone]
  by_cases hv : v = vid
  · simp only [if_pos hv, VertexView.write]
  · simp only [if_neg hv]

theorem vertexView_insertVertexWithLabelsImpl (now : Int) (v : Vid) :
    (b.insertVertexWithLabelsImpl vid properties labels now).vertexView v =
      if v = vid then (b.vertexView v).write properties labels (some now) (some now)
      else b.vertexView v :=
  vertexView_writeVertex b.bumpVersion vid properties labels (b.currentVersion + 1) (some now)
    (some now) v

theorem vertexView_replayInsertVertex (createdAt updatedAt : Option Int) (v : Vid) :
    (b.replayInsertVertex vid properties labels createdAt updatedAt).vertexView v =
      if v = vid then (b.vertexView v).write properties labels createdAt updatedAt
      else b.vertexView v :=
  vertexView_writeVertex b.bumpVersion vid properties labels (b.currentVersion + 1) createdAt
    updatedAt v

theorem vertexView_buryVertex (version : Nat) (v : Vid) : (b.buryVertex vid version).vertexView v =
      if v = vid then (b.vertexView v).delete else b.vertexView v := by
  simp only [buryVertex, removeVidFromLabelIndex_eq]
  rw [dropExtid_eq]
  by_cases hv : v = vid
  · subst hv
    rw [if_pos rfl]
    ext1
    · simp [vertexView, VertexView.delete, retireVertexKeys]
    · simp [vertexView, VertexView.delete, retireVertexKeys]
    · rfl
    · funext l
      simp [vertexView, VertexView.delete, retireVertexKeys, mem_unindexVid, VertexView.labelList,
        labelsOf]
    · rfl
    · rfl
  · rw [if_neg hv]
    ext1
    · simp [vertexView, retireVertexKeys, hv]
    · simp [vertexView, retireVertexKeys, hv]
    · rfl
    · funext l
      simp [vertexView, retireVertexKeys, mem_unindexVid, hv]
    · rfl
    · rfl

/-- A deletion buries the vertex with all that the cascade leaves alone as it was. -/
theorem applyVertexDeletion_bury {γ : Type} (g : L0Buffer V → γ)
    (h : ∀ version acc eid, g (cascadeEdge version acc eid).1 = g acc.1) :
    ∃ c, (b.applyVertexDeletion vid).1 = c.buryVertex vid b.currentVersion ∧ g c = g b :=
  ⟨_, rfl, foldl_eq_of_forall (fun acc => g acc.1) (h b.currentVersion) (b.edgesToRemove vid)
    (b, [])⟩

theorem vertexView_applyVertexDeletion (vid v : Vid) : (b.applyVertexDeletion vid).1.vertexView v =
      if v = vid then (b.vertexView v).delete else b.vertexView v := by
  obtain ⟨c, hbury, hc⟩ := applyVertexDeletion_bury b vid vertexView vertexView_cascadeEdge
  rw [hbury, vertexView_buryVertex, hc]

theorem vertexView_deleteVertexImpl (vid v : Vid) : (b.deleteVertexImpl vid).1.vertexView v =
      if v = vid then (b.vertexView v).delete else b.vertexView v :=
  vertexView_applyVertexDeletion b.bumpVersion vid v

theorem vertexView_replayDeleteVertex (v : Vid) : (b.replayDeleteVertex vid labels).vertexView v =
      if v = vid then
        (if labels = [] then b.vertexView v else (b.vertexView v).append labels).delete
      else b.vertexView v := by
  unfold replayDeleteVertex
  rw [vertexView_applyVertexDeletion]
  cases labels with
  | nil => rfl
  | cons =>
    simp only [List.isEmpty_cons, reduceCtorEq, if_false, Bool.false_eq_true]
    rw [vertexView_appendLabels]
    by_cases hv : v = vid
    · simp [if_pos hv]
    · simp [if_neg hv]

end

variable {b b' : L0Buffer V} {edgeType : Nat} {properties : Properties V} {src dst : Vid}
  {eid : Eid}

theorem applyEdgeInsertion_vertexView
    (h : b.applyEdgeInsertion src dst edgeType eid properties = .ok b') :
    b'.vertexView = b.vertexView := by
  unfold applyEdgeInsertion at h
  by_cases hs : src ∈ b.vertexTombstones
  · simp [hs] at h
  by_cases hd : dst ∈ b.vertexTombstones
  · simp [hs, hd] at h
  rw [if_neg hs, if_neg hd, Except.ok.injEq] at h
  rw [← h]
  rfl

/-- An edge insertion that succeeds found both endpoints live. -/
theorem insertEdgeImpl_ok {name : Option String} {now : Int}
    (h : b.insertEdgeImpl src dst edgeType eid properties name now = .ok b') :
    src ∉ b.vertexTombstones ∧ dst ∉ b.vertexTombstones ∧
      b' = ((b.bumpVersion.storeEdge src dst edgeType eid properties).recordEdgeType eid
        name).stampEdge eid (some now) (some now) := by
  unfold insertEdgeImpl applyEdgeInsertion at h
  by_cases hs : src ∈ b.bumpVersion.vertexTombstones
  · rw [if_pos hs] at h
    exact absurd h (by simp [bind, Except.bind])
  by_cases hd : dst ∈ b.bumpVersion.vertexTombstones
  · rw [if_neg hs, if_pos hd] at h
    exact absurd h (by simp [bind, Except.bind])
  rw [if_neg hs, if_neg hd] at h
  refine ⟨hs, hd, ?_⟩
  exact (Except.ok.inj h).symm

theorem insertEdgeImpl_vertexView {name : Option String} {now : Int}
    (h : b.insertEdgeImpl src dst edgeType eid properties name now = .ok b') :
    b'.vertexView = b.vertexView := by
  rcases insertEdgeImpl_ok h with ⟨-, -, rfl⟩
  rw [vertexView_stampEdge, vertexView_recordEdgeType]
  rfl

theorem vertexView_replayInsertEdge (b : L0Buffer V) (src dst : Vid) (edgeType : Nat) (eid : Eid)
    (properties : Properties V) (name : Option String) (createdAt updatedAt : Option Int) :
    (b.replayInsertEdge src dst edgeType eid properties name createdAt updatedAt).vertexView =
      b.vertexView := by
  unfold replayInsertEdge
  cases hins : b.bumpVersion.applyEdgeInsertion src dst edgeType eid properties with
  | error => simp [hins]
  | ok =>
    simp only [hins]
    rw [vertexView_stampEdge, vertexView_recordEdgeType, applyEdgeInsertion_vertexView hins,
      vertexView_bumpVersion]

end Writes

end L0Buffer

/-- The edge maps of a buffer, but for the times. -/
@[ext] structure EdgeSide (V : Type) where
  topology : Topology
  tombstones : AssocMap Eid TombstoneEntry
  endpoints : AssocMap Eid (Vid × Vid × Nat)
  properties : AssocMap Eid (Properties V)
  types : AssocMap Eid String

namespace EdgeSide

variable {V : Type} (s : EdgeSide V)

/-- Tombstone an edge of a vertex that is being deleted. -/
def cascade (eid : Eid) : EdgeSide V :=
  match s.endpoints.lookup eid with
  | none => s
  | some (src, dst, etype) =>
    { s with
      topology := s.topology.removeEdge eid
      tombstones := s.tombstones.insert eid ⟨eid, src, dst, etype⟩
      endpoints := s.endpoints.erase eid
      properties := s.properties.erase eid }

/-- Tombstone the edges at a vertex and take the vertex out of the topology. -/
def deleteVertex (vid : Vid) : EdgeSide V :=
  let eids := ((s.topology.neighbors vid .outgoing).map EdgeEntry.eid ++
    (s.topology.neighbors vid .incoming).map EdgeEntry.eid).dedup
  let s := eids.foldl cascade s
  { s with topology := s.topology.removeVertexEdges vid }

def delete (eid : Eid) (src dst : Vid) (edgeType : Nat) : EdgeSide V :=
  { s with
    topology := s.topology.removeEdge eid
    tombstones := s.tombstones.insert eid ⟨eid, src, dst, edgeType⟩ }

def store [PropertyValue V] (s : EdgeSide V) (src dst : Vid) (edgeType : Nat) (eid : Eid)
    (properties : Properties V) : EdgeSide V :=
  { s with
    topology := s.topology.addEdgeUnchecked src dst eid edgeType
    tombstones := s.tombstones.erase eid
    endpoints := s.endpoints.insert eid (src, dst, edgeType)
    properties :=
      if properties.entries.isEmpty then s.properties
      else s.properties.insert eid
        (mergeCrdtProperties ((s.properties.lookup eid).getD ∅) properties) }

def recordType (eid : Eid) (name : Option String) : EdgeSide V :=
  { s with types := s.types.insertSome eid name }

end EdgeSide

/-- When a vertex or an edge was created and last updated. -/
@[ext] structure Times where
  created : Option Int
  updated : Option Int

/-- Stamp times, keeping an earlier creation time. -/
def Times.stamp (created updated : Option Int) (t : Times) : Times :=
  ⟨t.created.or created, updated.or t.updated⟩

namespace L0Buffer

variable {V : Type}

def edgeSide (b : L0Buffer V) : EdgeSide V :=
  ⟨b.graph.toTopology, b.tombstones, b.edgeEndpoints, b.edgeProperties, b.edgeTypes⟩

def edgeTimes (b : L0Buffer V) (e : Eid) : Times :=
  ⟨b.edgeCreatedAt.lookup e, b.edgeUpdatedAt.lookup e⟩

/-- An update that leaves the edges alone. -/
structure SameEdges (b c : L0Buffer V) : Prop where
  side : c.edgeSide = b.edgeSide
  times : c.edgeTimes = b.edgeTimes

theorem SameEdges.foldl {β : Type} {op : L0Buffer V → β → L0Buffer V}
    (h : ∀ b x, SameEdges b (op b x)) (xs : List β) (b : L0Buffer V) :
    SameEdges b (xs.foldl op b) where
  side := foldl_eq_of_forall edgeSide (fun b x => (h b x).side) xs b
  times := foldl_eq_of_forall edgeTimes (fun b x => (h b x).times) xs b

variable (b : L0Buffer V) (vid : Vid)

theorem sameEdges_replaceLabels (labels : List String) :
    SameEdges b (((b.removeVidFromLabelIndex vid).putLabels vid labels).indexLabelsForVid vid
      labels) := by
  rw [removeVidFromLabelIndex_eq]
  exact ⟨rfl, rfl⟩

theorem edges_cascadeEdge (version : Nat) (acc : L0Buffer V × List TombstoneEntry) (eid : Eid) :
    (cascadeEdge version acc eid).1.edgeSide = acc.1.edgeSide.cascade eid ∧
      (cascadeEdge version acc eid).1.edgeTimes = acc.1.edgeTimes := by
  unfold cascadeEdge EdgeSide.cascade
  cases h : acc.1.edgeEndpoints.lookup eid with
  | none => simp [edgeSide, h]
  | some =>
    simp only [edgeSide, h]
    exact ⟨rfl, rfl⟩

variable (eid : Eid) (src dst : Vid) (edgeType : Nat) (now : Int)

theorem edgeTimes_deleteEdgeImpl (e : Eid) :
    (b.deleteEdgeImpl eid src dst edgeType now).edgeTimes e =
      if e = eid then { b.edgeTimes e with updated := some now } else b.edgeTimes e := by
  by_cases he : e = eid <;>
    simp [edgeTimes, deleteEdgeImpl, applyEdgeDeletion, retireEdgeConstraintKeys, bumpVersion, he]

theorem edgeSide_recordEdgeType (name : Option String) :
    (b.recordEdgeType eid name).edgeSide = b.edgeSide.recordType eid name := by
  cases name <;> rfl

theorem edgeTimes_recordEdgeType (name : Option String) :
    (b.recordEdgeType eid name).edgeTimes = b.edgeTimes := by
  cases name <;> rfl

theorem edgeTimes_stampEdge (created updated : Option Int) (e : Eid) :
    (b.stampEdge eid created updated).edgeTimes e =
      if e = eid then (b.edgeTimes e).stamp created updated else b.edgeTimes e := by
  by_cases he : e = eid <;>
    simp [edgeTimes, stampEdge, Times.stamp, lookup_orInsertSome, lookup_insertSome, he]

section Writes

variable [PropertyValue V] (properties : Properties V) (labels : List String)

theorem sameEdges_insertVertexWithLabelsImpl (now : Int) :
    SameEdges b (b.insertVertexWithLabelsImpl vid properties labels now) := by
  simp only [insertVertexWithLabelsImpl, applyVertexWrite]
  rw [writeProperties_eq]
  exact ⟨rfl, rfl⟩

theorem sameEdges_replayInsertVertex (createdAt updatedAt : Option Int) :
    SameEdges b (b.replayInsertVertex vid properties labels createdAt updatedAt) := by
  simp only [replayInsertVertex]
  rw [writeProperties_eq]
  exact ⟨rfl, rfl⟩

theorem edges_buryVertex (version : Nat) : (b.buryVertex vid version).edgeSide =
      { b.edgeSide with topology := b.edgeSide.topology.removeVertexEdges vid } ∧
      (b.buryVertex vid version).edgeTimes = b.edgeTimes := by
  simp only [buryVertex, removeVidFromLabelIndex_eq]
  rw [dropExtid_eq]
  exact ⟨rfl, rfl⟩

theorem edges_applyVertexDeletion :
    (b.applyVertexDeletion vid).1.edgeSide = b.edgeSide.deleteVertex vid ∧
      (b.applyVertexDeletion vid).1.edgeTimes = b.edgeTimes := by
  have hcascade := edges_cascadeEdge (V := V) b.currentVersion
  have hside := foldl_comm_of_forall (fun acc => acc.1.edgeSide)
    (fun acc eid => (hcascade acc eid).1) (b.edgesToRemove vid) (b, [])
  have htimes := foldl_eq_of_forall (fun acc => acc.1.edgeTimes)
    (fun acc eid => (hcascade acc eid).2) (b.edgesToRemove vid) (b, [])
  unfold applyVertexDeletion
  rw [(edges_buryVertex _ vid _).1, (edges_buryVertex _ vid _).2, hside, htimes]
  exact ⟨rfl, rfl⟩

theorem edges_replayDeleteVertex (labels : List String) :
    (b.replayDeleteVertex vid labels).edgeSide = b.edgeSide.deleteVertex vid ∧
      (b.replayDeleteVertex vid labels).edgeTimes = b.edgeTimes := by
  unfold replayDeleteVertex
  rw [(edges_applyVertexDeletion _ vid).1, (edges_applyVertexDeletion _ vid).2]
  cases labels <;> exact ⟨rfl, rfl⟩

variable (src dst : Vid) (edgeType : Nat) (eid : Eid) (properties : Properties V)

theorem edgeSide_storeEdge : (b.storeEdge src dst edgeType eid properties).edgeSide =
      b.edgeSide.store src dst edgeType eid properties := by
  -- adding the vertices first does not change the topology
  have hgraph : ∀ g : SimpleGraph, ∀ v, (if g.containsVertex v then g else g.addVertex v).toTopology
      = g.toTopology := by
    intro g v
    by_cases h : g.containsVertex v = true
    · rw [if_pos h]
    · rw [if_neg h]
      rfl
  simp [storeEdge, edgeSide, EdgeSide.store, hgraph]

theorem edgeTimes_storeEdge : (b.storeEdge src dst edgeType eid properties).edgeTimes =
      b.edgeTimes := rfl

end Writes

end L0Buffer

end UniDb
