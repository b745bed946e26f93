import UniDb.Runtime.MergeView
import UniDb.Runtime.Transaction

/-!
# Replay Refines the Merge

Recovery rebuilds what the live commit made visible.

The records of a commit insert vertices before they delete vertices, and the
live merge does it the other way round. The two agree because a transaction's
buffer never both writes and tombstones a vertex, so the two loops work on
different vertices, and a vertex write leaves the edges alone, so the cascades
of the deletions meet the same edges in either order. The merge also adopts
labels of vertices that it neither wrote nor deleted; in a transaction's buffer
every such vertex was relabelled, and the relabel comes last on both sides.

The two sides do not agree on everything. The labels of a deleted vertex and
the versions of the writes may differ, and so may the times, since the merge
reads the clock where the replay restores what the transaction stamped.

## Main definitions

* `VertexView.replayed`: What a replay does to one vertex.
* `SameVisible`: Two buffers show the same to a reader.

## Theorems

* `replay_spec`: The outcome of a replay.
* `replayed_merged`: A replay and a merge do the same to a live vertex.
* `replay_refines_mergeTake`: A replay refines the merge.
-/

namespace UniDb

open VertexView AssocMap L0Buffer

variable {V : Type} [PropertyValue V]

/-- What a replay of a commit's records does to one vertex. -/
def VertexView.replayed (tx : L0Buffer V) (v : Vid) (w : VertexView V) : VertexView V :=
  let w := (tx.vertexProperties.lookup v).elim w fun p =>
    w.write p (tx.labelsOf v) (tx.vertexCreatedAt.lookup v) (tx.vertexUpdatedAt.lookup v)
  let w :=
    if v ∈ tx.vertexTombstones then
      (if tx.labelsOf v = [] then w else w.append (tx.labelsOf v)).delete
    else w
  if v ∈ tx.vertexLabelOverwrites ∧ v ∉ tx.vertexTombstones then w.setLabels (tx.labelsOf v) else w

omit [PropertyValue V] in
/-- What a replay of a commit's records does to the times of one edge. -/
def Times.replayed (tx : L0Buffer V) (e : Eid) (t : Times) : Times :=
  if e ∈ tx.edgeEndpoints ∧ e ∉ tx.tombstones then
    t.stamp (tx.edgeCreatedAt.lookup e) (tx.edgeUpdatedAt.lookup e)
  else t

theorem replayMutations_append (b : L0Buffer V) (ms ns : List (Mutation V)) :
    b.replayMutations (ms ++ ns) = (b.replayMutations ms).replayMutations ns :=
  List.foldl_append

/-- A replay of records made from a list is a loop over that list. -/
theorem replayMutations_map {β : Type} (f : β → Mutation V) (xs : List β) (b : L0Buffer V) :
    b.replayMutations (xs.map f) = xs.foldl (fun b x => b.replayMutation (f x)) b :=
  List.foldl_map

section Inserts

variable (tx : L0Buffer V)

/-- The written vertices, none of which the transaction tombstoned. -/
theorem vertexView_replayInserts (hlive : ∀ v ∈ tx.vertexProperties, v ∉ tx.vertexTombstones)
    (b : L0Buffer V) (v : Vid) : (b.replayMutations ((tx.vertexProperties.toList.filter
        fun e => e.1 ∉ tx.vertexTombstones).map tx.insertVertexRecord)).vertexView v =
      (tx.vertexProperties.lookup v).elim (b.vertexView v) fun p =>
        (b.vertexView v).write p (tx.labelsOf v) (tx.vertexCreatedAt.lookup v)
          (tx.vertexUpdatedAt.lookup v) := by
  have hall : tx.vertexProperties.toList.filter (fun e => e.1 ∉ tx.vertexTombstones) =
      tx.vertexProperties.toList := by
    rw [List.filter_eq_self]
    intro e he
    have hmem := mem_of_lookup (mem_toList.mp he)
    exact decide_eq_true (hlive e.1 hmem)
  have hacts : ActsAt vertexView Prod.fst
      (fun (b : L0Buffer V) e => b.replayMutation (tx.insertVertexRecord e))
      (fun e w => w.write e.2 (tx.labelsOf e.1) (tx.vertexCreatedAt.lookup e.1)
        (tx.vertexUpdatedAt.lookup e.1)) := by
    intro b e v
    exact vertexView_replayInsertVertex ..
  rw [hall, replayMutations_map]
  exact hacts.foldl_toList tx.vertexProperties b v

theorem sameEdges_replayInserts (xs : List (Vid × Properties V)) (b : L0Buffer V) :
    SameEdges b (b.replayMutations (xs.map tx.insertVertexRecord)) := by
  rw [replayMutations_map]
  refine SameEdges.foldl ?_ xs b
  intro c e
  exact sameEdges_replayInsertVertex c _ _ _ _ _

end Inserts

section Vertices

variable (tx : L0Buffer V) (b : L0Buffer V)

theorem vertexView_replayDeletes (v : Vid) : (b.replayMutations (tx.vertexTombstones.keys.map
        fun vid => .deleteVertex vid (tx.labelsOf vid))).vertexView v =
      if v ∈ tx.vertexTombstones then
        (if tx.labelsOf v = [] then b.vertexView v
          else (b.vertexView v).append (tx.labelsOf v)).delete
      else b.vertexView v := by
  have hacts : ActsAt vertexView id
      (fun (b : L0Buffer V) vid => b.replayMutation (.deleteVertex vid (tx.labelsOf vid)))
      (fun vid w =>
        (if tx.labelsOf vid = [] then w else w.append (tx.labelsOf vid)).delete) := by
    intro c vid a
    simp only [replayMutation, vertexView_replayDeleteVertex, id]
  rw [replayMutations_map]
  exact hacts.foldl_keys tx.vertexTombstones b v

theorem edges_replayDeletes {c : L0Buffer V} (hc : b.replayMutations (tx.vertexTombstones.keys.map
      fun vid => .deleteVertex vid (tx.labelsOf vid)) = c) :
    c.edgeSide = tx.vertexTombstones.keys.foldl EdgeSide.deleteVertex b.edgeSide ∧
      c.edgeTimes = b.edgeTimes := by
  rw [← hc, replayMutations_map]
  exact ⟨foldl_comm_of_forall edgeSide (fun c vid => (edges_replayDeleteVertex c vid _).1) _ b,
    foldl_eq_of_forall edgeTimes (fun c vid => (edges_replayDeleteVertex c vid _).2) _ b⟩

/-- The relabelled vertices that are not deleted as well. -/
theorem vertexView_replayRelabels (v : Vid) :
    (b.replayMutations ((tx.vertexLabelOverwrites.keys.filter
        fun vid => vid ∉ tx.vertexTombstones).map
          fun vid => .setVertexLabels vid (tx.labelsOf vid))).vertexView v =
      if v ∈ tx.vertexLabelOverwrites ∧ v ∉ tx.vertexTombstones then
        (b.vertexView v).setLabels (tx.labelsOf v) else b.vertexView v := by
  have hacts : ActsAt vertexView id
      (fun (b : L0Buffer V) vid => if decide (vid ∉ tx.vertexTombstones) = true then
        b.replayMutation (.setVertexLabels vid (tx.labelsOf vid)) else b)
      (fun vid w => if vid ∉ tx.vertexTombstones then w.setLabels (tx.labelsOf vid) else w) := by
    intro c vid a
    by_cases ht : vid ∈ tx.vertexTombstones
    · simp [ht]
    · simp [ht, replayMutation, vertexView_replaySetVertexLabels]
  rw [replayMutations_map, List.foldl_filter, hacts.foldl_keys tx.vertexLabelOverwrites b v]
  by_cases ho : v ∈ tx.vertexLabelOverwrites <;> simp [ho]

theorem sameEdges_replayRelabels (vids : List Vid) (b : L0Buffer V) :
    SameEdges b (b.replayMutations (vids.map
      fun vid => .setVertexLabels vid (tx.labelsOf vid))) := by
  rw [replayMutations_map]
  refine SameEdges.foldl ?_ vids b
  intro c vid
  exact ⟨(sameEdges_replaceLabels _ vid (tx.labelsOf vid)).side,
    (sameEdges_replaceLabels _ vid (tx.labelsOf vid)).times⟩

end Vertices

section Edges

variable (tx : L0Buffer V) (schemaTypeName : Nat → Option String) {b : L0Buffer V}

theorem replayInsertEdge_of_live {src dst : Vid}
    (hs : ¬ (b.vertexView src).dead) (hd : ¬ (b.vertexView dst).dead) (edgeType : Nat) (eid : Eid)
    (properties : Properties V) (name : Option String) (createdAt updatedAt : Option Int) :
    b.replayInsertEdge src dst edgeType eid properties name createdAt updatedAt =
      ((b.bumpVersion.storeEdge src dst edgeType eid properties).recordEdgeType eid
        name).stampEdge eid createdAt updatedAt := by
  have hs' : src ∉ b.bumpVersion.vertexTombstones := hs
  have hd' : dst ∉ b.bumpVersion.vertexTombstones := hd
  have hins : b.bumpVersion.applyEdgeInsertion src dst edgeType eid properties =
      .ok (b.bumpVersion.storeEdge src dst edgeType eid properties) := by
    unfold applyEdgeInsertion
    rw [if_neg hs', if_neg hd']
  simp only [replayInsertEdge, hins]

theorem replayEdgeRecord_spec {e : Eid × Vid × Vid × Nat} (hlive : e.1 ∉ tx.tombstones →
      ¬ (b.vertexView e.2.1).dead ∧ ¬ (b.vertexView e.2.2.1).dead) :
    (b.replayMutation (tx.edgeRecord schemaTypeName e)).vertexView = b.vertexView ∧
      (b.replayMutation (tx.edgeRecord schemaTypeName e)).edgeSide =
        b.edgeSide.mergeEdge tx tx.edgeProperties e ∧
      ∀ a, (b.replayMutation (tx.edgeRecord schemaTypeName e)).edgeTimes a =
        if a = e.1 ∧ e.1 ∉ tx.tombstones then
          (b.edgeTimes a).stamp (tx.edgeCreatedAt.lookup e.1) (tx.edgeUpdatedAt.lookup e.1)
        else b.edgeTimes a := by
  unfold edgeRecord EdgeSide.mergeEdge
  by_cases htomb : e.1 ∈ tx.tombstones
  · simp only [if_pos htomb, deleteEdgeRecord, replayMutation]
    refine ⟨?_, rfl, ?_⟩
    · exact vertexView_bumpVersion ..
    · intro a
      rw [if_neg (fun h => h.2 htomb)]
      rfl
  · rcases hlive htomb with ⟨hs, hd⟩
    simp only [if_neg htomb, replayMutation]
    rw [replayInsertEdge_of_live hs hd]
    refine ⟨?_, ?_, ?_⟩
    · rw [vertexView_stampEdge, vertexView_recordEdgeType]
      rfl
    · show (L0Buffer.recordEdgeType _ _ _).edgeSide = _
      rw [edgeSide_recordEdgeType, edgeSide_storeEdge]
      rfl
    · intro a
      rw [edgeTimes_stampEdge, edgeTimes_recordEdgeType, edgeTimes_storeEdge]
      by_cases ha : a = e.1
      · rw [if_pos ha, if_pos ⟨ha, htomb⟩]
        rfl
      · rw [if_neg ha, if_neg (fun h => ha h.1)]
        rfl

/-- One round of that loop, on the times of all edges. -/
def Times.replayRound (t : Eid → Times) (e : Eid × Vid × Vid × Nat) (a : Eid) :
    Times :=
  if a = e.1 ∧ e.1 ∉ tx.tombstones then
    (t a).stamp (tx.edgeCreatedAt.lookup e.1) (tx.edgeUpdatedAt.lookup e.1)
  else t a

/-- The edge records, replayed where every endpoint is live. -/
theorem replayEdges_spec
    (hlive : ∀ eid src dst etype, tx.edgeEndpoints.lookup eid = some (src, dst, etype) →
      eid ∉ tx.tombstones → ¬ (b.vertexView src).dead ∧ ¬ (b.vertexView dst).dead) :
    (b.replayMutations (tx.edgeEndpoints.toList.map (tx.edgeRecord schemaTypeName))).vertexView =
        b.vertexView ∧
      (b.replayMutations (tx.edgeEndpoints.toList.map (tx.edgeRecord schemaTypeName))).edgeSide =
        tx.edgeEndpoints.toList.foldl (EdgeSide.mergeEdge tx tx.edgeProperties) b.edgeSide ∧
      ∀ a, (b.replayMutations
          (tx.edgeEndpoints.toList.map (tx.edgeRecord schemaTypeName))).edgeTimes a =
        (b.edgeTimes a).replayed tx a := by
  rw [replayMutations_map]
  -- no round changes a vertex, so the endpoints stay live for the later rounds
  have hround : ∀ (c : L0Buffer V) e, e ∈ tx.edgeEndpoints.toList → c.vertexView = b.vertexView →
      (c.replayMutation (tx.edgeRecord schemaTypeName e)).vertexView = b.vertexView ∧
        (c.replayMutation (tx.edgeRecord schemaTypeName e)).edgeSide =
          c.edgeSide.mergeEdge tx tx.edgeProperties e ∧
        (c.replayMutation (tx.edgeRecord schemaTypeName e)).edgeTimes =
          Times.replayRound tx c.edgeTimes e := by
    intro c e he hc
    have hl := mem_toList.mp he
    have hlive' : e.1 ∉ tx.tombstones →
        ¬ (c.vertexView e.2.1).dead ∧ ¬ (c.vertexView e.2.2.1).dead := by
      intro htomb
      rw [hc]
      exact hlive e.1 e.2.1 e.2.2.1 e.2.2.2 hl htomb
    rcases replayEdgeRecord_spec tx schemaTypeName hlive' with ⟨hv, hs, ht⟩
    exact ⟨hv.trans hc, hs, funext ht⟩
  have hside := foldl_comm_of_invariant (fun c => c.vertexView = b.vertexView) edgeSide
    (fun c e he hc => ⟨(hround c e he hc).1, (hround c e he hc).2.1⟩) (rfl : b.vertexView = _)
  have htimes := foldl_comm_of_invariant (fun c => c.vertexView = b.vertexView) edgeTimes
    (fun c e he hc => ⟨(hround c e he hc).1, (hround c e he hc).2.2⟩) (rfl : b.vertexView = _)
  refine ⟨hside.1, hside.2, ?_⟩
  intro a
  have hacts : ActsAt (fun (t : Eid → Times) a => t a) Prod.fst (Times.replayRound tx)
      (fun e t => if e.1 ∉ tx.tombstones then
        t.stamp (tx.edgeCreatedAt.lookup e.1) (tx.edgeUpdatedAt.lookup e.1) else t) := by
    intro t e a
    unfold Times.replayRound
    by_cases ha : a = e.1 <;> simp [ha]
  rw [htimes.2, hacts.foldl_toList tx.edgeEndpoints b.edgeTimes a]
  unfold Times.replayed
  cases hl : tx.edgeEndpoints.lookup a with
  | none =>
    have hnot : a ∉ tx.edgeEndpoints := notMem_iff_lookup.mpr hl
    simp [hnot]
  | some =>
    have hmem : a ∈ tx.edgeEndpoints := mem_of_lookup hl
    simp [hmem]

theorem replayEdgeDeletes_spec (b : L0Buffer V) :
    let records := (tx.tombstones.toList.filter fun e => e.1 ∉ tx.edgeEndpoints).map
      fun e => tx.deleteEdgeRecord schemaTypeName e.1 e.2.srcVid e.2.dstVid e.2.edgeType
    (b.replayMutations records).vertexView = b.vertexView ∧
      (b.replayMutations records).edgeSide =
        tx.tombstones.toList.foldl (EdgeSide.mergeTombstone tx) b.edgeSide ∧
      (b.replayMutations records).edgeTimes = b.edgeTimes := by
  intro records
  have hloop : b.replayMutations records = _ := replayMutations_map _ _ b
  rw [hloop]
  refine ⟨?_, ?_, ?_⟩
  · refine foldl_eq_of_forall vertexView ?_ _ b
    intro c e
    simp only [deleteEdgeRecord, replayMutation]
    exact vertexView_bumpVersion ..
  · rw [List.foldl_filter]
    refine foldl_comm_of_forall edgeSide ?_ _ b
    intro c e
    unfold EdgeSide.mergeTombstone
    by_cases h : e.1 ∈ tx.edgeEndpoints
    · simp [h]
    · simp only [h, not_false_eq_true, decide_true, if_true, if_false]
      rfl
  · refine foldl_eq_of_forall edgeTimes ?_ _ b
    intro c e
    rfl

end Edges

theorem replayed_dead_iff {tx : L0Buffer V} (htx : TxInvariant tx) (v : Vid) (w : VertexView V) :
    (w.replayed tx v).dead ↔ (w.dead ∨ v ∈ tx.vertexTombstones) ∧ v ∉ tx.vertexProperties := by
  rw [notMem_iff_lookup]
  unfold VertexView.replayed
  cases hp : tx.vertexProperties.lookup v with
  | some =>
    have ht : v ∉ tx.vertexTombstones := htx.live v (by simp [vertexView, hp])
    by_cases ho : v ∈ tx.vertexLabelOverwrites <;>
      simp [ht, ho, VertexView.write, VertexView.append, setLabels]
  | none =>
    by_cases ht : v ∈ tx.vertexTombstones
    · simp [ht, VertexView.delete]
    · by_cases ho : v ∈ tx.vertexLabelOverwrites <;> simp [ht, ho, setLabels]

theorem replay_spec {m : L0Buffer V} (t : TxBuffer V) (schemaTypeName : Nat → Option String)
    (hvalid : m.validateMergeEdgeEndpoints t.buffer = .ok ()) :
    let r := m.replayMutations (t.buffer.walRecords schemaTypeName)
    (∀ v, r.vertexView v = (m.vertexView v).replayed t.buffer v) ∧
      r.edgeSide = m.edgeSide.merged t.buffer t.buffer.edgeProperties ∧
      ∀ e, r.edgeTimes e = (m.edgeTimes e).replayed t.buffer e := by
  intro r
  have hlive : ∀ v ∈ t.buffer.vertexProperties, v ∉ t.buffer.vertexTombstones := by
    intro v hv
    refine t.shape.live v ?_
    rw [Option.isSome_iff_exists]
    exact mem_iff_lookup.mp hv
  have hr : r = m.replayMutations (t.buffer.walRecords schemaTypeName) := rfl
  clear_value r
  unfold walRecords at hr
  simp only [replayMutations_append] at hr
  generalize hb : L0Buffer.replayMutations m _ = b₁ at hr
  generalize hc : L0Buffer.replayMutations b₁ _ = b₂ at hr
  generalize hd : L0Buffer.replayMutations b₂ _ = b₃ at hr
  generalize he : L0Buffer.replayMutations b₃ _ = b₄ at hr
  -- the vertices
  have hview : ∀ v, b₃.vertexView v = (m.vertexView v).replayed t.buffer v := by
    intro v
    unfold VertexView.replayed
    rw [← hd, vertexView_replayRelabels, ← hc, vertexView_replayDeletes, ← hb,
      vertexView_replayInserts t.buffer hlive]
  have hside : b₃.edgeSide = t.buffer.vertexTombstones.keys.foldl EdgeSide.deleteVertex
      m.edgeSide := by
    rw [← hd, (sameEdges_replayRelabels t.buffer _ b₂).side, (edges_replayDeletes _ _ hc).1, ← hb,
      (sameEdges_replayInserts t.buffer _ m).side]
  have htimes : b₃.edgeTimes = m.edgeTimes := by
    rw [← hd, (sameEdges_replayRelabels t.buffer _ b₂).times, (edges_replayDeletes _ _ hc).2, ← hb,
      (sameEdges_replayInserts t.buffer _ m).times]
  -- the edges, whose endpoints the check found live
  have hcheck := (validateMergeEdgeEndpoints_ok_iff m t.buffer).mp hvalid
  have hends : ∀ eid src dst etype,
      t.buffer.edgeEndpoints.lookup eid = some (src, dst, etype) → eid ∉ t.buffer.tombstones →
        ¬ (b₃.vertexView src).dead ∧ ¬ (b₃.vertexView dst).dead := by
    intro eid src dst etype hl htomb
    have hdead : ∀ v, m.deletedAfterMerge t.buffer v = false → ¬ (b₃.vertexView v).dead := by
      intro v hv hdead
      rw [hview, replayed_dead_iff t.shape] at hdead
      rw [(deletedAfterMerge_iff m t.buffer v).mpr hdead] at hv
      exact absurd hv (by simp)
    rcases hcheck eid src dst etype hl htomb with ⟨hs, hd⟩
    exact ⟨hdead src hs, hdead dst hd⟩
  rcases replayEdges_spec t.buffer schemaTypeName hends with ⟨hv₄, hs₄, ht₄⟩
  rw [he] at hv₄ hs₄ ht₄
  rcases replayEdgeDeletes_spec t.buffer schemaTypeName b₄ with ⟨hv₅, hs₅, ht₅⟩
  rw [← hr] at hv₅ hs₅ ht₅
  refine ⟨?_, ?_, ?_⟩
  · intro v
    rw [hv₅, hv₄, hview]
  · rw [hs₅, hs₄, hside]
    rfl
  · intro e
    rw [ht₅, ht₄, htimes]

/-- A replay and a merge do the same to a vertex, as far as a reader can see. -/
theorem replayed_merged {tx : L0Buffer V} (htx : TxInvariant tx) (now : Int) (v : Vid)
    (w : VertexView V) :
    let x := w.replayed tx v
    let y := w.merged tx (tx.vertexProperties.lookup v) now v
    (x.dead ↔ y.dead) ∧ x.props = y.props ∧ (¬ x.dead → x.labels = y.labels) := by
  intro x y
  have hdead : x.dead ↔ y.dead := by
    rw [replayed_dead_iff htx, merged_dead_iff, notMem_iff_lookup]
  refine ⟨hdead, ?_⟩
  rw [replayed_dead_iff htx, notMem_iff_lookup]
  unfold x y VertexView.replayed VertexView.merged
  cases hp : tx.vertexProperties.lookup v with
  | some =>
    -- a written vertex is not tombstoned, and after the write it has labels,
    -- so the merge adopts none
    have ht : v ∉ tx.vertexTombstones := htx.live v (by simp [vertexView, hp])
    cases hl : tx.vertexLabels.lookup v with
    | none =>
      by_cases ho : v ∈ tx.vertexLabelOverwrites <;>
        simp [ht, ho, VertexView.write, VertexView.append, setLabels, labelList]
    | some =>
      by_cases ho : v ∈ tx.vertexLabelOverwrites <;>
        simp [ht, ho, adopt_of_labels, VertexView.write, VertexView.append, setLabels, labelList]
  | none =>
    cases hl : tx.vertexLabels.lookup v with
    | none =>
      by_cases ht : v ∈ tx.vertexTombstones
      · by_cases hls : tx.labelsOf v = [] <;>
          simp [ht, hls, VertexView.delete, VertexView.append]
      · simp [ht]
    | some =>
      by_cases ht : v ∈ tx.vertexTombstones
      · by_cases hls : tx.labelsOf v = [] <;>
          simp [ht, hls, VertexView.delete, VertexView.append]
      · -- labels without a write or a deletion are those of a relabel
        have ho : v ∈ tx.vertexLabelOverwrites := by
          rcases htx.labelled v (by simp [vertexView, hl]) with h | h | h
          · simp [vertexView, hp] at h
          · exact absurd h ht
          · exact h
        simp [ht, ho, setLabels]

/-- Two buffers show the same to a reader: properties and tombstones of vertices, labels of live
    vertices, and the edges with their topology, properties, types and tombstones. -/
structure SameVisible (b c : L0Buffer V) : Prop where
  properties : ∀ v, b.vertexProperties.lookup v = c.vertexProperties.lookup v
  tombstones : ∀ v, v ∈ b.vertexTombstones ↔ v ∈ c.vertexTombstones
  labels : ∀ v, v ∉ b.vertexTombstones → b.vertexLabels.lookup v = c.vertexLabels.lookup v
  edges : b.edgeSide = c.edgeSide

/-- Replaying the records of a transaction shows what merging its buffer shows. -/
theorem replay_refines_mergeTake (m : L0Buffer V) (t : TxBuffer V)
    (schemaTypeName : Nat → Option String) (clock : Clock)
    (hvalid : m.validateMergeEdgeEndpoints t.buffer = .ok ()) :
    ∃ r, m.mergeTake t.buffer clock = .ok r ∧
      SameVisible (m.replayMutations (t.buffer.walRecords schemaTypeName)) r.1 := by
  rcases mergeTake_spec clock hvalid with ⟨r, hok, hview, hside, -⟩
  rcases replay_spec t schemaTypeName hvalid with ⟨hview', hside', -⟩
  have hsame := fun v => replayed_merged t.shape (clock.vertex v) v (m.vertexView v)
  simp only [← hview'] at hsame
  refine ⟨r, hok, ?_, ?_, ?_, ?_⟩
  · intro v
    exact (hsame v).2.1.trans (congrArg VertexView.props (hview v)).symm
  · intro v
    exact (hsame v).1.trans (iff_of_eq (congrArg VertexView.dead (hview v))).symm
  · intro v hv
    exact ((hsame v).2.2 hv).trans (congrArg VertexView.labels (hview v)).symm
  · rw [hside, hside']

/-- A transaction that deletes vertex 1 with its edge, relabels vertex 2 and
    connects it to a new vertex. -/
theorem replay_refines_mergeTake_cascade :
    let m := (TxBuffer.run (V := DemoValue) 0
      [.insertVertex 1 ∅ ["A"] 5, .insertVertex 2 ∅ ["B"] 5, .insertEdge 1 2 7 10 ∅ none 5]).buffer
    let t := TxBuffer.run (V := DemoValue) 3
      [.insertVertex 3 ∅ ["C"] 6, .deleteVertex 1 (some ["A"]), .relabelVertex 2 ["B"] ["B", "D"],
        .insertEdge 2 3 7 11 ∅ (some "KNOWS") 6]
    m.validateMergeEdgeEndpoints t.buffer = .ok () ∧
      ∃ r, m.mergeTake t.buffer ⟨fun _ => 8, fun _ => 8⟩ = .ok r ∧
        SameVisible (m.replayMutations (t.buffer.walRecords fun _ => none)) r.1 := by
  intro m t
  have hvalid : m.validateMergeEdgeEndpoints t.buffer = .ok () := by rfl
  exact ⟨hvalid, replay_refines_mergeTake m t (fun _ => none) ⟨fun _ => 8, fun _ => 8⟩ hvalid⟩

end UniDb
