import UniDb.Runtime.L0View

/-!
# A Transaction's Buffer

What a transaction does to its private buffer, and what is therefore true of
every buffer that reaches a commit.

The storage layer gives a transaction a handful of writes. A buffer they build
has a shape that an arbitrary buffer need not have: a vertex with properties is
not tombstoned, a vertex with labels was written, deleted or relabelled, and
whatever was written is stamped. The commit path relies on this shape, so it is
the type `TxBuffer` here, and `TxBuffer.run` builds such a buffer from any list
of writes.

## Main definitions

* `TxOp`: The writes of a transaction.
* `TxOp.apply`: The effect of a write on the buffer.
* `TxInvariant`: The shape of a transaction's buffer.
* `TxBuffer`: A buffer with that shape.

## Theorems

* `apply_txInvariant`: Every write keeps the shape.
-/

namespace UniDb

open L0Buffer VertexView

/-- A write of a transaction. -/
inductive TxOp (V : Type)
  | insertVertex (vid : Vid) (properties : Properties V) (labels : List String) (now : Int)
  | updateVertex (vid : Vid) (properties : Properties V) (labels : List String) (now : Int)
  | deleteVertex (vid : Vid) (backfill : Option (List String))
  | relabelVertex (vid : Vid) (previous labels : List String)
  | insertEdge (srcVid dstVid : Vid) (edgeType : Nat) (eid : Eid) (properties : Properties V)
      (edgeTypeName : Option String) (now : Int)
  | updateEdge (srcVid dstVid : Vid) (edgeType : Nat) (eid : Eid) (properties : Properties V)
      (edgeTypeName : Option String) (now : Int)
  | deleteEdge (eid : Eid) (srcVid dstVid : Vid) (edgeType : Nat) (now : Int)
  | claimKey (key : Key) (vid : Vid)
  | claimEdgeKey (key : Key) (eid : Eid)
  | claimMergeKey (key : Key) (vid : Vid)

variable {V : Type}

/-- Remember the labels of a vertex that is about to be deleted, if the buffer
    has none for it and the writer found some elsewhere. -/
def L0Buffer.backfillLabels (b : L0Buffer V) (vid : Vid) (found : Option (List String)) :
    L0Buffer V :=
  if vid ∈ b.vertexLabels then b
  else match found with
    | some labels => b.putLabels vid labels
    | none => b

/-- The shape of a buffer that a transaction built. -/
structure TxInvariant (b : L0Buffer V) : Prop where
  live : ∀ v, (b.vertexView v).props.isSome → ¬ (b.vertexView v).dead
  labelled : ∀ v, (b.vertexView v).labels.isSome →
    (b.vertexView v).props.isSome ∨ (b.vertexView v).dead ∨ v ∈ b.vertexLabelOverwrites
  stamped : ∀ v, (b.vertexView v).props.isSome →
    (b.vertexView v).created.isSome ∧ (b.vertexView v).updated.isSome
  edgeStamped : ∀ e ∈ b.edgeSide.endpoints,
    (b.edgeTimes e).created.isSome ∧ (b.edgeTimes e).updated.isSome

theorem new_txInvariant (startVersion : Nat) :
    TxInvariant (L0Buffer.new startVersion : L0Buffer V) := by
  constructor <;> simp [vertexView, L0Buffer.new, edgeSide]

variable {b b' : L0Buffer V}

/-- A write that changes nothing of what the shape is about keeps it. -/
theorem TxInvariant.congr (h : TxInvariant b) (hview : b'.vertexView = b.vertexView)
    (hover : b'.vertexLabelOverwrites = b.vertexLabelOverwrites) (hside : b'.edgeSide = b.edgeSide)
    (htimes : b'.edgeTimes = b.edgeTimes) : TxInvariant b' := by
  constructor
  · rw [hview]
    exact h.live
  · rw [hview, hover]
    exact h.labelled
  · rw [hview]
    exact h.stamped
  · rw [hside, htimes]
    exact h.edgeStamped

/-- The shape, for a write that acts at one vertex and leaves the edges alone or takes some away. -/
theorem TxInvariant.of_actsAt (h : TxInvariant b) (vid : Vid) (f : VertexView V → VertexView V)
    (hview : ∀ v, b'.vertexView v = if v = vid then f (b.vertexView v) else b.vertexView v)
    (hlive : (f (b.vertexView vid)).props.isSome → ¬ (f (b.vertexView vid)).dead)
    (hlabelled : (f (b.vertexView vid)).labels.isSome → (f (b.vertexView vid)).props.isSome ∨
      (f (b.vertexView vid)).dead ∨ vid ∈ b'.vertexLabelOverwrites)
    (hstamped : (f (b.vertexView vid)).props.isSome → (f (b.vertexView vid)).created.isSome ∧
      (f (b.vertexView vid)).updated.isSome)
    (hover : ∀ v ∈ b.vertexLabelOverwrites, v ∈ b'.vertexLabelOverwrites)
    (hends : ∀ e ∈ b'.edgeSide.endpoints, e ∈ b.edgeSide.endpoints)
    (htimes : b'.edgeTimes = b.edgeTimes) : TxInvariant b' := by
  constructor
  · intro v
    by_cases hv : v = vid
    · subst hv
      rw [hview, if_pos rfl]
      exact hlive
    · rw [hview, if_neg hv]
      exact h.live v
  · intro v
    by_cases hv : v = vid
    · subst hv
      rw [hview, if_pos rfl]
      exact hlabelled
    · rw [hview, if_neg hv]
      intro hl
      rcases h.labelled v hl with hp | hd | ho
      · exact .inl hp
      · exact .inr (.inl hd)
      · exact .inr (.inr (hover v ho))
  · intro v
    by_cases hv : v = vid
    · subst hv
      rw [hview, if_pos rfl]
      exact hstamped
    · rw [hview, if_neg hv]
      exact h.stamped v
  · intro e he
    rw [htimes]
    exact h.edgeStamped e (hends e he)

theorem endpoints_of_deleteVertex (s : EdgeSide V) (vid : Vid) {e : Eid}
    (he : e ∈ (s.deleteVertex vid).endpoints) : e ∈ s.endpoints := by
  simp only [EdgeSide.deleteVertex] at he
  -- by induction over the edges that go
  have hfold : ∀ (eids : List Eid) (s : EdgeSide V),
      e ∈ (eids.foldl EdgeSide.cascade s).endpoints → e ∈ s.endpoints := by
    intro eids
    induction eids with
    | nil => exact fun s hs => hs
    | cons eid eids ih =>
      intro s hs
      have hmem := ih (s.cascade eid) hs
      unfold EdgeSide.cascade at hmem
      cases hl : s.endpoints.lookup eid with
      | none => simpa [hl] using hmem
      | some =>
        simp only [hl, AList.mem_erase] at hmem
        exact hmem.2
  exact hfold _ s he

theorem relabelVertex_txInvariant (h : TxInvariant b) (vid : Vid) (previous labels : List String) :
    TxInvariant (b.relabelVertex vid previous labels) := by
  have hover : (b.relabelVertex vid previous labels).vertexLabelOverwrites =
      b.vertexLabelOverwrites.insert vid () := by
    simp only [relabelVertex, setVertexLabels, removeVidFromLabelIndex_eq]
    rfl
  have hedges := sameEdges_replaceLabels { b with
    vertexLabelsBefore := b.vertexLabelsBefore.orInsert vid previous } vid labels
  have hside : (b.relabelVertex vid previous labels).edgeSide = b.edgeSide := hedges.side
  refine h.of_actsAt vid _ (vertexView_relabelVertex b vid previous labels) ?_ ?_ ?_ ?_ ?_
    hedges.times
  · exact h.live vid
  · -- the labels come with an overwrite
    intro _
    refine .inr (.inr ?_)
    rw [hover, AList.mem_insert]
    exact .inl rfl
  · exact h.stamped vid
  · intro v hv
    rw [hover, AList.mem_insert]
    exact .inr hv
  · intro e he
    rw [hside] at he
    exact he

theorem TxInvariant.of_edge (h : TxInvariant b) (eid : Eid) (hview : b'.vertexView = b.vertexView)
    (hover : b'.vertexLabelOverwrites = b.vertexLabelOverwrites)
    (hends : ∀ e ∈ b'.edgeSide.endpoints, e = eid ∨ e ∈ b.edgeSide.endpoints)
    (htimes : ∀ e, e ≠ eid → b'.edgeTimes e = b.edgeTimes e)
    (hstamped : eid ∈ b'.edgeSide.endpoints → (b'.edgeTimes eid).created.isSome ∧
      (b'.edgeTimes eid).updated.isSome) :
    TxInvariant b' := by
  constructor
  · rw [hview]
    exact h.live
  · rw [hview, hover]
    exact h.labelled
  · rw [hview]
    exact h.stamped
  · intro e he
    by_cases heq : e = eid
    · subst heq
      exact hstamped he
    · rw [htimes e heq]
      exact h.edgeStamped e ((hends e he).resolve_left heq)

theorem deleteEdge_txInvariant (h : TxInvariant b) (eid : Eid) (src dst : Vid) (etype : Nat)
    (now : Int) : TxInvariant (b.deleteEdge eid src dst etype now) := by
  refine h.of_edge eid rfl rfl (fun e he => .inr he) ?_ ?_
  · intro e he
    exact (edgeTimes_deleteEdgeImpl ..).trans (if_neg he)
  · intro he
    have htimes : (b.deleteEdge eid src dst etype now).edgeTimes eid =
        { b.edgeTimes eid with updated := some now } :=
      (edgeTimes_deleteEdgeImpl ..).trans (if_pos rfl)
    -- the creation time is the one of the insertion
    rw [htimes]
    exact ⟨(h.edgeStamped eid he).1, rfl⟩

variable [PropertyValue V]

/-- The effect of a write on the transaction's buffer. -/
def TxOp.apply (b : L0Buffer V) : TxOp V → L0Buffer V
  | .insertVertex vid properties labels now => b.insertVertexWithLabels vid properties labels now
  | .updateVertex vid properties labels now => b.updateVertexWithLabels vid properties labels now
  | .deleteVertex vid backfill => ((b.backfillLabels vid backfill).deleteVertex vid).1
  | .relabelVertex vid previous labels => b.relabelVertex vid previous labels
  | .insertEdge src dst etype eid properties name now =>
    b.orBumped (b.insertEdge src dst etype eid properties name now)
  | .updateEdge src dst etype eid properties name now =>
    b.orBumped (b.updateEdge src dst etype eid properties name now)
  | .deleteEdge eid src dst etype now => b.deleteEdge eid src dst etype now
  | .claimKey key vid => b.insertConstraintKey key vid
  | .claimEdgeKey key eid => b.insertEdgeConstraintKey key eid
  | .claimMergeKey key vid => b.insertMergeGuardKey key vid

theorem insertVertex_txInvariant (h : TxInvariant b) (vid : Vid) (properties : Properties V)
    (labels : List String) (now : Int) :
    TxInvariant (b.insertVertexWithLabelsImpl vid properties labels now) := by
  have hedges := sameEdges_insertVertexWithLabelsImpl b vid properties labels now
  have hside := hedges.side
  refine h.of_actsAt vid _ (vertexView_insertVertexWithLabelsImpl b vid properties labels now)
    ?_ ?_ ?_ ?_ ?_ hedges.times
  · simp [write, append]
  · intro _
    exact .inl (by simp [write, append])
  · intro _
    simp [write, append]
  · intro v hv
    simp only [insertVertexWithLabelsImpl, applyVertexWrite]
    rw [writeProperties_eq]
    exact hv
  · intro e he
    rw [hside] at he
    exact he

theorem overwrites_deleteVertexImpl (b : L0Buffer V) (vid : Vid) :
    (b.deleteVertexImpl vid).1.vertexLabelOverwrites = b.vertexLabelOverwrites := by
  obtain ⟨c, hbury, hc⟩ := applyVertexDeletion_bury b.bumpVersion vid vertexLabelOverwrites
    fun version acc eid => by
      unfold cascadeEdge
      cases acc.1.edgeEndpoints.lookup eid <;> rfl
  rw [deleteVertexImpl, hbury]
  simp only [buryVertex, removeVidFromLabelIndex_eq]
  rw [dropExtid_eq]
  exact hc

/-- The writer's delete: the labels are found first, then the vertex goes. -/
theorem deleteVertex_txInvariant (h : TxInvariant b) (vid : Vid) (found : Option (List String)) :
    TxInvariant ((b.backfillLabels vid found).deleteVertex vid).1 := by
  -- the backfill only touches the label list of this vertex
  have hback : ∃ labels : AssocMap Vid (List String),
      b.backfillLabels vid found = { b with vertexLabels := labels } ∧
        ∀ v, v ≠ vid → labels.lookup v = b.vertexLabels.lookup v := by
    unfold backfillLabels
    by_cases hmem : vid ∈ b.vertexLabels
    · exact ⟨b.vertexLabels, by rw [if_pos hmem], fun _ _ => rfl⟩
    · rw [if_neg hmem]
      cases found with
      | none => exact ⟨b.vertexLabels, rfl, fun _ _ => rfl⟩
      | some ls => exact ⟨b.vertexLabels.insert vid ls, rfl, fun v hv => by simp [hv]⟩
  rcases hback with ⟨labels, heq, hlabels⟩
  rw [heq, deleteVertex]
  generalize hc : ({ b with vertexLabels := labels } : L0Buffer V) = c
  refine h.of_actsAt vid (fun w => delete { w with labels := labels.lookup vid })
    ?_ ?_ ?_ ?_ ?_ ?_ ?_
  · intro v
    rw [vertexView_deleteVertexImpl, ← hc]
    by_cases hv : v = vid
    · subst hv
      rw [if_pos rfl, if_pos rfl]
      rfl
    · rw [if_neg hv, if_neg hv]
      simp [vertexView, hlabels v hv]
  · simp [delete]
  · intro _
    exact .inr (.inl trivial)
  · simp [delete]
  · intro v hv
    rw [overwrites_deleteVertexImpl, ← hc]
    exact hv
  · intro e he
    rw [deleteVertexImpl, (edges_applyVertexDeletion ..).1, ← hc] at he
    exact endpoints_of_deleteVertex b.edgeSide vid he
  · rw [deleteVertexImpl, (edges_applyVertexDeletion ..).2, ← hc]
    rfl

theorem insertEdge_txInvariant (h : TxInvariant b) (src dst : Vid) (etype : Nat) (eid : Eid)
    (properties : Properties V) (name : Option String) (now : Int) :
    TxInvariant (b.orBumped (b.insertEdgeImpl src dst etype eid properties name now)) := by
  cases hins : b.insertEdgeImpl src dst etype eid properties name now with
  -- an edge at a deleted vertex is refused
  | error => exact h.congr rfl rfl rfl rfl
  | ok b' =>
    show TxInvariant b'
    rcases insertEdgeImpl_ok hins with ⟨-, -, rfl⟩
    have hside : ((b.bumpVersion.storeEdge src dst etype eid properties).recordEdgeType eid
        name).edgeSide = (b.edgeSide.store src dst etype eid properties).recordType eid name := by
      rw [edgeSide_recordEdgeType, edgeSide_storeEdge]
      rfl
    have hover : (((b.bumpVersion.storeEdge src dst etype eid properties).recordEdgeType eid
        name).stampEdge eid (some now) (some now)).vertexLabelOverwrites =
          b.vertexLabelOverwrites := by
      cases name <;> rfl
    refine h.of_edge eid ?_ hover ?_ ?_ ?_
    · exact insertEdgeImpl_vertexView hins
    · intro e he
      have he' : e ∈ ((b.edgeSide.store src dst etype eid properties).recordType eid
          name).endpoints := hside ▸ he
      exact (AList.mem_insert _).mp he'
    · intro e he
      rw [edgeTimes_stampEdge, if_neg he, edgeTimes_recordEdgeType, edgeTimes_storeEdge]
      rfl
    · intro _
      rw [edgeTimes_stampEdge, if_pos rfl]
      simp [Times.stamp]

/-- Every write of a transaction keeps the shape. -/
theorem apply_txInvariant (h : TxInvariant b) (op : TxOp V) : TxInvariant (op.apply b) := by
  cases op with
  | insertVertex vid properties labels now | updateVertex vid properties labels now =>
    exact insertVertex_txInvariant h vid properties labels now
  | deleteVertex vid backfill => exact deleteVertex_txInvariant h vid backfill
  | relabelVertex vid previous labels => exact relabelVertex_txInvariant h vid previous labels
  | insertEdge src dst etype eid properties name now =>
    exact insertEdge_txInvariant h src dst etype eid properties name now
  | updateEdge src dst etype eid properties name now =>
    exact insertEdge_txInvariant h src dst etype eid properties name now
  | deleteEdge eid src dst etype now => exact deleteEdge_txInvariant h eid src dst etype now
  | claimKey | claimEdgeKey | claimMergeKey => exact h.congr rfl rfl rfl rfl

/-- A buffer with the shape that a transaction's writes give it. -/
structure TxBuffer (V : Type) where
  buffer : L0Buffer V
  shape : TxInvariant buffer

namespace TxBuffer

def new (startVersion : Nat) : TxBuffer V := ⟨L0Buffer.new startVersion, new_txInvariant _⟩

/-- One more write. -/
def write (t : TxBuffer V) (op : TxOp V) : TxBuffer V :=
  ⟨op.apply t.buffer, apply_txInvariant t.shape op⟩

/-- The buffer of a transaction after its writes. -/
def run (startVersion : Nat) (ops : List (TxOp V)) : TxBuffer V :=
  ops.foldl write (new startVersion)

end TxBuffer

end UniDb
