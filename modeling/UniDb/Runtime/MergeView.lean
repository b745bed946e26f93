import UniDb.Runtime.L0View

/-!
# What a Merge Comes To

The outcome of a merge, vertex by vertex and for the edges as a whole.

A merge runs seven loops over the merged buffer. Each of them visits distinct
vertices or edges, so the outcome for a vertex is the composition of what the
loops do to that vertex alone: `VertexView.merged`. On the edges the loops run
one after the other: `EdgeSide.merged`.

The check made before a merge looks at the tombstones as they will be after the
vertex phase. It is exact: a merge that passes the check inserts every edge, so
a merge never stops halfway.

## Main definitions

* `VertexView.merged`: What a merge does to one vertex.
* `EdgeSide.merged`: What a merge does to the edges.
* `Times.merged`: What a merge does to the times of one edge.

## Theorems

* `validateMergeEdgeEndpoints_ok_iff`: What the check before a merge checks.
* `merge_spec`, `mergeTake_spec`: A merge that passes the check succeeds, with
  this outcome.
* `merge_error`: A merge that fails the check fails.
-/

namespace UniDb

open AssocMap

/-- What a merge does to one vertex: `props` are the properties that the merged
    buffer has for it, if it has any. -/
def VertexView.merged {V : Type} [PropertyValue V] (other : L0Buffer V)
    (props : Option (Properties V)) (now : Int) (v : Vid) (w : VertexView V) : VertexView V :=
  let w := if v ∈ other.vertexTombstones then w.delete else w
  let w := props.elim w fun p => w.write p (other.labelsOf v) (some now) (some now)
  let w := (other.vertexLabels.lookup v).elim w fun labels => w.adopt labels
  if v ∈ other.vertexLabelOverwrites ∧ v ∉ other.vertexTombstones then
    w.setLabels (other.labelsOf v)
  else w

/-- The times a merge carries over at the end. -/
def VertexView.mergeTimes {V : Type} (created updated : Option Int) (w : VertexView V) :
    VertexView V :=
  { w with created := w.created.or created, updated := updated.or w.updated }

namespace EdgeSide

variable {V : Type}

def mergeEdge [PropertyValue V] (other : L0Buffer V) (edgeProps : AssocMap Eid (Properties V))
    (s : EdgeSide V) (e : Eid × Vid × Vid × Nat) : EdgeSide V :=
  if e.1 ∈ other.tombstones then s.delete e.1 e.2.1 e.2.2.1 e.2.2.2
  else (s.store e.2.1 e.2.2.1 e.2.2.2 e.1 ((edgeProps.lookup e.1).getD ∅)).recordType e.1
    (other.edgeTypes.lookup e.1)

def mergeTombstone (other : L0Buffer V) (s : EdgeSide V) (e : Eid × TombstoneEntry) : EdgeSide V :=
  if e.1 ∈ other.edgeEndpoints then s else s.delete e.1 e.2.srcVid e.2.dstVid e.2.edgeType

/-- What a merge does to the edges. -/
def merged [PropertyValue V] (other : L0Buffer V) (edgeProps : AssocMap Eid (Properties V))
    (s : EdgeSide V) : EdgeSide V :=
  let s := other.vertexTombstones.keys.foldl deleteVertex s
  let s := other.edgeEndpoints.toList.foldl (mergeEdge other edgeProps) s
  other.tombstones.toList.foldl (mergeTombstone other) s

end EdgeSide

def Times.mergeEdge {V : Type} (other : L0Buffer V) (now : Int) (e : Eid) (t : Times) :
    Times :=
  if e ∈ other.tombstones then { t with updated := some now } else t.stamp (some now) (some now)

/-- One round of that loop, on the times of all edges. -/
def Times.mergeRound {V : Type} (other : L0Buffer V) (clock : Clock) (t : Eid → Times)
    (e : Eid × Vid × Vid × Nat) (a : Eid) : Times :=
  if a = e.1 then (t a).mergeEdge other (clock.edge e.1) e.1 else t a

/-- What a merge does to the times of one edge. -/
def Times.merged {V : Type} (other : L0Buffer V) (now : Int) (e : Eid) (t : Times) :
    Times :=
  let t :=
    if e ∈ other.tombstones then { t with updated := some now }
    else if e ∈ other.edgeEndpoints then t.stamp (some now) (some now)
    else t
  t.stamp (other.edgeCreatedAt.lookup e) (other.edgeUpdatedAt.lookup e)

namespace L0Buffer

variable {V : Type}

/-- The check before a merge, read as a condition. -/
theorem validateMergeEdgeEndpoints_ok_iff (b other : L0Buffer V) :
    b.validateMergeEdgeEndpoints other = .ok () ↔
      ∀ eid src dst etype, other.edgeEndpoints.lookup eid = some (src, dst, etype) →
        eid ∉ other.tombstones →
          b.deletedAfterMerge other src = false ∧ b.deletedAfterMerge other dst = false := by
  unfold validateMergeEdgeEndpoints
  rw [forM_ok_iff]
  constructor
  · intro h eid src dst etype hl htomb
    have hx := h (eid, src, dst, etype) (mem_toList.mpr hl)
    simp only [if_neg htomb] at hx
    by_cases hs : b.deletedAfterMerge other src = true
    · simp [hs] at hx
    by_cases hd : b.deletedAfterMerge other dst = true
    · simp [hs, hd] at hx
    exact ⟨by simpa using hs, by simpa using hd⟩
  · rintro h ⟨eid, src, dst, etype⟩ hmem
    have hl := mem_toList.mp hmem
    by_cases htomb : eid ∈ other.tombstones
    · simp [htomb]
    · rcases h eid src dst etype hl htomb with ⟨hs, hd⟩
      simp [htomb, hs, hd]

section Merge

variable [PropertyValue V] (b other : L0Buffer V)

theorem mergeDeletions_fst : (b.mergeDeletions other).1 =
      other.vertexTombstones.keys.foldl (fun b vid => (b.deleteVertexImpl vid).1) b := by
  have hround : ∀ (acc : L0Buffer V × List TombstoneEntry) vid,
      (mergeDeletion acc vid).1 = (acc.1.deleteVertexImpl vid).1 := fun _ _ => rfl
  exact foldl_comm_of_forall Prod.fst hround other.vertexTombstones.keys (b, [])

theorem vertexView_mergeDeletions (v : Vid) :
    (b.mergeDeletions other).1.vertexView v =
      if v ∈ other.vertexTombstones then (b.vertexView v).delete else b.vertexView v := by
  have hacts : ActsAt vertexView id (fun (b : L0Buffer V) vid => (b.deleteVertexImpl vid).1)
      (fun _ w => w.delete) := vertexView_deleteVertexImpl
  rw [mergeDeletions_fst]
  exact hacts.foldl_keys other.vertexTombstones b v

theorem vertexView_mergeInsertions
    (vertexProps : AssocMap Vid (Properties V)) (clock : Clock) (v : Vid) :
    (b.mergeInsertions other vertexProps clock).vertexView v =
      (vertexProps.lookup v).elim (b.vertexView v) fun p =>
        (b.vertexView v).write p (other.labelsOf v) (some (clock.vertex v))
          (some (clock.vertex v)) := by
  have hacts : ActsAt vertexView Prod.fst (mergeInsertion other clock)
      (fun e w => w.write e.2 (other.labelsOf e.1) (some (clock.vertex e.1))
        (some (clock.vertex e.1))) :=
    fun b e v => vertexView_insertVertexWithLabelsImpl b e.1 e.2 _ _ v
  exact hacts.foldl_toList ..

omit [PropertyValue V] in
theorem vertexView_adoptAll (v : Vid) :
    (other.vertexLabels.toList.foldl adoptLabels b).vertexView v =
      (other.vertexLabels.lookup v).elim (b.vertexView v) fun labels =>
        (b.vertexView v).adopt labels := by
  have hacts : ActsAt vertexView Prod.fst (fun (b : L0Buffer V) vl => b.adoptLabels vl)
      (fun e w => w.adopt e.2) :=
    vertexView_adoptLabels
  exact hacts.foldl_toList other.vertexLabels b v

omit [PropertyValue V] in
theorem vertexView_overwriteAll (v : Vid) :
    (other.vertexLabelOverwrites.keys.foldl (overwriteLabels other) b).vertexView v =
      if v ∈ other.vertexLabelOverwrites ∧ v ∉ other.vertexTombstones then
        (b.vertexView v).setLabels (other.labelsOf v) else b.vertexView v := by
  have hacts : ActsAt vertexView id (overwriteLabels other)
      (fun vid w => if vid ∉ other.vertexTombstones then w.setLabels (other.labelsOf vid) else w) :=
        by
    intro c vid a
    rw [vertexView_overwriteLabels]
    by_cases ha : a = vid
    · subst ha
      simp
    · simp [ha]
  rw [hacts.foldl_keys other.vertexLabelOverwrites b v]
  by_cases ho : v ∈ other.vertexLabelOverwrites <;> simp [ho]

theorem vertexView_mergeVertices (vertexProps : AssocMap Vid (Properties V))
    (clock : Clock) (v : Vid) : (b.mergeVertices other vertexProps clock).1.vertexView v =
      (b.vertexView v).merged other (vertexProps.lookup v) (clock.vertex v) v := by
  unfold mergeVertices VertexView.merged
  rw [vertexView_overwriteAll, vertexView_adoptAll, vertexView_mergeInsertions,
    vertexView_mergeDeletions]

/-- The tombstones after the vertex phase are what the check assumed. -/
theorem merged_dead_iff (other : L0Buffer V) (props : Option (Properties V)) (now : Int) (v : Vid)
    (w : VertexView V) : (w.merged other props now v).dead ↔
      (w.dead ∨ v ∈ other.vertexTombstones) ∧ props = none := by
  -- neither adopting nor replacing labels touches the tombstone
  have hadopt : ∀ x : VertexView V,
      ((other.vertexLabels.lookup v).elim x x.adopt).dead = x.dead := by
    intro x
    cases other.vertexLabels.lookup v with
    | none => rfl
    | some ls => exact (VertexView.adopt_frame ls x).1
  have hrelabel : ∀ x : VertexView V,
      (if v ∈ other.vertexLabelOverwrites ∧ v ∉ other.vertexTombstones then
        x.setLabels (other.labelsOf v) else x).dead = x.dead := by
    intro x
    split <;> rfl
  unfold VertexView.merged
  simp only [hrelabel, hadopt]
  -- a write lifts the tombstone that the deletions may have set
  cases props with
  | none => by_cases ht : v ∈ other.vertexTombstones <;> simp [ht, VertexView.delete]
  | some => simp [VertexView.write, VertexView.append]

variable {b : L0Buffer V} {other : L0Buffer V}

/-- An edge of the merged buffer whose endpoints are live goes in, or is
    tombstoned, and no vertex changes. -/
theorem mergeEdge_spec {edgeProps : AssocMap Eid (Properties V)} {clock : Clock}
    {e : Eid × Vid × Vid × Nat}
    (hlive : e.1 ∉ other.tombstones → ¬ (b.vertexView e.2.1).dead ∧ ¬ (b.vertexView e.2.2.1).dead) :
    ∃ b', mergeEdge other edgeProps clock b e = .ok b' ∧ b'.vertexView = b.vertexView ∧
      b'.edgeSide = b.edgeSide.mergeEdge other edgeProps e ∧
      b'.edgeTimes = Times.mergeRound other clock b.edgeTimes e := by
  rcases e with ⟨eid, src, dst, etype⟩
  unfold mergeEdge EdgeSide.mergeEdge Times.mergeRound Times.mergeEdge
  by_cases htomb : eid ∈ other.tombstones
  · simp only [if_pos htomb]
    refine ⟨_, rfl, rfl, rfl, ?_⟩
    funext a
    exact edgeTimes_deleteEdgeImpl b eid src dst etype (clock.edge eid) a
  · simp only [if_neg htomb]
    rcases hlive htomb with ⟨hs, hd⟩
    have hs' : src ∉ b.bumpVersion.vertexTombstones := hs
    have hd' : dst ∉ b.bumpVersion.vertexTombstones := hd
    unfold insertEdgeImpl applyEdgeInsertion
    rw [if_neg hs', if_neg hd']
    refine ⟨_, rfl, ?_, ?_, ?_⟩
    · rw [vertexView_stampEdge, vertexView_recordEdgeType]
      rfl
    · show (L0Buffer.recordEdgeType _ _ _).edgeSide = _
      rw [edgeSide_recordEdgeType, edgeSide_storeEdge]
      rfl
    · funext a
      rw [edgeTimes_stampEdge, edgeTimes_recordEdgeType, edgeTimes_storeEdge]
      rfl

section

omit [PropertyValue V]

theorem sameEdges_adoptLabels (b : L0Buffer V) (vl : Vid × List String) :
    SameEdges b (b.adoptLabels vl) := by
  unfold adoptLabels
  split <;> exact ⟨rfl, rfl⟩

variable (other b : L0Buffer V)

theorem sameEdges_overwriteLabels (vid : Vid) :
    SameEdges b (overwriteLabels other b vid) := by
  unfold overwriteLabels
  by_cases h : vid ∈ other.vertexTombstones
  · rw [if_pos h]
    exact ⟨rfl, rfl⟩
  · rw [if_neg h]
    have hreplace := sameEdges_replaceLabels b vid (other.labelsOf vid)
    exact ⟨hreplace.side, hreplace.times⟩

theorem vertexView_mergeTimestamps (b other : L0Buffer V) (v : Vid) :
    (b.mergeTimestamps other).vertexView v =
      (b.vertexView v).mergeTimes (other.vertexCreatedAt.lookup v)
        (other.vertexUpdatedAt.lookup v) := by
  simp only [vertexView, mergeTimestamps, VertexView.mergeTimes, AssocMap.lookup_foldl_orInsert,
    AssocMap.lookup_foldl_insert]

theorem edgeTimes_mergeTimestamps (b other : L0Buffer V) (e : Eid) :
    (b.mergeTimestamps other).edgeTimes e =
      (b.edgeTimes e).stamp (other.edgeCreatedAt.lookup e) (other.edgeUpdatedAt.lookup e) := by
  simp only [edgeTimes, mergeTimestamps, Times.stamp, AssocMap.lookup_foldl_orInsert,
    AssocMap.lookup_foldl_insert]

/-- Carrying over the indexes changes neither a vertex nor an edge. -/
theorem mergeIndexes_frame {γ : Type} (g : L0Buffer V → γ) (b other : L0Buffer V)
    (hc : ∀ c k v, g (c.insertConstraintKey k v) = g c)
    (hm : ∀ c k v, g (c.insertMergeGuardKey k v) = g c)
    (he : ∀ c k v, g (c.insertEdgeConstraintKey k v) = g c)
    (hp : ∀ c m, g { c with pendingEmbeddings := m } = g c) :
    g (b.mergeIndexes other) = g b := by
  unfold mergeIndexes
  rw [hp, foldl_eq_of_forall g fun c (e : Key × Eid) => he c e.1 e.2,
    foldl_eq_of_forall g fun c (e : Key × Vid) => hm c e.1 e.2,
    foldl_eq_of_forall g fun c (e : Key × Vid) => hc c e.1 e.2]

theorem vertexView_mergeTombstones (clock : Clock) :
    (other.tombstones.toList.foldl (mergeTombstone other clock) b).vertexView = b.vertexView := by
  refine foldl_eq_of_forall vertexView (fun c e => ?_) _ b
  unfold mergeTombstone
  by_cases h : e.1 ∈ other.edgeEndpoints
  · rw [if_pos h]
  · rw [if_neg h]
    rfl

theorem edgeSide_mergeTombstones (clock : Clock) :
    (other.tombstones.toList.foldl (mergeTombstone other clock) b).edgeSide =
      other.tombstones.toList.foldl (EdgeSide.mergeTombstone other) b.edgeSide := by
  refine foldl_comm_of_forall edgeSide (fun c e => ?_) _ b
  unfold mergeTombstone EdgeSide.mergeTombstone
  by_cases h : e.1 ∈ other.edgeEndpoints
  · rw [if_pos h, if_pos h]
  · rw [if_neg h, if_neg h]
    rfl

theorem edgeTimes_mergeTombstones (clock : Clock) (a : Eid) :
    (other.tombstones.toList.foldl (mergeTombstone other clock) b).edgeTimes a =
      if a ∈ other.tombstones ∧ a ∉ other.edgeEndpoints then
        { b.edgeTimes a with updated := some (clock.edge a) }
      else b.edgeTimes a := by
  have hacts : ActsAt edgeTimes Prod.fst (mergeTombstone other clock)
      (fun e t => if e.1 ∈ other.edgeEndpoints then t
        else { t with updated := some (clock.edge e.1) }) := by
    intro c e a
    unfold mergeTombstone
    by_cases h : e.1 ∈ other.edgeEndpoints
    · simp [h]
    · simp only [if_neg h, edgeTimes_deleteEdgeImpl]
  rw [hacts.foldl_toList other.tombstones b a]
  cases hl : other.tombstones.lookup a with
  | none =>
    have hnot : a ∉ other.tombstones := notMem_iff_lookup.mpr hl
    simp [hnot]
  | some =>
    have hmem : a ∈ other.tombstones := mem_of_lookup hl
    by_cases h : a ∈ other.edgeEndpoints <;> simp [hmem, h]

end

theorem mergeEdges_spec (other : L0Buffer V) (edgeProps : AssocMap Eid (Properties V))
    (clock : Clock)
    (hlive : ∀ eid src dst etype, other.edgeEndpoints.lookup eid = some (src, dst, etype) →
      eid ∉ other.tombstones → ¬ (b.vertexView src).dead ∧ ¬ (b.vertexView dst).dead) :
    ∃ b', other.edgeEndpoints.toList.foldlM (mergeEdge other edgeProps clock) b = .ok b' ∧
      b'.vertexView = b.vertexView ∧
      b'.edgeSide = other.edgeEndpoints.toList.foldl (EdgeSide.mergeEdge other edgeProps)
        b.edgeSide ∧
      ∀ a, b'.edgeTimes a =
        if a ∈ other.edgeEndpoints then (b.edgeTimes a).mergeEdge other (clock.edge a) a
        else b.edgeTimes a := by
  -- every round starts from the vertices of `b`, so every endpoint is live in it
  have hround : ∀ c e, e ∈ other.edgeEndpoints.toList → c.vertexView = b.vertexView →
      ∃ c', mergeEdge other edgeProps clock c e = .ok c' ∧ c'.vertexView = b.vertexView ∧
        c'.edgeSide = c.edgeSide.mergeEdge other edgeProps e ∧
        c'.edgeTimes = Times.mergeRound other clock c.edgeTimes e := by
    intro c e he hc
    have hl := mem_toList.mp he
    have hlive' : e.1 ∉ other.tombstones →
        ¬ (c.vertexView e.2.1).dead ∧ ¬ (c.vertexView e.2.2.1).dead := by
      intro htomb
      rw [hc]
      exact hlive e.1 e.2.1 e.2.2.1 e.2.2.2 hl htomb
    rcases mergeEdge_spec hlive' with ⟨c', hok, hv, hs, ht⟩
    exact ⟨c', hok, hv.trans hc, hs, ht⟩
  rcases foldlM_ok_of_forall (fun c => c.vertexView = b.vertexView) edgeSide
    (fun c e he hc => by
      rcases hround c e he hc with ⟨c', hok, hv, hs, -⟩
      exact ⟨c', hok, hv, hs⟩) rfl with ⟨b', hok, hv, hs⟩
  rcases foldlM_ok_of_forall (fun c => c.vertexView = b.vertexView) edgeTimes
    (fun c e he hc => by
      rcases hround c e he hc with ⟨c', hok, hv, -, ht⟩
      exact ⟨c', hok, hv, ht⟩) rfl with ⟨b'', hok', -, ht⟩
  rw [hok, Except.ok.injEq] at hok'
  subst hok'
  refine ⟨b', hok, hv, hs, ?_⟩
  intro a
  have hacts : ActsAt (fun (t : Eid → Times) a => t a) Prod.fst
      (Times.mergeRound other clock)
      (fun e t => t.mergeEdge other (clock.edge e.1) e.1) := fun _ _ _ => rfl
  rw [ht, hacts.foldl_toList other.edgeEndpoints b.edgeTimes a]
  cases hl : other.edgeEndpoints.lookup a with
  | none =>
    have hnot : a ∉ other.edgeEndpoints := notMem_iff_lookup.mpr hl
    simp [hnot]
  | some =>
    have hmem : a ∈ other.edgeEndpoints := mem_of_lookup hl
    simp [hmem]

theorem sameEdges_mergeVertices (b other : L0Buffer V)
    (vertexProps : AssocMap Vid (Properties V)) (clock : Clock) :
    SameEdges (b.mergeDeletions other).1 (b.mergeVertices other vertexProps clock).1 := by
  have hins := SameEdges.foldl (fun c e => sameEdges_insertVertexWithLabelsImpl c e.1 e.2
    (other.labelsOf e.1) (clock.vertex e.1)) vertexProps.toList (b.mergeDeletions other).1
  have hadopt := SameEdges.foldl sameEdges_adoptLabels other.vertexLabels.toList
    ((b.mergeDeletions other).1.mergeInsertions other vertexProps clock)
  have hover := SameEdges.foldl (sameEdges_overwriteLabels other)
    other.vertexLabelOverwrites.keys
  exact ⟨(hover _).side.trans (hadopt.side.trans hins.side),
    (hover _).times.trans (hadopt.times.trans hins.times)⟩

theorem edges_mergeVertices (b other : L0Buffer V) (vertexProps : AssocMap Vid (Properties V))
    (clock : Clock) : (b.mergeVertices other vertexProps clock).1.edgeSide =
      other.vertexTombstones.keys.foldl EdgeSide.deleteVertex b.edgeSide ∧
      (b.mergeVertices other vertexProps clock).1.edgeTimes = b.edgeTimes := by
  have hsame := sameEdges_mergeVertices b other vertexProps clock
  rw [hsame.side, hsame.times, mergeDeletions_fst]
  exact ⟨foldl_comm_of_forall edgeSide
      (fun c vid => (edges_applyVertexDeletion c.bumpVersion vid).1) _ b,
    foldl_eq_of_forall edgeTimes
      (fun c vid => (edges_applyVertexDeletion c.bumpVersion vid).2) _ b⟩

/-- The views of a merge's outcome. -/
def IsMerged (b other : L0Buffer V) (vertexProps : AssocMap Vid (Properties V))
    (edgeProps : AssocMap Eid (Properties V)) (clock : Clock) (c : L0Buffer V) : Prop :=
  (∀ v, c.vertexView v =
    ((b.vertexView v).merged other (vertexProps.lookup v) (clock.vertex v) v).mergeTimes
      (other.vertexCreatedAt.lookup v) (other.vertexUpdatedAt.lookup v)) ∧
  c.edgeSide = b.edgeSide.merged other edgeProps ∧
  ∀ e, c.edgeTimes e = (b.edgeTimes e).merged other (clock.edge e) e

/-- The outcome of the body of a merge, if the endpoints of the edges it inserts
    are live after its vertex phase. -/
theorem mergeValidated_spec (b other : L0Buffer V) (vertexProps : AssocMap Vid (Properties V))
    (edgeProps : AssocMap Eid (Properties V)) (clock : Clock)
    (hlive : ∀ eid src dst etype, other.edgeEndpoints.lookup eid = some (src, dst, etype) →
      eid ∉ other.tombstones → ∀ v, v = src ∨ v = dst →
        ¬ ((v ∈ b.vertexTombstones ∨ v ∈ other.vertexTombstones) ∧ v ∉ vertexProps)) :
    ∃ r, b.mergeValidated other vertexProps edgeProps clock = .ok r ∧
      IsMerged b other vertexProps edgeProps clock r.1 := by
  -- the vertex phase
  have hview := vertexView_mergeVertices b other vertexProps clock
  have hdead : ∀ v, ((b.mergeVertices other vertexProps clock).1.vertexView v).dead ↔
      (v ∈ b.vertexTombstones ∨ v ∈ other.vertexTombstones) ∧ v ∉ vertexProps := by
    intro v
    rw [hview, merged_dead_iff, notMem_iff_lookup]
    rfl
  -- the edge loop finds every endpoint live
  rcases mergeEdges_spec other edgeProps clock (fun eid src dst etype hl htomb =>
    ⟨fun hd => hlive eid src dst etype hl htomb src (.inl rfl) ((hdead src).mp hd),
      fun hd => hlive eid src dst etype hl htomb dst (.inr rfl) ((hdead dst).mp hd)⟩) with
    ⟨c, hok, hv, hs, ht⟩
  have hframe := fun d : L0Buffer V => mergeIndexes_frame
    (fun d => (d.vertexView, d.edgeSide, d.edgeTimes)) d other (fun _ _ _ => rfl)
    (fun _ _ _ => rfl) (fun _ _ _ => rfl) (fun _ _ => rfl)
  simp only [Prod.mk.injEq] at hframe
  refine ⟨(((other.tombstones.toList.foldl (mergeTombstone other clock) c).mergeTimestamps
    other).mergeIndexes other, (b.mergeVertices other vertexProps clock).2), ?_, ?_, ?_, ?_⟩
  · simp only [mergeValidated, hok]
    rfl
  · intro v
    rw [(hframe _).1, vertexView_mergeTimestamps, vertexView_mergeTombstones, hv, hview]
  · rw [(hframe _).2.1]
    show (List.foldl (mergeTombstone other clock) c _).edgeSide = _
    rw [edgeSide_mergeTombstones, hs, (edges_mergeVertices ..).1]
    rfl
  · intro e
    rw [(hframe _).2.2, edgeTimes_mergeTimestamps, edgeTimes_mergeTombstones, ht,
      (edges_mergeVertices ..).2]
    unfold Times.merged Times.mergeEdge
    by_cases htomb : e ∈ other.tombstones
    · by_cases hend : e ∈ other.edgeEndpoints <;> simp [htomb, hend]
    · by_cases hend : e ∈ other.edgeEndpoints <;> simp [htomb, hend]

omit [PropertyValue V] in
theorem deletedAfterMerge_iff (b other : L0Buffer V) (v : Vid) :
    b.deletedAfterMerge other v = true ↔
      (v ∈ b.vertexTombstones ∨ v ∈ other.vertexTombstones) ∧ v ∉ other.vertexProperties := by
  simp [deletedAfterMerge]

omit [PropertyValue V] in
/-- The check is that the endpoints of the inserted edges survive the vertex phase. -/
theorem endpoints_live_of_validate (hvalid : b.validateMergeEdgeEndpoints other = .ok ())
    (eid : Eid) (src dst : Vid) (etype : Nat)
    (hl : other.edgeEndpoints.lookup eid = some (src, dst, etype)) (htomb : eid ∉ other.tombstones)
    (v : Vid) (hv : v = src ∨ v = dst) :
    ¬ ((v ∈ b.vertexTombstones ∨ v ∈ other.vertexTombstones) ∧ v ∉ other.vertexProperties) := by
  intro hdead
  rcases (validateMergeEdgeEndpoints_ok_iff b other).mp hvalid eid src dst etype hl htomb with
    ⟨hs, hd⟩
  have hdel := (deletedAfterMerge_iff b other v).mpr hdead
  rcases hv with rfl | rfl
  · exact absurd hdel (by simp [hs])
  · exact absurd hdel (by simp [hd])

variable (clock : Clock)

/-- A merge that passes the check succeeds, with the outcome computed above. -/
theorem merge_spec (hvalid : b.validateMergeEdgeEndpoints other = .ok ()) :
    ∃ r, b.merge other clock = .ok r ∧
      IsMerged b other other.vertexProperties other.edgeProperties clock r.1 := by
  rcases mergeValidated_spec b other other.vertexProperties other.edgeProperties clock
    (endpoints_live_of_validate hvalid) with ⟨r, hok, hspec⟩
  refine ⟨r, ?_, hspec⟩
  unfold merge
  rw [hvalid]
  exact hok

theorem mergeTake_spec (hvalid : b.validateMergeEdgeEndpoints other = .ok ()) :
    ∃ r, b.mergeTake other clock = .ok r ∧
      IsMerged b other other.vertexProperties other.edgeProperties clock r.1 := by
  rcases mergeValidated_spec b { other with vertexProperties := ∅, edgeProperties := ∅ }
    other.vertexProperties other.edgeProperties clock (endpoints_live_of_validate hvalid) with
    ⟨r, hok, hspec⟩
  refine ⟨(r.1, { other with vertexProperties := ∅, edgeProperties := ∅ }, r.2), ?_, hspec⟩
  unfold mergeTake
  rw [hvalid]
  show (L0Buffer.mergeValidated _ _ _ _ _ >>= _) = _
  rw [hok]
  rfl

/-- A merge that fails the check fails with its error and changes nothing. -/
theorem merge_error {message : String}
    (hvalid : b.validateMergeEdgeEndpoints other = .error message) :
    b.merge other clock = .error message ∧ b.mergeTake other clock = .error message := by
  unfold merge mergeTake
  rw [hvalid]
  exact ⟨rfl, rfl⟩

end Merge

end L0Buffer

end UniDb
