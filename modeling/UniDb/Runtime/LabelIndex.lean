import UniDb.Lib.Run
import UniDb.Runtime.MergeView

/-!
# The Reverse Label Index

A buffer answers `vids_for_label` from `label_to_vids`, an index that every
operation maintains beside the label lists and the tombstones.

The index is exact if it holds a vertex under a label exactly if the vertex is
not tombstoned and its label list has the label. Two habits of the code get in
the way. A deletion takes the vertex out of the index but leaves its label list
in place, so a later write that clears the tombstone brings the old labels back
without their index entries. And the operations on labels do not look at the
tombstone, so they index a deleted vertex. A third, smaller one: a label list
given to `set_vertex_labels` may name a label twice, and `remove_vertex_label`
takes out one of the two and the index entry.

`KeepsIndex` says, for each operation and the buffer before it, what has to be
true for the index to stay exact, and `indexExact_run_iff` that a run keeps the
index exact if and only if all its operations meet it.

## Main definitions

* `IndexExact`: The index agrees with the lists and the tombstones.
* `BufferOp`: The operations of a buffer, and `BufferOp.apply` their effect.
* `KeepsIndex`: When an operation keeps the index exact.

## Theorems

* `indexExact_iff_view`: The index is exact vertex by vertex.
* `merged_exact_iff`: When a merge keeps it exact at a vertex.
* `keepsIndex_iff`: One operation.
* `indexExact_run_iff`: Every run.
-/

namespace UniDb

open L0Buffer List VertexView

variable {V : Type}

/-- `vids_for_label` returns the vertices that are not tombstoned and have the
    label in their list. -/
def IndexExact (b : L0Buffer V) : Prop :=
  ∀ label v, v ∈ b.vidsForLabel label ↔ v ∉ b.vertexTombstones ∧ label ∈ b.labelsOf v

namespace VertexView

/-- The index is exact at one vertex. -/
def Exact (w : VertexView V) : Prop :=
  ∀ l, w.indexed l ↔ ¬ w.dead ∧ l ∈ w.labelList

/-- Every index entry is in the label list. -/
def Listed (w : VertexView V) : Prop :=
  ∀ l, w.indexed l → l ∈ w.labelList

variable {w : VertexView V}

theorem Exact.listed (h : w.Exact) : w.Listed :=
  fun l hl => ((h l).mp hl).2

theorem mem_appendUniqueLabels (existing labels : List String) (l : String) :
    l ∈ appendUniqueLabels existing labels ↔ l ∈ existing ∨ l ∈ labels := by
  unfold appendUniqueLabels
  induction labels generalizing existing with
  | nil => simp
  | cons label labels ih =>
    rw [foldl_cons, ih, mem_cons]
    by_cases h : label ∈ existing
    · rw [if_pos h]
      constructor
      · rintro (hl | hl)
        · exact .inl hl
        · exact .inr (.inr hl)
      · rintro (hl | rfl | hl)
        · exact .inl hl
        · exact .inl h
        · exact .inr hl
    · rw [if_neg h, mem_append, mem_singleton, or_assoc]

theorem labelList_append (w : VertexView V) (labels : List String) :
    (w.append labels).labelList = appendUniqueLabels w.labelList labels := rfl

theorem Listed.append (h : w.Listed) (labels : List String) : (w.append labels).Listed := by
  intro l hl
  rw [labelList_append, mem_appendUniqueLabels]
  rcases hl with hl | hl
  · exact .inl (h l hl)
  · exact .inr hl

theorem Listed.adopt (h : w.Listed) (labels : List String) : (w.adopt labels).Listed := by
  unfold VertexView.adopt
  cases hw : w.labels with
  | some => exact h
  | none =>
    intro l hl
    rcases hl with hl | hl
    · -- without a list there is no entry
      have hmem := h l hl
      simp [labelList, hw] at hmem
    · exact hl

/-- A deletion leaves no entry, whatever the list was. -/
theorem Listed.delete_exact (h : w.Listed) : w.delete.Exact := by
  intro l
  constructor
  · rintro ⟨hl, hnot⟩
    exact absurd (h l hl) hnot
  · rintro ⟨hlive, -⟩
    exact absurd trivial hlive

theorem Listed.setLabels_exact_iff (h : w.Listed) (labels : List String) :
    (w.setLabels labels).Exact ↔ (w.dead → labels = []) := by
  have hindex : ∀ l, (w.setLabels labels).indexed l ↔ l ∈ labels := by
    intro l
    refine ⟨?_, .inr⟩
    rintro (⟨hl, hnot⟩ | hl)
    · -- every old entry was found by the old list
      exact absurd (h l hl) hnot
    · exact hl
  constructor
  · intro he hdead
    refine eq_nil_iff_forall_not_mem.mpr ?_
    intro l hl
    exact ((he l).mp ((hindex l).mpr hl)).1 hdead
  · intro hc l
    rw [hindex]
    refine ⟨fun hl => ⟨fun hdead => ?_, hl⟩, fun hl => hl.2⟩
    rw [hc hdead] at hl
    cases hl

theorem Exact.append_exact_iff (h : w.Exact) (labels : List String) :
    (w.append labels).Exact ↔ (w.dead → labels = []) := by
  constructor
  · intro he hdead
    refine eq_nil_iff_forall_not_mem.mpr ?_
    intro l hl
    exact ((he l).mp (.inr hl)).1 hdead
  · intro hc l
    rw [labelList_append, mem_appendUniqueLabels]
    constructor
    · rintro (hl | hl)
      · exact ⟨((h l).mp hl).1, .inl ((h l).mp hl).2⟩
      · refine ⟨fun hdead => ?_, .inr hl⟩
        rw [hc hdead] at hl
        cases hl
    · rintro ⟨hlive, hl | hl⟩
      · exact .inl ((h l).mpr ⟨hlive, hl⟩)
      · exact .inr hl

theorem Exact.adopt_exact_iff (h : w.Exact) (labels : List String) :
    (w.adopt labels).Exact ↔ (w.labels = none → w.dead → labels = []) := by
  unfold adopt
  cases hw : w.labels with
  | some => simpa using h
  | none =>
    have hindex : ∀ l, ¬ w.indexed l := by
      intro l hl
      have hmem := h.listed l hl
      simp [labelList, hw] at hmem
    constructor
    · intro he _ hdead
      refine eq_nil_iff_forall_not_mem.mpr ?_
      intro l hl
      exact ((he l).mp (.inr hl)).1 hdead
    · intro hc l
      constructor
      · rintro (hl | hl)
        · exact absurd hl (hindex l)
        · refine ⟨fun hdead => ?_, hl⟩
          rw [hc rfl hdead] at hl
          cases hl
      · rintro ⟨-, hl⟩
        exact .inr hl

/-- A write to a deleted vertex brings its old labels back, and only the new ones are indexed. -/
theorem Exact.write_exact_iff [PropertyValue V] (h : w.Exact) (properties : Properties V)
    (labels : List String) (created updated : Option Int) :
    (w.write properties labels created updated).Exact ↔ (w.dead → w.labelList ⊆ labels) := by
  have hlist : (w.write properties labels created updated).labelList =
      appendUniqueLabels w.labelList labels := rfl
  constructor
  · intro he hdead l hl
    have hmem : l ∈ (w.write properties labels created updated).labelList := by
      rw [hlist, mem_appendUniqueLabels]
      exact .inl hl
    rcases (he l).mpr ⟨fun hf => hf, hmem⟩ with hindex | hnew
    · -- the deletion took the old entries away
      exact absurd hdead ((h l).mp hindex).1
    · exact hnew
  · intro hc l
    rw [hlist, mem_appendUniqueLabels]
    constructor
    · rintro (hl | hl)
      · exact ⟨fun hf => hf, .inl ((h l).mp hl).2⟩
      · exact ⟨fun hf => hf, .inr hl⟩
    · rintro ⟨-, hl | hl⟩
      · by_cases hdead : w.dead
        · exact .inr (hc hdead hl)
        · exact .inl ((h l).mpr ⟨hdead, hl⟩)
      · exact .inr hl

/-- One occurrence leaves the list, and the entry leaves the index. -/
theorem Exact.removeLabel_exact_iff (h : w.Exact) (label : String) :
    (w.removeLabel label).Exact ↔ (¬ w.dead → w.labelList.count label ≤ 1) := by
  unfold removeLabel
  by_cases hmem : label ∈ w.labelList
  · rw [if_pos hmem]
    constructor
    · intro he hlive
      -- a second occurrence would stay in the list without its entry
      by_contra hcount
      have hpos : 0 < (w.labelList.erase label).count label := by
        rw [count_erase_self]
        omega
      exact ((he label).mpr ⟨hlive, count_pos_iff.mp hpos⟩).2 rfl
    · intro hc l
      constructor
      · rintro ⟨hl, hne⟩
        exact ⟨((h l).mp hl).1, (mem_erase_of_ne hne).mpr ((h l).mp hl).2⟩
      · rintro ⟨hlive, hl⟩
        refine ⟨(h l).mpr ⟨hlive, mem_of_mem_erase hl⟩, ?_⟩
        -- the label itself is gone, since it was listed once
        rintro rfl
        have hpos := count_pos_iff.mpr hl
        have hle := hc hlive
        simp only [labelList, Option.getD_some] at hpos
        rw [count_erase_self] at hpos
        simp only [labelList] at hle
        omega
  · -- nothing to remove
    rw [if_neg hmem]
    refine ⟨fun _ _ => ?_, fun _ => h⟩
    rw [count_eq_zero.mpr hmem]
    omega

section Merge

variable [PropertyValue V]

/-- When a merge keeps the index exact at a vertex. -/
def MergeKeeps (other : L0Buffer V) (v : Vid) (w : VertexView V) : Prop :=
  let deleted := v ∈ other.vertexTombstones ∨ w.dead
  if v ∈ other.vertexLabelOverwrites ∧ v ∉ other.vertexTombstones then
    w.dead → v ∉ other.vertexProperties → other.labelsOf v = []
  else if v ∈ other.vertexProperties then deleted → w.labelList ⊆ other.labelsOf v
  else v ∈ other.vertexLabels → w.labels = none → deleted → other.labelsOf v = []

/-- What the write phase of a merge leaves before the relabels. -/
def phases (props : Option (Properties V)) (labels : Option (List String)) (list : List String)
    (now : Int) (x : VertexView V) : VertexView V :=
  let y := props.elim x fun p => x.write p list (some now) (some now)
  labels.elim y fun ls => y.adopt ls

theorem phases_dead (props : Option (Properties V)) (labels : Option (List String))
    (list : List String) (now : Int) (x : VertexView V) :
    (x.phases props labels list now).dead ↔ x.dead ∧ props = none := by
  unfold phases
  cases props <;> cases labels <;> simp [write, append]

theorem Listed.phases {x : VertexView V} (h : x.Listed) (props : Option (Properties V))
    (labels : Option (List String)) (list : List String) (now : Int) :
    (x.phases props labels list now).Listed := by
  have hwrite : (props.elim x fun p => x.write p list (some now) (some now)).Listed := by
    cases props with
    | none => exact h
    | some => exact Listed.append (w := { x with dead := False, .. }) h list
  cases labels with
  | none => exact hwrite
  | some ls => exact hwrite.adopt ls

theorem Exact.phases_exact_iff {x : VertexView V} (h : x.Exact) (props : Option (Properties V))
    (labels : Option (List String)) (now : Int) :
    (x.phases props labels (labels.getD []) now).Exact ↔
      if props.isSome then x.dead → x.labelList ⊆ labels.getD []
      else labels.isSome → x.labels = none → x.dead → labels.getD [] = [] := by
  unfold phases
  cases props with
  | some p =>
    -- the write left a label list, so nothing is adopted
    have hnone : ∀ ls, ((x.write p (labels.getD []) (some now) (some now)).adopt ls) =
        x.write p (labels.getD []) (some now) (some now) := fun _ => rfl
    rw [Option.isSome_some, if_pos rfl]
    cases labels with
    | none => exact h.write_exact_iff p [] (some now) (some now)
    | some ls =>
      simp only [Option.elim_some, hnone]
      exact h.write_exact_iff p ls (some now) (some now)
  | none =>
    rw [Option.isSome_none, if_neg (by simp)]
    cases labels with
    | none => simpa using h
    | some ls => simpa using h.adopt_exact_iff ls

theorem merged_exact_iff (other : L0Buffer V) (now : Int) (v : Vid) {w : VertexView V}
    (h : w.Exact) : (w.merged other (other.vertexProperties.lookup v) now v).Exact ↔
      w.MergeKeeps other v := by
  -- after the deletions
  generalize hx : (if v ∈ other.vertexTombstones then w.delete else w) = x
  have hxe : x.Exact := by
    rw [← hx]
    by_cases ht : v ∈ other.vertexTombstones
    · rw [if_pos ht]
      exact h.listed.delete_exact
    · rw [if_neg ht]
      exact h
  have hxd : x.dead ↔ v ∈ other.vertexTombstones ∨ w.dead := by
    rw [← hx]
    by_cases ht : v ∈ other.vertexTombstones <;> simp [ht, delete]
  have hxl : x.labels = w.labels := by
    rw [← hx]
    by_cases ht : v ∈ other.vertexTombstones <;> simp [ht, delete]
  have hmerged : w.merged other (other.vertexProperties.lookup v) now v =
      let z := x.phases (other.vertexProperties.lookup v) (other.vertexLabels.lookup v)
        (other.labelsOf v) now
      if v ∈ other.vertexLabelOverwrites ∧ v ∉ other.vertexTombstones then
        z.setLabels (other.labelsOf v)
      else z := by
    rw [← hx]
    rfl
  rw [hmerged]
  unfold MergeKeeps
  by_cases ho : v ∈ other.vertexLabelOverwrites ∧ v ∉ other.vertexTombstones
  · -- the relabel decides, whatever the phases before it did
    simp only [if_pos ho]
    rw [(hxe.listed.phases _ _ _ _).setLabels_exact_iff, phases_dead, hxd,
      AssocMap.notMem_iff_lookup]
    simp [ho.2]
  · -- a tombstoned vertex is not relabelled, so the write decides
    simp only [if_neg ho]
    refine (hxe.phases_exact_iff _ _ now).trans ?_
    simp only [hxd, hxl, AList.lookup_isSome, labelList]
    rfl

end Merge

end VertexView

theorem indexExact_iff_view (b : L0Buffer V) : IndexExact b ↔ ∀ v, (b.vertexView v).Exact := by
  constructor
  · intro h v l
    rw [← mem_vidsForLabel]
    exact h l v
  · intro h l v
    rw [mem_vidsForLabel]
    exact h v l

/-- An empty buffer indexes nothing. -/
theorem new_indexExact (startVersion : Nat) : IndexExact (L0Buffer.new startVersion : L0Buffer V) :=
    by
  intro l v
  simp [L0Buffer.new, vidsForLabel, labelsOf]

variable {b c : L0Buffer V}

/-- An operation that changes one vertex only keeps the index exact exactly if
    it does so at that vertex. -/
theorem indexExact_at (h : IndexExact b) (vid : Vid) (f : VertexView V → VertexView V)
    (hview : ∀ v, c.vertexView v = if v = vid then f (b.vertexView v) else b.vertexView v) :
    IndexExact c ↔ (f (b.vertexView vid)).Exact := by
  rw [indexExact_iff_view] at h ⊢
  constructor
  · intro hc
    have hvid := hc vid
    rw [hview, if_pos rfl] at hvid
    exact hvid
  · intro hf v
    rw [hview]
    by_cases hv : v = vid
    · subst hv
      rw [if_pos rfl]
      exact hf
    · rw [if_neg hv]
      exact h v

theorem indexExact_congr (hview : c.vertexView = b.vertexView) :
    IndexExact c ↔ IndexExact b := by
  rw [indexExact_iff_view, indexExact_iff_view, hview]

/-- The operations on a buffer. A replay is a loop over its records, each of
    which is an operation here; a merged buffer has an exact index itself. -/
inductive BufferOp (V : Type)
  | insertVertexWithLabels (vid : Vid) (properties : Properties V) (labels : List String)
      (now : Int)
  | updateVertexWithLabels (vid : Vid) (properties : Properties V) (labels : List String)
      (now : Int)
  | deleteVertex (vid : Vid)
  | addVertexLabels (vid : Vid) (labels : List String)
  | setVertexLabels (vid : Vid) (labels : List String)
  | relabelVertex (vid : Vid) (previous labels : List String)
  | removeVertexLabel (vid : Vid) (label : String)
  | insertEdge (src dst : Vid) (edgeType : Nat) (eid : Eid) (properties : Properties V)
      (name : Option String) (now : Int)
  | deleteEdge (eid : Eid) (src dst : Vid) (edgeType : Nat) (now : Int)
  | merge (other : { b : L0Buffer V // IndexExact b }) (clock : Clock)
  | mergeTake (other : { b : L0Buffer V // IndexExact b }) (clock : Clock)
  | replay (mutation : Mutation V)

variable [PropertyValue V]

/-- The buffer after an operation. One that fails leaves it as it was. -/
def BufferOp.apply (b : L0Buffer V) : BufferOp V → L0Buffer V
  | .insertVertexWithLabels vid properties labels now =>
    b.insertVertexWithLabels vid properties labels now
  | .updateVertexWithLabels vid properties labels now =>
    b.updateVertexWithLabels vid properties labels now
  | .deleteVertex vid => (b.deleteVertex vid).1
  | .addVertexLabels vid labels => b.addVertexLabels vid labels
  | .setVertexLabels vid labels => b.setVertexLabels vid labels
  | .relabelVertex vid previous labels => b.relabelVertex vid previous labels
  | .removeVertexLabel vid label => (b.removeVertexLabel vid label).1
  | .insertEdge src dst edgeType eid properties name now =>
    b.orBumped (b.insertEdge src dst edgeType eid properties name now)
  | .deleteEdge eid src dst edgeType now => b.deleteEdge eid src dst edgeType now
  | .merge other clock =>
    match b.merge other.1 clock with
    | .ok r => r.1
    | .error _ => b
  | .mergeTake other clock =>
    match b.mergeTake other.1 clock with
    | .ok r => r.1
    | .error _ => b
  | .replay mutation => b.replayMutation mutation

/-- When an operation on a buffer keeps the index exact. -/
def KeepsIndex (b : L0Buffer V) : BufferOp V → Prop
  | .insertVertexWithLabels vid _ labels _ | .updateVertexWithLabels vid _ labels _
  | .replay (.insertVertex vid _ labels _ _) =>
    -- a write that brings a deleted vertex back has to name its old labels
    vid ∈ b.vertexTombstones → b.labelsOf vid ⊆ labels
  | .addVertexLabels vid labels | .setVertexLabels vid labels | .relabelVertex vid _ labels
  | .replay (.setVertexLabels vid labels) =>
    -- a deleted vertex gets no labels
    vid ∈ b.vertexTombstones → labels = []
  | .removeVertexLabel vid label =>
    vid ∉ b.vertexTombstones → (b.labelsOf vid).count label ≤ 1
  | .merge other _ | .mergeTake other _ =>
    b.validateMergeEdgeEndpoints other.1 = .ok () → ∀ v, (b.vertexView v).MergeKeeps other.1 v
  | .deleteVertex _ | .insertEdge .. | .deleteEdge .. | .replay (.deleteVertex ..)
  | .replay (.insertEdge ..) | .replay (.deleteEdge ..) => True

/-- The two merges, whose outcomes agree on the vertices. -/
theorem merged_indexExact_iff {other : L0Buffer V} (h : IndexExact b) (clock : Clock)
    (hview : ∀ v, c.vertexView v = ((b.vertexView v).merged other (other.vertexProperties.lookup v)
      (clock.vertex v) v).mergeTimes (other.vertexCreatedAt.lookup v)
        (other.vertexUpdatedAt.lookup v)) :
    IndexExact c ↔ ∀ v, (b.vertexView v).MergeKeeps other v := by
  rw [indexExact_iff_view] at h ⊢
  refine forall_congr' fun v => ?_
  rw [hview v, ← merged_exact_iff other (clock.vertex v) v (h v)]
  rfl

theorem merge_indexExact_iff (h : IndexExact b) (other : { b : L0Buffer V // IndexExact b })
    (clock : Clock) : (IndexExact ((BufferOp.merge other clock).apply b) ↔
        KeepsIndex b (.merge other clock)) ∧
      (IndexExact ((BufferOp.mergeTake other clock).apply b) ↔
        KeepsIndex b (.mergeTake other clock)) := by
  simp only [BufferOp.apply, KeepsIndex]
  cases hvalid : b.validateMergeEdgeEndpoints other.1 with
  | error =>
    rcases merge_error clock hvalid with ⟨hm, ht⟩
    simp only [hm, ht, reduceCtorEq, false_imp_iff, iff_true]
    exact ⟨h, h⟩
  | ok =>
    rcases merge_spec clock hvalid with ⟨r, hr, hview, -⟩
    rcases mergeTake_spec clock hvalid with ⟨r', hr', hview', -⟩
    simp only [hr, hr', forall_const]
    exact ⟨merged_indexExact_iff h clock hview, merged_indexExact_iff h clock hview'⟩

theorem replay_indexExact_iff (h : IndexExact b) (mutation : Mutation V) :
    IndexExact (b.replayMutation mutation) ↔ KeepsIndex b (.replay mutation) := by
  have hv := (indexExact_iff_view b).mp h
  cases mutation with
  | insertVertex vid properties labels createdAt updatedAt =>
    refine (indexExact_at h vid _ (vertexView_replayInsertVertex b vid properties labels
      createdAt updatedAt)).trans ?_
    exact (hv vid).write_exact_iff properties labels createdAt updatedAt
  | deleteVertex vid labels =>
    refine (indexExact_at h vid (fun w => (if labels = [] then w else w.append labels).delete)
      (vertexView_replayDeleteVertex b vid labels)).trans ?_
    refine iff_of_true ?_ trivial
    by_cases hl : labels = []
    · simp only [if_pos hl]
      exact (hv vid).listed.delete_exact
    · simp only [if_neg hl]
      exact ((hv vid).listed.append labels).delete_exact
  | setVertexLabels vid labels =>
    refine (indexExact_at h vid _ (vertexView_replaySetVertexLabels b vid labels)).trans ?_
    exact (hv vid).listed.setLabels_exact_iff labels
  | insertEdge src dst edgeType eid version properties name createdAt updatedAt =>
    refine iff_of_true ((indexExact_congr ?_).mpr h) trivial
    exact vertexView_replayInsertEdge b src dst edgeType eid properties name createdAt updatedAt
  | deleteEdge =>
    exact iff_of_true ((indexExact_congr rfl).mpr h) trivial

theorem keepsIndex_iff (h : IndexExact b) (op : BufferOp V) :
    IndexExact (op.apply b) ↔ KeepsIndex b op := by
  have hv := (indexExact_iff_view b).mp h
  cases op with
  | insertVertexWithLabels vid properties labels now
  | updateVertexWithLabels vid properties labels now =>
    refine (indexExact_at h vid _ (vertexView_insertVertexWithLabelsImpl b vid properties labels
      now)).trans ?_
    exact (hv vid).write_exact_iff properties labels (some now) (some now)
  | deleteVertex vid =>
    refine (indexExact_at h vid _ (vertexView_deleteVertexImpl b vid)).trans ?_
    exact iff_of_true (hv vid).listed.delete_exact trivial
  | addVertexLabels vid labels =>
    refine (indexExact_at h vid _ (vertexView_appendLabels b vid labels)).trans ?_
    exact (hv vid).append_exact_iff labels
  | setVertexLabels vid labels =>
    refine (indexExact_at h vid _ (vertexView_replaceLabels b vid labels)).trans ?_
    exact (hv vid).listed.setLabels_exact_iff labels
  | relabelVertex vid previous labels =>
    refine (indexExact_at h vid _ (vertexView_relabelVertex b vid previous labels)).trans ?_
    exact (hv vid).listed.setLabels_exact_iff labels
  | removeVertexLabel vid label =>
    refine (indexExact_at h vid _ (vertexView_removeVertexLabel b vid label)).trans ?_
    exact (hv vid).removeLabel_exact_iff label
  | insertEdge src dst edgeType eid properties name now =>
    refine iff_of_true ?_ trivial
    show IndexExact (b.orBumped (b.insertEdge src dst edgeType eid properties name now))
    cases hins : b.insertEdge src dst edgeType eid properties name now with
    | error => exact (indexExact_congr (vertexView_bumpVersion b)).mpr h
    | ok => exact (indexExact_congr (insertEdgeImpl_vertexView hins)).mpr h
  | deleteEdge eid src dst edgeType now =>
    exact iff_of_true ((indexExact_congr rfl).mpr h) trivial
  | merge other clock => exact (merge_indexExact_iff h other clock).1
  | mergeTake other clock => exact (merge_indexExact_iff h other clock).2
  | replay mutation => exact replay_indexExact_iff h mutation

/-- A run from an empty buffer keeps the index exact after each of its
    operations if and only if all of them meet the condition. -/
theorem indexExact_run_iff (startVersion : Nat) (ops : List (BufferOp V)) : (∀ pre b, pre <+: ops →
        run (fun b op => some (BufferOp.apply b op)) (L0Buffer.new startVersion) pre = some b →
          IndexExact b) ↔
      EveryStep (fun b op => some (BufferOp.apply b op)) KeepsIndex (L0Buffer.new startVersion)
        ops := by
  have hrun := run_some BufferOp.apply (L0Buffer.new startVersion : L0Buffer V) ops
  refine forall_prefix_iff_everyStep (J := fun _ => True) (fun _ _ _ _ _ => trivial) ?_ trivial
    (new_indexExact startVersion) hrun
  intro b op c _ h hstep
  rw [← Option.some.inj hstep]
  exact keepsIndex_iff h op

/-- A vertex that is deleted and written again has its old label in its list,
    and the index does not know. -/
theorem not_indexExact_reinserted :
    ∃ b : L0Buffer DemoValue,
      run (fun b op => some (BufferOp.apply b op)) (L0Buffer.new 0)
        [.insertVertexWithLabels 1 ∅ ["A"] 0, .deleteVertex 1,
          .insertVertexWithLabels 1 ∅ [] 0] = some b ∧
      1 ∉ b.vertexTombstones ∧ b.labelsOf 1 = ["A"] ∧ b.vidsForLabel "A" = [] ∧ ¬ IndexExact b := by
  refine ⟨_, rfl, ?_, ?_, ?_, ?_⟩
  · decide
  · decide
  · decide
  · intro h
    have hmem := (h "A" 1).mpr ⟨by decide, by decide⟩
    exact absurd hmem (by decide)

end UniDb
