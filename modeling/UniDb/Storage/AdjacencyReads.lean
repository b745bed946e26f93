import UniDb.Storage.Adjacency

/-!
# Neighbor Reads and the Logical Edge Set

What `getNeighbors` returns after any sequence of writes and freezes, compared
with the set of edges that the writes describe.

The logical edges at a vertex are those of the Main CSR and those that were
inserted, without the ones that were tombstoned. A read agrees with them except
in one case: an edge id is inserted again after a segment with a tombstone for
it was frozen. A tombstone removes edges from its own and from older layers
only, so a read in one direction returns the edge again. A read in both
directions makes a second pass over the same result, and there the old tombstone
removes what the first pass found in newer layers. `Revives` is that case, and
`getNeighbors_logical_iff` says that there is no other.

## Main definitions

* `OverlayOp`: The writes, and the freeze that starts a compaction.
* `Logical`: The edges that a sequence of writes describes.
* `Revives`: An edge is live in a layer above a tombstone for it.

## Theorems

* `inserted_foldl`, `tombstoned_foldl`: The layers hold what was written.
* `mem_getNeighbors`: What a read returns, in terms of the layers.
* `getNeighbors_logical_iff`: When reads agree with the logical edges.
* `getNeighbors_revives`: A read after an edge was inserted again.
-/

namespace UniDb

open List

namespace Adjacency

inductive OverlayOp
  | insertEdge (src dst : Vid) (eid : Eid) (edgeType version : Nat)
  | addTombstone (eid : Eid) (src dst : Vid) (edgeType version : Nat)
  | freeze

namespace OverlayOp

def apply (m : AdjacencyManager) : OverlayOp → AdjacencyManager
  | .insertEdge src dst eid edgeType version => m.insertEdge src dst eid edgeType version
  | .addTombstone eid src dst edgeType version => m.addTombstone eid src dst edgeType version
  | .freeze => m.freeze

/-- The operation inserts an edge that a read of `key` at `vid` returns as `p`. -/
def Inserts (key : OverlayKey) (vid : Vid) (p : Vid × Eid) : OverlayOp → Prop
  | .insertEdge src dst eid edgeType _ =>
    (key = (edgeType, .outgoing) ∧ vid = src ∧ p = (dst, eid)) ∨
      (key = (edgeType, .incoming) ∧ vid = dst ∧ p = (src, eid))
  | _ => False

/-- The operation is a deletion of the edge. -/
def Deletes (eid : Eid) : OverlayOp → Prop
  | .addTombstone eid' _ _ _ _ => eid = eid'
  | _ => False

end OverlayOp

/-- The edges of one type and direction at a vertex: those of the Main CSR and
    the inserted ones, without the deleted ones. -/
def Logical (csr : AssocMap OverlayKey MainCsr) (ops : List OverlayOp) (vid : Vid) (edgeType : Nat)
    (direction : Direction) (p : Vid × Eid) : Prop :=
  (∃ dir ∈ direction.expand,
    (∃ main, csr.lookup (edgeType, dir) = some main ∧
      ∃ x ∈ main.getEntries vid, (x.neighborVid, x.eid) = p) ∨
    ∃ op ∈ ops, op.Inserts (edgeType, dir) vid p) ∧
  ∀ op ∈ ops, ¬ op.Deletes p.2

/-- A manager whose Main CSR has been set, without any writes. -/
def AdjacencyManager.overCsr (csr : AssocMap OverlayKey MainCsr) : AdjacencyManager :=
  { AdjacencyManager.new with mainCsr := csr }

namespace L0CsrSegment

theorem hides_all_eq_true_iff (s : L0CsrSegment) (eid : Eid) :
    s.hides (.atMost none) eid = true ↔ eid ∈ s.tombstones := by
  rw [hides, AssocMap.mem_iff_lookup]
  cases s.tombstones.lookup eid <;> simp

end L0CsrSegment

/-- Some layer has the edge among its inserts. -/
def Inserted (layers : List L0CsrSegment) (key : OverlayKey) (vid : Vid) (p : Vid × Eid) : Prop :=
  ∃ s ∈ layers, ∃ version, (⟨p.1, p.2, version⟩ : CsrEdgeEntry) ∈ s.entriesFor key vid

/-- Some layer has a tombstone for the edge. -/
def Tombstoned (layers : List L0CsrSegment) (eid : Eid) : Prop :=
  ∃ s ∈ layers, eid ∈ s.tombstones

section Layers

variable {layers : List L0CsrSegment} {key : OverlayKey} {vid : Vid} {p : Vid × Eid}

theorem inserted_append_singleton (frozen : List L0CsrSegment) (s : L0CsrSegment) :
    Inserted (frozen ++ [s]) key vid p ↔ Inserted frozen key vid p ∨
      ∃ version, (⟨p.1, p.2, version⟩ : CsrEdgeEntry) ∈ s.entriesFor key vid := by
  simp [Inserted, or_and_right, exists_or]

theorem tombstoned_append_singleton (frozen : List L0CsrSegment) (s : L0CsrSegment) (eid : Eid) :
    Tombstoned (frozen ++ [s]) eid ↔ Tombstoned frozen eid ∨ eid ∈ s.tombstones := by
  simp [Tombstoned, or_and_right, exists_or]

theorem LiveIn.inserted {vis : RowVisibility} (h : LiveIn vis key vid p layers) :
    Inserted layers key vid p := by
  induction layers with
  | nil => exact h.elim
  | cons s newer ih =>
    rcases h with ⟨hvis, _⟩ | hlive
    · rcases (mem_visibleEdges _ _ _).mp hvis with ⟨version, hx, _⟩
      exact ⟨s, mem_cons_self, version, hx⟩
    · rcases ih hlive with ⟨t, ht, hx⟩
      exact ⟨t, mem_cons_of_mem s ht, hx⟩

/-- The newest layer does not hide a live edge. -/
theorem LiveIn.newest_unhidden {vis : RowVisibility} {frozen : List L0CsrSegment}
    {active : L0CsrSegment} (h : LiveIn vis key vid p (frozen ++ [active])) :
    active.hides vis p.2 = false := by
  induction frozen with
  | nil =>
    rcases h with ⟨_, hunhidden⟩ | hnone
    · exact hunhidden active mem_cons_self
    · exact hnone.elim
  | cons s frozen ih =>
    rcases h with ⟨_, hunhidden⟩ | hlive
    · exact hunhidden active (mem_append_right (s :: frozen) mem_cons_self)
    · exact ih hlive

theorem Inserted.liveIn (h : Inserted layers key vid p)
    (hunhidden : ∀ s ∈ layers, s.hides (.atMost none) p.2 = false) :
    LiveIn (.atMost none) key vid p layers := by
  induction layers with
  | nil =>
    rcases h with ⟨s, hs, _⟩
    cases hs
  | cons s newer ih =>
    rcases h with ⟨t, ht, version, hx⟩
    rcases mem_cons.mp ht with rfl | hnewer
    · exact .inl ⟨(mem_visibleEdges _ _ _).mpr ⟨version, hx, rfl⟩, hunhidden⟩
    · exact .inr (ih ⟨t, hnewer, version, hx⟩ fun u hu => hunhidden u (mem_cons_of_mem s hu))

theorem unhidden_iff (layers : List L0CsrSegment) (eid : Eid) :
    (∀ s ∈ layers, s.hides (.atMost none) eid = false) ↔ ¬ Tombstoned layers eid := by
  simp only [Tombstoned, not_exists, not_and, ← L0CsrSegment.hides_all_eq_true_iff,
    Bool.not_eq_true]

end Layers

namespace OverlayOp

variable (m : AdjacencyManager) (op : OverlayOp)

theorem inserted_apply (key : OverlayKey) (vid : Vid) (p : Vid × Eid) :
    Inserted (op.apply m).layers key vid p ↔ Inserted m.layers key vid p ∨
      op.Inserts key vid p := by
  cases op with
  | insertEdge =>
    simp only [apply, AdjacencyManager.layers, inserted_append_singleton, Inserts,
      AdjacencyManager.mem_entriesFor_insertEdge, CsrEdgeEntry.mk.injEq, exists_or, or_assoc,
      Prod.ext_iff, exists_and_left, exists_eq, and_true]
    rfl
  | addTombstone =>
    simp [apply, AdjacencyManager.addTombstone, AdjacencyManager.layers, Inserts,
      inserted_append_singleton]
  | freeze =>
    simp only [apply, AdjacencyManager.freeze, AdjacencyManager.layers, L0CsrSegment.freeze,
      Inserts, inserted_append_singleton, L0CsrSegment.entriesFor_new, not_mem_nil,
      exists_false]

theorem tombstoned_apply (eid : Eid) :
    Tombstoned (op.apply m).layers eid ↔ Tombstoned m.layers eid ∨ op.Deletes eid := by
  cases op with
  | insertEdge =>
    simp [apply, AdjacencyManager.insertEdge, AdjacencyManager.layers, L0CsrSegment.insertEdge,
      Deletes, tombstoned_append_singleton]
  | addTombstone =>
    simp only [apply, AdjacencyManager.addTombstone, AdjacencyManager.layers,
      L0CsrSegment.addTombstone, Deletes, tombstoned_append_singleton, AList.mem_insert]
    rw [or_assoc, or_comm (b := _ = _), eq_comm]
  | freeze =>
    simp only [apply, AdjacencyManager.freeze, AdjacencyManager.layers, L0CsrSegment.freeze,
      Deletes, tombstoned_append_singleton, L0CsrSegment.new, AList.notMem_empty]

end OverlayOp

section Ops

variable (ops : List OverlayOp) (m : AdjacencyManager)

theorem inserted_foldl (key : OverlayKey) (vid : Vid) (p : Vid × Eid) :
    Inserted (ops.foldl OverlayOp.apply m).layers key vid p ↔
      Inserted m.layers key vid p ∨ ∃ op ∈ ops, op.Inserts key vid p := by
  induction ops generalizing m with
  | nil => simp
  | cons op ops ih =>
    rw [foldl_cons, ih, OverlayOp.inserted_apply]
    simp only [mem_cons, exists_eq_or_imp, or_assoc]

theorem tombstoned_foldl (eid : Eid) :
    Tombstoned (ops.foldl OverlayOp.apply m).layers eid ↔
      Tombstoned m.layers eid ∨ ∃ op ∈ ops, op.Deletes eid := by
  induction ops generalizing m with
  | nil => simp
  | cons op ops ih =>
    rw [foldl_cons, ih, OverlayOp.tombstoned_apply]
    simp only [mem_cons, exists_eq_or_imp, or_assoc]

theorem mainCsr_foldl : (ops.foldl OverlayOp.apply m).mainCsr = m.mainCsr := by
  induction ops generalizing m with
  | nil => rfl
  | cons op ops ih =>
    rw [foldl_cons, ih]
    cases op <;> rfl

end Ops

namespace AdjacencyManager

variable (m : AdjacencyManager)

/-- The edges of the Main CSR at a vertex. -/
def InMain (key : OverlayKey) (vid : Vid) (p : Vid × Eid) : Prop :=
  ∃ version, (⟨p.1, p.2, version⟩ : CsrEdgeEntry) ∈ m.mainEntries key vid

theorem mem_readDirection (vid : Vid) (edgeType : Nat)
    (result : List (Vid × Eid)) (dir : Direction) (p : Vid × Eid) :
    p ∈ m.readDirection vid edgeType result dir ↔
      ((p ∈ result ∨ m.InMain (edgeType, dir) vid p) ∧ ¬ Tombstoned m.layers p.2) ∨
        LiveIn (.atMost none) (edgeType, dir) vid p m.layers := by
  rw [mem_readDirection_iff, mem_readVisible, shadow_getEntriesVisible_all, Unhidden, unhidden_iff,
    mem_visibleEdges]
  simp [InMain]

/-- What a read returns. The second pass of a read in both directions applies
    every tombstone to what the first pass found. -/
theorem mem_getNeighbors (vid : Vid) (edgeType : Nat)
    (direction : Direction) (p : Vid × Eid) :
    p ∈ m.getNeighbors vid edgeType direction ↔
      ∃ dir ∈ direction.expand, (m.InMain (edgeType, dir) vid p ∧ ¬ Tombstoned m.layers p.2) ∨
        (LiveIn (.atMost none) (edgeType, dir) vid p m.layers ∧
          (direction = .both → dir = .outgoing → ¬ Tombstoned m.layers p.2)) := by
  rw [getNeighbors, mem_intoCanonicalOrder]
  cases direction with
  | outgoing | incoming => simp [Direction.expand, mem_readDirection]
  | both =>
    simp only [Direction.expand, foldl_cons, foldl_nil, mem_readDirection,
      mem_cons, not_mem_nil, or_false, exists_eq_or_imp, exists_eq_left,
      reduceCtorEq, false_implies, and_true, forall_const]
    tauto

end AdjacencyManager

open AdjacencyManager

/-- An edge is live in a layer above one that has a tombstone for it. -/
def Revives (m : AdjacencyManager) : Prop :=
  ∃ edgeType vid p direction, ∃ dir ∈ Direction.expand direction,
    LiveIn (.atMost none) (edgeType, dir) vid p m.layers ∧ Tombstoned m.layers p.2

theorem expand_of_mem_expand {direction dir : Direction} (h : dir ∈ direction.expand) :
    dir.expand = [dir] := by
  cases direction <;> simp [Direction.expand] at h
  · rw [h]; rfl
  · rw [h]; rfl
  · rcases h with h | h <;> rw [h] <;> rfl

/-- A list in canonical order has no edge id twice exactly if no id comes with two neighbors. -/
theorem nodup_eids_iff {l : List (Vid × Eid)} (h : l.Pairwise fun a b => neighborLe a b ∧ a ≠ b) :
    (l.map Prod.snd).Nodup ↔ ∀ n n' e, (n, e) ∈ l → (n', e) ∈ l → n = n' := by
  constructor
  · intro hnodup n n' e hn hn'
    exact congrArg Prod.fst (inj_on_of_nodup_map hnodup hn hn' rfl)
  · intro hone
    refine List.Nodup.map_on ?_ (h.imp fun hab => hab.2)
    rintro ⟨n, e⟩ hn ⟨n', e'⟩ hn' heq
    have heq' : e = e' := heq
    subst heq'
    rw [hone n n' e hn hn']

section Reads

variable (csr : AssocMap OverlayKey MainCsr) (ops : List OverlayOp)

/-- The state after the operations. -/
def after : AdjacencyManager := ops.foldl OverlayOp.apply (overCsr csr)

theorem inserted_after (key : OverlayKey) (vid : Vid) (p : Vid × Eid) :
    Inserted (after csr ops).layers key vid p ↔ ∃ op ∈ ops, op.Inserts key vid p := by
  rw [after, inserted_foldl]
  simp [Inserted, overCsr, new, layers]

theorem tombstoned_after (eid : Eid) :
    Tombstoned (after csr ops).layers eid ↔ ∃ op ∈ ops, op.Deletes eid := by
  rw [after, tombstoned_foldl]
  simp [Tombstoned, overCsr, new, layers,
    L0CsrSegment.new]

theorem inMain_after (key : OverlayKey) (vid : Vid) (p : Vid × Eid) :
    (after csr ops).InMain key vid p ↔ ∃ main, csr.lookup key = some main ∧
      ∃ x ∈ main.getEntries vid, (x.neighborVid, x.eid) = p := by
  rw [AdjacencyManager.InMain, mainEntries, after, mainCsr_foldl]
  cases hmain : csr.lookup key with
  | none => simp [overCsr, hmain]
  | some =>
    simp only [overCsr, hmain, Option.some.injEq, exists_eq_left']
    constructor
    · rintro ⟨version, hx⟩
      exact ⟨_, hx, rfl⟩
    · rintro ⟨x, hx, rfl⟩
      exact ⟨x.createdVersion, hx⟩

theorem logical_iff (vid : Vid) (edgeType : Nat) (direction : Direction) (p : Vid × Eid) :
    Logical csr ops vid edgeType direction p ↔
      (∃ dir ∈ direction.expand, (after csr ops).InMain (edgeType, dir) vid p ∨
        Inserted (after csr ops).layers (edgeType, dir) vid p) ∧
      ¬ Tombstoned (after csr ops).layers p.2 := by
  simp [Logical, inserted_after, tombstoned_after, inMain_after]

/-- Without a revived edge, a read returns the logical edges. -/
theorem mem_getNeighbors_iff_logical (h : ¬ Revives (after csr ops)) (vid : Vid) (edgeType : Nat)
    (direction : Direction) (p : Vid × Eid) :
    p ∈ (after csr ops).getNeighbors vid edgeType direction ↔
      Logical csr ops vid edgeType direction p := by
  rw [mem_getNeighbors, logical_iff]
  constructor
  · rintro ⟨dir, hdir, ⟨hmain, hlive⟩ | ⟨hlive, _⟩⟩
    · exact ⟨⟨dir, hdir, .inl hmain⟩, hlive⟩
    · refine ⟨⟨dir, hdir, .inr hlive.inserted⟩, ?_⟩
      intro htomb
      exact h ⟨edgeType, vid, p, direction, dir, hdir, hlive, htomb⟩
  · rintro ⟨⟨dir, hdir, hmain | hins⟩, hlive⟩
    · exact ⟨dir, hdir, .inl ⟨hmain, hlive⟩⟩
    · exact ⟨dir, hdir, .inr ⟨hins.liveIn ((unhidden_iff _ _).mpr hlive), fun _ _ => hlive⟩⟩

theorem not_revives_of_forall_logical
    (h : ∀ vid edgeType direction p, p ∈ (after csr ops).getNeighbors vid edgeType direction ↔
      Logical csr ops vid edgeType direction p) : ¬ Revives (after csr ops) := by
  rintro ⟨edgeType, vid, p, direction, dir, hdir, hlive, htomb⟩
  have hexpand := expand_of_mem_expand hdir
  have hne : dir ≠ .both := by
    rintro rfl
    exact absurd hexpand (by decide)
  have hread : p ∈ (after csr ops).getNeighbors vid edgeType dir := by
    rw [mem_getNeighbors, hexpand]
    exact ⟨dir, mem_singleton_self dir, .inr ⟨hlive, fun hboth => absurd hboth hne⟩⟩
  exact ((logical_iff ..).mp ((h vid edgeType dir p).mp hread)).2 htomb

theorem mem_segmentVids {s : L0CsrSegment} {key : OverlayKey} {vid : Vid}
    (h : s.entriesFor key vid ≠ []) : vid ∈ segmentVids s key := by
  rw [L0CsrSegment.entriesFor, AssocMap.lookup₂] at h
  rw [segmentVids]
  cases hadj : s.inserts.lookup key with
  | none => simp [hadj] at h
  | some =>
    rw [hadj, Option.bind_some] at h
    refine AList.mem_keys.mp ?_
    by_contra hnot
    rw [AssocMap.notMem_iff_lookup.mp hnot] at h
    exact h rfl

theorem mem_collectSourceVids (m : AdjacencyManager) (edgeType : Nat) (direction : Direction)
    (includeShadow : Bool) (out : List Vid) (vid : Vid)
    (h : ∃ dir ∈ direction.expand, vid ∈ m.mainVids (edgeType, dir) ∨
      ∃ s ∈ m.layers, vid ∈ segmentVids s (edgeType, dir)) :
    vid ∈ m.collectSourceVids edgeType direction includeShadow out := by
  rcases h with ⟨dir, hdir, h⟩
  have hone : ∀ out : List Vid, vid ∈ out ++ m.mainVids (edgeType, dir) ++
      m.frozenSegments.flatMap (segmentVids · (edgeType, dir)) ++
      segmentVids m.activeOverlay (edgeType, dir) ++
      if includeShadow then m.shadow.collectVids edgeType dir else [] := by
    intro out
    rcases h with hmain | ⟨s, hs, hvid⟩
    · simp [hmain]
    · rcases mem_append.mp hs with hfrozen | hactive
      · have hmem : vid ∈ m.frozenSegments.flatMap
            (segmentVids · (edgeType, dir)) :=
          mem_flatMap.mpr ⟨s, hfrozen, hvid⟩
        simp [hmem]
      · rw [mem_singleton.mp hactive] at hvid
        simp [hvid]
  rw [collectSourceVids]
  cases direction with
  | outgoing | incoming =>
    rw [mem_singleton.mp hdir] at hone
    exact hone out
  | both =>
    simp only [Direction.expand, foldl_cons, foldl_nil]
    simp only [Direction.expand, mem_cons, not_mem_nil, or_false] at hdir
    rcases hdir with rfl | rfl
    · -- found in the first direction, and the second one only adds
      exact mem_append_left _ (mem_append_left _ (mem_append_left _ (mem_append_left _ (hone out))))
    · exact hone _

theorem getNeighbors_sources (m : AdjacencyManager) (vid : Vid) (edgeType : Nat)
    (direction : Direction) (h : m.getNeighbors vid edgeType direction ≠ []) (includeShadow : Bool)
    (out : List Vid) : vid ∈ m.collectSourceVids edgeType direction includeShadow out := by
  rcases exists_mem_of_ne_nil _ h with ⟨p, hp⟩
  refine mem_collectSourceVids m edgeType direction includeShadow out vid ?_
  rcases (m.mem_getNeighbors ..).mp hp with
    ⟨dir, hdir, ⟨⟨version, hx⟩, _⟩ | ⟨hlive, _⟩⟩
  · refine ⟨dir, hdir, .inl ?_⟩
    rw [mainEntries] at hx
    rw [mainVids]
    cases hmain : m.mainCsr.lookup (edgeType, dir) with
    | none => simp [hmain] at hx
    | some csr =>
      rw [hmain] at hx
      exact (csr.mem_vidsWithEntries vid).mpr (ne_nil_of_mem hx)
  · rcases hlive.inserted with ⟨s, hs, version, hx⟩
    exact ⟨dir, hdir, .inr ⟨s, hs, mem_segmentVids (ne_nil_of_mem hx)⟩⟩

/-- After every sequence of inserts, tombstones and freezes over a Main CSR, a read is in canonical
    order and only for vertices that are collected as sources. All reads return exactly the logical
    edges, each id once, if and only if no edge has been inserted above a tombstone for it and no id
    comes with two neighbors. -/
theorem getNeighbors_logical_iff : (∀ vid edgeType direction,
      ((after csr ops).getNeighbors vid edgeType direction).Pairwise
        (fun a b => neighborLe a b ∧ a ≠ b) ∧
      ((after csr ops).getNeighbors vid edgeType direction ≠ [] →
        ∀ includeShadow out,
          vid ∈ (after csr ops).collectSourceVids edgeType direction includeShadow out)) ∧
    ((∀ vid edgeType direction,
        (((after csr ops).getNeighbors vid edgeType direction).map Prod.snd).Nodup ∧
        ∀ p, p ∈ (after csr ops).getNeighbors vid edgeType direction ↔
          Logical csr ops vid edgeType direction p) ↔
      ¬ Revives (after csr ops) ∧
        ∀ vid edgeType direction n n' e, Logical csr ops vid edgeType direction (n, e) →
          Logical csr ops vid edgeType direction (n', e) → n = n') := by
  have hsorted : ∀ vid edgeType direction,
      ((after csr ops).getNeighbors vid edgeType direction).Pairwise
        (fun a b => neighborLe a b ∧ a ≠ b) :=
    fun vid edgeType direction => intoCanonicalOrder_pairwise _
  refine ⟨fun vid edgeType direction => ⟨hsorted vid edgeType direction,
    getNeighbors_sources _ vid edgeType direction⟩, ?_⟩
  constructor
  · intro h
    refine ⟨not_revives_of_forall_logical csr ops fun v t d => (h v t d).2, ?_⟩
    intro vid edgeType direction n n' e hn hn'
    have hread := (h vid edgeType direction).2
    exact (nodup_eids_iff (hsorted vid edgeType direction)).mp (h vid edgeType direction).1 n n' e
      ((hread _).mpr hn) ((hread _).mpr hn')
  · rintro ⟨hrevives, hone⟩ vid edgeType direction
    have hread := mem_getNeighbors_iff_logical csr ops hrevives vid edgeType direction
    refine ⟨(nodup_eids_iff (hsorted vid edgeType direction)).mpr ?_, hread⟩
    intro n n' e hn hn'
    exact hone vid edgeType direction n n' e ((hread _).mp hn) ((hread _).mp hn')

end Reads

/-- An edge is inserted, deleted, and inserted again once its tombstone has been frozen. -/
def reviveOps : List OverlayOp :=
  [.insertEdge 1 2 7 0 1, .addTombstone 7 1 2 0 2, .freeze, .insertEdge 1 2 7 0 3]

/-- The outgoing read returns the edge although a layer has a tombstone for it,
    and the read in both directions does not. -/
theorem getNeighbors_revives :
    ¬ Logical ∅ reviveOps 1 0 .outgoing (2, 7) ∧
      (after ∅ reviveOps).getNeighbors 1 0 .outgoing = [(2, 7)] ∧
      (after ∅ reviveOps).getNeighbors 1 0 .both = [] := by
  refine ⟨?_, by decide, by decide⟩
  rintro ⟨_, hdeletes⟩
  exact hdeletes (.addTombstone 7 1 2 0 2) (by simp [reviveOps]) rfl

end Adjacency

end UniDb
