import UniDb.Runtime.Transaction
import UniDb.Runtime.MergeView

/-!
# The Check Before the Commit Point

A commit flushes its records to the WAL and merges its buffer into the current
one after that. The transaction is durable between the two, so the merge must
not fail any more: the writer looks for edges at deleted vertices before the
flush.

The two checks do not ask the same question. The one before the flush walks the
buffers from the newest to the oldest, the transaction's, the current one, the
pending ones, and takes the word of the first that knows the vertex, properties
before tombstones. The one inside the merge only looks at the tombstones of the
two buffers it merges. Where a buffer has properties and a tombstone for one
vertex, the first check passes and the second fails. So the merge cannot fail
as long as the current buffer has no such vertex, whatever the pending buffers
hold.

This is what every write keeps. Seeding is the exception: it copies CRDT values
of pending buffers into the current one and leaves the tombstones. It does so
only for vertices that the write that follows inserts, and this write takes the
tombstone away.

## Main definitions

* `validateEdgeEndpointsOverlay`: The check before the WAL flush.
* `seedCrdtStateFromChain`: The CRDT values taken over from pending buffers.
* `MainOp`: What happens to the current buffer.
* `L0Buffer.Live`: No vertex has properties and a tombstone.

## Theorems

* `MainOp.live_apply`: Every operation on the current buffer keeps this.
* `mergeTake_ok_of_overlay`: After the check the merge succeeds.
-/

namespace UniDb

variable {V : Type}

namespace L0Buffer

/-- The buffer that takes the place of a frozen one. Its read set does not go
    along, everything else does. -/
def clone (b : L0Buffer V) : L0Buffer V := { b with occReadSet := none }

/-- What a buffer knows about the deletion of a vertex. An insert clears the
    tombstone, so the properties are asked first. -/
def knowsDeleted (b : L0Buffer V) (vid : Vid) : Option Bool :=
  if vid ∈ b.vertexProperties then some false
  else if vid ∈ b.vertexTombstones then some true
  else none

/-- Whether the first buffer that knows the vertex has it deleted: the
    transaction's, the current one, then the pending ones from the newest. -/
def effectivelyDeleted (tx current : L0Buffer V) (chain : List (L0Buffer V)) (vid : Vid) : Bool :=
  ((tx :: current :: chain.reverse).findSome? (knowsDeleted · vid)).getD false

/-- Refuse a transaction that inserts an edge at a deleted vertex. -/
def validateEdgeEndpointsOverlay (tx current : L0Buffer V) (chain : List (L0Buffer V)) :
    Except String Unit :=
  forM tx.edgeEndpoints.toList fun (eid, src, dst, _) =>
    -- a deletion never brings a vertex back
    if eid ∈ tx.tombstones then .ok ()
    else if effectivelyDeleted tx current chain src then
      .error ("Cannot insert edge " ++ toString eid ++ ": source vertex " ++ toString src ++
        " has been deleted (issue #77)")
    else if effectivelyDeleted tx current chain dst then
      .error ("Cannot insert edge " ++ toString eid ++ ": destination vertex " ++ toString dst ++
        " has been deleted (issue #77)")
    else .ok ()

section Seed

variable [PropertyValue V]

/-- Seed one property. The newest pending buffer that has the property decides,
    also when its value is no CRDT. -/
def seedCrdtProp (chain : List (L0Buffer V)) (vid : Vid) (target : L0Buffer V)
    (kv : String × V) : L0Buffer V :=
  if (PropertyValue.tryAsCrdt kv.2).isNone then target
  else if (target.vertexProperties.lookup₂ vid kv.1).isSome then target
  else match chain.reverse.findSome? (fun g => g.vertexProperties.lookup₂ vid kv.1) with
    | none => target
    | some v =>
      if (PropertyValue.tryAsCrdt v).isSome then
        { target with vertexProperties := target.vertexProperties.insert₂ vid kv.1 v }
      else target

/-- Seed the properties that a write gives one vertex. -/
def seedCrdtProps (chain : List (L0Buffer V)) (vid : Vid) (props : Properties V)
    (target : L0Buffer V) : L0Buffer V :=
  props.toList.foldl (seedCrdtProp chain vid) target

/-- Seed what a transaction writes. -/
def seedCrdtStateFromChain (chain : List (L0Buffer V)) (tx main : L0Buffer V) : L0Buffer V :=
  if chain.isEmpty then main
  else tx.vertexProperties.toList.foldl (fun main e => seedCrdtProps chain e.1 e.2 main) main

end Seed

end L0Buffer

open L0Buffer AssocMap

/-- What happens to the current buffer, with the pending buffers of the moment:
    a write outside a transaction, the commit of a transaction's buffer, a
    record of the WAL, and the copy made for a snapshot. -/
inductive MainOp (V : Type)
  | write (chain : List (L0Buffer V)) (op : TxOp V)
  | commit (chain : List (L0Buffer V)) (tx : L0Buffer V) (clock : Clock)
  | replay (mutation : Mutation V)
  | freeze

section Apply

variable [PropertyValue V]

/-- A write outside a transaction. It seeds the vertex it writes. -/
def MainOp.applyWrite (chain : List (L0Buffer V)) (main : L0Buffer V) (op : TxOp V) :
    L0Buffer V :=
  match op with
  | .insertVertex vid properties _ _ | .updateVertex vid properties _ _ =>
    op.apply (if chain.isEmpty then main else seedCrdtProps chain vid properties main)
  | op => op.apply main

/-- The merge of a commit. If it failed the seeded values would stay. -/
def MainOp.applyCommit (chain : List (L0Buffer V)) (tx : L0Buffer V) (clock : Clock)
    (main : L0Buffer V) : L0Buffer V :=
  match validateEdgeEndpointsOverlay tx main chain with
  | .error _ => main
  | .ok _ =>
    let seeded := seedCrdtStateFromChain chain tx main
    match seeded.mergeTake tx clock with
    | .ok r => r.1
    | .error _ => seeded

/-- The current buffer after an operation. -/
def MainOp.apply (main : L0Buffer V) : MainOp V → L0Buffer V
  | .write chain op => MainOp.applyWrite chain main op
  | .commit chain tx clock => MainOp.applyCommit chain tx clock main
  | .replay mutation => main.replayMutation mutation
  | .freeze => main.clone

/-- The current buffer after operations on an empty one. -/
def MainOp.after (startVersion : Nat) (ops : List (MainOp V)) : L0Buffer V :=
  ops.foldl MainOp.apply (L0Buffer.new startVersion)

end Apply

/-- A vertex with properties has no tombstone. -/
def VertexView.Live (w : VertexView V) : Prop := w.props.isSome → ¬ w.dead

namespace VertexView

theorem delete_live (w : VertexView V) : w.delete.Live := by
  intro hprops
  exact absurd hprops Bool.false_ne_true

variable [PropertyValue V]

/-- The properties of a vertex after a merge that does not write it. -/
theorem props_merged_none (other : L0Buffer V) (now : Int) (v : Vid) (w : VertexView V) :
    (w.merged other none now v).props = if v ∈ other.vertexTombstones then none else w.props := by
  have hadopt : ∀ x : VertexView V,
      ((other.vertexLabels.lookup v).elim x fun ls => x.adopt ls).props = x.props := by
    intro x
    cases other.vertexLabels.lookup v with
    | none => rfl
    | some ls => exact (adopt_frame ls x).2.1
  have hrelabel : ∀ x : VertexView V,
      (if v ∈ other.vertexLabelOverwrites ∧ v ∉ other.vertexTombstones then
        x.setLabels (other.labelsOf v) else x).props = x.props := by
    intro x
    split <;> rfl
  unfold merged
  simp only [hrelabel, hadopt, Option.elim_none]
  split <;> rfl

/-- A merge keeps this, and brings it about for the vertices it writes. -/
theorem merged_live (other : L0Buffer V) (props : Option (Properties V)) (now : Int) (v : Vid)
    {w : VertexView V} (h : props = none → w.Live) : (w.merged other props now v).Live := by
  intro hprops hdead
  rw [merged_dead_iff] at hdead
  rcases hdead with ⟨hdead, rfl⟩
  rw [props_merged_none] at hprops
  by_cases htomb : v ∈ other.vertexTombstones
  · rw [if_pos htomb] at hprops
    exact absurd hprops Bool.false_ne_true
  · rw [if_neg htomb] at hprops
    exact h rfl hprops (hdead.resolve_right htomb)

end VertexView

namespace L0Buffer

/-- No vertex has properties and a tombstone. -/
def Live (b : L0Buffer V) : Prop := ∀ v, (b.vertexView v).Live

theorem new_live (startVersion : Nat) : (L0Buffer.new startVersion : L0Buffer V).Live := by
  intro v hprops
  exact absurd hprops Bool.false_ne_true

variable {b : L0Buffer V}

theorem Live.congr {b' : L0Buffer V} (h : b.Live) (hview : b'.vertexView = b.vertexView) :
    b'.Live := by
  intro v
  rw [hview]
  exact h v

/-- A write that acts at one vertex, which need not have been live before. -/
theorem live_of_actsAt {b' : L0Buffer V} {vid : Vid} {f : VertexView V → VertexView V}
    (hview : ∀ v, b'.vertexView v = if v = vid then f (b.vertexView v) else b.vertexView v)
    (hothers : ∀ v, v ≠ vid → (b.vertexView v).Live) (hvid : (f (b.vertexView vid)).Live) :
    b'.Live := by
  intro v
  rw [hview]
  by_cases hv : v = vid
  · subst hv
    rw [if_pos rfl]
    exact hvid
  · rw [if_neg hv]
    exact hothers v hv

theorem live_backfillLabels (h : b.Live) (vid : Vid) (found : Option (List String)) :
    (b.backfillLabels vid found).Live := by
  unfold backfillLabels
  split
  · exact h
  · cases found with
    | none => exact h
    -- only the label list changes
    | some => exact h

theorem knowsDeleted_of_live (h : b.Live) (vid : Vid) :
    b.knowsDeleted vid = some true ↔ vid ∈ b.vertexTombstones := by
  unfold knowsDeleted
  by_cases hprops : vid ∈ b.vertexProperties
  · have hsome : (b.vertexView vid).props.isSome := AList.lookup_isSome.mpr hprops
    have htomb : vid ∉ b.vertexTombstones := h vid hsome
    simp [hprops, htomb]
  · simp [hprops]

variable {tx current : L0Buffer V} {chain : List (L0Buffer V)}

/-- A vertex that the check before the flush lets pass is one that the merge lets pass. -/
theorem deletedAfterMerge_of_effectivelyDeleted {vid : Vid} (hlive : current.Live)
    (h : effectivelyDeleted tx current chain vid = false) :
    current.deletedAfterMerge tx vid = false := by
  unfold deletedAfterMerge
  by_cases hprops : vid ∈ tx.vertexProperties
  · simp [hprops]
  -- the transaction has no tombstone, or the walk would have ended there
  have htx : vid ∉ tx.vertexTombstones := by
    intro htomb
    simp [effectivelyDeleted, knowsDeleted, hprops, htomb] at h
  -- and the current buffer has none, because of what it keeps
  have hcurrent : vid ∉ current.vertexTombstones := by
    intro htomb
    have hknows := (knowsDeleted_of_live hlive vid).mpr htomb
    have hsilent : tx.knowsDeleted vid = none := by simp [knowsDeleted, hprops, htx]
    simp [effectivelyDeleted, hsilent, hknows] at h
  simp [htx, hcurrent]

/-- The check before the flush, read as a condition. -/
theorem validateEdgeEndpointsOverlay_ok (h : validateEdgeEndpointsOverlay tx current chain = .ok ())
    {eid : Eid} {src dst : Vid} {etype : Nat}
    (hl : tx.edgeEndpoints.lookup eid = some (src, dst, etype)) (htomb : eid ∉ tx.tombstones) :
    effectivelyDeleted tx current chain src = false ∧
      effectivelyDeleted tx current chain dst = false := by
  unfold validateEdgeEndpointsOverlay at h
  rw [forM_ok_iff] at h
  have hx := h (eid, src, dst, etype) (mem_toList.mpr hl)
  simp only [if_neg htomb] at hx
  by_cases hs : effectivelyDeleted tx current chain src = true
  · simp [hs] at hx
  by_cases hd : effectivelyDeleted tx current chain dst = true
  · simp [hs, hd] at hx
  exact ⟨by simpa using hs, by simpa using hd⟩

theorem validateMerge_of_overlay (hlive : current.Live)
    (h : validateEdgeEndpointsOverlay tx current chain = .ok ()) :
    current.validateMergeEdgeEndpoints tx = .ok () := by
  rw [validateMergeEdgeEndpoints_ok_iff]
  intro eid src dst etype hl htomb
  rcases validateEdgeEndpointsOverlay_ok h hl htomb with ⟨hsrc, hdst⟩
  exact ⟨deletedAfterMerge_of_effectivelyDeleted hlive hsrc,
    deletedAfterMerge_of_effectivelyDeleted hlive hdst⟩

section Seed

variable [PropertyValue V] (chain : List (L0Buffer V)) (vid : Vid) {v : Vid}

theorem vertexTombstones_seedCrdtProp (target : L0Buffer V) (kv : String × V) :
    (seedCrdtProp chain vid target kv).vertexTombstones = target.vertexTombstones := by
  unfold seedCrdtProp
  split_ifs
  · rfl
  · rfl
  · split
    · rfl
    · split_ifs
      · rfl
      · rfl

theorem vertexView_seedCrdtProp (target : L0Buffer V) (kv : String × V)
    (hv : v ≠ vid) : (seedCrdtProp chain vid target kv).vertexView v = target.vertexView v := by
  unfold seedCrdtProp
  split_ifs
  · rfl
  · rfl
  · split
    · rfl
    · split_ifs
      · simp [vertexView, insert₂, hv]
      · rfl

theorem vertexTombstones_seedCrdtProps (props : Properties V) (target : L0Buffer V) :
    (seedCrdtProps chain vid props target).vertexTombstones = target.vertexTombstones :=
  foldl_eq_of_forall vertexTombstones (vertexTombstones_seedCrdtProp chain vid) props.toList target

theorem vertexView_seedCrdtProps (props : Properties V) (target : L0Buffer V) (hv : v ≠ vid) :
    (seedCrdtProps chain vid props target).vertexView v = target.vertexView v :=
  foldl_eq_of_forall (fun b => b.vertexView v)
    (fun target kv => vertexView_seedCrdtProp chain vid target kv hv) props.toList target

variable (tx main : L0Buffer V)

theorem vertexTombstones_seedCrdtStateFromChain :
    (seedCrdtStateFromChain chain tx main).vertexTombstones = main.vertexTombstones := by
  unfold seedCrdtStateFromChain
  split
  · rfl
  · exact foldl_eq_of_forall vertexTombstones
      (fun main (e : Vid × Properties V) =>
        vertexTombstones_seedCrdtProps chain e.1 e.2 main) _ main

theorem vertexView_seedCrdtStateFromChain (hv : v ∉ tx.vertexProperties) :
    (seedCrdtStateFromChain chain tx main).vertexView v = main.vertexView v := by
  unfold seedCrdtStateFromChain
  split
  · rfl
  · -- by induction over what the transaction writes, all of it other vertices
    have hne : ∀ e ∈ tx.vertexProperties.toList, v ≠ e.1 := by
      rintro e he rfl
      exact hv (mem_iff_lookup.mpr ⟨e.2, mem_toList.mp he⟩)
    generalize tx.vertexProperties.toList = written at hne
    induction written generalizing main with
    | nil => rfl
    | cons e written ih =>
      rw [List.foldl_cons, ih _ fun e he => hne e (List.mem_cons_of_mem _ he),
        vertexView_seedCrdtProps _ _ _ _ (hne e List.mem_cons_self)]

theorem validateMerge_seeded :
    (seedCrdtStateFromChain chain tx main).validateMergeEdgeEndpoints tx =
      main.validateMergeEdgeEndpoints tx := by
  unfold validateMergeEdgeEndpoints deletedAfterMerge
  rw [vertexTombstones_seedCrdtStateFromChain]

/-- The merge after the check, with what it makes of each vertex. -/
theorem mergeTake_seeded {tx main : L0Buffer V} {chain : List (L0Buffer V)} (clock : Clock)
    (hlive : main.Live) (h : validateEdgeEndpointsOverlay tx main chain = .ok ()) :
    ∃ r, (seedCrdtStateFromChain chain tx main).mergeTake tx clock = .ok r ∧ r.1.Live := by
  have hvalid : (seedCrdtStateFromChain chain tx main).validateMergeEdgeEndpoints tx = .ok () :=
    (validateMerge_seeded ..).trans (validateMerge_of_overlay hlive h)
  rcases mergeTake_spec clock hvalid with ⟨r, hr, hview, -⟩
  refine ⟨r, hr, fun v => ?_⟩
  rw [hview v]
  -- a seeded vertex is written by the merge, every other one is as it was
  refine VertexView.merged_live tx _ _ v fun hnone => ?_
  rw [vertexView_seedCrdtStateFromChain chain tx main (notMem_iff_lookup.mpr hnone)]
  exact hlive v

end Seed

end L0Buffer

section Run

variable [PropertyValue V] {b : L0Buffer V}

theorem live_insertEdge (h : b.Live) (src dst : Vid) (etype : Nat) (eid : Eid)
    (properties : Properties V) (name : Option String) (now : Int) :
    (b.orBumped (b.insertEdgeImpl src dst etype eid properties name now)).Live := by
  cases hins : b.insertEdgeImpl src dst etype eid properties name now with
  | error => exact h.congr (vertexView_bumpVersion b)
  | ok => exact h.congr (insertEdgeImpl_vertexView hins)

theorem MainOp.live_applyWrite (h : b.Live) (chain : List (L0Buffer V)) (op : TxOp V) :
    (MainOp.applyWrite chain b op).Live := by
  cases op with
  | insertVertex vid properties labels now | updateVertex vid properties labels now =>
    -- only the written vertex was seeded
    refine live_of_actsAt (vertexView_insertVertexWithLabelsImpl _ vid properties labels now)
      (fun v hv => ?_) fun _ hdead => hdead
    split
    · exact h v
    · rw [vertexView_seedCrdtProps chain vid properties b hv]
      exact h v
  | deleteVertex vid found =>
    exact live_of_actsAt (vertexView_deleteVertexImpl _ vid)
      (fun v _ => live_backfillLabels h vid found v) (VertexView.delete_live _)
  | relabelVertex vid previous labels =>
    exact live_of_actsAt (vertexView_relabelVertex b vid previous labels) (fun v _ => h v) (h vid)
  | insertEdge src dst etype eid properties name now =>
    exact live_insertEdge h src dst etype eid properties name now
  | updateEdge src dst etype eid properties name now =>
    exact live_insertEdge h src dst etype eid properties name now
  | deleteEdge | claimKey | claimEdgeKey | claimMergeKey => exact h.congr rfl

theorem live_replayMutation (h : b.Live) (mutation : Mutation V) :
    (b.replayMutation mutation).Live := by
  cases mutation with
  | insertVertex vid properties labels createdAt updatedAt =>
    exact live_of_actsAt (vertexView_replayInsertVertex b vid properties labels createdAt
      updatedAt) (fun v _ => h v) fun _ hdead => hdead
  | deleteVertex vid labels =>
    exact live_of_actsAt (f := fun w => (if labels = [] then w else w.append labels).delete)
      (vertexView_replayDeleteVertex b vid labels) (fun v _ => h v) (VertexView.delete_live _)
  | setVertexLabels vid labels =>
    exact live_of_actsAt (vertexView_replaySetVertexLabels b vid labels) (fun v _ => h v) (h vid)
  | insertEdge src dst etype eid version properties name createdAt updatedAt =>
    exact h.congr (vertexView_replayInsertEdge ..)
  | deleteEdge => exact h.congr rfl

/-- Every operation on the current buffer keeps properties and tombstones apart. -/
theorem MainOp.live_apply (h : b.Live) (op : MainOp V) : (op.apply b).Live := by
  cases op with
  | write chain op => exact MainOp.live_applyWrite h chain op
  | commit chain tx clock =>
    show (MainOp.applyCommit chain tx clock b).Live
    unfold MainOp.applyCommit
    cases hvalid : validateEdgeEndpointsOverlay tx b chain with
    | error => exact h
    | ok =>
      rcases mergeTake_seeded clock h hvalid with ⟨r, hr, hlive⟩
      simp only [hr]
      exact hlive
  | replay mutation => exact live_replayMutation h mutation
  | freeze => exact h.congr rfl

theorem MainOp.live_after (startVersion : Nat) (ops : List (MainOp V)) :
    (MainOp.after startVersion ops).Live :=
  List.foldlRecOn ops MainOp.apply (new_live startVersion) fun _ h op _ => MainOp.live_apply h op

/-- The merge after the WAL flush does not fail. The pending buffers and the
    transaction's buffer are arbitrary here. -/
theorem mergeTake_ok_of_overlay (startVersion : Nat) (ops : List (MainOp V))
    (chain : List (L0Buffer V)) (tx : L0Buffer V) (clock : Clock)
    (hvalid : validateEdgeEndpointsOverlay tx (MainOp.after startVersion ops) chain = .ok ()) :
    (∃ r, (seedCrdtStateFromChain chain tx (MainOp.after startVersion ops)).mergeTake tx clock =
      .ok r) ∧
    ∃ r, (seedCrdtStateFromChain chain tx (MainOp.after startVersion ops).clone).mergeTake tx
      clock = .ok r := by
  have hlive : (MainOp.after startVersion ops).Live := MainOp.live_after startVersion ops
  constructor
  · rcases mergeTake_seeded clock hlive hvalid with ⟨r, hr, -⟩
    exact ⟨r, hr⟩
  · -- the walk does not look at the read set
    have hclone : validateEdgeEndpointsOverlay tx (MainOp.after startVersion ops).clone chain =
        .ok () := hvalid
    have hcopy : (MainOp.after startVersion ops).clone.Live := hlive.congr rfl
    rcases mergeTake_seeded clock hcopy hclone with ⟨r, hr, -⟩
    exact ⟨r, hr⟩

end Run

/-- A pending buffer with a counter and a deleted vertex. -/
def demoPending : L0Buffer DemoValue :=
  ((L0Buffer.new 0).insertVertexWithLabels 0
    ((∅ : Properties DemoValue).insert "n" (.crdt (.gCounter [("a", 1)]))) [] 1).deleteVertex 1 |>.1

/-- The deleted vertex comes back, and a third one is deleted. -/
def demoMain : List (MainOp DemoValue) :=
  [.write [demoPending] (.insertVertex 1 ∅ [] 2), .write [demoPending] (.deleteVertex 2 none),
    .freeze]

/-- A transaction that counts on and inserts an edge to the vertex that came
    back, next to one that inserts an edge to the vertex that did not. -/
def demoTx (dst : Vid) : L0Buffer DemoValue :=
  (TxBuffer.run 0 [.insertVertex 0
    ((∅ : Properties DemoValue).insert "n" (.crdt (.gCounter [("b", 1)]))) [] 3,
    .insertEdge 0 dst 1 7 ∅ none 4]).buffer

theorem mergeTake_ok_of_overlay_seeded :
    (∃ r, (seedCrdtStateFromChain [demoPending] (demoTx 1) (MainOp.after 0 demoMain)).mergeTake
      (demoTx 1) ⟨fun _ => 5, fun _ => 5⟩ = .ok r) ∧
    ∃ r, (seedCrdtStateFromChain [demoPending] (demoTx 1)
      (MainOp.after 0 demoMain).clone).mergeTake (demoTx 1) ⟨fun _ => 5, fun _ => 5⟩ = .ok r :=
  mergeTake_ok_of_overlay 0 demoMain [demoPending] (demoTx 1) ⟨fun _ => 5, fun _ => 5⟩
    (by decide)

-- the edge to the third vertex is refused before the flush
example : validateEdgeEndpointsOverlay (demoTx 2) (MainOp.after 0 demoMain) [demoPending] =
    .error "Cannot insert edge 7: destination vertex 2 has been deleted (issue #77)" := by
  decide

end UniDb
