import UniDb.Runtime.CommitRegistry
import UniDb.Runtime.Transaction

/-!
# Admission of a Commit

The validation that a committing transaction passes before anything of it is
written: the check against the commits recorded since it began, and the check
against the committed buffers that are not flushed yet.

The first check compares write sets, and a write set leaves out the vertices
whose write only touched CRDT properties. Such a write is carved out because
merging it commutes with other writes of the same kind. What the carve-out
loses is everything else: a carved-out write is compared with no recorded
commit, so neither a deletion nor a scalar write of the same vertex is seen,
and a recorded commit that carved a vertex out is not seen by a transaction
that read or overwrote it. A transaction that carved out all it wrote has an
empty write set, and then its reads are not validated either. The second check
looks at the values of properties and at nothing else, and passes wherever one
of the two values is no CRDT.

`Compared` is the condition under which none of this happens, and
`admitted_isolated_iff` says that an admitted transaction is isolated from the
recorded commits exactly if it meets that condition against each of them.

## Main definitions

* `WriteSet.fromL0`: The write set of a transaction's buffer.
* `validateCommit`: The validation of a commit.
* `CommitLog`: The registry with the buffers of the recorded commits.
* `Isolated`: Two transactions touched different items, but for CRDT writes
  that merge.
* `Compared`: The carve-out hides nothing between two transactions.

## Theorems

* `mem_fromL0_vertices`: The write set is what was written and not carved out.
* `admitted_isolated_iff`: When an admitted transaction is isolated.
-/

namespace UniDb

namespace Occ

open PropertyValue WriteSet

variable {V : Type} [PropertyValue V]

/-- Whether a vertex write is left to the merge: all properties are CRDTs and
    the labels did not change. -/
def isCrdtCarveout (l0 : L0Buffer V) (vid : Vid) (props : Properties V) : Bool :=
  let labelChanged := (l0.vertexLabels.lookup vid).any fun labels => !labels.isEmpty
  let allCrdt := !props.entries.isEmpty && props.toList.all fun e => (tryAsCrdt e.2).isSome
  allCrdt && !labelChanged

def WriteSet.fromL0 (l0 : L0Buffer V) : WriteSet where
  vertices :=
    ((l0.vertexProperties.toList.filter fun e => ¬ isCrdtCarveout l0 e.1 e.2).map
        Prod.fst).toFinset ∪
      -- a deletion commutes with no CRDT write, and neither does a relabel
      l0.vertexTombstones.keys.toFinset ∪ l0.vertexLabelOverwrites.keys.toFinset
  edges := l0.edgeProperties.keys.toFinset ∪ l0.edgeEndpoints.keys.toFinset ∪
    l0.tombstones.keys.toFinset
  vertexKeys := l0.constraintIndex.keys.toFinset
  edgeKeys := l0.edgeConstraintIndex.keys.toFinset
  mergeKeys := l0.mergeGuardIndex.keys.toFinset
  extIds := l0.extidIndex.keys.toFinset

/-- A carved-out write would overwrite a CRDT of another kind. -/
structure CrdtVariantConflict where
  vid : Vid
  property : String
  deriving DecidableEq, Repr

def CrdtVariantConflict.display (c : CrdtVariantConflict) : String :=
  "carved-out CRDT write to property " ++ c.property.quote ++
    " would overwrite a different committed CRDT variant (a lost update); aborting"

/-- The first carved-out write that would overwrite a CRDT of another kind in a committed buffer. -/
def crdtCarveoutOverwrite (tx main : L0Buffer V) : Option CrdtVariantConflict :=
  tx.vertexProperties.toList.findSome? fun (vid, props) =>
    if vid ∈ tx.vertexTombstones ∨ ¬ isCrdtCarveout tx vid props then none
    else match main.vertexProperties.lookup vid with
      | none => none
      | some existing => props.toList.findSome? fun (key, value) =>
        match tryAsCrdt value, (existing.lookup key).bind tryAsCrdt with
        | some new, some old => if typeName new ≠ typeName old then some ⟨vid, key⟩ else none
        | _, _ => none

/-- The error of a refused commit. Both kinds can be retried. -/
inductive CommitError
  | constraintConflict (message : String)
  | serializationConflict (message : String)
  deriving DecidableEq, Repr

def Conflict.toError (c : Conflict) : CommitError :=
  match c with
  | .key .. => .constraintConflict c.display
  | _ => .serializationConflict c.display

/-- The check against the recorded commits. A transaction whose write set is
    empty is taken for read-only. -/
def checkHistory (registry : CommitRegistry) (tx : L0Buffer V) (w : WriteSet) :
    Except CommitError Unit :=
  -- a buffer of carved-out writes alone has an empty write set too
  if w.isEmpty then .ok ()
  else match registry.check tx.occReadSeq w tx.occReadSet with
    | some conflict => .error conflict.toError
    | none => .ok ()

/-- The check against the committed buffers that are not flushed: no other owner
    of a unique key, and no CRDT of another kind. -/
def checkOverlay (overlay : List (L0Buffer V)) (tx : L0Buffer V) : Except CommitError Unit := do
  let refuse (taken : Bool) (message : String) : Except CommitError Unit :=
    if taken then .error (.constraintConflict message) else .ok ()
  forM tx.constraintIndex.toList fun (key, vid) =>
    refuse (overlay.any fun b => b.hasConstraintKey key vid)
      "unique key already committed by a concurrent transaction"
  forM tx.edgeConstraintIndex.toList fun (key, eid) =>
    refuse (overlay.any fun b => b.hasEdgeConstraintKey key eid)
      "unique edge key already committed by a concurrent transaction"
  forM tx.mergeGuardIndex.toList fun (key, vid) =>
    refuse (overlay.any fun b => b.hasMergeGuardKey key vid)
      "MERGE key already committed by a concurrent transaction"
  forM tx.extidIndex.toList fun (extId, vid) =>
    refuse (overlay.any fun b => (b.extidIndex.lookup extId).any (· ≠ vid))
      ("ext_id '" ++ extId ++ "' already committed by a concurrent transaction")
  forM overlay fun b =>
    match crdtCarveoutOverwrite tx b with
    | some conflict => .error (.serializationConflict conflict.display)
    | none => .ok ()

/-- The validation of a commit. Returns the write set to record, or none where
    validation is switched off. -/
def validateCommit (ssiEnabled : Bool) (registry : CommitRegistry) (overlay : List (L0Buffer V))
    (tx : L0Buffer V) : Except CommitError (Option WriteSet) := do
  if ssiEnabled then
    let w := fromL0 tx
    checkHistory registry tx w
    checkOverlay overlay tx
    return some w
  else return none

/-- What changes the registry: a commit of a buffer, or a fence. -/
inductive CommitCall (V : Type)
  | commit (l0 : L0Buffer V)
  | fence

/-- The registry, with the buffer of every commit that was recorded in it. -/
structure CommitLog (V : Type) where
  history : History
  buffers : List (Nat × L0Buffer V)

/-- The call that reaches the registry. A commit with an empty write set is not recorded. -/
def CommitCall.toCall : CommitCall V → Option Call
  | .commit l0 =>
    let w := fromL0 l0
    if w.isEmpty then none else some (.commit w)
  | .fence => some .fence

namespace CommitLog

def init (capacity : Nat) (h : 0 < capacity) : CommitLog V :=
  ⟨History.init capacity h, []⟩

variable (log : CommitLog V)

def apply : CommitCall V → CommitLog V
  | .commit l0 =>
    let w := fromL0 l0
    if w.isEmpty then log
    else ⟨log.history.apply (.commit w), log.buffers ++ [(log.history.seq + 1, l0)]⟩
  | .fence => { log with history := log.history.apply .fence }

def after (calls : List (CommitCall V)) : CommitLog V :=
  calls.foldl apply log

/-- The buffers are those of the recorded commits. -/
def Recorded : Prop :=
  log.history.log = log.buffers.map fun c => (c.1, fromL0 c.2)

theorem apply_recorded {log : CommitLog V} (h : log.Recorded) (call : CommitCall V) :
    (log.apply call).Recorded := by
  cases call with
  | fence => exact h
  | commit l0 =>
    simp only [CommitLog.apply]
    by_cases he : (fromL0 l0).isEmpty = true
    · rw [if_pos he]
      exact h
    · rw [if_neg he]
      unfold Recorded at h ⊢
      rw [List.map_append, ← h]
      rfl

theorem after_recorded {log : CommitLog V} (h : log.Recorded) (calls : List (CommitCall V)) :
    (log.after calls).Recorded := by
  induction calls generalizing log with
  | nil => exact h
  | cons call calls ih => exact ih (apply_recorded h call)

/-- The registry sees the recorded calls only. -/
theorem history_after (calls : List (CommitCall V)) :
    (log.after calls).history = log.history.after (calls.filterMap CommitCall.toCall) := by
  induction calls generalizing log with
  | nil => rfl
  | cons call calls ih =>
    have hstep : (log.after (call :: calls)).history = ((log.apply call).after calls).history :=
      rfl
    rw [hstep, ih]
    cases call with
    | fence => rfl
    | commit l0 =>
      by_cases he : (fromL0 l0).isEmpty = true
      · simp [CommitLog.apply, CommitCall.toCall, he]
      · simp [CommitLog.apply, CommitCall.toCall, he, History.after]

end CommitLog

section Items

variable (l0 : L0Buffer V)

/-- The buffer has a write to the vertex: properties, a deletion or labels. -/
def WroteVertex (v : Vid) : Prop :=
  v ∈ l0.vertexProperties ∨ v ∈ l0.vertexTombstones ∨ v ∈ l0.vertexLabelOverwrites

def WroteEdge (e : Eid) : Prop :=
  e ∈ l0.edgeProperties ∨ e ∈ l0.edgeEndpoints ∨ e ∈ l0.tombstones

def ReadVertex (v : Vid) : Prop :=
  ∃ rs, l0.occReadSet = some rs ∧ v ∈ rs.vertices

def ReadEdge (e : Eid) : Prop :=
  ∃ rs, l0.occReadSet = some rs ∧ e ∈ rs.edges

def CarvedOut (v : Vid) : Prop :=
  (∃ props, l0.vertexProperties.lookup v = some props ∧ isCrdtCarveout l0 v props = true) ∧
    v ∉ l0.vertexTombstones ∧ v ∉ l0.vertexLabelOverwrites

/-- The properties that both buffers write on the vertex are CRDTs of the same
    kind, as far as they are CRDTs. -/
def SameVariants (l0 l0' : L0Buffer V) (v : Vid) : Prop :=
  ∀ props props', l0.vertexProperties.lookup v = some props →
    l0'.vertexProperties.lookup v = some props' →
    ∀ key x x' c c', props.lookup key = some x → props'.lookup key = some x' →
      tryAsCrdt x = some c → tryAsCrdt x' = some c' → typeName c = typeName c'

/-- A recorded commit wrote nothing that the transaction read or wrote, but for
    vertices on which the CRDT writes of the two merge. -/
def Isolated (committed tx : L0Buffer V) : Prop :=
  (∀ v, WroteVertex committed v → ReadVertex tx v ∨ WroteVertex tx v →
    CarvedOut committed v ∧ CarvedOut tx v ∧ SameVariants committed tx v) ∧
  ∀ e, WroteEdge committed e → ¬ (ReadEdge tx e ∨ WroteEdge tx e)

/-- The carve-out hides nothing between a recorded commit and a transaction: what one of them carved
    out the other carved out too, with CRDTs of the same kind, or did not touch; and reads are not
    skipped, for want of a write set, where the commit wrote what was read. -/
structure Compared (committed tx : L0Buffer V) : Prop where
  committed_carved : ∀ v, CarvedOut committed v → ReadVertex tx v ∨ WroteVertex tx v →
    CarvedOut tx v
  tx_carved : ∀ v, CarvedOut tx v → WroteVertex committed v → CarvedOut committed v
  same_variants : ∀ v, CarvedOut committed v → CarvedOut tx v → SameVariants committed tx v
  reads : (fromL0 tx).isEmpty = true →
    (∀ v, ReadVertex tx v → WroteVertex committed v → CarvedOut committed v) ∧
      ∀ e, ReadEdge tx e → ¬ WroteEdge committed e

/-- The write set is what was written and not carved out. -/
theorem mem_fromL0_vertices (v : Vid) :
    v ∈ (fromL0 l0).vertices ↔ WroteVertex l0 v ∧ ¬ CarvedOut l0 v := by
  have hprops : (∃ props, (v, props) ∈ l0.vertexProperties.toList ∧
      ¬ isCrdtCarveout l0 v props = true) ↔
        ∃ props, l0.vertexProperties.lookup v = some props ∧
          ¬ isCrdtCarveout l0 v props = true := by
    simp only [AssocMap.mem_toList]
  have hmem : v ∈ (fromL0 l0).vertices ↔
      (∃ props, l0.vertexProperties.lookup v = some props ∧ ¬ isCrdtCarveout l0 v props = true) ∨
      v ∈ l0.vertexTombstones ∨ v ∈ l0.vertexLabelOverwrites := by
    rw [← hprops]
    simp [fromL0, AList.mem_keys]
  rw [hmem]
  unfold WroteVertex CarvedOut
  rw [AssocMap.mem_iff_lookup (m := l0.vertexProperties)]
  constructor
  · rintro (⟨props, hl, hc⟩ | ht | ho)
    · refine ⟨.inl ⟨props, hl⟩, ?_⟩
      rintro ⟨⟨props', hl', hc'⟩, -⟩
      rw [hl, Option.some.injEq] at hl'
      exact hc (hl' ▸ hc')
    · exact ⟨.inr (.inl ht), fun h => h.2.1 ht⟩
    · exact ⟨.inr (.inr ho), fun h => h.2.2 ho⟩
  · rintro ⟨⟨props, hl⟩ | ht | ho, hnot⟩
    · by_cases ht : v ∈ l0.vertexTombstones
      · exact .inr (.inl ht)
      by_cases ho : v ∈ l0.vertexLabelOverwrites
      · exact .inr (.inr ho)
      exact .inl ⟨props, hl, fun hc => hnot ⟨⟨props, hl, hc⟩, ht, ho⟩⟩
    · exact .inr (.inl ht)
    · exact .inr (.inr ho)

theorem mem_fromL0_edges (e : Eid) :
    e ∈ (fromL0 l0).edges ↔ WroteEdge l0 e := by
  simp [fromL0, WroteEdge, AList.mem_keys]

end Items

/-- A commit that is admitted passed the check against the recorded commits,
    unless its write set is empty. -/
theorem check_of_validateCommit {registry : CommitRegistry} {overlay : List (L0Buffer V)}
    {tx : L0Buffer V} {w : Option WriteSet}
    (hpassed : validateCommit true registry overlay tx = .ok w)
    (hne : (fromL0 tx).isEmpty = false) :
    registry.check tx.occReadSeq (fromL0 tx) tx.occReadSet = none := by
  cases hcheck : registry.check tx.occReadSeq (fromL0 tx) tx.occReadSet with
  | none => rfl
  | some conflict =>
    have hhistory : checkHistory registry tx (fromL0 tx) = .error conflict.toError := by
      unfold checkHistory
      simp [hne, hcheck]
    unfold validateCommit at hpassed
    simp only [if_true, hhistory] at hpassed
    exact absurd hpassed (by simp [bind, Except.bind])

theorem CarvedOut.wroteVertex {l0 : L0Buffer V} {v : Vid} (h : CarvedOut l0 v) :
    WroteVertex l0 v := by
  rcases h with ⟨⟨props, hl, -⟩, -⟩
  exact .inl (AssocMap.mem_of_lookup hl)

theorem compared_of_isolated {committed tx : L0Buffer V} (h : Isolated committed tx) :
    Compared committed tx := by
  rcases h with ⟨hv, he⟩
  constructor
  case committed_carved =>
    intro v hc ht
    exact (hv v hc.wroteVertex ht).2.1
  case tx_carved =>
    intro v ht hc
    exact (hv v hc (.inr ht.wroteVertex)).1
  case same_variants =>
    intro v hc ht
    exact (hv v hc.wroteVertex (.inr ht.wroteVertex)).2.2
  case reads =>
    intro _
    exact ⟨fun v hr hc => (hv v hc (.inl hr)).1, fun e hr hc => he e hc (.inl hr)⟩

section Comparison

variable {committed tx : L0Buffer V}
  (hno : (fromL0 tx).isEmpty = false →
    ¬ Conflicts (fromL0 tx) tx.occReadSet (fromL0 committed))

include hno

/-- No vertex of the commit's write set is in the transaction's. -/
theorem notMem_vertices_of_compared {v : Vid} (hc : v ∈ (fromL0 committed).vertices) :
    v ∉ (fromL0 tx).vertices := by
  intro ht
  have hne : (fromL0 tx).vertices ≠ ∅ := Finset.ne_empty_of_mem ht
  refine hno ?_ (.inl (Finset.not_disjoint_iff.mpr ⟨v, ht, hc⟩))
  simp [isEmpty, hne]

theorem notMem_edges_of_compared {e : Eid} (hc : e ∈ (fromL0 committed).edges) :
    e ∉ (fromL0 tx).edges := by
  intro ht
  have hne : (fromL0 tx).edges ≠ ∅ := Finset.ne_empty_of_mem ht
  refine hno ?_ (.inr (.inl (Finset.not_disjoint_iff.mpr ⟨e, ht, hc⟩)))
  simp [isEmpty, hne]

/-- What the transaction read is not in the commit's write set, unless the reads are skipped. -/
theorem isEmpty_of_reads {rs : OccReadSet} (hrs : tx.occReadSet = some rs)
    (h : ¬ Disjoint rs.vertices (fromL0 committed).vertices ∨
      ¬ Disjoint rs.edges (fromL0 committed).edges) :
    (fromL0 tx).isEmpty = true := by
  by_contra hempty
  refine hno (by simpa using hempty) ?_
  rw [hrs]
  exact Conflicts.of_reads h

/-- What the comparison of write sets and the condition on carved-out writes come to together. -/
theorem isolated_iff_compared : Isolated committed tx ↔ Compared committed tx := by
  refine ⟨compared_of_isolated, ?_⟩
  intro h
  constructor
  · intro v hc htouch
    by_cases hcc : CarvedOut committed v
    · have htc := h.committed_carved v hcc htouch
      exact ⟨hcc, htc, h.same_variants v hcc htc⟩
    -- neither side carved the vertex out, so the check compares it
    exfalso
    have htc : ¬ CarvedOut tx v := fun htc => hcc (h.tx_carved v htc hc)
    have hcv := (mem_fromL0_vertices ..).mpr ⟨hc, hcc⟩
    rcases htouch with ⟨rs, hrs, hr⟩ | hw
    · have hempty := isEmpty_of_reads hno hrs
        (.inl (Finset.not_disjoint_iff.mpr ⟨v, hr, hcv⟩))
      exact hcc ((h.reads hempty).1 v ⟨rs, hrs, hr⟩ hc)
    · exact notMem_vertices_of_compared hno hcv ((mem_fromL0_vertices tx v).mpr ⟨hw, htc⟩)
  · -- no edge is carved out
    intro e hc htouch
    have hce := (mem_fromL0_edges ..).mpr hc
    rcases htouch with ⟨rs, hrs, hr⟩ | hw
    · have hempty := isEmpty_of_reads hno hrs
        (.inr (Finset.not_disjoint_iff.mpr ⟨e, hr, hce⟩))
      exact (h.reads hempty).2 e ⟨rs, hrs, hr⟩ hc
    · exact notMem_edges_of_compared hno hce ((mem_fromL0_edges tx e).mpr hw)

end Comparison

/-- An admitted transaction is isolated from the commits recorded since it began
    exactly if the carve-out hides nothing between it and each of them. The
    transaction began after the calls `before` and commits after `since`. -/
theorem admitted_isolated_iff (capacity : Nat) (hcap : 0 < capacity)
    (before since : List (CommitCall V)) (overlay : List (L0Buffer V)) (tx : L0Buffer V)
    (w : Option WriteSet)
    (hseq : tx.occReadSeq = ((CommitLog.init capacity hcap).after before).history.seq)
    (hpassed : validateCommit true
      (((CommitLog.init capacity hcap).after before).after since).history.registry overlay tx =
        .ok w) :
    (∀ c ∈ (((CommitLog.init capacity hcap).after before).after since).buffers,
        tx.occReadSeq < c.1 → Isolated c.2 tx) ↔
      ∀ c ∈ (((CommitLog.init capacity hcap).after before).after since).buffers,
        tx.occReadSeq < c.1 → Compared c.2 tx := by
  have hinit : (CommitLog.init capacity hcap : CommitLog V).Recorded := rfl
  have hrec := CommitLog.after_recorded hinit before
  have hcont : Contiguous ((CommitLog.init capacity hcap).after before).history := by
    rw [CommitLog.history_after]
    exact after_contiguous (init_contiguous capacity hcap) _
  generalize (CommitLog.init capacity hcap).after before = begun at hseq hpassed hrec hcont ⊢
  refine forall_congr' fun c => forall_congr' fun hc => forall_congr' fun hlt => ?_
  refine isolated_iff_compared ?_
  intro hne
  -- the commit is newer than the transaction's snapshot, so the check compared it
  rw [hseq] at hlt
  have hcheck := check_of_validateCommit hpassed hne
  have hlog := CommitLog.after_recorded hrec since
  unfold CommitLog.Recorded at hlog
  rw [CommitLog.history_after] at hcheck hlog
  rw [hseq] at hcheck
  have hpass := (passed_of_check hcont (since.filterMap CommitCall.toCall) hcheck).2.2
  refine hpass (c.1, fromL0 c.2) ?_ hlt
  rw [hlog]
  exact List.mem_map_of_mem hc

section Cases

/-- A counter with one increment. -/
def oneHit : Properties DemoValue :=
  (∅ : Properties DemoValue).insert "hits" (.crdt (.gCounter [("a", 1)]))

/-- A transaction that increments a counter on vertex 1 and does nothing else. -/
def incrementer : L0Buffer DemoValue := (TxBuffer.run 0 [.updateVertex 1 oneHit [] 5]).buffer

/-- A transaction that deletes vertex 1. -/
def deleter : L0Buffer DemoValue := (TxBuffer.run 0 [.deleteVertex 1 none]).buffer

/-- A transaction that writes vertex 2 and has read vertex 3. -/
def scalarWriter : L0Buffer DemoValue :=
  { (TxBuffer.run 0 [.insertVertex 2 ((∅ : Properties DemoValue).insert "name" (.str "b")) ["B"]
      5]).buffer with occReadSet := some ⟨{3}, ∅⟩ }

/-- Against a commit that increments a counter and writes vertex 4. -/
theorem admitted_isolated_iff_scalar :
    let other := (TxBuffer.run (V := DemoValue) 0
      [.updateVertex 1 oneHit [] 5, .insertVertex 4 ∅ ["D"] 5]).buffer
    let now : CommitLog DemoValue := ((CommitLog.init 4 (by decide)).after []).after [.commit other]
    now.buffers.length = 1 ∧
      (∃ w, validateCommit true now.history.registry [] scalarWriter = .ok w) ∧
      ((∀ c ∈ now.buffers, scalarWriter.occReadSeq < c.1 → Isolated c.2 scalarWriter) ↔
        ∀ c ∈ now.buffers, scalarWriter.occReadSeq < c.1 → Compared c.2 scalarWriter) := by
  intro other now
  have hpassed : validateCommit true now.history.registry [] scalarWriter =
      .ok (some (fromL0 scalarWriter)) := by rfl
  exact ⟨rfl, ⟨_, hpassed⟩,
    admitted_isolated_iff 4 (by decide) [] [.commit other] [] scalarWriter _ rfl hpassed⟩

/-- An increment is admitted on top of a deletion of the same vertex that was
    recorded since the transaction began. -/
theorem incrementer_admitted_after_deleter : let now : CommitLog DemoValue :=
      ((CommitLog.init 4 (by decide)).after []).after [.commit deleter]
    ∃ main w, (L0Buffer.new 0).mergeTake deleter ⟨fun _ => 6, fun _ => 6⟩ = .ok main ∧
      validateCommit true now.history.registry [main.1] incrementer = .ok w ∧
      incrementer.occReadSeq = 0 ∧ now.buffers = [(1, deleter)] ∧
      WroteVertex deleter 1 ∧ WroteVertex incrementer 1 ∧ ¬ Isolated deleter incrementer := by
  intro now
  have hdel : WroteVertex deleter 1 := .inr (.inl (by decide))
  have hinc : WroteVertex incrementer 1 := .inl (by decide)
  refine ⟨_, _, rfl, rfl, rfl, rfl, hdel, hinc, ?_⟩
  intro h
  rcases (h.1 1 hdel (.inr hinc)).1 with ⟨-, hlive, -⟩
  exact absurd (by decide) hlive

end Cases

end Occ

end UniDb
