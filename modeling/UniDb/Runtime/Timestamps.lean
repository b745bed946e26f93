import UniDb.Runtime.ReplayRefinement

/-!
# Creation Times across a Commit

What a commit does to the creation times of the vertices and edges it writes.

A merge ends with a loop that keeps the oldest creation time: it inserts the
transaction's time where the main buffer has none. By then the main buffer
always has one. The insert helpers that ran before it stamp the clock of the
merge where there was no time, so for a vertex that is new to the buffer the
loop finds the time of the merge and keeps it. The time of the last update is
carried over from the transaction, so a new vertex ends up created after it was
last updated, unless the clock did not move between the write and the merge.

A replay stamps the times of the record and nothing else, so it restores the
creation time of the transaction.

## Main definitions

* `CreatedKept`: The creation time survives the commit.
* `KeepsCreated`: When it does.

## Theorems

* `createdKept_iff`: One vertex or edge.
* `mergeTake_createdKept_iff`: Every vertex and edge of a transaction.
-/

namespace UniDb

open L0Buffer Option AssocMap

variable {V : Type}

/-- The times in what a buffer holds about a vertex. -/
def VertexView.times (w : VertexView V) : Times := ⟨w.created, w.updated⟩

namespace L0Buffer

def vertexTimes (b : L0Buffer V) (v : Vid) : Times :=
  ⟨b.vertexCreatedAt.lookup v, b.vertexUpdatedAt.lookup v⟩

theorem times_vertexView (b : L0Buffer V) (v : Vid) : (b.vertexView v).times = b.vertexTimes v :=
  rfl

def storedTimes (b : L0Buffer V) : List Int :=
  (b.vertexCreatedAt.toList ++ b.vertexUpdatedAt.toList).map Prod.snd ++
    (b.edgeCreatedAt.toList ++ b.edgeUpdatedAt.toList).map Prod.snd

theorem updated_mem_storedTimes (b : L0Buffer V) {ts : Int} :
    (∀ v, (b.vertexTimes v).updated = some ts → ts ∈ b.storedTimes) ∧
      ∀ e, (b.edgeTimes e).updated = some ts → ts ∈ b.storedTimes := by
  unfold storedTimes
  rw [List.mem_append, List.map_append, List.map_append, List.mem_append, List.mem_append]
  constructor
  · intro v h
    have hmem := AssocMap.mem_toList.mpr h
    exact .inl (.inr (List.mem_map_of_mem hmem))
  · intro e h
    have hmem := AssocMap.mem_toList.mpr h
    exact .inr (.inr (List.mem_map_of_mem hmem))

end L0Buffer

/-- No reading of the clock is before a timestamp that one of the two buffers stores. -/
def ClockAhead (main tx : L0Buffer V) (clock : Clock) : Prop :=
  ∀ ts ∈ main.storedTimes ++ tx.storedTimes, (∀ v, ts ≤ clock.vertex v) ∧ ∀ e, ts ≤ clock.edge e

/-- The creation time survives a commit: it is the earlier one of the main buffer or else the
    transaction's, it is not after the last update, and a replay restores the same. -/
def CreatedKept (main tx merged replayed : Times) : Prop :=
  merged.created = main.created.or tx.created ∧
    (∃ c u, merged.created = some c ∧ merged.updated = some u ∧ c ≤ u) ∧
    replayed.created = merged.created

/-- When the creation time survives: the main buffer has one that is not after
    the transaction's update, or the transaction created and last updated at the
    very reading of the clock that the merge takes. -/
def KeepsCreated (main tx : Times) (now : Int) : Prop :=
  match main.created with
  | some c => ∃ u, tx.updated = some u ∧ c ≤ u
  | none => tx.created = some now ∧ tx.updated = some now

/-- The two stamps of a merge against the one of a replay. -/
theorem createdKept_iff {main tx : Times} {now : Int} (hcreated : tx.created.isSome)
    (hupdated : tx.updated.isSome) (hclock : ∀ u, tx.updated = some u → u ≤ now) :
    CreatedKept main tx ((main.stamp (some now) (some now)).stamp tx.created tx.updated)
      (main.stamp tx.created tx.updated) ↔ KeepsCreated main tx now := by
  rcases isSome_iff_exists.mp hcreated with ⟨c', hc'⟩
  rcases isSome_iff_exists.mp hupdated with ⟨u', hu'⟩
  have hle : u' ≤ now := hclock u' hu'
  unfold CreatedKept KeepsCreated Times.stamp
  cases hmain : main.created with
  | some => simp [hu']
  | none =>
    simp only [none_or, some_or, hc', hu', some.injEq]
    constructor
    · rintro ⟨hnow, ⟨c, u, rfl, rfl, hcu⟩, -⟩
      exact ⟨hnow.symm, by omega⟩
    · rintro ⟨rfl, rfl⟩
      exact ⟨rfl, ⟨_, _, rfl, rfl, Int.le_refl _⟩, rfl⟩

variable [PropertyValue V]

/-- A merge stamps a vertex that it writes twice: with the clock, and with the
    times of the transaction. -/
theorem times_merged {tx : L0Buffer V} (htx : TxInvariant tx) {v : Vid}
    (hv : v ∈ tx.vertexProperties) (now : Int) (w : VertexView V) :
    ((w.merged tx (tx.vertexProperties.lookup v) now v).mergeTimes (tx.vertexCreatedAt.lookup v)
        (tx.vertexUpdatedAt.lookup v)).times =
      (w.times.stamp (some now) (some now)).stamp (tx.vertexTimes v).created
        (tx.vertexTimes v).updated := by
  rcases mem_iff_lookup.mp hv with ⟨p, hp⟩
  have ht : v ∉ tx.vertexTombstones := htx.live v (by simp [vertexView, hp])
  -- no label pass touches a time
  unfold VertexView.merged VertexView.mergeTimes VertexView.times Times.stamp vertexTimes
  cases hl : tx.vertexLabels.lookup v <;> by_cases ho : v ∈ tx.vertexLabelOverwrites <;>
    simp [hp, ht, ho, VertexView.write, VertexView.append, VertexView.setLabels]

theorem times_replayed {tx : L0Buffer V} (htx : TxInvariant tx) {v : Vid}
    (hv : v ∈ tx.vertexProperties) (w : VertexView V) : (w.replayed tx v).times =
      w.times.stamp (tx.vertexTimes v).created (tx.vertexTimes v).updated := by
  rcases mem_iff_lookup.mp hv with ⟨p, hp⟩
  have ht : v ∉ tx.vertexTombstones := htx.live v (by simp [vertexView, hp])
  unfold VertexView.replayed VertexView.times Times.stamp vertexTimes
  by_cases ho : v ∈ tx.vertexLabelOverwrites <;>
    simp [hp, ht, ho, VertexView.write, VertexView.append, VertexView.setLabels]

/-- After a merge, the creation time of a vertex or edge that the transaction
    holds has survived if and only if it meets the condition. -/
theorem mergeTake_createdKept_iff (m : L0Buffer V) (t : TxBuffer V)
    (schemaTypeName : Nat → Option String) (clock : Clock) (hclock : ClockAhead m t.buffer clock)
    (hvalid : m.validateMergeEdgeEndpoints t.buffer = .ok ()) :
    ∃ r, m.mergeTake t.buffer clock = .ok r ∧
      let replayed := m.replayMutations (t.buffer.walRecords schemaTypeName)
      (∀ v ∈ t.buffer.vertexProperties,
        CreatedKept (m.vertexTimes v) (t.buffer.vertexTimes v) (r.1.vertexTimes v)
            (replayed.vertexTimes v) ↔
          KeepsCreated (m.vertexTimes v) (t.buffer.vertexTimes v) (clock.vertex v)) ∧
      ∀ e ∈ t.buffer.edgeEndpoints, e ∉ t.buffer.tombstones →
        (CreatedKept (m.edgeTimes e) (t.buffer.edgeTimes e) (r.1.edgeTimes e)
            (replayed.edgeTimes e) ↔
          KeepsCreated (m.edgeTimes e) (t.buffer.edgeTimes e) (clock.edge e)) := by
  rcases mergeTake_spec clock hvalid with ⟨r, hok, hview, -, htimes⟩
  rcases replay_spec t schemaTypeName hvalid with ⟨hview', -, htimes'⟩
  refine ⟨r, hok, ?_, ?_⟩
  · intro v hv
    have hprops : (t.buffer.vertexView v).props.isSome :=
      isSome_iff_exists.mpr (mem_iff_lookup.mp hv)
    rcases t.shape.stamped v hprops with ⟨hc, hu⟩
    simp only [← times_vertexView r.1, hview v, times_merged t.shape hv]
    simp only [← times_vertexView (replayMutations _ _), hview' v, times_replayed t.shape hv]
    refine createdKept_iff hc hu ?_
    intro u hu'
    have hmem := (updated_mem_storedTimes t.buffer).1 v hu'
    exact (hclock u (List.mem_append_right _ hmem)).1 v
  · intro e he htomb
    rw [htimes e, htimes' e]
    rcases t.shape.edgeStamped e he with ⟨hc, hu⟩
    unfold Times.merged Times.replayed
    rw [if_neg htomb, if_pos he, if_pos ⟨he, htomb⟩]
    refine createdKept_iff hc hu ?_
    intro u hu'
    have hmem := (updated_mem_storedTimes t.buffer).2 e hu'
    exact (hclock u (List.mem_append_right _ hmem)).2 e

/-- A vertex that the main buffer created at time 2 is updated at time 5, and a
    new edge is written at the reading that the merge takes: both survive. -/
theorem mergeTake_createdKept_iff_update :
    let m := (TxBuffer.run (V := DemoValue) 0 [.insertVertex 1 ∅ ["A"] 2]).buffer
    let t := TxBuffer.run (V := DemoValue) 1
      [.updateVertex 1 ∅ ["A"] 5, .insertEdge 1 1 7 10 ∅ none 8]
    let clock : Clock := ⟨fun _ => 8, fun _ => 8⟩
    ClockAhead m t.buffer clock ∧ m.validateMergeEdgeEndpoints t.buffer = .ok () ∧
      ∃ r, m.mergeTake t.buffer clock = .ok r ∧
        CreatedKept (m.vertexTimes 1) (t.buffer.vertexTimes 1) (r.1.vertexTimes 1)
          ((m.replayMutations (t.buffer.walRecords fun _ => none)).vertexTimes 1) ∧
        CreatedKept (m.edgeTimes 10) (t.buffer.edgeTimes 10) (r.1.edgeTimes 10)
          ((m.replayMutations (t.buffer.walRecords fun _ => none)).edgeTimes 10) := by
  intro m t clock
  have hclock : ClockAhead m t.buffer clock := by
    have hle : ∀ ts ∈ m.storedTimes ++ t.buffer.storedTimes, ts ≤ 8 := by decide
    intro ts hts
    exact ⟨fun _ => hle ts hts, fun _ => hle ts hts⟩
  have hvalid : m.validateMergeEdgeEndpoints t.buffer = .ok () := by rfl
  refine ⟨hclock, hvalid, ?_⟩
  rcases mergeTake_createdKept_iff m t (fun _ => none) clock hclock hvalid with ⟨r, hok, hv, he⟩
  refine ⟨r, hok, ?_, ?_⟩
  · refine (hv 1 (by decide)).mpr ?_
    exact ⟨5, rfl, by decide⟩
  · refine (he 10 (by decide) (by decide)).mpr ?_
    exact ⟨rfl, rfl⟩

/-- A vertex written at time 5 by a transaction that is merged at time 8 counts
    as created at 8, after its last update, and a replay puts it at 5. -/
theorem created_after_updated :
    let m : L0Buffer DemoValue := L0Buffer.new 0
    let t := TxBuffer.run (V := DemoValue) 0 [.insertVertex 1 ∅ ["A"] 5]
    let clock : Clock := ⟨fun _ => 8, fun _ => 8⟩
    ∃ r, m.mergeTake t.buffer clock = .ok r ∧
      t.buffer.vertexTimes 1 = ⟨some 5, some 5⟩ ∧ r.1.vertexTimes 1 = ⟨some 8, some 5⟩ ∧
      (m.replayMutations (t.buffer.walRecords fun _ => none)).vertexTimes 1 = ⟨some 5, some 5⟩ ∧
      ¬ CreatedKept (m.vertexTimes 1) (t.buffer.vertexTimes 1) (r.1.vertexTimes 1)
        ((m.replayMutations (t.buffer.walRecords fun _ => none)).vertexTimes 1) := by
  intro m t clock
  refine ⟨_, rfl, rfl, rfl, rfl, ?_⟩
  rintro ⟨h, -⟩
  exact absurd h (by decide)

end UniDb
