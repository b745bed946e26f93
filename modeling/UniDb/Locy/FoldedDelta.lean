import Mathlib.Algebra.Order.Ring.Nat
import Mathlib.Data.Finset.Dedup
import Mathlib.Data.Finset.Empty
import Mathlib.Data.List.Perm.Basic

/-!
# Folded Deltas

A recursive rule with FOLD reads its own folded snapshot: one row for each KEY, with the
aggregate of the KEY's contributions. A clause with one reference is fed only the snapshot
rows that are new or changed since the last snapshot.

Contributions are replaced by their derivation key, which is every column except the fold
inputs. A snapshot row that did not change was fed in an earlier iteration, and what it
derived then is still there: it could only be replaced by a row with the same derivation key,
which comes from a snapshot row with the same KEY. So feeding the row again changes nothing
but the order of the contributions. The order matters for the row that represents a KEY in the
snapshot, and for aggregates that depend on it.

A KEY that leaves the snapshot is fed in neither way. When it returns it is new relative to the
snapshot before, and is fed in both.

## Main definitions

* `FoldPlan`, `FoldClause`: A rule with FOLD.
* `recomputeFolded`, `installFolded`: The snapshot and what changed in it.
* `mergeFoldContributions`: The merge by derivation key.
* `foldRun`: Iterations that read the changed rows, or the whole snapshot.

## Theorems

* `lastOf_keepLatest`: The merge keeps the latest contribution of each derivation key.
* `Sync.merge`: One iteration on both views.
* `folded_delta_equiv`: Both views give the same contributions and the same aggregates.
-/

namespace UniDb.Locy

open List

/-! ### The rule -/

/-- A snapshot row: its KEY, its aggregates, and the other columns of the contribution that
    represents the KEY. -/
structure Snapshot (K V R : Type) where
  key : K
  value : V
  internal : R
  deriving DecidableEq

/-- A clause that reads nothing of the stratum, or one that derives contributions from one
    snapshot row. It reads the KEY and the aggregates of the row. -/
inductive FoldClause (K V Row : Type) where
  | fixed (rows : List Row)
  | recursive (derive : K → V → List Row)

/-- A rule with FOLD. `derivKey` and `rowKey` are taken from the key view of a contribution,
    `keyOf` from the contribution itself. -/
structure FoldPlan (Row K V R D X : Type) where
  keyOf : Row → K
  internal : Row → R
  derivKey : Row → D
  rowKey : Row → X
  priority : Row → Int
  aggregate : List Row → V
  require : K → V → Bool
  clauses : List (FoldClause K V Row)

structure FoldState (Row K V R X : Type) where
  facts : List Row
  delta : List Row
  prevRows : Finset X
  folded : List (Snapshot K V R)
  foldedDelta : List (Snapshot K V R)
  foldedOld : List (Snapshot K V R)
  foldedRows : Finset (Snapshot K V R)

section Algorithm

variable {Row K V R D X : Type} [DecidableEq K] [DecidableEq V] [DecidableEq R] [DecidableEq D]
  [DecidableEq X] (plan : FoldPlan Row K V R D X)

/-- Each key once, in the order of first occurrences. -/
def firstSeen : List K → List K
  | [] => []
  | k :: ks => k :: (firstSeen ks).filter (· ≠ k)

def priorityRows (group : List Row) : List Row :=
  group.filter fun row => group.all fun other => plan.priority other ≤ plan.priority row

/-- The snapshot row of a KEY, represented by the first row that PRIORITY keeps. -/
def snapshotRow (facts : List Row) (k : K) : Option (Snapshot K V R) :=
  let rows := priorityRows plan (facts.filter fun row => plan.keyOf row = k)
  rows.head?.map fun first => ⟨k, plan.aggregate rows, plan.internal first⟩

/-- The snapshot of the contributions, restricted by REQUIRE. -/
def recomputeFolded (facts : List Row) : List (Snapshot K V R) :=
  ((firstSeen (facts.map plan.keyOf)).filterMap (snapshotRow plan facts)).filter
    fun row => plan.require row.key row.value

def FoldState.installFolded (s : FoldState Row K V R X) (folded : List (Snapshot K V R)) :
    FoldState Row K V R X :=
  { s with
    folded := folded
    foldedDelta := folded.filter fun row => row ∉ s.foldedRows
    foldedOld := folded.filter fun row => row ∈ s.foldedRows
    foldedRows := folded.toFinset }

/-- The rows with no later row of the same derivation key. -/
def keepLatest : List Row → List Row
  | [] => []
  | row :: rows =>
    if plan.derivKey row ∈ rows.map plan.derivKey then keepLatest rows
    else row :: keepLatest rows

/-- Whether the set of rows changed, and the state after the merge. -/
def mergeFoldContributions (s : FoldState Row K V R X) (candidates : List Row) :
    Bool × FoldState Row K V R X :=
  let combined := s.facts ++ candidates
  if combined.isEmpty then (false, { s with delta := [] })
  else
    let retained := keepLatest plan combined
    let rowsNow := (retained.map plan.rowKey).toFinset
    (rowsNow ≠ s.prevRows,
      { s with
        facts := retained
        delta := retained.filter fun row => plan.rowKey row ∉ s.prevRows
        prevRows := rowsNow }.installFolded (recomputeFolded plan retained))

/-- What a clause derives. A clause that reads nothing of the stratum is run in the first
    iteration only. -/
def FoldClause.candidates (first : Bool) (feed : List (Snapshot K V R)) :
    FoldClause K V Row → List Row
  | .fixed rows => if first then rows else []
  | .recursive derive => feed.flatMap fun row => derive row.key row.value

def evaluateFold (first : Bool) (feed : List (Snapshot K V R)) : List Row :=
  plan.clauses.flatMap (FoldClause.candidates first feed)

def FoldState.new : FoldState Row K V R X :=
  { facts := [], delta := [], prevRows := ∅, folded := [], foldedDelta := [], foldedOld := [],
    foldedRows := ∅ }

/-- One iteration, with the part of the snapshot that `view` feeds. -/
def foldStep (view : FoldState Row K V R X → List (Snapshot K V R)) (iteration : Nat)
    (s : FoldState Row K V R X) : Bool × FoldState Row K V R X :=
  mergeFoldContributions plan s (evaluateFold plan (iteration = 0) (view s))

/-- The state after some iterations. -/
def foldRun (view : FoldState Row K V R X → List (Snapshot K V R)) : Nat → FoldState Row K V R X
  | 0 => .new
  | n + 1 => (foldStep plan view n (foldRun view n)).2

end Algorithm

/-- Clauses read the KEY and the aggregates of a snapshot row only. -/
theorem evaluateFold_congr {Row K V R D X : Type} {plan : FoldPlan Row K V R D X}
    {s s' : Snapshot K V R} (hkey : s.key = s'.key) (hvalue : s.value = s'.value) :
    evaluateFold plan false [s] = evaluateFold plan false [s'] := by
  unfold evaluateFold
  congr 1
  funext clause
  cases clause with
  | fixed => rfl
  | recursive =>
    simp [FoldClause.candidates, hkey, hvalue]

/-! ### The latest contribution of a derivation key -/

section Latest

variable {Row K V R D X : Type} [DecidableEq D] (plan : FoldPlan Row K V R D X)

/-- The last row with a derivation key. -/
def lastOf (d : D) (rows : List Row) : Option Row :=
  (rows.filter fun row => plan.derivKey row = d).getLast?

variable {plan}

theorem lastOf_append (d : D) (A B : List Row) :
    lastOf plan d (A ++ B) = (lastOf plan d B).or (lastOf plan d A) := by
  rw [lastOf, filter_append, getLast?_append]
  rfl

variable {rows : List Row}

theorem derivKey_of_lastOf {d : D} {row : Row} (h : lastOf plan d rows = some row) :
    row ∈ rows ∧ plan.derivKey row = d := by
  have hmem := mem_filter.mp (mem_of_getLast? h)
  exact ⟨hmem.1, by simpa using hmem.2⟩

theorem lastOf_eq_none_iff {d : D} :
    lastOf plan d rows = none ↔ d ∉ rows.map plan.derivKey := by
  rw [lastOf, getLast?_eq_none_iff, filter_eq_nil_iff]
  simp

theorem lastOf_cons (d : D) (row : Row) (rows : List Row) :
    lastOf plan d (row :: rows) =
      (lastOf plan d rows).or (if plan.derivKey row = d then some row else none) := by
  rw [show row :: rows = [row] ++ rows from rfl, lastOf_append]
  congr 1
  unfold lastOf
  by_cases h : plan.derivKey row = d <;> simp [h]

theorem lastOf_keepLatest (d : D) (rows : List Row) :
    lastOf plan d (keepLatest plan rows) = lastOf plan d rows := by
  induction rows with
  | nil => rfl
  | cons row rows ih =>
    unfold keepLatest
    by_cases hlater : plan.derivKey row ∈ rows.map plan.derivKey
    · rw [if_pos hlater, ih, lastOf_cons]
      by_cases hd : plan.derivKey row = d
      · subst hd
        cases hlast : lastOf plan (plan.derivKey row) rows with
        | none => exact absurd hlater (lastOf_eq_none_iff.mp hlast)
        | some => rfl
      · rw [if_neg hd, Option.or_none]
    · rw [if_neg hlater, lastOf_cons, ih, lastOf_cons]

theorem keepLatest_subset (rows : List Row) : ∀ row ∈ keepLatest plan rows, row ∈ rows := by
  induction rows with
  | nil => exact fun _ h => h
  | cons row rows ih =>
    intro r hr
    unfold keepLatest at hr
    split at hr
    · exact mem_cons_of_mem _ (ih r hr)
    · rcases mem_cons.mp hr with rfl | hr
      · exact mem_cons_self
      · exact mem_cons_of_mem _ (ih r hr)

theorem nodup_keepLatest (rows : List Row) : ((keepLatest plan rows).map plan.derivKey).Nodup := by
  induction rows with
  | nil => exact .nil
  | cons row rows ih =>
    unfold keepLatest
    split
    · exact ih
    next hlater =>
      rw [map_cons, nodup_cons]
      refine ⟨fun hmem => hlater ?_, ih⟩
      rcases mem_map.mp hmem with ⟨r, hr, hkey⟩
      exact mem_map.mpr ⟨r, keepLatest_subset rows r hr, hkey⟩

theorem mem_iff_lastOf (h : (rows.map plan.derivKey).Nodup) (row : Row) :
    row ∈ rows ↔ lastOf plan (plan.derivKey row) rows = some row := by
  constructor
  · intro hrow
    cases hlast : lastOf plan (plan.derivKey row) rows with
    | none => exact absurd (mem_map_of_mem hrow) (lastOf_eq_none_iff.mp hlast)
    | some =>
      rcases derivKey_of_lastOf hlast with ⟨hmem, hkey⟩
      rw [inj_on_of_nodup_map h hmem hrow hkey]
  · exact fun hlast => (derivKey_of_lastOf hlast).1

/-- Contributions are determined by the latest one of each derivation key. -/
theorem perm_of_lastOf {A B : List Row} (hA : (A.map plan.derivKey).Nodup)
    (hB : (B.map plan.derivKey).Nodup) (h : ∀ d, lastOf plan d A = lastOf plan d B) :
    A.Perm B := by
  refine (perm_ext_iff_of_nodup (hA.of_map _) (hB.of_map _)).mpr fun row => ?_
  rw [mem_iff_lastOf hA, mem_iff_lastOf hB, h]

variable (plan) in
theorem eq_nil_iff_lastOf : rows = [] ↔ ∀ i, lastOf plan i rows = none := by
  constructor
  · rintro rfl i
    rfl
  · intro h
    refine eq_nil_iff_forall_not_mem.mpr fun row hrow => ?_
    exact lastOf_eq_none_iff.mp (h (plan.derivKey row)) (mem_map_of_mem hrow)

end Latest

/-! ### The snapshot -/

section Folded

variable {Row K V R D X : Type} {plan : FoldPlan Row K V R D X}

theorem priorityRows_perm {A B : List Row} (h : A.Perm B) :
    (priorityRows plan A).Perm (priorityRows plan B) := by
  have hall : ∀ row, A.all (fun other => plan.priority other ≤ plan.priority row) =
      B.all (fun other => plan.priority other ≤ plan.priority row) := by
    intro row
    rw [Bool.eq_iff_iff, all_eq_true, all_eq_true]
    exact forall_congr' fun other => by rw [h.mem_iff]
  unfold priorityRows
  simp only [hall]
  exact h.filter _

variable [DecidableEq K]

/-- The rows that are aggregated for a KEY. -/
def groupRows (plan : FoldPlan Row K V R D X) (facts : List Row) (k : K) : List Row :=
  priorityRows plan (facts.filter fun row => plan.keyOf row = k)

theorem mem_firstSeen (ks : List K) (k : K) : k ∈ firstSeen ks ↔ k ∈ ks := by
  induction ks with
  | nil => rfl
  | cons a ks ih =>
    rw [firstSeen, mem_cons, mem_cons, mem_filter, ih]
    by_cases hk : k = a <;> simp [hk]

variable {facts : List Row}

theorem key_mem_of_groupRows {k : K} {first : Row} (h : (groupRows plan facts k).head? =
    some first) :
    k ∈ facts.map plan.keyOf := by
  have hmem := (mem_filter.mp (mem_of_head? h)).1
  rw [mem_filter, decide_eq_true_eq] at hmem
  exact mem_map.mpr ⟨first, hmem.1, hmem.2⟩

/-- A snapshot row is that of its KEY. -/
theorem mem_recomputeFolded {s : Snapshot K V R} :
    s ∈ recomputeFolded plan facts ↔
      snapshotRow plan facts s.key = some s ∧ plan.require s.key s.value = true := by
  have hkey : ∀ {k : K}, snapshotRow plan facts k = some s → s.key = k := by
    intro k hk
    rcases Option.map_eq_some_iff.mp hk with ⟨first, -, rfl⟩
    rfl
  unfold recomputeFolded
  rw [mem_filter, mem_filterMap]
  refine and_congr_left fun _ => ⟨?_, fun hs => ⟨s.key, ?_, hs⟩⟩
  · rintro ⟨k, -, hk⟩
    rw [hkey hk]
    exact hk
  · rcases Option.map_eq_some_iff.mp hs with ⟨first, hfirst, -⟩
    exact (mem_firstSeen _ _).mpr (key_mem_of_groupRows hfirst)

theorem eq_of_mem_recomputeFolded {s s' : Snapshot K V R} (h : s ∈ recomputeFolded plan facts)
    (h' : s' ∈ recomputeFolded plan facts) (hkey : s.key = s'.key) : s = s' := by
  have hs := (mem_recomputeFolded.mp h).1
  rw [hkey, (mem_recomputeFolded.mp h').1] at hs
  exact (Option.some_inj.mp hs).symm

theorem exists_mem_recomputeFolded {k : K} {v : V} :
    (∃ s ∈ recomputeFolded plan facts, s.key = k ∧ s.value = v) ↔
      groupRows plan facts k ≠ [] ∧ plan.aggregate (groupRows plan facts k) = v ∧
        plan.require k v = true := by
  constructor
  · rintro ⟨s, hs, rfl, rfl⟩
    rcases mem_recomputeFolded.mp hs with ⟨hrow, hrequire⟩
    rcases Option.map_eq_some_iff.mp hrow with ⟨first, hfirst, heq⟩
    refine ⟨fun hnil => ?_, congrArg Snapshot.value heq, hrequire⟩
    change (groupRows plan facts s.key).head? = some first at hfirst
    rw [hnil] at hfirst
    cases hfirst
  · rintro ⟨hne, hvalue, hrequire⟩
    rcases exists_cons_of_ne_nil hne with ⟨first, rest, hrows⟩
    have hrow : snapshotRow plan facts k = some ⟨k, v, plan.internal first⟩ := by
      change (groupRows plan facts k).head?.map _ = _
      rw [hrows, head?_cons, Option.map_some]
      exact congrArg some (congrArg (Snapshot.mk k · _) hvalue)
    exact ⟨⟨k, v, plan.internal first⟩, mem_recomputeFolded.mpr ⟨hrow, hrequire⟩, rfl, rfl⟩

/-- The KEYs and aggregates of the snapshot do not depend on the order of the contributions. -/
theorem recomputeFolded_perm (horder : ∀ A B, A.Perm B → plan.aggregate A = plan.aggregate B)
    {A B : List Row} (h : A.Perm B) (k : K) (v : V) :
    (∃ s ∈ recomputeFolded plan A, s.key = k ∧ s.value = v) ↔
      ∃ s ∈ recomputeFolded plan B, s.key = k ∧ s.value = v := by
  have hgroup : (groupRows plan A k).Perm (groupRows plan B k) := priorityRows_perm (h.filter _)
  rw [exists_mem_recomputeFolded, exists_mem_recomputeFolded, horder _ _ hgroup,
    Ne, Ne, ← length_eq_zero_iff, hgroup.length_eq, length_eq_zero_iff]

end Folded

/-! ### Candidates by derivation key -/

section Sources

variable {Row K V R D X : Type} [DecidableEq D] {plan : FoldPlan Row K V R D X}

/-- The derivation key of a contribution tells which snapshot row it comes from. -/
def Sourced (plan : FoldPlan Row K V R D X) (source : D → K) : Prop :=
  ∀ derive, .recursive derive ∈ plan.clauses → ∀ k v, ∀ row ∈ derive k v,
    source (plan.derivKey row) = k

variable {d : D}

theorem lastOf_eq_none_of {rows : List Row} (h : ∀ row ∈ rows, plan.derivKey row ≠ d) :
    lastOf plan d rows = none := by
  rw [lastOf_eq_none_iff]
  intro hmem
  rcases mem_map.mp hmem with ⟨row, hrow, hkey⟩
  exact h row hrow hkey

/-- Only one row of the feed derives rows with a derivation key. -/
theorem lastOf_flatMap_single {S : Type} {feed : List S} {g : S → List Row} {s : S} (hs : s ∈ feed)
    (hother : ∀ s' ∈ feed, s' ≠ s → lastOf plan d (g s') = none) :
    lastOf plan d (feed.flatMap g) = lastOf plan d (g s) := by
  classical
  induction feed with
  | nil => cases hs
  | cons a feed ih =>
    rw [flatMap_cons, lastOf_append]
    by_cases hin : s ∈ feed
    · rw [ih hin fun s' hs' => hother s' (mem_cons_of_mem _ hs')]
      by_cases ha : a = s
      · rw [ha, Option.or_self]
      · rw [hother a mem_cons_self ha, Option.or_none]
    · have ha : s = a := (mem_cons.mp hs).resolve_right hin
      have hrest : lastOf plan d (feed.flatMap g) = none := by
        rw [lastOf_eq_none_iff, map_flatMap, mem_flatMap]
        rintro ⟨s', hs', hmem⟩
        have hne : s' ≠ s := fun heq => hin (heq ▸ hs')
        exact lastOf_eq_none_iff.mp (hother s' (mem_cons_of_mem _ hs') hne) hmem
      rw [hrest, Option.none_or, ha]

variable {source : D → K}

theorem lastOf_recursive (h : Sourced plan source) {derive : K → V → List Row}
    (hclause : .recursive derive ∈ plan.clauses) {k : K} {v : V} (hne : k ≠ source d) :
    lastOf plan d (derive k v) = none :=
  lastOf_eq_none_of fun row hrow hkey => hne (hkey ▸ (h derive hclause k v row hrow).symm)

theorem lastOf_flatMap_clauses {clauses : List (FoldClause K V Row)}
    {f g : FoldClause K V Row → List Row}
    (h : ∀ clause ∈ clauses, lastOf plan d (f clause) = lastOf plan d (g clause)) :
    lastOf plan d (clauses.flatMap f) = lastOf plan d (clauses.flatMap g) := by
  induction clauses with
  | nil => rfl
  | cons clause clauses ih =>
    rw [flatMap_cons, flatMap_cons, lastOf_append, lastOf_append,
      h clause mem_cons_self, ih fun c hc => h c (mem_cons_of_mem _ hc)]

variable {feed : List (Snapshot K V R)}

/-- The last candidate with a derivation key is the one that its own snapshot row derives. -/
theorem lastOf_evaluateFold (h : Sourced plan source)
    (huniq : ∀ s ∈ feed, ∀ s' ∈ feed, s.key = s'.key → s = s') {s : Snapshot K V R} (hs : s ∈ feed)
    (hkey : s.key = source d) :
    lastOf plan d (evaluateFold plan false feed) = lastOf plan d (evaluateFold plan false [s]) := by
  refine lastOf_flatMap_clauses fun clause hclause => ?_
  cases clause with
  | fixed => rfl
  | recursive =>
    simp only [FoldClause.candidates, flatMap_singleton]
    refine lastOf_flatMap_single hs fun s' hs' hne => ?_
    refine lastOf_recursive h hclause fun hkey' => hne ?_
    exact huniq s' hs' s hs (hkey'.trans hkey.symm)

/-- A KEY that is not fed derives nothing. -/
theorem lastOf_evaluateFold_none (h : Sourced plan source) (hfeed : ∀ s ∈ feed, s.key ≠ source d) :
    lastOf plan d (evaluateFold plan false feed) = none := by
  rw [lastOf_eq_none_iff]
  intro hmem
  rcases mem_map.mp hmem with ⟨row, hrow, hd⟩
  rcases mem_flatMap.mp hrow with ⟨clause, hclause, hrow⟩
  cases clause with
  | fixed => cases hrow
  | recursive derive =>
    rcases mem_flatMap.mp hrow with ⟨s, hs, hrow⟩
    exact hfeed s hs (hd ▸ (h derive hclause _ _ row hrow).symm)

end Sources

/-! ### Both views in step -/

section Sync

variable {Row K V R D X : Type} [DecidableEq K] [DecidableEq V] [DecidableEq R] [DecidableEq D]
  {plan : FoldPlan Row K V R D X} {source : D → K}

/-- The state of the evaluation on changed rows and that of the evaluation on the whole
    snapshot. What an unchanged snapshot row derives is there already. -/
structure Sync (plan : FoldPlan Row K V R D X) (d f : FoldState Row K V R X) : Prop where
  same : ∀ i, lastOf plan i d.facts = lastOf plan i f.facts
  nodup_delta : (d.facts.map plan.derivKey).Nodup
  nodup_full : (f.facts.map plan.derivKey).Nodup
  prevRows : d.prevRows = f.prevRows
  folded_delta : d.folded = recomputeFolded plan d.facts
  folded_full : f.folded = recomputeFolded plan f.facts
  delta_mem : ∀ s ∈ d.foldedDelta, s ∈ d.folded
  rows : d.foldedRows = d.folded.toFinset
  present : ∀ s ∈ d.folded, s ∉ d.foldedDelta → ∀ i,
    lastOf plan i (evaluateFold plan false [s]) ≠ none →
    lastOf plan i d.facts = lastOf plan i (evaluateFold plan false [s])

variable {d f : FoldState Row K V R X} (h : Sync plan d f)

include h

theorem Sync.perm : d.facts.Perm f.facts :=
  perm_of_lastOf h.nodup_delta h.nodup_full h.same

theorem Sync.unique : ∀ s ∈ d.folded, ∀ s' ∈ d.folded, s.key = s'.key → s = s' := by
  rw [h.folded_delta]
  exact fun s hs s' hs' => eq_of_mem_recomputeFolded hs hs'

/-- The candidates of a fed row are those of the row, and a row that is not fed has none. -/
theorem Sync.lastOf_delta (hsource : Sourced plan source) {s : Snapshot K V R} (hs : s ∈ d.folded)
    {i : D} (hkey : s.key = source i) : lastOf plan i (evaluateFold plan false d.foldedDelta) =
      if s ∈ d.foldedDelta then lastOf plan i (evaluateFold plan false [s]) else none := by
  by_cases hfed : s ∈ d.foldedDelta
  · rw [if_pos hfed]
    refine lastOf_evaluateFold hsource (fun a ha b hb => ?_) hfed hkey
    exact h.unique a (h.delta_mem a ha) b (h.delta_mem b hb)
  · rw [if_neg hfed]
    refine lastOf_evaluateFold_none hsource fun a ha hak => hfed ?_
    rw [h.unique s hs a (h.delta_mem a ha) (hkey.trans hak.symm)]
    exact ha

/-- Both evaluations end with the same latest contributions. -/
theorem Sync.same_combined (hsource : Sourced plan source)
    (horder : ∀ A B, A.Perm B → plan.aggregate A = plan.aggregate B) (i : D) :
    lastOf plan i (d.facts ++ evaluateFold plan false d.foldedDelta) =
      lastOf plan i (f.facts ++ evaluateFold plan false f.folded) := by
  have hsnap : ∀ k v, (∃ s ∈ d.folded, s.key = k ∧ s.value = v) ↔
      ∃ s ∈ f.folded, s.key = k ∧ s.value = v := by
    rw [h.folded_delta, h.folded_full]
    exact recomputeFolded_perm horder h.perm
  rw [lastOf_append, lastOf_append]
  by_cases hex : ∃ s ∈ f.folded, s.key = source i
  · rcases hex with ⟨sf, hsf, hkey⟩
    rcases (hsnap sf.key sf.value).mpr ⟨sf, hsf, rfl, rfl⟩ with ⟨sd, hsd, hk, hv⟩
    have huniq : ∀ a ∈ f.folded, ∀ b ∈ f.folded, a.key = b.key → a = b := by
      rw [h.folded_full]
      exact fun a ha b hb => eq_of_mem_recomputeFolded ha hb
    rw [h.lastOf_delta hsource hsd (hk.trans hkey), lastOf_evaluateFold hsource huniq hsf hkey,
      ← evaluateFold_congr hk hv, h.same]
    by_cases hfed : sd ∈ d.foldedDelta
    · rw [if_pos hfed]
    · rw [if_neg hfed, Option.none_or]
      cases hlast : lastOf plan i (evaluateFold plan false [sd]) with
      | none => rfl
      | some row =>
        rw [← h.same, h.present sd hsd hfed i (by rw [hlast]; exact Option.some_ne_none row), hlast]
        rfl
  · have hnone : ∀ s ∈ d.foldedDelta, s.key ≠ source i := by
      intro s hs hkey
      rcases (hsnap s.key s.value).mp ⟨s, h.delta_mem s hs, rfl, rfl⟩ with ⟨sf, hsf, hk, -⟩
      exact hex ⟨sf, hsf, hk.trans hkey⟩
    rw [lastOf_evaluateFold_none hsource hnone,
      lastOf_evaluateFold_none hsource fun s hs hkey => hex ⟨s, hs, hkey⟩, h.same]

variable [DecidableEq X]

/-- One iteration on both views, after the first. -/
theorem Sync.merge (hsource : Sourced plan source)
    (horder : ∀ A B, A.Perm B → plan.aggregate A = plan.aggregate B) :
    Sync plan (mergeFoldContributions plan d (evaluateFold plan false d.foldedDelta)).2
        (mergeFoldContributions plan f (evaluateFold plan false f.folded)).2 ∧
      (mergeFoldContributions plan d (evaluateFold plan false d.foldedDelta)).1 =
        (mergeFoldContributions plan f (evaluateFold plan false f.folded)).1 := by
  have hsame := h.same_combined hsource horder
  have hempty : (d.facts ++ evaluateFold plan false d.foldedDelta = []) ↔
      (f.facts ++ evaluateFold plan false f.folded = []) := by
    rw [eq_nil_iff_lastOf plan, eq_nil_iff_lastOf plan]
    exact forall_congr' fun i => by rw [hsame]
  unfold mergeFoldContributions
  simp only [List.isEmpty_iff]
  by_cases hnil : d.facts ++ evaluateFold plan false d.foldedDelta = []
  · rw [if_pos hnil, if_pos (hempty.mp hnil)]
    exact ⟨⟨h.same, h.nodup_delta, h.nodup_full, h.prevRows, h.folded_delta, h.folded_full,
      h.delta_mem, h.rows, h.present⟩, rfl⟩
  · rw [if_neg hnil, if_neg fun hnil' => hnil (hempty.mpr hnil')]
    have hlatest : ∀ i, lastOf plan i (keepLatest plan
        (d.facts ++ evaluateFold plan false d.foldedDelta)) =
        lastOf plan i (keepLatest plan (f.facts ++ evaluateFold plan false f.folded)) := by
      intro i
      rw [lastOf_keepLatest, lastOf_keepLatest, hsame]
    have hperm := perm_of_lastOf (nodup_keepLatest _) (nodup_keepLatest _) hlatest
    have hrows : ((keepLatest plan (d.facts ++ evaluateFold plan false d.foldedDelta)).map
        plan.rowKey).toFinset = ((keepLatest plan
          (f.facts ++ evaluateFold plan false f.folded)).map plan.rowKey).toFinset :=
      toFinset_eq_of_perm _ _ (hperm.map _)
    refine ⟨⟨hlatest, nodup_keepLatest _, nodup_keepLatest _, hrows, rfl, rfl,
      fun s hs => (mem_filter.mp hs).1, rfl, ?_⟩, by simp only [hrows, h.prevRows]⟩
    -- a row that the snapshot before held already: it was fed now, or its outputs were there
    intro s hs hnot i hi
    have hold : s ∈ d.folded := by
      by_contra hnew
      refine hnot (mem_filter.mpr ⟨hs, ?_⟩)
      simpa [h.rows] using hnew
    have hkey : s.key = source i := by
      by_contra hne
      exact hi (lastOf_evaluateFold_none hsource fun a ha => by
        rw [mem_singleton.mp ha]
        exact hne)
    show lastOf plan i (keepLatest plan _) = _
    rw [lastOf_keepLatest, lastOf_append, h.lastOf_delta hsource hold hkey]
    by_cases hfed : s ∈ d.foldedDelta
    · rw [if_pos hfed]
      exact Option.or_of_isSome (Option.isSome_iff_ne_none.mpr hi)
    · rw [if_neg hfed, Option.none_or]
      exact h.present s hold hfed i hi

omit h

/-- The first iteration, in which the snapshot is empty. -/
theorem Sync.first (candidates : List Row) :
    Sync plan (mergeFoldContributions plan .new candidates).2
      (mergeFoldContributions plan .new candidates).2 := by
  unfold mergeFoldContributions
  simp only
  split
  · exact ⟨fun _ => rfl, .nil, .nil, rfl, rfl, rfl, fun s hs => hs, rfl,
      nofun⟩
  · refine ⟨fun _ => rfl, nodup_keepLatest _, nodup_keepLatest _, rfl, rfl, rfl,
      fun s hs => (mem_filter.mp hs).1, rfl, fun s hs hnot => absurd ?_ hnot⟩
    refine mem_filter.mpr ⟨hs, ?_⟩
    simp [FoldState.new]

theorem Sync.run (hsource : Sourced plan source)
    (horder : ∀ A B, A.Perm B → plan.aggregate A = plan.aggregate B) (n : Nat) :
    Sync plan (foldRun plan FoldState.foldedDelta (n + 1))
      (foldRun plan FoldState.folded (n + 1)) := by
  induction n with
  | zero => exact Sync.first _
  | succ n ih => exact (ih.merge hsource horder).1

/-- Feeding the changed snapshot rows gives, after every iteration, the same contributions
    and the same KEYs with the same aggregates as feeding the whole snapshot, and the loop
    sees a change in the same iterations. -/
theorem folded_delta_equiv (plan : FoldPlan Row K V R D X) (source : D → K)
    (hsource : Sourced plan source)
    (horder : ∀ A B, A.Perm B → plan.aggregate A = plan.aggregate B) (n : Nat) :
    (foldRun plan FoldState.foldedDelta n).facts.Perm (foldRun plan FoldState.folded n).facts ∧
      (∀ k v, (∃ s ∈ (foldRun plan FoldState.foldedDelta n).folded, s.key = k ∧ s.value = v) ↔
        ∃ s ∈ (foldRun plan FoldState.folded n).folded, s.key = k ∧ s.value = v) ∧
      (foldStep plan FoldState.foldedDelta n (foldRun plan FoldState.foldedDelta n)).1 =
        (foldStep plan FoldState.folded n (foldRun plan FoldState.folded n)).1 := by
  cases n with
  | zero => exact ⟨.nil, fun _ _ => Iff.rfl, rfl⟩
  | succ n =>
    have h := Sync.run hsource horder n
    refine ⟨h.perm, ?_, (h.merge hsource horder).2⟩
    rw [h.folded_delta, h.folded_full]
    exact recomputeFolded_perm horder h.perm

end Sync

/-! ### Two aggregates -/

section Aggregates

/-- A contribution to `key`, from `child` or, without one, from the base clause. -/
structure Contribution (V : Type) where
  key : Nat
  child : Option Nat
  input : V
  deriving DecidableEq

/-- Four nodes, of which some have a value. Node 0 is a child of 1, and nodes 1 and 2 are
    children of 3. -/
def treePlan {V : Type} (nodes : List Nat) (values : Nat → V) (aggregate : List V → V)
    (require : V → Bool) :
    FoldPlan (Contribution V) Nat V (Option Nat) (Nat × Option Nat) (Contribution V) where
  keyOf := Contribution.key
  internal := Contribution.child
  derivKey row := (row.key, row.child)
  rowKey := id
  priority _ := 0
  aggregate rows := aggregate (rows.map Contribution.input)
  require _ := require
  clauses := [
    .fixed (nodes.map fun k => ⟨k, none, values k⟩),
    .recursive fun
      | 0, value => [⟨1, some 0, value⟩]
      | 1, value => [⟨3, some 1, value⟩]
      | 2, value => [⟨3, some 2, value⟩]
      | _, _ => []]

/-- The child that a contribution was derived from. -/
def treeSource (d : Nat × Option Nat) : Nat := d.2.getD 0

theorem treePlan_sourced {V : Type} (nodes : List Nat) (values : Nat → V)
    (aggregate : List V → V) (require : V → Bool) :
    Sourced (treePlan nodes values aggregate require) treeSource := by
  intro derive hclause k v row hrow
  simp only [treePlan, mem_cons, not_mem_nil, or_false, reduceCtorEq, false_or,
    FoldClause.recursive.injEq] at hclause
  subst hclause
  dsimp only at hrow
  split at hrow <;> simp_all [treePlan, treeSource]

/-- The sum of node 3 is 30 after the first iteration, 60 after the second, where REQUIRE excludes
    it, and 61 after the third. -/
def sumPlan : FoldPlan (Contribution Nat) Nat Nat (Option Nat) (Nat × Option Nat)
    (Contribution Nat) :=
  treePlan [0, 1, 2, 3] (fun k => if k = 0 then 1 else 10 * k) sum (· ≠ 60)

theorem folded_delta_equiv_sum : (∀ A B, A.Perm B → sumPlan.aggregate A = sumPlan.aggregate B) ∧
      Sourced sumPlan treeSource ∧
      (∃ s ∈ (foldRun sumPlan FoldState.folded 1).folded, s.key = 3 ∧ s.value = 30) ∧
      ((foldRun sumPlan FoldState.folded 2).folded.map Snapshot.key = [0, 1, 2]) ∧
      (∃ s ∈ (foldRun sumPlan FoldState.foldedDelta 3).folded, s.key = 3 ∧ s.value = 61) := by
  have horder : ∀ A B, A.Perm B → sumPlan.aggregate A = sumPlan.aggregate B := fun A B h =>
    (h.map Contribution.input).sum_nat
  have hsource : Sourced sumPlan treeSource := treePlan_sourced _ _ _ _
  refine ⟨horder, hsource, by decide +kernel, by decide +kernel, ?_⟩
  refine ((folded_delta_equiv sumPlan treeSource hsource horder 3).2.1 3 61).mpr ?_
  decide +kernel

/-- A value of a column that holds numbers and lists. -/
inductive Cell where
  | int (n : Nat)
  | nil
  | cons (head tail : Cell)
  deriving DecidableEq

def Cell.list (cells : List Cell) : Cell := cells.foldr .cons .nil

/-- COLLECT lists the inputs of a KEY in the order of its contributions. -/
def collectPlan : FoldPlan (Contribution Cell) Nat Cell (Option Nat) (Nat × Option Nat)
    (Contribution Cell) :=
  treePlan [0, 1, 2] (fun k => .int k) .list fun _ => true

/-- The two evaluations list the children of node 3 in a different order. -/
theorem collect_order_differs :
    Sourced collectPlan treeSource ∧
      (∃ s ∈ (foldRun collectPlan FoldState.foldedDelta 3).folded, s.key = 3 ∧
        s.value = .list [.list [.int 2], .list [.int 1, .list [.int 0]]]) ∧
      (∃ s ∈ (foldRun collectPlan FoldState.folded 3).folded, s.key = 3 ∧
        s.value = .list [.list [.int 1, .list [.int 0]], .list [.int 2]]) ∧
      ¬ ∃ s ∈ (foldRun collectPlan FoldState.folded 3).folded, s.key = 3 ∧
        s.value = .list [.list [.int 2], .list [.int 1, .list [.int 0]]] := by
  exact ⟨treePlan_sourced _ _ _ _, by decide +kernel, by decide +kernel, by decide +kernel⟩

end Aggregates

end UniDb.Locy
