import Mathlib.Data.Finset.Lattice.Basic
import Mathlib.Algebra.Order.Ring.Nat
import Mathlib.Data.List.FinRange
import Mathlib.Data.Finset.Union
import UniDb.Lib.SemiNaive

/-!
# The Fixpoint Loop of a Recursive Stratum

The rules of a stratum are evaluated in turn, over and over, until an iteration adds nothing.

A rule keeps its facts, the facts its latest merge added, and how many batches came before
those. Clauses read the rules of their own stratum through shared scan handles. A clause with
one such scan is run on the latest delta of the rule it reads. A clause with several is run
once for each of them, on the old facts at the scans before it and on all facts at the scans
after it.

Candidates are compared with the stored facts through a key view of the rows, in which
floating point values are rounded. There are three ways to do this, chosen by the number of
stored rows and by whether the row encoding supports the types, and each compares key views in
its own way: by the bytes of the row encoding, by the equality of a hash join, and by scalar keys,
which fall back to the text that a value is displayed as. Only the first keeps a set of keys from
one merge to the next. The join needs the row encoding as well, so with enough facts it fails for
the types that the scalar keys are there for.

Clause bodies are functions of the rows that their scans read. Rules with FOLD, BEST BY,
PRIORITY or ALONG are not covered here.

## Main definitions

* `ClausePlan`, `RulePlan`, `Stratum`: What is evaluated.
* `FixpointState`: The facts of a rule.
* `computeDelta`, `mergeDelta`: The candidates that are new, and their merge.
* `MergeEnv.ComparesBy`: The comparisons in use are those of a key.
* `firstNew`: The first occurrence of every key that was not there before.
* `feedStratumScans`, `evaluateClause`: The passes of a clause.
* `runFixpointLoop`: The loop.

## Theorems

* `flatten_rowDedupDelta`, `flatten_legacyDelta`, `flatten_arrowLeftAntiDedup`: What each of the
  three ways to find new rows keeps.
* `computeDelta_eq_firstNew`: The three ways find the same new rows, if they compare alike.
* `mergeDelta_spec`: A merge keeps the old facts apart from the new ones.
-/

namespace UniDb.Locy

open List

/-! ### The plan of a stratum -/

/-- A clause. `scans` are the places in the registry of its scans into its own stratum, one
    for each reference. -/
structure ClausePlan (Row : Type) where
  scans : List Nat
  body : List (List Row) → List (List Row)
  scans_nodup : scans.Nodup
  additive : Additive fun data => (body data).flatten

/-- `nonLinear` marks a rule with a clause of several scans. -/
structure RulePlan (Row : Type) where
  clauses : List (ClausePlan Row)
  nonLinear : Bool

/-- The rules of a stratum, and the rule that each registered scan reads. -/
structure Stratum (Row : Type) (n : Nat) where
  rules : Fin n → RulePlan Row
  registry : List (Fin n)

/-- How rows are compared and counted. Each of the three comparisons sees the key view of the
    rows. -/
structure MergeEnv (Row Key Scalar : Type) where
  /-- The bytes of the row encoding. -/
  rowBytes : Row → Key
  /-- The equality of the hash join, with NULL equal to NULL. -/
  joinEq : Row → Row → Bool
  scalarKey : Row → Scalar
  batchByteSize : List Row → Nat
  maxDerivedBytes : Nat

/-- The facts of a rule, in batches. `rowDedup` is missing if the row encoding does not
    support the types of the rule. -/
structure FixpointState (Row Key : Type) where
  facts : List (List Row)
  delta : List (List Row)
  oldLen : Nat
  rowDedup : Option (Finset Key)
  factsBytes : Nat

section Merge

variable {Row Key Scalar K : Type} [DecidableEq Key] [DecidableEq Scalar] [DecidableEq K]
  (env : MergeEnv Row Key Scalar) (key : Row → K)

def FixpointState.new (supported : Bool) : FixpointState Row Key :=
  { facts := [], delta := [], oldLen := 0, rowDedup := if supported then some ∅ else none,
    factsBytes := 0 }

variable (s : FixpointState Row Key)

def FixpointState.oldFacts : List (List Row) :=
  s.facts.take s.oldLen

def FixpointState.isConverged : Bool :=
  s.delta.all List.isEmpty

/-! ### New rows -/

def keysOf (batches : List (List Row)) : Finset K :=
  (batches.flatten.map key).toFinset

/-- The rows of a batch with a key that was not seen, each key once. -/
def keepNew : Finset K → List Row → List Row × Finset K
  | seen, [] => ([], seen)
  | seen, row :: rows =>
    if key row ∈ seen then keepNew seen rows
    else
      let result := keepNew (insert (key row) seen) rows
      (row :: result.1, result.2)

/-- The persistent set of keys is consulted and extended. -/
def rowDedupDelta : Finset Key → List (List Row) → List (List Row) × Finset Key
  | seen, [] => ([], seen)
  | seen, batch :: batches =>
    let kept := keepNew env.rowBytes seen batch
    let result := rowDedupDelta kept.2 batches
    (if kept.1.isEmpty then result.1 else kept.1 :: result.1, result.2)

/-- The rows of a batch are first compared with the keys before it, then with one another. -/
def legacyDelta : Finset Scalar → List (List Row) → List (List Row)
  | _, [] => []
  | existing, batch :: batches =>
    let kept := keepNew env.scalarKey existing
      (batch.filter fun row => env.scalarKey row ∉ existing)
    let result := legacyDelta kept.2 batches
    if kept.1.isEmpty then result else kept.1 :: result

/-- First occurrences by the row encoding, then those that the join finds no stored row for, in
    one batch. Without the encoding there is no converter, which is an error. -/
def arrowLeftAntiDedup (supported : Bool) (candidates existing : List (List Row)) :
    Option (List (List Row)) :=
  if candidates.flatten.isEmpty then some []
  else if !supported then none
  else
    let first := (keepNew env.rowBytes ∅ candidates.flatten).1
    if existing.flatten.isEmpty then some [first]
    else some [first.filter fun row => !existing.flatten.any (env.joinEq row)]

def dedupAntiJoinThreshold : Nat := 300

def computeDelta (candidates : List (List Row)) :
    Option (List (List Row) × Option (Finset Key)) :=
  if dedupAntiJoinThreshold ≤ s.facts.flatten.length then
    (arrowLeftAntiDedup env s.rowDedup.isSome candidates s.facts).map fun delta =>
      (delta, s.rowDedup)
  else match s.rowDedup with
    | some seen =>
      let result := rowDedupDelta env seen candidates
      some (result.1, some result.2)
    | none => some (legacyDelta env (keysOf env.scalarKey s.facts) candidates, none)

/-- Whether facts were added. Too many bytes are an error. -/
def mergeDelta (candidates : List (List Row)) :
    Option (Bool × FixpointState Row Key) :=
  if candidates.all List.isEmpty then
    some (false, { s with delta := [], oldLen := s.facts.length })
  else do
    let (delta, rowDedup) ← computeDelta env s candidates
    let s := { s with rowDedup := rowDedup }
    if delta.all List.isEmpty then
      some (false, { s with delta := [], oldLen := s.facts.length })
    else
      let bytes := s.factsBytes + (delta.map env.batchByteSize).sum
      if env.maxDerivedBytes < bytes then none
      else some (true, { s with
        factsBytes := bytes
        oldLen := s.facts.length
        facts := s.facts ++ delta
        delta := delta })

end Merge

/-! ### The loop -/

section Loop

variable {Row Key Scalar : Type} [DecidableEq Key] [DecidableEq Scalar] {n : Nat}
  (env : MergeEnv Row Key Scalar) (S : Stratum Row n)

/-- The data of the scan handles. -/
abbrev Handles (Row : Type) := Nat → List Row

def stratumScanView (s : FixpointState Row Key) : Feed → List Row
  | .delta => s.delta.flatten
  | .old => s.oldFacts.flatten
  | .full => s.facts.flatten

/-- What a scan rests on while no clause runs: the delta for a reference of a linear rule to
    itself, and all facts otherwise. -/
def updateDerivedScanHandles (states : Fin n → FixpointState Row Key) (current : Fin n)
    (handles : Handles Row) : Handles Row := fun scan =>
  match S.registry[scan]? with
  | none => handles scan
  | some rule =>
    if rule = current ∧ (S.rules current).nonLinear = false then
      stratumScanView (states rule) .delta
    else stratumScanView (states rule) .full

/-- The data to feed, unless the scan that is fed the delta has no rows. A scan that the
    registry does not hold is an error. -/
def collectFeeds (states : Fin n → FixpointState Row Key) (skipEmptyDelta : Bool) :
    List (Nat × Feed) → Option (Option (List (Nat × List Row)))
  | [] => some (some [])
  | (scan, feed) :: feeds =>
    match S.registry[scan]? with
    | none => none
    | some rule =>
      let data := stratumScanView (states rule) feed
      if skipEmptyDelta ∧ feed = .delta ∧ data = [] then some none
      else (collectFeeds states skipEmptyDelta feeds).map fun writes =>
        writes.map fun writes => (scan, data) :: writes

def writeFeeds (handles : Handles Row) (writes : List (Nat × List Row)) : Handles Row :=
  writes.foldl (fun handles write => Function.update handles write.1 write.2) handles

/-- Feeds the scans of a clause for one pass, or says that the pass derives nothing. -/
def feedStratumScans (states : Fin n → FixpointState Row Key) (scans : List Nat)
    (feeds : List Feed) (skipEmptyDelta : Bool) (handles : Handles Row) :
    Option (Option (Handles Row)) :=
  (collectFeeds S states skipEmptyDelta (scans.zip feeds)).map fun writes =>
    writes.map (writeFeeds handles)

def runPass (states : Fin n → FixpointState Row Key) (clause : ClausePlan Row)
    (acc : List (List Row) × Handles Row) (pass : Nat) :
    Option (List (List Row) × Handles Row) :=
  let feeds := (List.range clause.scans.length).map (feedAt pass)
  (feedStratumScans S states clause.scans feeds (1 < clause.scans.length) acc.2).map fun fed =>
    match fed with
    | none => acc
    | some handles => (acc.1 ++ clause.body (clause.scans.map handles), handles)

/-- A clause that reads nothing of its stratum is run in the first iteration only. -/
def evaluateClause (iteration : Nat) (states : Fin n → FixpointState Row Key) (current : Fin n)
    (clause : ClausePlan Row) (handles : Handles Row) :
    Option (List (List Row) × Handles Row) :=
  if clause.scans.isEmpty then
    some (if iteration = 0 then clause.body [] else [], handles)
  else
    ((List.range clause.scans.length).foldlM (runPass S states clause) ([], handles)).map
      fun result => (result.1, updateDerivedScanHandles S states current result.2)

def evaluateClauses (iteration : Nat) (states : Fin n → FixpointState Row Key)
    (current : Fin n) : List (ClausePlan Row) → Handles Row →
    Option (List (List Row) × Handles Row)
  | [], handles => some ([], handles)
  | clause :: clauses, handles => do
      let (batches, handles) ← evaluateClause S iteration states current clause handles
      let (rest, handles) ← evaluateClauses iteration states current clauses handles
      pure (batches ++ rest, handles)

structure LoopState (Row Key : Type) (n : Nat) where
  states : Fin n → FixpointState Row Key
  handles : Handles Row
  anyChanged : Bool

def evaluateRule (iteration : Nat) (s : LoopState Row Key n) (rule : Fin n) :
    Option (LoopState Row Key n) := do
  let handles := updateDerivedScanHandles S s.states rule s.handles
  let (candidates, handles) ←
    evaluateClauses S iteration s.states rule (S.rules rule).clauses handles
  let (changed, state) ← mergeDelta env (s.states rule) candidates
  pure {
    states := Function.update s.states rule state
    handles := handles
    anyChanged := s.anyChanged || changed }

def runIteration (iteration : Nat) (s : LoopState Row Key n) : Option (LoopState Row Key n) :=
  (finRange n).foldlM (evaluateRule env S iteration) { s with anyChanged := false }

/-- The iterations left. `timedOut` says whether the deadline has passed after an iteration. -/
def fixpointIterations (timedOut : Nat → Bool) :
    Nat → Nat → LoopState Row Key n → Option (Bool × (Fin n → FixpointState Row Key))
  | 0, _, s => some (false, s.states)
  | left + 1, iteration, s => do
      let s ← runIteration env S iteration s
      if !s.anyChanged && (finRange n).all fun rule => (s.states rule).isConverged then
        pure (true, s.states)
      else if timedOut iteration then pure (false, s.states)
      else fixpointIterations timedOut left (iteration + 1) s

/-- Whether the loop converged, and the states of the rules. -/
def runFixpointLoop (supported : Fin n → Bool) (maxIterations : Nat) (timedOut : Nat → Bool) :
    Option (Bool × (Fin n → FixpointState Row Key)) :=
  fixpointIterations env S timedOut maxIterations 0
    { states := fun rule => .new (supported rule), handles := fun _ => [], anyChanged := false }

end Loop

/-! ### What a merge guarantees -/

section MergeSpec

variable {Row Key Scalar K : Type} {env : MergeEnv Row Key Scalar} {key : Row → K}

variable (env key) in
/-- On these rows, the comparisons that are in use are those of `key`. -/
structure MergeEnv.ComparesBy (supported : Bool) (rows : Set Row) : Prop where
  rowBytes : supported = true → ∀ row ∈ rows, ∀ row' ∈ rows,
    env.rowBytes row = env.rowBytes row' ↔ key row = key row'
  joinEq : supported = true → ∀ row ∈ rows, ∀ row' ∈ rows,
    env.joinEq row row' = true ↔ key row = key row'
  scalarKey : supported = false → ∀ row ∈ rows, ∀ row' ∈ rows,
    env.scalarKey row = env.scalarKey row' ↔ key row = key row'

variable [DecidableEq K]

theorem mem_keysOf {batches : List (List Row)} {k : K} :
    k ∈ keysOf key batches ↔ ∃ row ∈ batches.flatten, key row = k := by
  rw [keysOf, mem_toFinset, mem_map]

theorem keysOf_append (A B : List (List Row)) :
    keysOf key (A ++ B) = keysOf key A ∪ keysOf key B := by
  rw [keysOf, flatten_append, map_append, toFinset_append]
  rfl

variable (seen : Finset K) (rows : List Row)

theorem flatten_ite_isEmpty (batch : List Row) (batches : List (List Row)) :
    (if batch.isEmpty then batches else batch :: batches).flatten = batch ++ batches.flatten := by
  cases batch <;> simp

/-- The first occurrence of every key that was not there before. -/
def firstNew (key : Row → K) (existing : Finset K) : List Row → List Row
  | [] => []
  | row :: rows =>
    let rest := (firstNew key existing rows).filter (key · ≠ key row)
    if key row ∈ existing then rest else row :: rest

/-- A key that was seen drops its rows. -/
theorem firstNew_insert {seen : Finset K} (key : Row → K) (k : K) (rows : List Row) :
    firstNew key (insert k seen) rows = (firstNew key seen rows).filter (key · ≠ k) := by
  induction rows with
  | nil => rfl
  | cons row rows ih =>
    simp only [firstNew, ih, Finset.mem_insert]
    by_cases heq : key row = k
    · simp only [heq, true_or, if_true]
      split <;> simp [heq]
    · by_cases hmem : key row ∈ seen
      · simp only [heq, hmem, or_true, if_true, filter_filter, Bool.and_comm]
      · simp only [heq, hmem, or_self, if_false]
        rw [filter_cons_of_pos (by simpa using heq)]
        simp only [filter_filter, Bool.and_comm]

theorem firstNew_union (key : Row → K) (a b : Finset K) (rows : List Row) :
    firstNew key (a ∪ b) rows = (firstNew key a rows).filter (key · ∉ b) := by
  induction b using Finset.induction_on with
  | empty => simp
  | insert k b _ ih =>
    rw [Finset.union_insert, firstNew_insert, ih, filter_filter]
    refine filter_congr fun row _ => ?_
    simp [not_or]

theorem keepNew_eq_firstNew : (keepNew key seen rows).1 = firstNew key seen rows := by
  induction rows generalizing seen with
  | nil => rfl
  | cons row rows ih =>
    rw [keepNew, firstNew]
    split
    · next hmem => rw [ih, ← firstNew_insert, Finset.insert_eq_of_mem hmem]
    · exact congrArg (row :: ·) ((ih _).trans (firstNew_insert _ _ _))

theorem keepNew_snd : (keepNew key seen rows).2 =
    seen ∪ ((firstNew key seen rows).map key).toFinset := by
  rw [← keepNew_eq_firstNew]
  induction rows generalizing seen with
  | nil => simp [keepNew]
  | cons row rows ih =>
    rw [keepNew]
    split
    · exact ih seen
    · rw [ih, map_cons, toFinset_cons, Finset.insert_union, Finset.union_insert]

theorem mem_of_mem_firstNew {row : Row} (h : row ∈ firstNew key seen rows) : row ∈ rows := by
  induction rows with
  | nil => exact h
  | cons row' rows ih =>
    rw [firstNew] at h
    split at h
    · exact mem_cons_of_mem _ (ih (mem_of_mem_filter h))
    · rcases mem_cons.mp h with rfl | h
      · exact mem_cons_self
      · exact mem_cons_of_mem _ (ih (mem_of_mem_filter h))

theorem notMem_of_mem_firstNew {row : Row} (h : row ∈ firstNew key seen rows) :
    key row ∉ seen := by
  induction rows with
  | nil => cases h
  | cons row' rows ih =>
    rw [firstNew] at h
    split at h
    · exact ih (mem_of_mem_filter h)
    · next hnew =>
      rcases mem_cons.mp h with rfl | h
      · exact hnew
      · exact ih (mem_of_mem_filter h)

theorem firstNew_nodup : ((firstNew key seen rows).map key).Nodup := by
  induction rows with
  | nil => exact .nil
  | cons row rows ih =>
    have hrest : (((firstNew key seen rows).filter (key · ≠ key row)).map key).Nodup :=
      ih.sublist (filter_sublist.map _)
    rw [firstNew]
    split
    · exact hrest
    · rw [map_cons, nodup_cons]
      refine ⟨fun hmem => ?_, hrest⟩
      rcases mem_map.mp hmem with ⟨r, hr, hkey⟩
      exact of_decide_eq_true (mem_filter.mp hr).2 hkey

theorem firstNew_eq_self {rows : List Row} (h : (rows.map key).Nodup) :
    firstNew key ∅ rows = rows := by
  induction rows with
  | nil => rfl
  | cons row rows ih =>
    rw [map_cons, nodup_cons] at h
    rw [firstNew, if_neg (Finset.notMem_empty _), ih h.2]
    refine congrArg (row :: ·) (filter_eq_self.mpr fun r hr => decide_eq_true fun heq => ?_)
    exact h.1 (heq ▸ mem_map_of_mem hr)

/-- The key of every row was there before or has a first occurrence. -/
theorem exists_mem_firstNew {row : Row} (h : row ∈ rows) :
    key row ∈ seen ∨ ∃ row' ∈ firstNew key seen rows, key row' = key row := by
  induction rows with
  | nil => cases h
  | cons first rows ih =>
    by_cases hkey : key row = key first
    · by_cases hseen : key first ∈ seen
      · exact .inl (hkey ▸ hseen)
      · exact .inr ⟨first, by rw [firstNew, if_neg hseen]; exact mem_cons_self, hkey.symm⟩
    · have hmem : row ∈ rows := (mem_cons.mp h).resolve_left fun heq => hkey (heq ▸ rfl)
      rcases ih hmem with hseen | ⟨row', hrow', heq⟩
      · exact .inl hseen
      · have hkept : row' ∈ (firstNew key seen rows).filter (key · ≠ key first) :=
          mem_filter.mpr ⟨hrow', decide_eq_true (heq ▸ hkey)⟩
        refine .inr ⟨row', ?_, heq⟩
        rw [firstNew]
        split
        · exact hkept
        · exact mem_cons_of_mem _ hkept

/-- Keys that tell the same rows apart have the same first occurrences. -/
theorem firstNew_congr {K' : Type} [DecidableEq K'] {key' : Row → K'} {R : Set Row}
    (h : ∀ row ∈ R, ∀ row' ∈ R, key' row = key' row' ↔ key row = key row')
    (existing : List (List Row)) (hexisting : ∀ row ∈ existing.flatten, row ∈ R)
    (hrows : ∀ row ∈ rows, row ∈ R) :
    firstNew key' (keysOf key' existing) rows = firstNew key (keysOf key existing) rows := by
  induction rows with
  | nil => rfl
  | cons row rows ih =>
    rw [forall_mem_cons] at hrows
    have hseen : key' row ∈ keysOf key' existing ↔ key row ∈ keysOf key existing := by
      rw [mem_keysOf, mem_keysOf]
      exact exists_congr fun r => and_congr_right fun hr => h r (hexisting r hr) row hrows.1
    have hrest : (firstNew key' (keysOf key' existing) rows).filter (key' · ≠ key' row) =
        (firstNew key (keysOf key existing) rows).filter (key · ≠ key row) := by
      rw [ih hrows.2]
      refine filter_congr fun r hr => ?_
      have hr' := hrows.2 r (mem_of_mem_firstNew _ _ hr)
      exact decide_eq_decide.mpr (not_congr (h r hr' row hrows.1))
    simp only [firstNew, hrest, hseen]

theorem keepNew_append (A B : List Row) :
    keepNew key seen (A ++ B) =
      ((keepNew key seen A).1 ++ (keepNew key (keepNew key seen A).2 B).1,
        (keepNew key (keepNew key seen A).2 B).2) := by
  induction A generalizing seen with
  | nil => rfl
  | cons row A ih =>
    simp only [cons_append, keepNew]
    split
    · exact ih seen
    · rw [ih]
      rfl

theorem flatten_rowDedupDelta [DecidableEq Key] (seen : Finset Key) (batches : List (List Row)) :
    ((rowDedupDelta env seen batches).1.flatten, (rowDedupDelta env seen batches).2) =
      keepNew env.rowBytes seen batches.flatten := by
  induction batches generalizing seen with
  | nil => rfl
  | cons batch batches ih =>
    rw [rowDedupDelta, flatten_cons, keepNew_append, ← ih]
    simp only [flatten_ite_isEmpty]

theorem rowDedupDelta_fst [DecidableEq Key] (seen : Finset Key) (batches : List (List Row)) :
    (rowDedupDelta env seen batches).1.flatten =
      firstNew env.rowBytes seen batches.flatten := by
  rw [← keepNew_eq_firstNew, ← flatten_rowDedupDelta]

/-- Rows that are left out before the pass are left out by it anyway. -/
theorem keepNew_filter {existing : Finset K} (h : existing ⊆ seen) :
    keepNew key seen (rows.filter fun row => key row ∉ existing) = keepNew key seen rows := by
  induction rows generalizing seen with
  | nil => rfl
  | cons row rows ih =>
    by_cases hmem : key row ∈ existing
    · rw [filter_cons_of_neg (by simpa using hmem), ih seen h, keepNew, if_pos (h hmem)]
    · rw [filter_cons_of_pos (by simpa using hmem), keepNew, keepNew, ih seen h,
        ih _ (h.trans (Finset.subset_insert _ _))]

theorem flatten_legacyDelta [DecidableEq Scalar] (existing : Finset Scalar)
    (batches : List (List Row)) : (legacyDelta env existing batches).flatten =
      (keepNew env.scalarKey existing batches.flatten).1 := by
  induction batches generalizing existing with
  | nil => rfl
  | cons batch batches ih =>
    rw [legacyDelta, flatten_cons, keepNew_append, ← ih]
    simp only [flatten_ite_isEmpty, keepNew_filter existing batch (Finset.Subset.refl _)]

variable [DecidableEq Key] {R : Set Row} {supported : Bool}

/-- The first occurrences come from the row encoding and the rest from the join. -/
theorem flatten_arrowLeftAntiDedup (hc : env.ComparesBy key supported R)
    {candidates existing delta : List (List Row)}
    (hcand : ∀ row ∈ candidates.flatten, row ∈ R) (hex : ∀ row ∈ existing.flatten, row ∈ R)
    (h : arrowLeftAntiDedup env supported candidates existing = some delta) :
    delta.flatten = firstNew key (keysOf key existing) candidates.flatten := by
  unfold arrowLeftAntiDedup at h
  split at h
  · next hempty =>
    cases h
    rw [isEmpty_iff.mp hempty]
    rfl
  · cases supported with
    | false => cases h
    | true =>
      have hfirst : (keepNew env.rowBytes ∅ candidates.flatten).1 =
          firstNew key ∅ candidates.flatten := by
        rw [keepNew_eq_firstNew]
        exact firstNew_congr _ (hc.rowBytes rfl) [] nofun hcand
      simp only [Bool.not_true, Bool.false_eq_true, if_false] at h
      split at h
      · next hempty =>
        cases h
        rw [flatten_singleton, hfirst, keysOf, isEmpty_iff.mp hempty]
        rfl
      · cases h
        have hunion := firstNew_union key ∅ (keysOf key existing) candidates.flatten
        rw [Finset.empty_union] at hunion
        rw [flatten_singleton, hfirst, hunion]
        refine filter_congr fun row hrow => ?_
        -- the join finds a stored row exactly if there is one with the key
        have hrow' := hcand row (mem_of_mem_firstNew _ _ hrow)
        have hjoin : existing.flatten.any (env.joinEq row) = true ↔
            key row ∈ keysOf key existing := by
          rw [any_eq_true, mem_keysOf]
          exact exists_congr fun r => and_congr_right fun hr =>
            (hc.joinEq rfl row hrow' r (hex r hr)).trans eq_comm
        rw [Bool.eq_iff_iff, Bool.not_eq_true', ← Bool.not_eq_true, decide_eq_true_iff, hjoin]

variable (env key supported) in
omit [DecidableEq K] in
/-- What holds of the state of a rule. The persistent keys are those of the facts as long as
    they are consulted. -/
structure StateInv (s : FixpointState Row Key) : Prop where
  nodup : (s.facts.flatten.map key).Nodup
  split : s.facts.flatten = s.oldFacts.flatten ++ s.delta.flatten
  supported : s.rowDedup.isSome = supported
  seen : ∀ seen, s.rowDedup = some seen → s.facts.flatten.length < dedupAntiJoinThreshold →
    seen = keysOf env.rowBytes s.facts

omit [DecidableEq K] in
theorem stateInv_new (supported : Bool) :
    StateInv env key supported (FixpointState.new supported : FixpointState Row Key) := by
  cases supported with
  | true =>
    refine ⟨nodup_nil, rfl, rfl, fun seen hseen _ => ?_⟩
    cases hseen
    rfl
  | false => exact ⟨nodup_nil, rfl, rfl, fun seen hseen _ => by cases hseen⟩

variable [DecidableEq Scalar] {s : FixpointState Row Key} {candidates delta : List (List Row)}
  {rowDedup : Option (Finset Key)}

/-- Whichever way is taken, the new rows are the first occurrences of the keys that the facts do
    not have. -/
theorem computeDelta_eq_firstNew (hc : env.ComparesBy key supported R)
    (h : StateInv env key supported s) (hfacts : ∀ row ∈ s.facts.flatten, row ∈ R)
    (hcand : ∀ row ∈ candidates.flatten, row ∈ R)
    (hd : computeDelta env s candidates = some (delta, rowDedup)) :
    delta.flatten = firstNew key (keysOf key s.facts) candidates.flatten := by
  have hsupported := h.supported
  unfold computeDelta at hd
  split at hd
  · rcases Option.map_eq_some_iff.mp hd with ⟨delta', hdelta, heq⟩
    cases heq
    exact flatten_arrowLeftAntiDedup hc hcand hfacts (hsupported ▸ hdelta)
  · next hfew =>
    cases hdedup : s.rowDedup with
    | none =>
      rw [hdedup] at hd hsupported
      cases hd
      rw [flatten_legacyDelta, keepNew_eq_firstNew]
      exact firstNew_congr _ (hc.scalarKey hsupported.symm) s.facts hfacts hcand
    | some seen =>
      rw [hdedup] at hd hsupported
      cases hd
      rw [rowDedupDelta_fst, h.seen seen hdedup (not_le.mp hfew)]
      exact firstNew_congr _ (hc.rowBytes hsupported.symm) s.facts hfacts hcand

omit [DecidableEq K] in
/-- The persistent keys follow the facts below the threshold. -/
theorem computeDelta_rowDedup (h : StateInv env key supported s)
    (hd : computeDelta env s candidates = some (delta, rowDedup)) :
    rowDedup.isSome = supported ∧ ∀ seen, rowDedup = some seen →
      s.facts.flatten.length < dedupAntiJoinThreshold →
      seen = keysOf env.rowBytes (s.facts ++ delta) := by
  unfold computeDelta at hd
  split at hd
  · next hmany =>
    rcases Option.map_eq_some_iff.mp hd with ⟨delta', -, heq⟩
    cases heq
    exact ⟨h.supported, fun _ _ hlt => absurd hmany (not_le.mpr hlt)⟩
  · next hfew =>
    cases hdedup : s.rowDedup with
    | none =>
      rw [hdedup] at hd
      cases hd
      refine ⟨?_, fun _ hseen => by cases hseen⟩
      rw [← h.supported, hdedup]
    | some seen =>
      rw [hdedup] at hd
      cases hd
      refine ⟨?_, fun seen' hseen' hlt => ?_⟩
      · rw [← h.supported, hdedup]
        rfl
      · cases hseen'
        rw [keysOf_append, ← h.seen seen hdedup hlt, keysOf, rowDedupDelta_fst, ← keepNew_snd]
        exact congrArg Prod.snd (flatten_rowDedupDelta seen candidates)

theorem flatten_eq_nil_of_all {batches : List (List Row)}
    (h : batches.all List.isEmpty = true) : batches.flatten = [] := by
  rw [flatten_eq_nil_iff]
  intro batch hbatch
  exact isEmpty_iff.mp (all_eq_true.mp h batch hbatch)

omit [DecidableEq K] [DecidableEq Scalar] in
/-- A merge that adds nothing makes all facts old. -/
theorem StateInv.keep (h : StateInv env key supported s) {rowDedup : Option (Finset Key)}
    (hsupported : rowDedup.isSome = supported)
    (hseen : ∀ seen, rowDedup = some seen → s.facts.flatten.length < dedupAntiJoinThreshold →
      seen = keysOf env.rowBytes s.facts) :
    let s' := { s with rowDedup, delta := [], oldLen := s.facts.length }
    StateInv env key supported s' ∧ s'.oldFacts.flatten = s.facts.flatten := by
  refine ⟨⟨h.nodup, ?_, hsupported, hseen⟩, ?_⟩ <;> simp [FixpointState.oldFacts]

omit [DecidableEq K] in
/-- A merge keeps the facts, adds candidates only, and has a fact for the key of every
    candidate. The old facts are the facts before it. -/
theorem mergeDelta_spec {s' : FixpointState Row Key} {changed : Bool}
    (hc : env.ComparesBy key supported R) (h : StateInv env key supported s)
    (hfacts : ∀ row ∈ s.facts.flatten, row ∈ R) (hcand : ∀ row ∈ candidates.flatten, row ∈ R)
    (hm : mergeDelta env s candidates = some (changed, s')) :
    StateInv env key supported s' ∧ s'.oldFacts.flatten = s.facts.flatten ∧
      (∀ row ∈ s'.facts.flatten, row ∈ s.facts.flatten ∨ row ∈ candidates.flatten) ∧
      (∀ row ∈ s.facts.flatten, row ∈ s'.facts.flatten) ∧
      ∀ row ∈ candidates.flatten, ∃ row' ∈ s'.facts.flatten, key row' = key row := by
  classical
  unfold mergeDelta at hm
  -- without candidates, and without new ones, the facts stay; too many bytes are an error
  by_cases hnone : candidates.all isEmpty
  · rw [if_pos hnone] at hm
    cases hm
    have hkeep := h.keep h.supported h.seen
    refine ⟨hkeep.1, hkeep.2, fun row hrow => .inl hrow, fun row hrow => hrow, ?_⟩
    rw [flatten_eq_nil_of_all hnone]
    exact nofun
  · rw [if_neg hnone] at hm
    rcases Option.bind_eq_some_iff.mp hm with ⟨⟨delta, rowDedup⟩, hd, hm⟩
    have hnew := computeDelta_eq_firstNew hc h hfacts hcand hd
    rcases computeDelta_rowDedup h hd with ⟨hsupported, hseen⟩
    simp only at hm
    by_cases hempty : delta.all isEmpty
    · rw [if_pos hempty] at hm
      cases hm
      have hdelta := flatten_eq_nil_of_all hempty
      have hkeep := h.keep hsupported fun seen hs hlt => by
        have hset := hseen seen hs hlt
        rwa [keysOf, flatten_append, hdelta, append_nil] at hset
      refine ⟨hkeep.1, hkeep.2, fun row hrow => .inl hrow, fun row hrow => hrow,
        fun row hrow => ?_⟩
      rcases exists_mem_firstNew (keysOf key s.facts) _ hrow with hmem | ⟨row', hrow', -⟩
      · exact mem_keysOf.mp hmem
      · rw [← hnew, hdelta] at hrow'
        cases hrow'
    · rw [if_neg hempty] at hm
      by_cases hbytes : env.maxDerivedBytes < s.factsBytes + (delta.map env.batchByteSize).sum
      · rw [if_pos hbytes] at hm
        cases hm
      · rw [if_neg hbytes] at hm
        cases hm
        -- the new rows are appended; their keys are not among those of the facts
        refine ⟨⟨?_, ?_, hsupported, fun seen hs hlt => hseen seen hs ?_⟩, ?_,
          fun row hrow => ?_, fun row hrow => ?_, fun row hrow => ?_⟩
        · rw [flatten_append, map_append, nodup_append', hnew]
          refine ⟨h.nodup, firstNew_nodup _ _, fun k hk hk' => ?_⟩
          rcases mem_map.mp hk' with ⟨row, hrow, rfl⟩
          exact notMem_of_mem_firstNew _ _ hrow (mem_toFinset.mpr hk)
        · simp [FixpointState.oldFacts]
        · rw [flatten_append, length_append] at hlt
          exact lt_of_le_of_lt (Nat.le_add_right _ _) hlt
        · simp [FixpointState.oldFacts]
        · rw [flatten_append, mem_append, hnew] at hrow
          exact hrow.imp_right (mem_of_mem_firstNew _ _)
        · rw [flatten_append]
          exact mem_append_left _ hrow
        · rw [flatten_append, hnew]
          rcases exists_mem_firstNew (keysOf key s.facts) _ hrow with hmem | ⟨row', hrow', hkey⟩
          · rcases mem_keysOf.mp hmem with ⟨row', hrow', hkey⟩
            exact ⟨row', mem_append_left _ hrow', hkey⟩
          · exact ⟨row', mem_append_right _ hrow', hkey⟩

end MergeSpec

end UniDb.Locy
