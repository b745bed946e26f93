import Mathlib.Order.FixedPoints
import Mathlib.Order.CompletePartialOrder
import UniDb.Locy.Fixpoint

/-!
# Semi-Naive Evaluation Computes the Least Fixpoint

What the fixpoint loop of a recursive stratum ends with.

Between two evaluations of a rule every rule of the stratum merges once. So at each of its
evaluations the old facts of the rules it reads are the facts it saw the last time, and the
tuples it has not met yet are those with a row of a delta. The invariant says which facts a
rule has seen, in the middle of an iteration as well: those of a rule that has merged since
are its old ones. The consequences of what was seen are among the facts.

When no rule has a delta left, everything was seen, and the facts are closed under the
consequences of the stratum. That takes comparisons that tell the rows of the least fixpoint
apart: of two rows that are compared as equal, the later one is missing.

## Main definitions

* `Stratum.consequences`: The immediate-consequence operator.
* `knownFeed`: Whether a rule has merged since another one was evaluated.
* `LoopInv`: The invariant.

## Theorems

* `mem_evaluateClauses`: The candidates of a rule.
* `LoopInv.evaluateRule`: One rule keeps the invariant.
* `run_fixpoint_least`: A converged loop ends with the least fixpoint.
-/

namespace UniDb.Locy

open List Function

variable {Row Key Scalar : Type} {n : Nat}

/-- A scan reads a row of the relations `F`. -/
def Stratum.Reads (S : Stratum Row n) (F : Fin n → Set Row) (scan : Nat) (row : Row) : Prop :=
  ∃ rule, S.registry[scan]? = some rule ∧ row ∈ F rule

variable {row : Row} {scan : Nat}

theorem Stratum.Reads.mono {S : Stratum Row n} {F F' : Fin n → Set Row} (h : F ≤ F')
    (hr : S.Reads F scan row) : S.Reads F' scan row := by
  rcases hr with ⟨rule, hrule, hrow⟩
  exact ⟨rule, hrule, h rule hrow⟩

/-- What a clause derives from tuples of rows, one for each of its scans. -/
def ClausePlan.Derives (clause : ClausePlan Row) (Scan : Nat → Row → Prop) (row : Row) : Prop :=
  ∃ rows, List.Forall₂ Scan clause.scans rows ∧
    row ∈ (clause.body (rows.map fun r => [r])).flatten

theorem ClausePlan.Derives.mono {clause : ClausePlan Row} {Scan Scan' : Nat → Row → Prop}
    (h : ∀ scan row, Scan scan row → Scan' scan row) (hd : clause.Derives Scan row) :
    clause.Derives Scan' row := by
  rcases hd with ⟨rows, hrows, hrow⟩
  exact ⟨rows, hrows.imp fun {scan r} => h scan r, hrow⟩

/-- The immediate consequences of a stratum. -/
def Stratum.consequences (S : Stratum Row n) : (Fin n → Set Row) →o (Fin n → Set Row) where
  toFun F rule := {row | ∃ clause ∈ (S.rules rule).clauses, clause.Derives (S.Reads F) row}
  monotone' := by
    intro F F' hF rule row hrow
    rcases hrow with ⟨clause, hclause, hd⟩
    exact ⟨clause, hclause, hd.mono fun _ _ => .mono hF⟩

/-! ### The candidates of a rule -/

section Candidates

variable (S : Stratum Row n) (states : Fin n → FixpointState Row Key)

def scanRows (feed : Feed) (scan : Nat) : List Row :=
  match S.registry[scan]? with
  | none => []
  | some rule => stratumScanView (states rule) feed

theorem mem_scanRows {feed : Feed} : row ∈ scanRows S states feed scan ↔
      ∃ rule, S.registry[scan]? = some rule ∧ row ∈ stratumScanView (states rule) feed := by
  unfold scanRows
  cases S.registry[scan]? <;> simp

variable {feeds : List (Nat × Feed)} {writes : List (Nat × List Row)}

theorem collectFeeds_some {skipEmptyDelta : Bool}
    (h : collectFeeds S states skipEmptyDelta feeds = some (some writes)) :
    writes = feeds.map fun p => (p.1, scanRows S states p.2 p.1) := by
  induction feeds generalizing writes with
  | nil =>
    cases h
    rfl
  | cons p feeds ih =>
    obtain ⟨scan, feed⟩ := p
    unfold collectFeeds at h
    cases hrule : S.registry[scan]? with
    | none => simp [hrule] at h
    | some =>
      simp only [hrule] at h
      split at h
      · cases h
      · rcases Option.map_eq_some_iff.mp h with ⟨rest, hrest, hwrites⟩
        rcases Option.map_eq_some_iff.mp hwrites with ⟨writes', rfl, rfl⟩
        rw [map_cons, ← ih hrest, scanRows, hrule]

theorem collectFeeds_none {skipEmptyDelta : Bool}
    (h : collectFeeds S states skipEmptyDelta feeds = some none) :
    ∃ p ∈ feeds, scanRows S states p.2 p.1 = [] := by
  induction feeds with
  | nil => cases h
  | cons p feeds ih =>
    obtain ⟨scan, feed⟩ := p
    unfold collectFeeds at h
    cases hrule : S.registry[scan]? with
    | none => simp [hrule] at h
    | some =>
      simp only [hrule] at h
      split at h
      next hempty =>
        refine ⟨(scan, feed), mem_cons_self, ?_⟩
        rw [scanRows, hrule]
        exact hempty.2.2
      next =>
        rcases Option.map_eq_some_iff.mp h with ⟨rest, hrest, hwrites⟩
        rcases ih (Option.map_eq_none_iff.mp hwrites ▸ hrest) with ⟨q, hq, hqrows⟩
        exact ⟨q, mem_cons_of_mem _ hq, hqrows⟩

variable {handles : Handles Row}

theorem writeFeeds_of_notMem (h : scan ∉ writes.map Prod.fst) :
    writeFeeds handles writes scan = handles scan := by
  induction writes generalizing handles with
  | nil => rfl
  | cons write writes ih =>
    rw [map_cons, mem_cons, not_or] at h
    refine (ih h.2).trans ?_
    exact update_of_ne h.1 _ _

/-- The handles hold what was fed, since no scan is fed twice. -/
theorem map_writeFeeds (h : (writes.map Prod.fst).Nodup) :
    (writes.map Prod.fst).map (writeFeeds handles writes) = writes.map Prod.snd := by
  induction writes generalizing handles with
  | nil => rfl
  | cons write writes ih =>
    rw [map_cons, nodup_cons] at h
    rw [map_cons, map_cons, map_cons]
    congr 1
    · refine (writeFeeds_of_notMem h.1).trans ?_
      exact update_self _ _ _
    · exact ih h.2

variable (clause : ClausePlan Row)

/-- The rows that the scans of a clause read in a pass. -/
def passData (pass : Nat) : List (List Row) :=
  clause.scans.zipIdx.map fun p => scanRows S states (feedAt pass p.2) p.1

theorem zip_feeds (scans : List Nat) (pass : Nat) :
    scans.zip ((List.range scans.length).map (feedAt pass)) =
      scans.zipIdx.map fun p => (p.1, feedAt pass p.2) := by
  rw [zip_map_right, range_eq_range', ← zipIdx_eq_zip_range']
  rfl

variable {acc acc' : List (List Row) × Handles Row}

theorem mem_runPass {pass : Nat} (h : runPass S states clause acc pass = some acc') (row : Row) :
    row ∈ acc'.1.flatten ↔
      row ∈ acc.1.flatten ∨ row ∈ (clause.body (passData S states clause pass)).flatten := by
  unfold runPass feedStratumScans at h
  simp only [zip_feeds, Option.map_map] at h
  rcases Option.map_eq_some_iff.mp h with ⟨writes, hwrites, rfl⟩
  cases writes with
  | none =>
    rcases collectFeeds_none S states hwrites with ⟨p, hp, hrows⟩
    rcases mem_map.mp hp with ⟨q, hq, rfl⟩
    have hempty : [] ∈ passData S states clause pass := mem_map.mpr ⟨q, hq, hrows⟩
    have hnil := clause.additive.eq_nil_of_mem hempty
    simp [hnil]
  | some writes =>
    have hw := collectFeeds_some S states hwrites
    rw [map_map] at hw
    have hfst : writes.map Prod.fst = clause.scans := by
      rw [hw, map_map]
      exact zipIdx_map_fst 0 clause.scans
    have hsnd : writes.map Prod.snd = passData S states clause pass := by
      rw [hw, map_map]
      rfl
    have hread : clause.scans.map (writeFeeds acc.2 writes) = passData S states clause pass := by
      rw [← hsnd, ← hfst]
      exact map_writeFeeds (hfst ▸ clause.scans_nodup)
    simp [hread]

theorem mem_foldlM_runPass {passes : List Nat}
    (h : passes.foldlM (runPass S states clause) acc = some acc') (row : Row) :
    row ∈ acc'.1.flatten ↔ row ∈ acc.1.flatten ∨
      ∃ pass ∈ passes, row ∈ (clause.body (passData S states clause pass)).flatten := by
  induction passes generalizing acc with
  | nil =>
    cases h
    simp
  | cons pass passes ih =>
    rw [foldlM_cons] at h
    rcases Option.bind_eq_some_iff.mp h with ⟨acc₁, hacc₁, hrest⟩
    rw [ih hrest, mem_runPass S states clause hacc₁, exists_mem_cons_iff, or_assoc]

/-- A clause proposes a row in some iteration. -/
def Candidate (iteration : Nat) (row : Row) : Prop :=
  (clause.scans = [] ∧ iteration = 0 ∧ row ∈ (clause.body []).flatten) ∨
    ∃ pass < clause.scans.length, row ∈ (clause.body (passData S states clause pass)).flatten

variable {result : List (List Row) × Handles Row}

theorem mem_evaluateClause {iteration : Nat} {current : Fin n}
    (h : evaluateClause S iteration states current clause handles = some result) (row : Row) :
    row ∈ result.1.flatten ↔ Candidate S states clause iteration row := by
  unfold evaluateClause at h
  unfold Candidate
  split at h
  next hempty =>
    have hscans := isEmpty_iff.mp hempty
    cases h
    by_cases h0 : iteration = 0 <;> simp [h0, hscans]
  next hempty =>
    have hscans : clause.scans ≠ [] := fun hnil => hempty (isEmpty_iff.mpr hnil)
    rcases Option.map_eq_some_iff.mp h with ⟨acc, hacc, rfl⟩
    have hmem := mem_foldlM_runPass S states clause hacc row
    simp only [flatten_nil, not_mem_nil, false_or, mem_range] at hmem
    simp [hmem, hscans]

theorem mem_evaluateClauses {iteration : Nat} {current : Fin n} {clauses : List (ClausePlan Row)}
    (h : evaluateClauses S iteration states current clauses handles = some result) (row : Row) :
    row ∈ result.1.flatten ↔ ∃ clause ∈ clauses, Candidate S states clause iteration row := by
  induction clauses generalizing handles result with
  | nil =>
    cases h
    simp
  | cons clause clauses ih =>
    unfold evaluateClauses at h
    rcases Option.bind_eq_some_iff.mp h with ⟨first, hfirst, h⟩
    rcases Option.bind_eq_some_iff.mp h with ⟨rest, hrest, h⟩
    cases h
    rw [flatten_append, mem_append, mem_evaluateClause S states clause hfirst,
      ih hrest, exists_mem_cons_iff]

end Candidates

/-! ### Candidates are consequences, and cover the new ones -/

section Cover

variable {S : Stratum Row n} {states : Fin n → FixpointState Row Key}

def factSets (states : Fin n → FixpointState Row Key) : Fin n → Set Row := fun rule =>
  {row | row ∈ (states rule).facts.flatten}

section

variable [DecidableEq Key] {env : MergeEnv Row Key Scalar} {supported : Bool}
  {s : FixpointState Row Key}

theorem mem_view_split (h : StateInv env id supported s) (row : Row) :
    row ∈ stratumScanView s .full ↔
      row ∈ stratumScanView s .old ∨ row ∈ stratumScanView s .delta := by
  simp only [stratumScanView]
  rw [h.split, mem_append]

theorem mem_full_of_mem (h : StateInv env id supported s) {feed : Feed}
    (hrow : row ∈ stratumScanView s feed) : row ∈ stratumScanView s .full := by
  cases feed with
  | delta => exact (mem_view_split h row).mpr (.inr hrow)
  | old => exact (mem_view_split h row).mpr (.inl hrow)
  | full => exact hrow

end

theorem forall₂_zipIdx {scans : List Nat} {rows : List Row} {R : Nat → Row → Prop} :
    List.Forall₂ (fun p row => R p.1 row) scans.zipIdx rows ↔ List.Forall₂ R scans rows := by
  conv_rhs => rw [← zipIdx_map_fst 0 scans]
  exact forall₂_map_left_iff.symm

/-- A row is derived in a pass from a tuple that the pass reads. -/
theorem mem_pass_iff (clause : ClausePlan Row) (pass : Nat) (row : Row) :
    row ∈ (clause.body (passData S states clause pass)).flatten ↔
      ∃ rows, List.Forall₂ (fun p r => r ∈ scanRows S states (feedAt pass p.2) p.1)
          clause.scans.zipIdx rows ∧ row ∈ (clause.body (rows.map fun r => [r])).flatten := by
  refine (clause.additive.mem_iff _ row).trans ?_
  simp [passData]

variable [DecidableEq Key] {env : MergeEnv Row Key Scalar} {supported : Fin n → Bool}
  {clause : ClausePlan Row}

theorem Candidate.derives (hstates : ∀ rule, StateInv env id (supported rule) (states rule))
    {iteration : Nat}
    (h : Candidate S states clause iteration row) :
    clause.Derives (S.Reads (factSets states)) row := by
  rcases h with ⟨hscans, -, hrow⟩ | ⟨pass, -, hrow⟩
  · exact ⟨[], hscans ▸ .nil, hrow⟩
  · rcases (mem_pass_iff ..).mp hrow with ⟨rows, hrows, hrow⟩
    refine ⟨rows, forall₂_zipIdx.mp (hrows.imp fun {p r} hr => ?_), hrow⟩
    rcases (mem_scanRows S states).mp hr with ⟨rule, hrule, hr⟩
    exact ⟨rule, hrule, mem_full_of_mem (hstates rule) hr⟩

/-- What a clause derives from all facts, it derives from old ones or proposes now. -/
theorem Candidate.of_derives (hstates : ∀ rule, StateInv env id (supported rule) (states rule))
    (iteration : Nat)
    (h : clause.Derives (fun scan r => r ∈ scanRows S states .full scan) row) :
    clause.Derives (fun scan r => r ∈ scanRows S states .old scan) row ∨
      Candidate S states clause iteration row := by
  rcases h with ⟨rows, hrows, hrow⟩
  have hsplit : ∀ scan r, r ∈ scanRows S states .full scan →
      r ∈ scanRows S states .old scan ∨ r ∈ scanRows S states .delta scan := by
    intro scan r hr
    rcases (mem_scanRows S states).mp hr with ⟨rule, hrule, hr⟩
    rcases (mem_view_split (hstates rule) r).mp hr with hr | hr
    · exact .inl ((mem_scanRows S states).mpr ⟨rule, hrule, hr⟩)
    · exact .inr ((mem_scanRows S states).mpr ⟨rule, hrule, hr⟩)
  rcases exists_pass_from (fun feed scan r => r ∈ scanRows S states feed scan) hsplit 0 hrows with
    hold | ⟨pass, -, hlt, hpass⟩
  · exact .inl ⟨rows, hold, hrow⟩
  · exact .inr (.inr ⟨pass, by simpa using hlt, (mem_pass_iff ..).mpr ⟨rows, hpass, hrow⟩⟩)

end Cover

/-! ### The invariant of the loop -/

section Invariant

/-- What a rule has seen of rule `j`, after `done` rules of an iteration: its old facts if it
    has merged since the rule was evaluated, in this iteration or in the one before. -/
def knownFeed (done : Nat) (rule j : Fin n) : Feed :=
  if (rule < done ∧ rule ≤ j ∧ j < done) ∨ (done ≤ rule ∧ (rule ≤ j ∨ j < done)) then .old
  else .full

variable (S : Stratum Row n)

/-- The rows a rule has seen through a scan. -/
def Known (states : Fin n → FixpointState Row Key) (done : Nat) (rule : Fin n) (scan : Nat)
    (row : Row) : Prop :=
  ∃ j, S.registry[scan]? = some j ∧ row ∈ stratumScanView (states j) (knownFeed done rule j)

variable {S} {states : Fin n → FixpointState Row Key}

/-- All rules have merged since the rule that is evaluated now was evaluated before. -/
theorem knownFeed_self (rule j : Fin n) : knownFeed rule rule j = .old := by
  rw [knownFeed, if_pos]
  right
  exact ⟨le_rfl, le_or_gt rule j⟩

theorem knownFeed_succ_self (rule j : Fin n) :
    knownFeed (rule + 1) rule j = if j = rule then .old else .full := by
  unfold knownFeed
  by_cases hj : j = rule
  · subst hj
    rw [if_pos rfl, if_pos]
    exact .inl ⟨Nat.lt_succ_self _, le_rfl, Nat.lt_succ_self _⟩
  · rw [if_neg hj, if_neg]
    rw [Fin.le_def]
    omega

variable {rule : Fin n}

theorem knownFeed_succ_other {r : Fin n} (hr : r ≠ rule) (j : Fin n) :
    knownFeed (rule + 1) r j = if j = rule then .old else knownFeed rule r j := by
  unfold knownFeed
  by_cases hj : j = rule
  · subst hj
    rw [if_pos rfl, if_pos]
    rw [Fin.le_def]
    omega
  · rw [if_neg hj]
    refine if_congr ?_ rfl rfl
    rw [Fin.le_def]
    omega

theorem knownFeed_other_self {r : Fin n} (hr : r ≠ rule) : knownFeed rule r rule = .full := by
  rw [knownFeed, if_neg]
  rw [Fin.le_def]
  omega

section Merged

variable {rule : Fin n} {state : FixpointState Row Key}

/-- After its merge a rule has seen the facts it was evaluated on. -/
theorem known_merged_self (hold : stratumScanView state .old = stratumScanView (states rule) .full)
    (h : Known S (update states rule state) (rule + 1) rule scan row) :
    row ∈ scanRows S states .full scan := by
  rcases h with ⟨j, hj, hrow⟩
  refine (mem_scanRows S states).mpr ⟨j, hj, ?_⟩
  rw [knownFeed_succ_self] at hrow
  by_cases hjr : j = rule
  · subst hjr
    rw [if_pos rfl, update_self] at hrow
    exact hold ▸ hrow
  · rw [if_neg hjr, update_of_ne hjr] at hrow
    exact hrow

theorem known_merged_other (hold : stratumScanView state .old = stratumScanView (states rule) .full)
    {r : Fin n} (hr : r ≠ rule) (h : Known S (update states rule state) (rule + 1) r scan row) :
    Known S states rule r scan row := by
  rcases h with ⟨j, hj, hrow⟩
  refine ⟨j, hj, ?_⟩
  rw [knownFeed_succ_other hr] at hrow
  by_cases hjr : j = rule
  · subst hjr
    rw [if_pos rfl, update_self] at hrow
    rw [knownFeed_other_self hr]
    exact hold ▸ hrow
  · rw [if_neg hjr, update_of_ne hjr] at hrow
    exact hrow

end Merged

variable [DecidableEq Key] (S) (env : MergeEnv Row Key Scalar) (supported : Fin n → Bool)

/-- The invariant after `done` rules of an iteration. -/
structure LoopInv (iteration done : Nat) (states : Fin n → FixpointState Row Key) : Prop where
  state : ∀ rule, StateInv env id (supported rule) (states rule)
  sound : factSets states ≤ OrderHom.lfp S.consequences
  cover : ∀ rule, ∀ clause ∈ (S.rules rule).clauses,
    clause.scans ≠ [] ∨ 0 < iteration ∨ rule < done → ∀ row,
    clause.Derives (Known S states done rule) row → row ∈ (states rule).facts.flatten

variable {env S supported} [DecidableEq Scalar] {iteration : Nat} {s s' : LoopState Row Key n}
  (hc : ∀ rule, env.ComparesBy id (supported rule) (OrderHom.lfp S.consequences rule))

include hc in
/-- One rule keeps the invariant. -/
theorem LoopInv.evaluateRule (h : LoopInv S env supported iteration rule s.states)
    (hs' : evaluateRule env S iteration s rule = some s') :
    LoopInv S env supported iteration (rule + 1) s'.states := by
  unfold Locy.evaluateRule at hs'
  rcases Option.bind_eq_some_iff.mp hs' with ⟨result, hresult, hs'⟩
  rcases Option.bind_eq_some_iff.mp hs' with ⟨⟨changed, state⟩, hmerge, hs'⟩
  cases hs'
  have hcand := mem_evaluateClauses S s.states hresult
  -- candidates are consequences of facts, so all that is compared is in the least fixpoint
  have hsound : ∀ row ∈ result.1.flatten, row ∈ OrderHom.lfp S.consequences rule := by
    intro row hrow
    rcases (hcand row).mp hrow with ⟨clause, hclause, hd⟩
    rw [← OrderHom.map_lfp S.consequences]
    exact ⟨clause, hclause, (hd.derives h.state).mono fun _ _ => .mono h.sound⟩
  rcases mergeDelta_spec (hc rule) (h.state rule) (h.sound rule) hsound hmerge with
    ⟨hstate, hold, hadds, hkeeps, hcover'⟩
  have hcover : ∀ row ∈ result.1.flatten, row ∈ state.facts.flatten := by
    intro row hrow
    rcases hcover' row hrow with ⟨row', hrow', rfl⟩
    exact hrow'
  show LoopInv S env supported iteration (rule + 1) (update s.states rule state)
  refine ⟨fun r => ?_, fun r row hrow => ?_, fun r clause hclause hrun row hd => ?_⟩
  · by_cases hr : r = rule
    · subst hr
      rw [update_self]
      exact hstate
    · rw [update_of_ne hr]
      exact h.state r
  · by_cases hr : r = rule
    · subst hr
      change row ∈ (update s.states r state r).facts.flatten at hrow
      rw [update_self] at hrow
      exact (hadds row hrow).elim (fun hrow => h.sound r hrow) (hsound row)
    · change row ∈ (update s.states rule state r).facts.flatten at hrow
      rw [update_of_ne hr] at hrow
      exact h.sound r hrow
  · by_cases hr : r = rule
    · subst hr
      rw [update_self]
      have hfull := hd.mono fun _ _ => known_merged_self hold
      -- a clause without scans was run in the first iteration
      by_cases hfirst : clause.scans = [] ∧ iteration = 0
      · have hrow : Candidate S s.states clause iteration row := by
          rcases hfull with ⟨rows, hrows, hrow⟩
          rw [hfirst.1] at hrows
          cases hrows
          exact .inl ⟨hfirst.1, hfirst.2, hrow⟩
        exact hcover row ((hcand row).mpr ⟨clause, hclause, hrow⟩)
      · rcases Candidate.of_derives h.state iteration hfull with hseen | hrow
        · have hrun' : clause.scans ≠ [] ∨ 0 < iteration ∨ (r : Nat) < r := by
            by_cases hscans : clause.scans = []
            · exact .inr (.inl (Nat.pos_of_ne_zero fun h0 => hfirst ⟨hscans, h0⟩))
            · exact .inl hscans
          refine hkeeps row (h.cover r clause hclause hrun' row (hseen.mono fun scan x hx => ?_))
          rcases (mem_scanRows S s.states).mp hx with ⟨j, hj, hx⟩
          exact ⟨j, hj, by rwa [knownFeed_self]⟩
        · exact hcover row ((hcand row).mpr ⟨clause, hclause, hrow⟩)
    · rw [update_of_ne hr]
      refine h.cover r clause hclause ?_ row (hd.mono fun _ _ => known_merged_other hold hr)
      exact hrun.imp_right (Or.imp_right fun hlt => by omega)

include hc in
theorem LoopInv.evaluateRules {rules : List (Fin n)} {done : List (Fin n)}
    (hrules : finRange n = done ++ rules)
    (h : LoopInv S env supported iteration done.length s.states)
    (hs' : rules.foldlM (Locy.evaluateRule env S iteration) s = some s') :
    LoopInv S env supported iteration n s'.states := by
  induction rules generalizing done s with
  | nil =>
    cases hs'
    have hlen := congrArg length hrules
    rw [length_finRange, append_nil] at hlen
    rw [← hlen] at h
    exact h
  | cons rule rules ih =>
    rw [foldlM_cons] at hs'
    rcases Option.bind_eq_some_iff.mp hs' with ⟨s₁, hs₁, hrest⟩
    have hrule : done.length = rule := by
      have hget : (finRange n)[done.length]? = some rule := by
        rw [hrules, getElem?_append_right le_rfl, Nat.sub_self]
        rfl
      rcases List.getElem?_eq_some_iff.mp hget with ⟨hlt, hval⟩
      rw [getElem_finRange] at hval
      rw [← hval]
      rfl
    rw [hrule] at h
    have h₁ := h.evaluateRule hc hs₁
    have hrules' : finRange n = (done ++ [rule]) ++ rules := by
      rw [hrules, append_assoc]
      rfl
    refine ih hrules' ?_ hrest
    rw [length_append, hrule]
    exact h₁

variable {states : Fin n → FixpointState Row Key}

omit [DecidableEq Scalar] in
/-- The next iteration starts with what the last one ended with. -/
theorem LoopInv.next (h : LoopInv S env supported iteration n states) :
    LoopInv S env supported (iteration + 1) 0 states := by
  refine ⟨h.state, h.sound, fun rule clause hclause _ row hd => ?_⟩
  have hfeed : ∀ j, knownFeed 0 rule j = knownFeed n rule j := by
    intro j
    refine if_congr ?_ rfl rfl
    rw [Fin.le_def]
    omega
  refine h.cover rule clause hclause (.inr (.inr rule.isLt)) row (hd.mono ?_)
  rintro scan r ⟨j, hj, hr⟩
  exact ⟨j, hj, hfeed j ▸ hr⟩

include hc in
theorem LoopInv.runIteration (h : LoopInv S env supported iteration 0 s.states)
    (hs' : runIteration env S iteration s = some s') :
    LoopInv S env supported iteration n s'.states := by
  have hrules : finRange n = [] ++ finRange n := rfl
  exact LoopInv.evaluateRules (s := { s with anyChanged := false }) hc hrules h hs'

omit [DecidableEq Scalar] in
/-- With no delta left, every rule has seen all facts. -/
theorem LoopInv.closed (h : LoopInv S env supported iteration n states)
    (hdelta : ∀ rule, (states rule).delta.flatten = []) :
    S.consequences (factSets states) ≤ factSets states := by
  intro rule row hrow
  rcases hrow with ⟨clause, hclause, hd⟩
  have hknown : clause.Derives (Known S states n rule) row := by
    refine hd.mono ?_
    rintro scan r ⟨j, hj, hr⟩
    refine ⟨j, hj, ?_⟩
    unfold knownFeed
    split
    · have hr' : r ∈ stratumScanView (states j) .full := hr
      refine ((mem_view_split (h.state j) r).mp hr').resolve_right fun hdel => ?_
      change r ∈ (states j).delta.flatten at hdel
      rw [hdelta j] at hdel
      cases hdel
    · exact hr
  exact h.cover rule clause hclause (.inr (.inr rule.isLt)) row hknown

include hc in
theorem LoopInv.iterations {timedOut : Nat → Bool} {left : Nat}
    (h : LoopInv S env supported iteration 0 s.states)
    (hrun : fixpointIterations env S timedOut left iteration s = some (true, states)) :
    (∃ iteration, LoopInv S env supported iteration n states) ∧
      ∀ rule, (states rule).delta.flatten = [] := by
  induction left generalizing iteration s with
  | zero => cases hrun
  | succ left ih =>
    unfold fixpointIterations at hrun
    rcases Option.bind_eq_some_iff.mp hrun with ⟨s₁, hs₁, hrun⟩
    have h₁ := h.runIteration hc hs₁
    split at hrun
    next hconv =>
      cases hrun
      rw [Bool.and_eq_true, all_eq_true] at hconv
      refine ⟨⟨iteration, h₁⟩, fun rule => flatten_eq_nil_of_all ?_⟩
      exact hconv.2 rule (mem_finRange rule)
    next =>
      split at hrun
      · cases hrun
      · exact ih h₁.next hrun

omit [DecidableEq Scalar] in
theorem LoopInv.init (supported : Fin n → Bool) :
    LoopInv S env supported 0 0 fun rule => .new (supported rule) := by
  refine ⟨fun rule => stateInv_new _, fun rule row hrow => ?_, ?_⟩
  · cases hrow
  · rintro rule clause - hrun row ⟨rows, hrows, -⟩
    have hscans : clause.scans ≠ [] := by
      rcases hrun with hscans | hpos | hlt
      · exact hscans
      · exact absurd hpos (Nat.lt_irrefl 0)
      · exact absurd hlt (Nat.not_lt_zero _)
    -- nothing was seen yet
    generalize clause.scans = scans at hrows hscans
    cases hrows with
    | nil => exact absurd rfl hscans
    | cons hrow =>
      rcases hrow with ⟨j, -, hrow⟩
      unfold knownFeed at hrow
      split at hrow <;> cases hrow

/-- If the loop converges, each rule's facts are the least fixpoint of the stratum's immediate
    consequences, and each of them is stored once. The comparisons that the rule's merges use
    have to find exactly the equal rows of the least fixpoint equal. -/
theorem run_fixpoint_least (env : MergeEnv Row Key Scalar) (S : Stratum Row n)
    (supported : Fin n → Bool) (maxIterations : Nat) (timedOut : Nat → Bool)
    {states : Fin n → FixpointState Row Key}
    (hc : ∀ rule, env.ComparesBy id (supported rule) (OrderHom.lfp S.consequences rule))
    (hrun : runFixpointLoop env S supported maxIterations timedOut = some (true, states)) :
    ∀ rule, {row | row ∈ (states rule).facts.flatten} = OrderHom.lfp S.consequences rule ∧
      (states rule).facts.flatten.Nodup := by
  rcases (LoopInv.init supported).iterations hc hrun with ⟨⟨iteration, h⟩, hdelta⟩
  have hle : OrderHom.lfp S.consequences ≤ factSets states :=
    OrderHom.lfp_le _ (h.closed hdelta)
  have heq : factSets states = OrderHom.lfp S.consequences := le_antisymm h.sound hle
  intro rule
  exact ⟨congrFun heq rule, (h.state rule).nodup.of_map _⟩

end Invariant

/-! ### A closure, and values that are compared after rounding -/

section Strata

/-- A clause given on tuples of rows. -/
def ClausePlan.ofTuples (scans : List Nat) (hscans : scans.Nodup) (f : List Row → List Row) :
    ClausePlan Row where
  scans := scans
  body data := [data.sections.flatMap f]
  scans_nodup := hscans
  additive := by
    simp only [flatten_singleton]
    exact .of_tuples f

/-- The transitive closure of three edges, with two references to itself in one clause. -/
def closureStratum : Stratum (Nat × Nat) 1 where
  rules _ :=
    { clauses := [.ofTuples [] .nil fun _ => [(0, 1), (1, 2), (2, 3)],
        .ofTuples [0, 1] (by decide) fun
          | [(a, b), (b', c)] => if b = b' then [(a, c)] else []
          | _ => []]
      nonLinear := true }
  registry := [0, 0]

def exactEnv : MergeEnv (Nat × Nat) (Nat × Nat) (Nat × Nat) where
  rowBytes := id
  joinEq := (· == ·)
  scalarKey := id
  batchByteSize := length
  maxDerivedBytes := 100

theorem run_fixpoint_least_closure :
    (runFixpointLoop exactEnv closureStratum (fun _ => true) 10 fun _ => false).map
        (fun result => (result.1, (result.2 0).facts.flatten)) =
      some (true, [(0, 1), (1, 2), (2, 3), (0, 2), (1, 3), (0, 3)]) ∧
    OrderHom.lfp closureStratum.consequences 0 =
      {row | row ∈ [(0, 1), (1, 2), (2, 3), (0, 2), (1, 3), (0, 3)]} := by
  have hrun : (runFixpointLoop exactEnv closureStratum (fun _ => true) 10 fun _ => false).map
        (fun result => (result.1, (result.2 0).facts.flatten)) =
      some (true, [(0, 1), (1, 2), (2, 3), (0, 2), (1, 3), (0, 3)]) := by decide +kernel
  refine ⟨hrun, ?_⟩
  rcases Option.map_eq_some_iff.mp hrun with ⟨⟨conv, states⟩, hstates, heq⟩
  obtain ⟨rfl, hfacts⟩ := Prod.mk.inj heq
  have hexact : ∀ rule, exactEnv.ComparesBy id true
      (OrderHom.lfp closureStratum.consequences rule) := by
    intro rule
    exact ⟨fun _ _ _ _ _ => .rfl, fun _ _ _ _ _ => beq_iff_eq, fun h => by cases h⟩
  have hleast := run_fixpoint_least exactEnv closureStratum _ _ _ hexact hstates 0
  rw [← hleast.1, hfacts]

/-- Values in units of `10⁻¹³`, one of them recursive. -/
def nearbyStratum : Stratum Nat 1 where
  rules _ :=
    { clauses := [.ofTuples [] .nil fun _ => [1, 2], .ofTuples [0] (by decide) id]
      nonLinear := false }
  registry := [0]

/-- Keys are rounded to `10⁻¹²`. -/
def roundedEnv : MergeEnv Nat Nat Nat where
  rowBytes value := (value + 5) / 10
  joinEq value value' := (value + 5) / 10 == (value' + 5) / 10
  scalarKey value := (value + 5) / 10
  batchByteSize := length
  maxDerivedBytes := 100

/-- Of two values that are rounded to the same key, the later one is not stored. -/
theorem rounded_fact_missing :
    (runFixpointLoop roundedEnv nearbyStratum (fun _ => true) 10 fun _ => false).map
        (fun result => (result.1, (result.2 0).facts.flatten)) = some (true, [1]) ∧
      2 ∈ OrderHom.lfp nearbyStratum.consequences 0 := by
  refine ⟨by decide +kernel, ?_⟩
  rw [← OrderHom.map_lfp nearbyStratum.consequences]
  exact ⟨_, mem_cons_self, [], .nil, by decide⟩

end Strata

end UniDb.Locy
