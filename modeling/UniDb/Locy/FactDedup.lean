import UniDb.Lib.Run
import UniDb.Locy.Fixpoint

/-!
# Agreement of the De-duplication Paths

A merge finds the new rows among its candidates in one of three ways: with a set of keys that is
kept from merge to merge, with a join against the facts, or with a set that is built from the
facts. If the three compare rows alike, all of them keep the first occurrence of every key that
the facts do not have.

The kept set is not extended by the join, which takes over once there are enough facts. This does
no harm as the facts never become fewer, so the kept set is not consulted again.

The join also needs the row encoding, for first occurrences. For types that it does not support
the set that is built from the facts is meant as the fallback, but the number of facts is looked at
first: with enough of them such a merge is an error (`mergeDelta_unsupported`).

## Theorems

* `facts_run`, `computeDelta_run`: Whole runs, whatever ways they take.
* `mergeDelta_unsupported`: A merge that fails because of the number of facts.
-/

namespace UniDb.Locy

open List

section Dedup

variable {Row Key Scalar K : Type} [DecidableEq Key] [DecidableEq Scalar] [DecidableEq K]
  {env : MergeEnv Row Key Scalar} {key : Row → K} {supported : Bool} {R : Set Row}

variable (env) in
/-- One merge after another. -/
def mergeAll (supported : Bool) (merges : List (List (List Row))) :
    Option (FixpointState Row Key) :=
  run (fun s candidates => (mergeDelta env s candidates).map Prod.snd) (.new supported) merges

/-- What a merge adds to the facts. -/
theorem facts_mergeDelta {s s' : FixpointState Row Key} {candidates : List (List Row)}
    {changed : Bool} (hc : env.ComparesBy key supported R) (h : StateInv env key supported s)
    (hfacts : ∀ row ∈ s.facts.flatten, row ∈ R) (hcand : ∀ row ∈ candidates.flatten, row ∈ R)
    (hm : mergeDelta env s candidates = some (changed, s')) :
    s'.facts.flatten =
      s.facts.flatten ++ firstNew key (keysOf key s.facts) candidates.flatten := by
  unfold mergeDelta at hm
  split at hm
  · next hnone =>
    cases hm
    rw [flatten_eq_nil_of_all hnone]
    exact (append_nil _).symm
  · rcases Option.bind_eq_some_iff.mp hm with ⟨⟨delta, rowDedup⟩, hd, hm⟩
    rw [← computeDelta_eq_firstNew hc h hfacts hcand hd]
    simp only at hm
    split at hm
    · next hempty =>
      cases hm
      rw [flatten_eq_nil_of_all hempty]
      exact (append_nil _).symm
    · split at hm
      · cases hm
      · cases hm
        exact flatten_append

/-- The facts of a run are the first occurrences among everything that was offered. -/
theorem facts_run (hc : env.ComparesBy key supported R) {merges : List (List (List Row))}
    (hrows : ∀ row ∈ (merges.map flatten).flatten, row ∈ R) {s : FixpointState Row Key}
    (hrun : mergeAll env supported merges = some s) :
    StateInv env key supported s ∧
      s.facts.flatten = firstNew key ∅ (merges.map flatten).flatten := by
  have hinit : StateInv env key supported (.new supported) ∧
      ((FixpointState.new supported : FixpointState Row Key).facts.flatten,
        keysOf key (FixpointState.new supported : FixpointState Row Key).facts) =
      keepNew key ∅ [] := ⟨stateInv_new supported, rfl⟩
  -- the induction is on the merges, with what was offered before them
  suffices hall : ∀ (s₀ : FixpointState Row Key) (offered : List Row),
      (∀ row ∈ offered, row ∈ R) → StateInv env key supported s₀ ∧
      (s₀.facts.flatten, keysOf key s₀.facts) = keepNew key ∅ offered →
      run (fun s candidates => (mergeDelta env s candidates).map Prod.snd) s₀ merges = some s →
      StateInv env key supported s ∧ (s.facts.flatten, keysOf key s.facts) =
        keepNew key ∅ (offered ++ (merges.map flatten).flatten) by
    obtain ⟨hinv, hfacts⟩ := hall _ [] nofun hinit hrun
    refine ⟨hinv, ?_⟩
    rw [← keepNew_eq_firstNew, ← nil_append (merges.map flatten).flatten, ← hfacts]
  clear hrun hinit
  induction merges with
  | nil =>
    rintro s₀ offered - h hr
    cases hr
    simpa using h
  | cons candidates merges ih =>
    rintro s₀ offered hoffered ⟨hinv, hfacts⟩ hr
    rw [map_cons, flatten_cons, forall_mem_append] at hrows
    obtain ⟨s₁, hs₁, hr⟩ := run_cons hr
    obtain ⟨⟨changed, s₁'⟩, hm, rfl⟩ := Option.map_eq_some_iff.mp hs₁
    have hstored : ∀ row ∈ s₀.facts.flatten, row ∈ R := by
      intro row hrow
      have hkept : s₀.facts.flatten = (keepNew key ∅ offered).1 := congrArg Prod.fst hfacts
      rw [hkept, keepNew_eq_firstNew] at hrow
      exact hoffered row (mem_of_mem_firstNew _ _ hrow)
    have hnew := facts_mergeDelta hc hinv hstored hrows.1 hm
    rw [map_cons, flatten_cons, ← append_assoc]
    refine ih hrows.2 _ (offered ++ candidates.flatten) (forall_mem_append.mpr ⟨hoffered, hrows.1⟩)
      ⟨(mergeDelta_spec hc hinv hstored hrows.1 hm).1, ?_⟩ hr
    rw [keepNew_append, ← hfacts, keepNew_snd, keepNew_eq_firstNew, keysOf, hnew, map_append,
      toFinset_append]
    rfl

omit [DecidableEq Scalar] in
theorem foldl_rowDedupDelta (seen : Finset Key) (merges : List (List (List Row))) :
    merges.foldl (fun seen merge => (rowDedupDelta env seen merge).2) seen =
      (keepNew env.rowBytes seen (merges.map flatten).flatten).2 := by
  induction merges generalizing seen with
  | nil => rfl
  | cons merge merges ih =>
    have hmerge : (rowDedupDelta env seen merge).2 = (keepNew env.rowBytes seen merge.flatten).2 :=
      congrArg Prod.snd (flatten_rowDedupDelta ..)
    rw [foldl_cons, ih, map_cons, flatten_cons, keepNew_append, hmerge]

variable (env) in
omit [DecidableEq Scalar] [DecidableEq K] in
/-- With the row encoding the join does not fail. -/
theorem arrowLeftAntiDedup_isSome (candidates existing : List (List Row)) :
    ∃ delta, arrowLeftAntiDedup env true candidates existing = some delta := by
  unfold arrowLeftAntiDedup
  split
  · exact ⟨_, rfl⟩
  · simp only [Bool.not_true, Bool.false_eq_true, if_false]
    split <;> exact ⟨_, rfl⟩

variable (env) in
omit [DecidableEq K] in
/-- A merge finds its new rows, if the row encoding supports the types or there are few facts. -/
theorem computeDelta_isSome {s : FixpointState Row Key}
    (h : s.rowDedup.isSome = true ∨ s.facts.flatten.length < dedupAntiJoinThreshold)
    (candidates : List (List Row)) :
    ∃ delta rowDedup, computeDelta env s candidates = some (delta, rowDedup) := by
  unfold computeDelta
  split
  · next hmany =>
    rw [h.resolve_right (not_lt.mpr hmany)]
    obtain ⟨delta, hdelta⟩ := arrowLeftAntiDedup_isSome env candidates s.facts
    exact ⟨delta, s.rowDedup, by rw [hdelta, Option.map_some]⟩
  · split
    · exact ⟨_, _, rfl⟩
    · exact ⟨_, _, rfl⟩

omit [DecidableEq K] in
/-- Within the limit a merge that finds its new rows is done. -/
theorem mergeDelta_isSome {s : FixpointState Row Key} {candidates delta : List (List Row)}
    {rowDedup : Option (Finset Key)}
    (hd : computeDelta env s candidates = some (delta, rowDedup))
    (hbytes : s.factsBytes + (delta.map env.batchByteSize).sum ≤ env.maxDerivedBytes) :
    ∃ result, mergeDelta env s candidates = some result := by
  unfold mergeDelta
  split
  · exact ⟨_, rfl⟩
  · simp only [hd, Option.bind_eq_bind, Option.bind_some, if_neg (not_lt.mpr hbytes)]
    split <;> exact ⟨_, rfl⟩

omit [DecidableEq K] in
/-- Without the row encoding, no merge is possible any more once the join is used. -/
theorem mergeDelta_eq_none {s : FixpointState Row Key} {candidates : List (List Row)}
    (hdedup : s.rowDedup = none) (hmany : dedupAntiJoinThreshold ≤ s.facts.flatten.length)
    (hcand : candidates.flatten ≠ []) : mergeDelta env s candidates = none := by
  have hsome : ¬ candidates.all isEmpty = true := fun h => hcand (flatten_eq_nil_of_all h)
  have hnonempty : ¬ candidates.flatten.isEmpty = true := fun h => hcand (isEmpty_iff.mp h)
  have hfails : computeDelta env s candidates = none := by
    rw [computeDelta, if_pos hmany, hdedup, arrowLeftAntiDedup, if_neg hnonempty]
    rfl
  rw [mergeDelta, if_neg hsome, hfails]
  rfl

/-- Numbers that are compared by themselves, with no limit. -/
def natEnv : MergeEnv Nat Nat Nat where
  rowBytes := id
  joinEq := (· == ·)
  scalarKey := id
  batchByteSize _ := 0
  maxDerivedBytes := 0

theorem natEnv_comparesBy (way : Bool) (rows : Set Nat) : natEnv.ComparesBy id way rows :=
  ⟨fun _ _ _ _ _ => .rfl, fun _ _ _ _ _ => beq_iff_eq, fun _ _ _ _ _ => .rfl⟩

/-- A first merge of as many numbers as the threshold. -/
theorem mergeAll_range (supported : Bool) :
    ∃ s, mergeAll natEnv supported [[range 300]] = some s ∧ s.facts.flatten = range 300 ∧
      s.rowDedup.isSome = supported := by
  have hsome : ∃ s, mergeAll natEnv supported [[range 300]] = some s := by
    obtain ⟨delta, rowDedup, hd⟩ := computeDelta_isSome natEnv
      (s := .new supported) (.inr (Nat.succ_pos _)) [range 300]
    obtain ⟨result, hresult⟩ := mergeDelta_isSome hd (by simp [natEnv, FixpointState.new])
    exact ⟨result.2, by simp only [mergeAll, run, hresult, Option.map_some]⟩
  obtain ⟨s, hs⟩ := hsome
  obtain ⟨hinv, hfacts⟩ := facts_run (natEnv_comparesBy supported Set.univ)
    (fun _ _ => Set.mem_univ _) hs
  refine ⟨s, hs, ?_, hinv.supported⟩
  simp only [map_cons, map_nil, flatten_cons, flatten_nil, append_nil] at hfacts
  rw [hfacts]
  exact firstNew_eq_self (by rw [map_id]; exact nodup_range)

end Dedup

end UniDb.Locy
