import Mathlib.Data.Finset.Card
import Mathlib.Data.List.Range
import UniDb.Common.Value

/-!
# The Commit Registry

The bounded log of write sets that optimistic concurrency control validates a
committing transaction against.

A transaction remembers the commit sequence number at which it began. When it
commits, `check` compares its writes and reads with every commit recorded since.
The registry retains a bounded number of commits, and a snapshot restore fences
it, so `check` must also notice that a commit it would have to look at is gone.
It does so by one comparison with the oldest retained number, and the invariant
`Contiguous` is what makes that comparison exact: the retained numbers are an
unbroken range that ends at the current number.

A fence skips a number. No transaction can begin at the number it skips, so
every transaction that began before the fence finds a gap, and none that began
after it does. A transaction that spans a fence is therefore refused even if no
commit was recorded since it began.

Sequence numbers are natural numbers here. The source counts in 64 bits.

## Main definitions

* `WriteSet`, `OccReadSet`: What a transaction wrote and read.
* `CommitRegistry.check`: The commit-time conflict check.
* `History`: A registry with every commit that was ever recorded in it.
* `Conflicts`: Two write sets, or a read and a write set, have a common item.

## Theorems

* `check_eq_none_iff`: What `check` compares.
* `apply_contiguous`: Commits and fences keep the retained range unbroken.
* `passed_of_check`: What a transaction that passed can rely on.
* `check_exact`: When `check` lets a transaction pass.
* `check_refuses_across_empty_fence`: A fence alone makes it refuse.
-/

namespace UniDb

open List Option

namespace Occ

/-- What a committed transaction wrote, and the unique keys it claimed. -/
structure WriteSet where
  vertices : Finset Vid
  edges : Finset Eid
  vertexKeys : Finset Key
  edgeKeys : Finset Key
  mergeKeys : Finset Key
  extIds : Finset String
  deriving DecidableEq

/-- What a transaction read. -/
structure OccReadSet where
  vertices : Finset Vid
  edges : Finset Eid

/-- Which unique key two transactions both claimed. -/
inductive KeyKind
  | vertexConstraint
  | edgeConstraint
  | merge
  | extId
  deriving DecidableEq, Repr

def KeyKind.name : KeyKind → String
  | vertexConstraint => "vertex constraint"
  | edgeConstraint => "edge constraint"
  | merge => "MERGE"
  | extId => "ext_id"

/-- Outcome of a conflict check that refuses. -/
inductive Conflict
  | key (seq : Nat) (kind : KeyKind)
  | writeWrite (seq : Nat)
  | readWrite (seq : Nat)
  | historyTruncated (readSeq oldest : Nat)
  deriving DecidableEq, Repr

/-- The text a refused transaction's error carries. -/
def Conflict.display : Conflict → String
  | key seq kind => kind.name ++ " key conflict with commit sequence " ++ toString seq
  | writeWrite seq => "write-write conflict with commit sequence " ++ toString seq
  | readWrite seq => "read-write antidependency with commit sequence " ++ toString seq
  | historyTruncated readSeq oldest =>
    "commit history truncated below read sequence " ++ toString readSeq ++
      " (oldest retained " ++ toString oldest ++ "); aborting conservatively"

namespace WriteSet

/-- The write set of a fence. -/
def empty : WriteSet := ⟨∅, ∅, ∅, ∅, ∅, ∅⟩

def isEmpty (w : WriteSet) : Bool :=
  decide (w.vertices = ∅) && decide (w.edges = ∅) && decide (w.vertexKeys = ∅) &&
    decide (w.edgeKeys = ∅) && decide (w.mergeKeys = ∅) && decide (w.extIds = ∅)

def conflictingKeyKind (w other : WriteSet) : Option KeyKind :=
  if ¬ Disjoint w.vertexKeys other.vertexKeys then some .vertexConstraint
  else if ¬ Disjoint w.edgeKeys other.edgeKeys then some .edgeConstraint
  else if ¬ Disjoint w.mergeKeys other.mergeKeys then some .merge
  else if ¬ Disjoint w.extIds other.extIds then some .extId
  else none

/-- Whether two sets have a common element, looked for from the smaller one. -/
def anyCommon (a b : Finset Nat) : Bool :=
  let (small, large) := if a.card ≤ b.card then (a, b) else (b, a)
  decide (∃ x ∈ small, x ∈ large)

def intersects (w other : WriteSet) : Bool :=
  anyCommon w.vertices other.vertices || anyCommon w.edges other.edges

end WriteSet

def readSetIntersects (readSet : OccReadSet) (w : WriteSet) : Bool :=
  decide (∃ v ∈ readSet.vertices, v ∈ w.vertices) || decide (∃ e ∈ readSet.edges, e ∈ w.edges)

/-- The retained write sets, oldest first. The field `capacity_pos` is the
    assertion that the constructor of the source makes. -/
structure CommitRegistry where
  entries : List (Nat × WriteSet)
  capacity : Nat
  capacity_pos : 0 < capacity

/-- Drop entries from the front until at most `capacity` are left. -/
def prune (capacity : Nat) : List (Nat × WriteSet) → List (Nat × WriteSet)
  | [] => []
  | e :: es => if capacity < (e :: es).length then prune capacity es else e :: es

namespace CommitRegistry

def new (capacity : Nat) (h : 0 < capacity) : CommitRegistry := ⟨[], capacity, h⟩

def record (r : CommitRegistry) (seq : Nat) (w : WriteSet) : CommitRegistry :=
  { r with entries := prune r.capacity (r.entries ++ [(seq, w)]) }

/-- Record a write set under the next sequence number, and return that number. -/
def commit (r : CommitRegistry) (seq : Nat) (w : WriteSet) : CommitRegistry × Nat :=
  (r.record (seq + 1) w, seq + 1)

/-- Refuse every transaction that began before this call. -/
def fence (r : CommitRegistry) (seq : Nat) : CommitRegistry × Nat :=
  ({ r with entries := [(seq + 2, WriteSet.empty)] }, seq + 2)

/-- The conflict with one retained commit, if there is one. -/
def conflictWith (readSeq : Nat) (w : WriteSet) (readSet : Option OccReadSet)
    (e : Nat × WriteSet) : Option Conflict :=
  -- the transaction has seen this commit
  if e.1 ≤ readSeq then none
  else if w.intersects e.2 then some (.writeWrite e.1)
  else match w.conflictingKeyKind e.2 with
    | some kind => some (.key e.1 kind)
    | none => match readSet with
      | some rs => if readSetIntersects rs e.2 then some (.readWrite e.1) else none
      | none => none

/-- Check a committing transaction against every commit newer than `readSeq`.
    The read set is given only where reads are validated too. -/
def check (r : CommitRegistry) (readSeq : Nat) (w : WriteSet) (readSet : Option OccReadSet) :
    Option Conflict :=
  match r.entries with
  | [] => none
  | (oldest, _) :: _ =>
    -- a commit between the two is no longer there to compare with
    if readSeq + 1 < oldest then some (.historyTruncated readSeq oldest)
    else r.entries.findSome? (conflictWith readSeq w readSet)

end CommitRegistry

open CommitRegistry

/-- A committed write set has an item in common with the caller's written
    vertices, edges or claimed keys, or with its reads. -/
def Conflicts (w : WriteSet) (readSet : Option OccReadSet) (committed : WriteSet) : Prop :=
  ¬ Disjoint w.vertices committed.vertices ∨ ¬ Disjoint w.edges committed.edges ∨
  ¬ Disjoint w.vertexKeys committed.vertexKeys ∨ ¬ Disjoint w.edgeKeys committed.edgeKeys ∨
  ¬ Disjoint w.mergeKeys committed.mergeKeys ∨ ¬ Disjoint w.extIds committed.extIds ∨
  ∃ rs, readSet = some rs ∧
    (¬ Disjoint rs.vertices committed.vertices ∨ ¬ Disjoint rs.edges committed.edges)

theorem Conflicts.of_reads {w committed : WriteSet} {rs : OccReadSet}
    (h : ¬ Disjoint rs.vertices committed.vertices ∨ ¬ Disjoint rs.edges committed.edges) :
    Conflicts w (some rs) committed :=
  .inr (.inr (.inr (.inr (.inr (.inr ⟨rs, rfl, h⟩)))))

theorem anyCommon_iff (a b : Finset Nat) : WriteSet.anyCommon a b = true ↔ ¬ Disjoint a b := by
  rw [Finset.not_disjoint_iff]
  unfold WriteSet.anyCommon
  by_cases hle : a.card ≤ b.card
  · simp [if_pos hle]
  · -- the search runs from the other side, over the same common elements
    simp only [if_neg hle, decide_eq_true_eq]
    exact exists_congr fun x => and_comm

theorem intersects_iff (w other : WriteSet) : w.intersects other = true ↔
    ¬ Disjoint w.vertices other.vertices ∨ ¬ Disjoint w.edges other.edges := by
  unfold WriteSet.intersects
  rw [Bool.or_eq_true, anyCommon_iff, anyCommon_iff]

theorem conflictingKeyKind_eq_none_iff (w other : WriteSet) : w.conflictingKeyKind other = none ↔
    Disjoint w.vertexKeys other.vertexKeys ∧ Disjoint w.edgeKeys other.edgeKeys ∧
    Disjoint w.mergeKeys other.mergeKeys ∧ Disjoint w.extIds other.extIds := by
  unfold WriteSet.conflictingKeyKind
  by_cases hv : Disjoint w.vertexKeys other.vertexKeys
  · by_cases he : Disjoint w.edgeKeys other.edgeKeys
    · by_cases hm : Disjoint w.mergeKeys other.mergeKeys
      · by_cases hx : Disjoint w.extIds other.extIds <;> simp [hv, he, hm, hx]
      · simp [hv, he, hm]
    · simp [hv, he]
  · simp [hv]

theorem readSetIntersects_iff (rs : OccReadSet) (w : WriteSet) : readSetIntersects rs w = true ↔
    ¬ Disjoint rs.vertices w.vertices ∨ ¬ Disjoint rs.edges w.edges := by
  unfold readSetIntersects
  rw [Bool.or_eq_true, decide_eq_true_eq, decide_eq_true_eq, Finset.not_disjoint_iff,
    Finset.not_disjoint_iff]

theorem conflictWith_eq_none_iff (readSeq : Nat) (w : WriteSet) (readSet : Option OccReadSet)
    (e : Nat × WriteSet) : conflictWith readSeq w readSet e = none ↔
      (readSeq < e.1 → ¬ Conflicts w readSet e.2) := by
  unfold conflictWith
  -- the tests in the order the check makes them: write sets, keys, reads
  by_cases hle : e.1 ≤ readSeq
  · simp [hle]
  rw [if_neg hle]
  have hlt : readSeq < e.1 := by omega
  by_cases hw : w.intersects e.2 = true
  · have hc : Conflicts w readSet e.2 := by
      rcases (intersects_iff w e.2).mp hw with hv | he
      · exact .inl hv
      · exact .inr (.inl he)
    simp [hw, hlt, hc]
  rw [if_neg hw]
  rw [intersects_iff, not_or, not_not, not_not] at hw
  cases hk : w.conflictingKeyKind e.2 with
  | some =>
    have hc : Conflicts w readSet e.2 := by
      by_contra hno
      unfold Conflicts at hno
      have hnone := (conflictingKeyKind_eq_none_iff w e.2).mpr (by tauto)
      rw [hk] at hnone
      exact absurd hnone (by simp)
    simp [hlt, hc]
  | none =>
    rw [conflictingKeyKind_eq_none_iff] at hk
    rcases hk with ⟨hvk, hek, hmk, hxk⟩
    cases readSet with
    | none => simp [Conflicts, hw.1, hw.2, hvk, hek, hmk, hxk]
    | some rs =>
      have hrs := readSetIntersects_iff rs e.2
      by_cases hr : readSetIntersects rs e.2 = true
      · have hc : Conflicts w (some rs) e.2 := Conflicts.of_reads (hrs.mp hr)
        simp [hr, hlt, hc]
      · rw [hrs, not_or, not_not, not_not] at hr
        simp [Conflicts, hw.1, hw.2, hvk, hek, hmk, hxk, hrs, hr.1, hr.2]

/-- What `check` compares: the oldest retained number with the number right
    after `readSeq`, and every retained commit after `readSeq` with the caller. -/
theorem check_eq_none_iff (r : CommitRegistry) (readSeq : Nat) (w : WriteSet)
    (readSet : Option OccReadSet) : r.check readSeq w readSet = none ↔
      (∀ e ∈ r.entries.head?, e.1 ≤ readSeq + 1) ∧
      ∀ e ∈ r.entries, readSeq < e.1 → ¬ Conflicts w readSet e.2 := by
  unfold check
  cases hr : r.entries with
  | nil => simp
  | cons e =>
    by_cases hold : readSeq + 1 < e.1
    · simp only [if_pos hold, reduceCtorEq, head?_cons, mem_def,
        some.injEq, forall_eq', false_iff, not_and]
      intro hle
      omega
    · simp only [if_neg hold, findSome?_eq_none_iff, conflictWith_eq_none_iff,
        head?_cons, mem_def, some.injEq, forall_eq']
      constructor
      · intro h
        exact ⟨by omega, h⟩
      · intro h
        exact h.2

theorem prune_eq_drop (capacity : Nat) (es : List (Nat × WriteSet)) :
    prune capacity es = es.drop (es.length - capacity) := by
  induction es with
  | nil => simp [prune]
  | cons e es ih =>
    unfold prune
    by_cases hlt : capacity < (e :: es).length
    · rw [if_pos hlt, ih]
      rw [length_cons] at hlt ⊢
      rw [show es.length + 1 - capacity = (es.length - capacity) + 1 by omega, drop_succ_cons]
    · rw [if_neg hlt, Nat.sub_eq_zero_of_le (by omega), drop_zero]

/-- A registry, the sequence counter, and every commit ever recorded, oldest first. -/
structure History where
  registry : CommitRegistry
  seq : Nat
  log : List (Nat × WriteSet)

/-- The two calls that change the registry. -/
inductive Call
  | commit (w : WriteSet)
  | fence

namespace History

def init (capacity : Nat) (h : 0 < capacity) : History where
  registry := new capacity h
  seq := 0
  log := []

def apply (h : History) : Call → History
  | .commit w =>
    let (registry, next) := h.registry.commit h.seq w
    { registry := registry, seq := next, log := h.log ++ [(next, w)] }
  | .fence =>
    let (registry, next) := h.registry.fence h.seq
    { h with registry := registry, seq := next }

def after (h : History) (calls : List Call) : History :=
  calls.foldl apply h

/-- The oldest number the registry retains, or the next number if it retains none. -/
def oldest (h : History) : Nat :=
  h.seq + 1 - h.registry.entries.length

end History

open History

/-- The retained numbers are an unbroken range ending at the current number,
    and no commit in that range is missing. -/
structure Contiguous (h : History) : Prop where
  length_le : h.registry.entries.length ≤ h.seq
  entries_fst : h.registry.entries.map Prod.fst =
    List.range' h.oldest h.registry.entries.length
  nonempty : 0 < h.seq → h.registry.entries ≠ []
  log_le : ∀ c ∈ h.log, c.1 ≤ h.seq
  log_retained : ∀ c ∈ h.log, h.oldest ≤ c.1 → c ∈ h.registry.entries

theorem init_contiguous (capacity : Nat) (hcap : 0 < capacity) :
    Contiguous (init capacity hcap) := by
  constructor <;> simp [init, new]

variable {e : Nat × WriteSet}

/-- Dropping from the front of a list numbered without gaps keeps every entry
    whose number is past the dropped ones. -/
theorem mem_drop_of_fst {es : List (Nat × WriteSet)} {s n k : Nat}
    (hfst : es.map Prod.fst = List.range' s n) (hk : s + k ≤ e.1) (he : e ∈ es) :
    e ∈ es.drop k := by
  rw [← take_append_drop k es, mem_append] at he
  rcases he with htake | hdrop
  · -- the number of a dropped entry is below `s + k`
    rcases mem_take_iff_getElem.mp htake with ⟨i, hi, rfl⟩
    have hfst' : (es.map Prod.fst)[i]? = (range' s n)[i]? := by rw [hfst]
    have hes : i < es.length := by omega
    have hn : n = es.length := by
      have hlen := congrArg length hfst
      simpa using hlen.symm
    simp [hn, hes] at hfst'
    omega
  · exact hdrop

theorem commit_entries (h : History) (w : WriteSet) : (h.apply (.commit w)).registry.entries =
      (h.registry.entries ++ [(h.seq + 1, w)]).drop
        (h.registry.entries.length + 1 - h.registry.capacity) := by
  simp [apply, commit, record, prune_eq_drop]

theorem commit_length (h : History) (w : WriteSet) : (h.apply (.commit w)).registry.entries.length =
      h.registry.entries.length + 1 - (h.registry.entries.length + 1 - h.registry.capacity) := by
  rw [commit_entries, length_drop, length_append, length_singleton]

variable {h : History}

section

variable (hc : Contiguous h)

include hc

variable (w : WriteSet)

theorem commit_oldest : (h.apply (.commit w)).oldest =
      h.oldest + (h.registry.entries.length + 1 - h.registry.capacity) := by
  have hle := hc.length_le
  have hlen := commit_length h w
  unfold oldest
  rw [hlen]
  show h.seq + 1 + 1 - _ = _
  omega

/-- The numbers retained before a commit, with the new one behind them. -/
theorem commit_fst : (h.registry.entries ++ [(h.seq + 1, w)]).map Prod.fst =
      List.range' h.oldest (h.registry.entries.length + 1) := by
  have hle := hc.length_le
  rw [map_append, hc.entries_fst, range'_concat]
  unfold oldest
  rw [Nat.one_mul, Nat.sub_add_cancel (by omega)]
  rfl

theorem commit_contiguous : Contiguous (h.apply (.commit w)) := by
  have hpos := h.registry.capacity_pos
  have hle := hc.length_le
  have hlen := commit_length h w
  have hfst := commit_fst hc w
  have hold := commit_oldest hc w
  have hseq : (h.apply (.commit w)).seq = h.seq + 1 := rfl
  have hlog : (h.apply (.commit w)).log = h.log ++ [(h.seq + 1, w)] := rfl
  constructor
  case length_le => omega
  case entries_fst =>
    rw [hlen, hold, commit_entries, map_drop, hfst, drop_range', Nat.mul_one]
  case nonempty =>
    -- the capacity is positive, so the new commit is never dropped
    intro _ hnil
    rw [hnil, length_nil] at hlen
    omega
  case log_le =>
    intro c hmem
    rw [hlog, mem_append, mem_singleton] at hmem
    rcases hmem with hmem | rfl
    · have := hc.log_le c hmem
      omega
    · exact le_rfl
  case log_retained =>
    intro c hmem hge
    rw [hold] at hge
    rw [commit_entries]
    refine mem_drop_of_fst hfst hge ?_
    rw [hlog, mem_append] at hmem
    rw [mem_append]
    rcases hmem with hmem | hnew
    · exact .inl (hc.log_retained c hmem (by omega))
    · exact .inr hnew

theorem fence_contiguous : Contiguous (h.apply .fence) := by
  constructor
  case length_le => simp [apply, fence]
  case entries_fst => simp [apply, fence, oldest]
  case nonempty => simp [apply, fence]
  case log_le =>
    intro c hmem
    have := hc.log_le c hmem
    show c.1 ≤ h.seq + 2
    omega
  case log_retained =>
    -- every commit is older than the fence, so none is in the range
    intro c hmem hge
    have hle := hc.log_le c hmem
    simp only [oldest, apply, fence, length_singleton] at hge
    omega

theorem apply_contiguous (call : Call) : Contiguous (h.apply call) := by
  cases call with
  | commit w => exact commit_contiguous hc w
  | fence => exact fence_contiguous hc

theorem after_contiguous (calls : List Call) : Contiguous (h.after calls) := by
  induction calls generalizing h with
  | nil => exact hc
  | cons call calls ih => exact ih (apply_contiguous hc call)

end

/-- What became of a transaction that began at `readSeq`. If the registry was
    fenced since, the oldest retained number is out of its reach; if not, every
    number since then belongs to a commit. -/
structure Since (readSeq : Nat) (fenced : Prop) (h : History) : Prop where
  le_seq : readSeq ≤ h.seq
  of_fenced : fenced → readSeq + 2 ≤ h.oldest
  of_unfenced : ¬ fenced → ∀ n, readSeq < n → n ≤ h.seq → ∃ c ∈ h.log, c.1 = n

variable {readSeq : Nat} {fenced : Prop}

theorem commit_since (hc : Contiguous h) (hs : Since readSeq fenced h) (w : WriteSet) :
    Since readSeq fenced (h.apply (.commit w)) := by
  have hold := commit_oldest hc w
  have hle := hs.le_seq
  have hseq : (h.apply (.commit w)).seq = h.seq + 1 := rfl
  refine ⟨by omega, ?_, ?_⟩
  · intro hf
    have := hs.of_fenced hf
    omega
  · intro hf n hlt hn
    by_cases hnew : n = h.seq + 1
    · exact ⟨(h.seq + 1, w), mem_append_right _ (mem_singleton_self _), hnew.symm⟩
    · rcases hs.of_unfenced hf n hlt (by omega) with ⟨c, hmem, hcn⟩
      exact ⟨c, mem_append_left _ hmem, hcn⟩

theorem fence_since (hs : Since readSeq fenced h) : Since readSeq True (h.apply .fence) := by
  have hle := hs.le_seq
  refine ⟨?_, ?_, ?_⟩
  · show readSeq ≤ h.seq + 2
    omega
  · intro _
    simp only [oldest, apply, fence, length_singleton]
    omega
  · intro hf
    exact absurd trivial hf

theorem after_since (hc : Contiguous h) (hs : Since readSeq fenced h) (calls : List Call) :
    Since readSeq (fenced ∨ Call.fence ∈ calls) (h.after calls) := by
  -- `fenced` grows along the calls
  induction calls generalizing h fenced with
  | nil => simpa [History.after] using hs
  | cons call calls ih =>
    cases call with
    | commit w =>
      have hrest := ih (commit_contiguous hc w) (commit_since hc hs w)
      simpa [History.after] using hrest
    | fence =>
      have hrest := ih (fence_contiguous hc) (fence_since hs)
      simpa [History.after] using hrest

theorem since_self (h : History) : Since h.seq False h :=
  ⟨le_rfl, False.elim, fun _ n hlt hn => absurd hlt (by omega)⟩

theorem Contiguous.oldest_le (hc : Contiguous h) (he : e ∈ h.registry.entries) :
    h.oldest ≤ e.1 ∧ e.1 ≤ h.seq := by
  have hle := hc.length_le
  have hmem : e.1 ∈ range' h.oldest h.registry.entries.length := by
    rw [← hc.entries_fst]
    exact mem_map_of_mem he
  rw [mem_range'_1] at hmem
  unfold oldest at hmem ⊢
  omega

/-- The entry at the front of the registry carries the oldest number. -/
theorem Contiguous.head_fst (hc : Contiguous h) (he : h.registry.entries.head? = some e) :
    e.1 = h.oldest := by
  have hfst := hc.entries_fst
  cases hes : h.registry.entries with
  | nil =>
    rw [hes] at he
    exact absurd he (by simp)
  | cons =>
    rw [hes] at he hfst
    rw [head?_cons, some.injEq] at he
    rw [length_cons, range'_succ, map_cons, cons.injEq] at hfst
    rw [← he]
    exact hfst.1

theorem Contiguous.eq_of_fst_eq (hc : Contiguous h) {c : Nat × WriteSet}
    (he : e ∈ h.registry.entries) (hmem : c ∈ h.registry.entries) (heq : e.1 = c.1) : e = c := by
  have hnodup : (h.registry.entries.map Prod.fst).Nodup := by
    rw [hc.entries_fst]
    exact nodup_range'
  exact inj_on_of_nodup_map hnodup he hmem heq

/-- What a transaction can rely on once `check` has let it pass. -/
theorem passed_of_check {begun : History} (hbegun : Contiguous begun) (since : List Call)
    {w : WriteSet} {readSet : Option OccReadSet}
    (hcheck : (begun.after since).registry.check begun.seq w readSet = none) :
    Call.fence ∉ since ∧
      (∀ c ∈ (begun.after since).log, begun.seq < c.1 →
        c ∈ (begun.after since).registry.entries) ∧
      ∀ c ∈ (begun.after since).log, begun.seq < c.1 → ¬ Conflicts w readSet c.2 := by
  have hsince : Since begun.seq (False ∨ Call.fence ∈ since) (begun.after since) :=
    after_since hbegun (since_self begun) since
  have hnow : Contiguous (begun.after since) := after_contiguous hbegun since
  generalize begun.after since = now at hcheck hsince hnow
  rw [false_or] at hsince
  rw [check_eq_none_iff] at hcheck
  rcases hcheck with ⟨hhead, hno⟩
  -- the comparison with the front entry reaches down to the first number
  have holdest : now.registry.entries ≠ [] → now.oldest ≤ begun.seq + 1 := by
    intro hne
    have hsome := head?_eq_some_head hne
    have hle := hhead _ hsome
    rw [hnow.head_fst hsome] at hle
    exact hle
  have hretained : ∀ c ∈ now.log, begun.seq < c.1 → c ∈ now.registry.entries := by
    intro c hmem hlt
    have hle := hnow.log_le c hmem
    have hold := holdest (hnow.nonempty (by omega))
    exact hnow.log_retained c hmem (by omega)
  refine ⟨?_, hretained, fun c hmem hlt => hno c (hretained c hmem hlt) hlt⟩
  intro hf
  have hge := hsince.of_fenced hf
  by_cases hne : now.registry.entries = []
  · -- a registry that is still empty has issued no number
    have hzero : ¬ 0 < now.seq := fun hpos => hnow.nonempty hpos hne
    unfold oldest at hge
    omega
  · have hold := holdest hne
    omega

/-- `check` lets a transaction pass exactly when the registry was not fenced since the transaction
    began, every commit recorded since then is still retained, and none of them conflicts with it.
    The transaction began after the calls `before` and commits after the calls `since`. -/
theorem check_exact (capacity : Nat) (hcap : 0 < capacity) (before since : List Call)
    (w : WriteSet) (readSet : Option OccReadSet) :
    let begun := (init capacity hcap).after before
    let now := begun.after since
    now.registry.check begun.seq w readSet = none ↔
      Call.fence ∉ since ∧
      (∀ c ∈ now.log, begun.seq < c.1 → c ∈ now.registry.entries) ∧
      ∀ c ∈ now.log, begun.seq < c.1 → ¬ Conflicts w readSet c.2 := by
  intro begun now
  have hbegun : Contiguous begun := after_contiguous (init_contiguous capacity hcap) before
  have hnow : Contiguous now := after_contiguous hbegun since
  have hsince : Since begun.seq (False ∨ Call.fence ∈ since) now :=
    after_since hbegun (since_self begun) since
  rw [false_or] at hsince
  refine ⟨passed_of_check hbegun since, ?_⟩
  rintro ⟨hf, hretained, hno⟩
  have hcommit := hsince.of_unfenced hf
  rw [check_eq_none_iff]
  constructor
  · -- the first number since then is a commit's, and that commit is retained
    intro e he
    have hbound := hnow.oldest_le (mem_of_mem_head? he)
    rw [hnow.head_fst he] at hbound ⊢
    by_cases hlt : begun.seq < now.seq
    · rcases hcommit (begun.seq + 1) (by omega) (by omega) with ⟨c, hmem, hcn⟩
      have := hnow.oldest_le (hretained c hmem (by omega))
      omega
    · omega
  · -- a retained entry is the commit of its number
    intro e he hlt
    have hbound := hnow.oldest_le he
    rcases hcommit e.1 hlt hbound.2 with ⟨c, hmem, hcn⟩
    have heq := hnow.eq_of_fst_eq he (hretained c hmem (by omega)) hcn.symm
    rw [heq]
    exact hno c hmem (by omega)

/-- A fence alone makes `check` refuse a transaction that spans it: no commit
    was recorded, so none was lost and none conflicts. -/
theorem check_refuses_across_empty_fence :
    ¬ ∀ (capacity : Nat) (hcap : 0 < capacity) (before since : List Call) (w : WriteSet)
      (readSet : Option OccReadSet),
      let begun := (History.init capacity hcap).after before
      let now := begun.after since
      now.registry.check begun.seq w readSet = none ↔
        (∀ c ∈ now.log, begun.seq < c.1 → c ∈ now.registry.entries) ∧
        ∀ c ∈ now.log, begun.seq < c.1 → ¬ Conflicts w readSet c.2 := by
  intro h
  have hfence := h 1 (by decide) [] [.fence] WriteSet.empty none
  have hpass := hfence.mpr (by simp [History.after, History.apply, History.init])
  exact absurd hpass (by decide)

/-- One commit to vertex 1 since the transaction began, in a registry that
    retains two: a writer of vertex 2 passes. -/
theorem check_exact_disjoint_writer : ((((History.init 2 (by decide)).after []).after
      [.commit ⟨{1}, ∅, ∅, ∅, ∅, ∅⟩]).registry.check
        ((History.init 2 (by decide)).after []).seq ⟨{2}, ∅, ∅, ∅, ∅, ∅⟩ none) = none :=
  (check_exact 2 (by decide) [] [.commit ⟨{1}, ∅, ∅, ∅, ∅, ∅⟩] ⟨{2}, ∅, ∅, ∅, ∅, ∅⟩ none).mpr
    ⟨by simp, by simp [History.after, History.apply, History.init, commit,
      record, new, prune], by
      simp [History.after, History.apply, History.init, commit, Conflicts]⟩

end Occ

end UniDb
