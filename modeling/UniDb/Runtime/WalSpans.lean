import UniDb.Runtime.Wal

/-!
# Commit Spans in the Log

Callers append records to the log, alone or as the records of a commit, while
flushes take the buffer, write it as a segment, and put it back if the write fails.

A flush holds the lock of the log only while it takes the buffer and while it
puts it back, so calls arrive in between, and the spans of their commits have to
be moved behind the batch that comes back. Two flushes that overlap would bring
their batches back in the wrong order. The writer takes a lock around every
flush, and `OneFlush` says what that lock gives.

A segment that was written and cannot be synced is deleted and not put back. No
flush here ends that way.

## Main definitions

* `Flushes`, `Flushes.step`: Calls and flushes in any order.
* `OneFlush`: A flush begins only when no other one is running.
* `spansFrom`: The spans of a list of calls, laid out from a position.

## Theorems

* `Aligned.call`, `Aligned.restore`: What a call and a failed write keep.
* `spans_aligned`: The buffer and its spans after any run.
* `overlapping_flushes_reorder`: Two flushes at once.
-/

namespace UniDb

open List

namespace Wal

variable {V : Type}

def WalState.append (s : WalState V) (mutation : Mutation V) : WalState V :=
  { s with buffer := s.buffer ++ [mutation] }

/-- A call that appends to the log. -/
inductive Call (V : Type)
  | append (mutation : Mutation V)
  | appendCommit (mutations : List (Mutation V))

namespace Call

def apply (s : WalState V) : Call V → WalState V
  | .append mutation => s.append mutation
  | .appendCommit mutations => s.appendCommit mutations

/-- The records a call adds. -/
def mutations : Call V → List (Mutation V)
  | .append mutation => [mutation]
  | .appendCommit mutations => mutations

/-- The records of a commit. A commit without any is not recorded. -/
def commit : Call V → Option (List (Mutation V))
  | .append _ => none
  | .appendCommit mutations => if mutations.isEmpty then none else some mutations

end Call

/-- The log with the flushes that have taken their batch, the segments that
    were written, and the calls so far. -/
structure Flushes (V : Type) where
  state : WalState V
  inFlight : List (WalSegment V)
  flushed : List (WalSegment V)
  calls : List (Call V)

/-- A call or a step of a flush, which is named by its sequence number. -/
inductive FlushAction (V : Type)
  | call (c : Call V)
  /-- When `sealing`, the announced mark is to be written even without records. -/
  | take (sealing : Bool)
  | put (lsn : Nat)
  | putFails (lsn : Nat)

namespace Flushes

def new : Flushes V := ⟨.new, [], [], []⟩

def step (s : Flushes V) : FlushAction V → Option (Flushes V)
  | .call c => some { s with state := c.apply s.state, calls := s.calls ++ [c] }
  | .take sealing =>
    if s.state.buffer.isEmpty && !sealing then some s
    else some { s with state := s.state.take.2, inFlight := s.inFlight ++ [s.state.take.1] }
  | .put lsn => match s.inFlight.find? (·.lsn = lsn) with
    | none => none
    | some segment =>
      some { s with
        state := { s.state with flushedLsn := lsn }
        inFlight := s.inFlight.filter (·.lsn ≠ lsn)
        flushed := s.flushed ++ [segment] }
  | .putFails lsn => match s.inFlight.find? (·.lsn = lsn) with
    | none => none
    | some segment =>
      some { s with
        state := s.state.restoreUnflushed segment.mutations segment.commits
        inFlight := s.inFlight.filter (·.lsn ≠ lsn) }

/-- The records of written segments, of batches on their way, and of the buffer. -/
def records (s : Flushes V) : List (Mutation V) :=
  s.flushed.flatMap (·.mutations) ++ s.inFlight.flatMap (·.mutations) ++ s.state.buffer

end Flushes

/-- The writer holds its lock around a flush. -/
def OneFlush (s : Flushes V) : FlushAction V → Prop
  | .take _ => s.inFlight = []
  | _ => True

/-- The records of a buffer that a span covers. -/
def CommitSpan.slice (buffer : List (Mutation V)) (span : CommitSpan) : List (Mutation V) :=
  (buffer.drop span.start).take span.len

/-- The spans of calls whose records are laid out from a position on. -/
def spansFrom : Nat → List (Call V) → List CommitSpan
  | _, [] => []
  | n, c :: cs =>
    (c.commit.map fun ms => ⟨n, ms.length⟩).toList ++ spansFrom (n + c.mutations.length) cs

section Layout

variable {cs ds : List (Call V)}

theorem spansFrom_append (n : Nat) : spansFrom n (cs ++ ds) =
    spansFrom n cs ++ spansFrom (n + (cs.flatMap Call.mutations).length) ds := by
  induction cs generalizing n with
  | nil => rfl
  | cons c cs ih =>
    rw [cons_append, spansFrom, spansFrom, ih, append_assoc, flatMap_cons, length_append,
      Nat.add_assoc]

theorem spansFrom_shift (n k : Nat) :
    (spansFrom n cs).map (fun span => ⟨span.start + k, span.len⟩) = spansFrom (n + k) cs := by
  induction cs generalizing n with
  | nil => rfl
  | cons c cs ih =>
    rw [spansFrom, spansFrom, map_append, ih, Nat.add_right_comm]
    cases c.commit <;> rfl

/-- The records and the spans are those of the calls, and of nothing else. -/
def Aligned (mutations : List (Mutation V)) (spans : List CommitSpan) (cs : List (Call V)) :
    Prop :=
  mutations = cs.flatMap Call.mutations ∧ spans = spansFrom 0 cs

theorem Aligned.call {s : WalState V} (h : Aligned s.buffer s.spans cs) (c : Call V) :
    Aligned (c.apply s).buffer (c.apply s).spans (cs ++ [c]) := by
  rcases h with ⟨hbuffer, hspans⟩
  rw [Aligned, flatMap_append, flatMap_singleton, spansFrom_append, ← hbuffer, ← hspans,
    Nat.zero_add]
  cases c with
  | append => exact ⟨rfl, (append_nil _).symm⟩
  | appendCommit mutations =>
    cases mutations with
    | nil => exact ⟨(append_nil _).symm, (append_nil _).symm⟩
    | cons => exact ⟨rfl, rfl⟩

/-- A batch that comes back stands before what arrived since. -/
theorem Aligned.restore {s : WalState V} {batch : List (Mutation V)} {spans : List CommitSpan}
    (hbatch : Aligned batch spans cs) (h : Aligned s.buffer s.spans ds) :
    Aligned (s.restoreUnflushed batch spans).buffer (s.restoreUnflushed batch spans).spans
      (cs ++ ds) := by
  rcases hbatch with ⟨rfl, rfl⟩
  refine ⟨?_, ?_⟩
  · rw [WalState.restoreUnflushed, h.1, flatMap_append]
  · rw [WalState.restoreUnflushed, h.2, spansFrom_shift, spansFrom_append]

theorem le_start_of_mem {n : Nat} {span : CommitSpan} (h : span ∈ spansFrom n cs) :
    n ≤ span.start := by
  induction cs generalizing n with
  | nil => cases h
  | cons c cs ih =>
    rcases mem_append.mp h with h | h
    · rcases Option.map_eq_some_iff.mp (Option.mem_toList.mp h) with ⟨ms, -, rfl⟩
      exact Nat.le_refl n
    · exact (Nat.le_add_right n _).trans (ih h)

theorem Call.commit_eq_some {c : Call V} {ms : List (Mutation V)} (h : c.commit = some ms) :
    c.mutations = ms := by
  revert h
  fun_cases Call.commit c <;> rintro ⟨⟩
  rfl

theorem pairwise_spansFrom (n : Nat) :
    (spansFrom n cs).Pairwise fun a b => a.start + a.len ≤ b.start := by
  induction cs generalizing n with
  | nil => exact .nil
  | cons c cs ih =>
    rw [spansFrom]
    cases hc : c.commit with
    | none => exact ih _
    | some =>
      rw [Call.commit_eq_some hc]
      exact pairwise_cons.mpr ⟨fun b hb => le_start_of_mem hb, ih _⟩

/-- Each span covers the records of its commit, behind whatever stands before. -/
theorem map_slice_spansFrom (front : List (Mutation V)) :
    (spansFrom front.length cs).map (·.slice (front ++ cs.flatMap Call.mutations)) =
      cs.filterMap Call.commit := by
  induction cs generalizing front with
  | nil => rfl
  | cons c cs ih =>
    -- for the other calls, the records of this one stand in front as well
    have hrest := ih (front ++ c.mutations)
    rw [length_append, append_assoc] at hrest
    rw [spansFrom, flatMap_cons, map_append, hrest]
    cases hc : c.commit with
    | none => rw [filterMap_cons_none hc]; rfl
    | some =>
      rw [filterMap_cons_some hc, Call.commit_eq_some hc]
      simp [CommitSpan.slice]

end Layout

/-- The calls are split into those of written segments, of the batch on its way,
    and of the buffer. -/
structure Flushes.Inv (s : Flushes V) (written batch buffered : List (Call V)) : Prop where
  calls : s.calls = written ++ batch ++ buffered
  flushed : s.flushed.flatMap (·.mutations) = written.flatMap Call.mutations
  inFlight : s.inFlight = [] ∧ batch = [] ∨
    ∃ segment, s.inFlight = [segment] ∧ Aligned segment.mutations segment.commits batch
  buffer : Aligned s.state.buffer s.state.spans buffered

section Runs

variable {s t : Flushes V} {written batch buffered : List (Call V)}

/-- The flush whose write ends is the only one. -/
theorem Flushes.Inv.of_find {lsn : Nat} {segment : WalSegment V}
    (h : s.Inv written batch buffered) (hfind : s.inFlight.find? (·.lsn = lsn) = some segment) :
    s.inFlight = [segment] ∧ s.inFlight.filter (·.lsn ≠ lsn) = [] ∧
      Aligned segment.mutations segment.commits batch := by
  rcases h.inFlight with ⟨hnil, -⟩ | ⟨segment', hone, halign⟩
  · rw [hnil] at hfind
    cases hfind
  · have hlsn := find?_some hfind
    have hmem := mem_of_find?_eq_some hfind
    rw [hone] at hmem ⊢
    obtain rfl := mem_singleton.mp hmem
    exact ⟨rfl, by simpa using hlsn, halign⟩

theorem Flushes.Inv.step {a : FlushAction V} (h : s.Inv written batch buffered)
    (hone : OneFlush s a) (hstep : s.step a = some t) :
    ∃ written' batch' buffered', t.Inv written' batch' buffered' := by
  revert hstep
  fun_cases Flushes.step s a <;> rintro ⟨⟩
  case case1 c =>
    refine ⟨written, batch, buffered ++ [c], ?_, h.flushed, h.inFlight, h.buffer.call c⟩
    rw [h.calls, append_assoc _ buffered]
  -- no records to write, and no mark to announce
  case case2 => exact ⟨written, batch, buffered, h⟩
  case case3 =>
    -- no other batch is on its way
    have hnone : s.inFlight = [] := hone
    have hbatch : batch = [] := by
      rcases h.inFlight with ⟨-, hbatch⟩ | ⟨segment, hin, -⟩
      · exact hbatch
      · rw [hnone] at hin
        cases hin
    refine ⟨written, buffered, [], ?_, h.flushed, .inr ⟨s.state.take.1, ?_, h.buffer⟩, rfl, rfl⟩
    · rw [h.calls, hbatch, append_nil, append_nil]
    · rw [hnone, nil_append]
  case case5 segment hfind =>
    -- the calls of the batch join those of the written segments
    rcases h.of_find hfind with ⟨-, hrest, halign⟩
    refine ⟨written ++ batch, [], buffered, ?_, ?_, .inl ⟨hrest, rfl⟩, h.buffer⟩
    · rw [h.calls, append_nil]
    · rw [flatMap_append, flatMap_append, flatMap_singleton, h.flushed, halign.1]
  case case7 segment hfind =>
    -- they go back in front of the calls that arrived since
    rcases h.of_find hfind with ⟨-, hrest, halign⟩
    refine ⟨written, [], batch ++ buffered, ?_, h.flushed, .inl ⟨hrest, rfl⟩,
      halign.restore h.buffer⟩
    rw [h.calls, append_nil, append_assoc]

theorem Flushes.Inv.records_eq (h : s.Inv written batch buffered) :
    s.records = s.calls.flatMap Call.mutations := by
  rw [Flushes.records, h.calls, h.flushed, flatMap_append, flatMap_append, h.buffer.1]
  rcases h.inFlight with ⟨hnil, rfl⟩ | ⟨segment, hone, halign⟩
  · rw [hnil]
    rfl
  · rw [hone, flatMap_singleton, halign.1]

/-- After calls and flushes in any order, one flush at a time, nothing is lost,
    doubled or moved: the written segments, the batch on its way and the buffer
    are the appended records. The buffer holds the records of the last calls, and
    its spans cover, one after the other, those of their commits. -/
theorem spans_aligned {acts : List (FlushAction V)}
    (hone : EveryStep Flushes.step OneFlush Flushes.new acts)
    (h : run Flushes.step Flushes.new acts = some s) :
    s.records = s.calls.flatMap Call.mutations ∧
      (s.state.spans.Pairwise fun a b => a.start + a.len ≤ b.start) ∧
      ∃ earlier buffered, s.calls = earlier ++ buffered ∧
        s.state.buffer = buffered.flatMap Call.mutations ∧
        s.state.spans.map (·.slice s.state.buffer) = buffered.filterMap Call.commit := by
  have hinv : ∃ written batch buffered, s.Inv written batch buffered := by
    refine run_invariant_of_everyStep
      (I := fun s => ∃ written batch buffered, Flushes.Inv s written batch buffered)
      (fun s a t hs hone hstep => ?_) ⟨[], [], [], rfl, rfl, .inl ⟨rfl, rfl⟩, rfl, rfl⟩ hone h
    rcases hs with ⟨written, batch, buffered, hs⟩
    exact hs.step hone hstep
  rcases hinv with ⟨written, batch, buffered, hinv⟩
  refine ⟨hinv.records_eq, ?_, written ++ batch, buffered, hinv.calls, hinv.buffer.1, ?_⟩
  · rw [hinv.buffer.2]
    exact pairwise_spansFrom 0
  · rw [hinv.buffer.1, hinv.buffer.2]
    exact map_slice_spansFrom []

/-- A commit arrives while a batch is written, and the batch comes back. -/
theorem spans_aligned_after_failed_put : let acts : List (FlushAction DemoValue) :=
      [.call (.appendCommit [.deleteVertex 1 []]), .take false,
        .call (.appendCommit [.deleteVertex 2 [], .deleteVertex 3 []]), .putFails 1]
    ∃ s, run Flushes.step Flushes.new acts = some s ∧ s.state.spans = [⟨0, 1⟩, ⟨1, 2⟩] ∧
      s.records = s.calls.flatMap Call.mutations := by
  intro acts
  have hone : EveryStep Flushes.step OneFlush Flushes.new acts :=
    everyStep_cons trivial rfl (everyStep_cons rfl rfl (everyStep_cons trivial rfl
      (everyStep_cons trivial rfl trivial)))
  exact ⟨_, rfl, rfl, (spans_aligned hone rfl).1⟩

/-- Two flushes at once: the first batch comes back after the second is written. -/
theorem overlapping_flushes_reorder : let acts : List (FlushAction DemoValue) :=
      [.call (.append (.deleteVertex 1 [])), .take false,
        .call (.append (.deleteVertex 2 [])), .take false, .putFails 1, .put 2]
    ∃ s, run Flushes.step Flushes.new acts = some s ∧ s.inFlight = [] ∧
      s.records = [.deleteVertex 2 [], .deleteVertex 1 []] ∧
      s.calls.flatMap Call.mutations = [.deleteVertex 1 [], .deleteVertex 2 []] :=
  ⟨_, rfl, rfl, rfl, rfl⟩

end Runs

end Wal

end UniDb
