import Mathlib.Data.List.Sort
import UniDb.Lib.Run
import UniDb.Runtime.L0Merge

/-!
# The Write-Ahead Log under Failures

Commits that write their records to the log, one after the other, with a store
that may fail at every call, and a recovery after a crash.

The log buffers the records of a commit and writes the buffer as one segment.
If the segment cannot be written the batch goes back into the buffer, so that it
is not lost; if it is written and cannot be synced it is deleted and the batch is
dropped. The commit returns an error either way. The two do not fit together:
the buffer is shared by all commits, so after a failed write the next commit
takes the records of the failed one into its own segment, and a replay brings
back a commit whose caller was told that it failed.

Two more failures leave such a trace: a write that is reported as failed and
still reaches the store, and a cleanup that fails to delete the segment.
`Clean` excludes these three, and `replay_survivors` says that without them
a recovery finds the acknowledged commits and at most the one in flight.

A crash loses the memory of the process. What the store holds survives, except
for the one segment that is being written or is not synced yet: it may be
missing, torn or whole. The announced mark that a segment also carries is left
out, since no replay of records reads it.

## Main definitions

* `WalState`: The buffered records and the sequence counters.
* `replaySegmentsSince`: What a recovery reads.
* `Log`, `step`: Commits running against the log, one call at a time.
* `Clean`: The failures that leave no trace.

## Theorems

* `replay_durable`: A recovery of whole segments with at most one torn tail.
* `step_inv`: What every step keeps.
* `replay_survivors`: A recovery finds exactly the acknowledged commits.
* `failed_commit_replayed`: A failed commit can come back.
-/

namespace UniDb

open List Option

namespace Wal

variable {V : Type}

/-- Where the records of one commit are in a segment. -/
structure CommitSpan where
  start : Nat
  len : Nat
  deriving DecidableEq, Repr

structure WalSegment (V : Type) where
  lsn : Nat
  mutations : List (Mutation V)
  commits : List CommitSpan

/-- A segment file, as far as its checksum lets a reader see. -/
inductive SegmentFile (V : Type)
  | torn
  | whole (segment : WalSegment V)

/-- The state behind the lock of the log. -/
structure WalState (V : Type) where
  buffer : List (Mutation V)
  spans : List CommitSpan
  nextLsn : Nat
  flushedLsn : Nat

namespace WalState

/-- Sequence numbers start at 1, so that 0 means no segment. -/
def new : WalState V := ⟨[], [], 1, 0⟩

def appendCommit (s : WalState V) (mutations : List (Mutation V)) : WalState V :=
  if mutations.isEmpty then s
  else { s with
    buffer := s.buffer ++ mutations
    spans := s.spans ++ [⟨s.buffer.length, mutations.length⟩] }

/-- Put a batch back in front of what arrived since. -/
def restoreUnflushed (s : WalState V) (batch : List (Mutation V)) (spans : List CommitSpan) :
    WalState V :=
  { s with
    buffer := batch ++ s.buffer
    spans := spans ++ s.spans.map fun span => ⟨span.start + batch.length, span.len⟩ }

/-- Take the buffer as the next segment. -/
def take (s : WalState V) : WalSegment V × WalState V :=
  (⟨s.nextLsn, s.buffer, s.spans⟩, { s with buffer := [], spans := [], nextLsn := s.nextLsn + 1 })

end WalState

/-- Read segment files in order. A torn file ends the log if it is the last one,
    and is data loss if it is not. -/
def readSegments (highWaterMark : Nat) :
    List (Nat × SegmentFile V) → Except String (List (WalSegment V))
  | [] => .ok []
  | (lsn, .torn) :: rest =>
    if rest.isEmpty then .ok []
    else .error ("corrupt WAL segment " ++ toString lsn ++ " with " ++ toString rest.length ++
      " later segment(s) present; refusing to skip — manual inspection required")
  | (_, .whole segment) :: rest => do
      let segments ← readSegments highWaterMark rest
      if highWaterMark < segment.lsn then return segment :: segments else return segments

/-- The segments a recovery replays, in the order of their sequence numbers. -/
def replaySegmentsSince (files : List (Nat × SegmentFile V)) (highWaterMark : Nat) :
    Except String (List (WalSegment V)) :=
  readSegments highWaterMark
    ((files.filter fun f => highWaterMark < f.1).insertionSort fun a b => a.1 ≤ b.1)

/-- What became of a segment whose write did not come to an end. -/
inductive Leftover
  | absent
  | torn
  | whole
  deriving DecidableEq, Repr

def Leftover.file (left : Leftover) (segment : WalSegment V) : List (Nat × SegmentFile V) :=
  match left with
  | .absent => []
  | .torn => [(segment.lsn, .torn)]
  | .whole => [(segment.lsn, .whole segment)]

/-- Where the running commit is. Commits hold a lock, so there is at most one. -/
inductive Phase (V : Type)
  | idle
  | appended (commit : List (Mutation V))
  | writing (commit : List (Mutation V)) (segment : WalSegment V)
  | written (commit : List (Mutation V)) (segment : WalSegment V)
  | unsynced (commit : List (Mutation V)) (segment : WalSegment V) (error : String)
  | flushed (commit : List (Mutation V)) (lsn : Nat)

/-- The log, its store, the running commit, and the results of the commits that
    returned: the sequence number of their segment, or the error. -/
structure Log (V : Type) where
  /-- Whether the store is a local directory, whose files have to be synced. -/
  localRoot : Bool
  state : WalState V
  files : List (Nat × SegmentFile V)
  phase : Phase V
  results : List (List (Mutation V) × Except String Nat)

def Log.new (localRoot : Bool) : Log V := ⟨localRoot, WalState.new, [], .idle, []⟩

/-- The steps of commits, with the outcome of each call to the store. -/
inductive Action (V : Type)
  | begin (mutations : List (Mutation V))
  | take
  | serializeFails (error : String)
  | put
  | putFails (error : String) (left : Leftover)
  | fsyncFails (error : String)
  | delete
  | deleteFails (error : String) (removed : Bool)
  | finish
  | acknowledge

namespace Log

/-- The running commit returns. -/
def answer (l : Log V) (commit : List (Mutation V)) (result : Except String Nat) : Log V :=
  { l with phase := .idle, results := l.results ++ [(commit, result)] }

/-- The batch goes back into the buffer, and the commit fails. -/
def restore (l : Log V) (commit : List (Mutation V)) (segment : WalSegment V) (error : String) :
    Log V :=
  answer { l with state := l.state.restoreUnflushed segment.mutations segment.commits } commit
    (.error error)

/-- Remove a segment file. -/
def remove (l : Log V) (lsn : Nat) : Log V :=
  { l with files := l.files.filter fun f => f.1 ≠ lsn }

def step (l : Log V) (a : Action V) : Option (Log V) :=
  match l.phase, a with
  | .idle, .begin mutations =>
    -- behind whatever an earlier commit left in the buffer
    some { l with state := l.state.appendCommit mutations, phase := .appended mutations }
  | .appended commit, .take =>
    -- nothing to write: the flush returns the mark it has
    if l.state.buffer.isEmpty then some { l with phase := .flushed commit l.state.flushedLsn }
    else some { l with state := l.state.take.2, phase := .writing commit l.state.take.1 }
  -- the records are back in the buffer, and their number is lost
  | .writing commit segment, .serializeFails error => some (l.restore commit segment error)
  | .writing commit segment, .put =>
    some { l with
      files := l.files ++ [(segment.lsn, .whole segment)]
      phase := .written commit segment }
  | .writing commit segment, .putFails error left =>
    some (restore { l with files := l.files ++ left.file segment } commit segment error)
  | .written commit segment, .fsyncFails error =>
    if l.localRoot then some { l with phase := .unsynced commit segment error } else none
  | .unsynced commit segment error, .delete =>
    some ((l.remove segment.lsn).answer commit (.error error))
  | .unsynced commit segment error, .deleteFails deleteError removed =>
    let message := "WAL segment fsync failed (" ++ error ++ ") and the cleanup delete of " ++
      "segment at lsn " ++ toString segment.lsn ++ " also failed (" ++ deleteError ++
      "); the WAL may contain a non-durable segment"
    some (answer (if removed then l.remove segment.lsn else l) commit (.error message))
  | .written commit segment, .finish =>
    some { l with
      state := { l.state with flushedLsn := segment.lsn }
      phase := .flushed commit segment.lsn }
  | .flushed commit lsn, .acknowledge => some (l.answer commit (.ok lsn))
  | _, _ => none

/-- The commits that returned without an error, oldest first. -/
def acknowledged (l : Log V) : List (List (Mutation V)) :=
  l.results.filterMap fun r => match r.2 with
    | .ok _ => some r.1
    | .error _ => none

/-- The commit that is running. -/
def inFlight (l : Log V) : Option (List (Mutation V)) :=
  match l.phase with
  | .idle => none
  | .appended commit | .writing commit _ | .written commit _ | .unsynced commit _ _
  | .flushed commit _ => some commit

/-- The segment files after a crash, given what became of the one that is being
    written or not synced. -/
def survivors (l : Log V) (fate : Leftover) : List (Nat × SegmentFile V) :=
  match l.phase with
  | .idle | .appended _ | .flushed .. => l.files
  | .writing _ segment => l.files ++ fate.file segment
  | .written _ segment =>
    if l.localRoot then (l.remove segment.lsn).files ++ fate.file segment else l.files
  | .unsynced _ segment _ => (l.remove segment.lsn).files ++ fate.file segment

end Log

/-- The records a recovery replays. -/
def recover (files : List (Nat × SegmentFile V)) : Except String (List (Mutation V)) :=
  (replaySegmentsSince files 0).map fun segments => segments.flatMap WalSegment.mutations

/-- The failures that leave no trace: no commit begins while the buffer still
    holds the records of a failed one, a write that fails does not reach the
    store, and a segment that is not synced is removed. -/
def Clean (l : Log V) : Action V → Prop
  | .begin _ => l.state.buffer = []
  | .putFails _ left => left = .absent
  | .deleteFails _ removed => removed = true
  | _ => True

section Recovery

def SegmentFile.records : SegmentFile V → List (Mutation V)
  | .torn => []
  | .whole segment => segment.mutations

/-- The records of a segment that survived a crash whole. -/
def Leftover.records (left : Leftover) (segment : WalSegment V) : List (Mutation V) :=
  if left = .whole then segment.mutations else []

/-- Segment files below a sequence number that are whole, in order, and hold the given records. -/
structure Durable (files : List (Nat × SegmentFile V)) (records : List (Mutation V))
    (bound : Nat) : Prop where
  whole : ∀ f ∈ files, ∃ segment, f.2 = .whole segment ∧ segment.lsn = f.1
  lsn_pos : ∀ f ∈ files, 0 < f.1
  lsn_lt : ∀ f ∈ files, f.1 < bound
  sorted : files.Pairwise fun a b => a.1 < b.1
  content : files.flatMap (fun f => f.2.records) = records

theorem durable_nil (bound : Nat) : Durable ([] : List (Nat × SegmentFile V)) [] bound := by
  constructor <;> simp

variable {files : List (Nat × SegmentFile V)} {records : List (Mutation V)}

theorem Durable.mono {bound bound' : Nat} (h : Durable files records bound) (hle : bound ≤ bound') :
    Durable files records bound' := by
  refine ⟨h.whole, h.lsn_pos, ?_, h.sorted, h.content⟩
  intro f hf
  have := h.lsn_lt f hf
  omega

variable {segment : WalSegment V}

/-- One more whole segment, with the next number. -/
theorem Durable.append (h : Durable files records segment.lsn) (hpos : 0 < segment.lsn)
    {bound : Nat} (hlt : segment.lsn < bound) :
    Durable (files ++ [(segment.lsn, .whole segment)]) (records ++ segment.mutations) bound := by
  constructor
  case whole =>
    exact forall_mem_append.mpr ⟨h.whole, forall_mem_singleton.mpr ⟨segment, rfl, rfl⟩⟩
  case lsn_pos => exact forall_mem_append.mpr ⟨h.lsn_pos, forall_mem_singleton.mpr hpos⟩
  case lsn_lt =>
    exact forall_mem_append.mpr
      ⟨fun f hf => (h.lsn_lt f hf).trans hlt, forall_mem_singleton.mpr hlt⟩
  case sorted =>
    rw [pairwise_append]
    refine ⟨h.sorted, pairwise_singleton _ _, ?_⟩
    intro f hf g hg
    rw [mem_singleton.mp hg]
    exact h.lsn_lt f hf
  case content =>
    rw [flatMap_append, h.content]
    simp [SegmentFile.records]

/-- Removing the segment that was written last. -/
theorem Durable.filter_append (h : Durable files records segment.lsn) (f : SegmentFile V) :
    (files ++ [(segment.lsn, f)]).filter (fun f => f.1 ≠ segment.lsn) = files := by
  rw [List.filter_append]
  have hkeep : files.filter (fun f => decide (f.1 ≠ segment.lsn)) = files := by
    rw [filter_eq_self]
    intro g hg
    have := h.lsn_lt g hg
    exact decide_eq_true (by omega)
  rw [hkeep]
  simp

/-- Reading whole segments, and then what is left of one more. -/
theorem readSegments_append
    (hwhole : ∀ f ∈ files, ∃ segment, f.2 = .whole segment ∧ segment.lsn = f.1)
    (hpos : ∀ f ∈ files, 0 < f.1) (fate : Leftover) (hseg : 0 < segment.lsn) :
    ∃ segments, readSegments 0 (files ++ fate.file segment) = .ok segments ∧
      segments.flatMap WalSegment.mutations =
        files.flatMap (fun f => f.2.records) ++ fate.records segment := by
  induction files with
  | nil =>
    cases fate with
    | absent | torn => exact ⟨[], rfl, rfl⟩
    | whole =>
      refine ⟨[segment], ?_, by simp [Leftover.records]⟩
      simp only [Leftover.file, nil_append, readSegments]
      simp [bind, Except.bind, pure, Except.pure, hseg]
  | cons f files ih =>
    rcases ih (fun g hg => hwhole g (mem_cons_of_mem f hg))
      (fun g hg => hpos g (mem_cons_of_mem f hg)) with ⟨segments, hread, hrecords⟩
    rcases hwhole f mem_cons_self with ⟨s, hs, hlsn⟩
    have hs0 : 0 < s.lsn := by
      rw [hlsn]
      exact hpos f mem_cons_self
    refine ⟨s :: segments, ?_, ?_⟩
    · rcases f with ⟨lsn, file⟩
      subst hs
      simp only [cons_append, readSegments, hread]
      simp [bind, Except.bind, pure, Except.pure, hs0]
    · rw [flatMap_cons, hrecords, flatMap_cons, hs, append_assoc]
      rfl

theorem replay_durable (h : Durable files records segment.lsn) (hseg : 0 < segment.lsn)
    (fate : Leftover) :
    recover (files ++ fate.file segment) = .ok (records ++ fate.records segment) := by
  have hlast : ∀ f ∈ fate.file segment, f.1 = segment.lsn := by
    intro f hf
    cases fate with
    | absent => cases hf
    | torn | whole => rw [mem_singleton.mp hf]
  -- the listing is already in order
  have hsorted : (files ++ fate.file segment).Pairwise fun a b => a.1 ≤ b.1 := by
    rw [pairwise_append]
    refine ⟨h.sorted.imp le_of_lt, ?_, ?_⟩
    · cases fate <;> simp [Leftover.file]
    · intro f hf g hg
      rw [hlast g hg]
      exact le_of_lt (h.lsn_lt f hf)
  have hfilter : (files ++ fate.file segment).filter (fun f => decide (0 < f.1)) =
      files ++ fate.file segment := by
    rw [filter_eq_self]
    refine forall_mem_append.mpr ⟨fun f hf => decide_eq_true (h.lsn_pos f hf), fun f hf => ?_⟩
    rw [hlast f hf]
    exact decide_eq_true hseg
  rcases readSegments_append h.whole h.lsn_pos fate hseg with ⟨segments, hread, hrecords⟩
  unfold recover replaySegmentsSince
  rw [hfilter, hsorted.insertionSort_eq, hread]
  show Except.ok (segments.flatMap WalSegment.mutations) = _
  rw [hrecords, h.content]

end Recovery

section Runs

/-- The records of the acknowledged commits. -/
def Log.durableRecords (l : Log V) : List (Mutation V) := l.acknowledged.flatten

/-- What holds between the steps of clean runs: the store holds the records of
    the acknowledged commits, and of the running one where its segment is
    written. The buffer may hold a failed batch only while no commit runs. -/
def Inv (l : Log V) : Prop :=
  match l.phase with
  | .idle => Durable l.files l.durableRecords l.state.nextLsn ∧ 0 < l.state.nextLsn
  | .appended commit =>
    Durable l.files l.durableRecords l.state.nextLsn ∧ 0 < l.state.nextLsn ∧
      l.state.buffer = commit
  | .writing commit segment =>
    Durable l.files l.durableRecords segment.lsn ∧ 0 < segment.lsn ∧
      segment.lsn < l.state.nextLsn ∧ segment.mutations = commit
  | .written commit segment | .unsynced commit segment _ =>
    (∃ base, l.files = base ++ [(segment.lsn, .whole segment)] ∧
      Durable base l.durableRecords segment.lsn) ∧ 0 < segment.lsn ∧
      segment.lsn < l.state.nextLsn ∧ segment.mutations = commit
  | .flushed commit _ =>
    Durable l.files (l.durableRecords ++ commit) l.state.nextLsn ∧ 0 < l.state.nextLsn

theorem new_inv (localRoot : Bool) : Inv (Log.new localRoot : Log V) :=
  ⟨durable_nil 1, Nat.one_pos⟩

theorem durableRecords_answer (l : Log V) (commit : List (Mutation V))
    (result : Except String Nat) : (l.answer commit result).durableRecords =
      l.durableRecords ++ if result.toBool then commit else [] := by
  cases result <;> simp [Log.durableRecords, Log.acknowledged, Log.answer, Except.toBool]

variable {commit : List (Mutation V)}

/-- A commit that fails leaves the store as it was before the commit. -/
theorem answer_error_inv {l : Log V} {error : String}
    (hfiles : Durable l.files l.durableRecords l.state.nextLsn) (hpos : 0 < l.state.nextLsn) :
    Inv (l.answer commit (.error error)) := by
  show Durable l.files _ l.state.nextLsn ∧ _
  rw [durableRecords_answer]
  exact ⟨(append_nil _).symm ▸ hfiles, hpos⟩

theorem appendCommit_buffer {s : WalState V} (h : s.buffer = []) (mutations : List (Mutation V)) :
    (s.appendCommit mutations).buffer = mutations ∧
      (s.appendCommit mutations).nextLsn = s.nextLsn := by
  unfold WalState.appendCommit
  cases mutations with
  | nil => exact ⟨h, rfl⟩
  | cons => exact ⟨by simp [h], rfl⟩

/-- The cleanup after a failed sync takes the segment out of the store again. -/
theorem remove_durable {l : Log V} {base : List (Nat × SegmentFile V)} {segment : WalSegment V}
    (hbase : l.files = base ++ [(segment.lsn, .whole segment)])
    (hfiles : Durable base l.durableRecords segment.lsn) (hlt : segment.lsn < l.state.nextLsn) :
    Durable (l.remove segment.lsn).files l.durableRecords l.state.nextLsn := by
  unfold Log.remove
  simp only [hbase]
  rw [hfiles.filter_append]
  exact hfiles.mono (le_of_lt hlt)

theorem step_inv (l : Log V) (a : Action V) (l' : Log V) (h : Inv l) (hclean : Clean l a)
    (hstep : l.step a = some l') : Inv l' := by
  unfold Inv at h
  revert hstep
  fun_cases Log.step l a with rintro ⟨⟩ <;> simp only [*] at h
  | case1 mutations =>
    rcases appendCommit_buffer hclean mutations with ⟨hbuffer, hnext⟩
    refine ⟨?_, ?_, hbuffer⟩
    · rw [hnext]
      exact h.1
    · rw [hnext]
      exact h.2
  | case2 commit _ hempty =>
    -- a commit without records is durable as it is
    rcases h with ⟨hfiles, hpos, hbuffer⟩
    have hnil : commit = [] := by
      rw [← hbuffer]
      exact isEmpty_iff.mp hempty
    refine ⟨?_, hpos⟩
    rw [hnil, append_nil]
    exact hfiles
  | case3 => exact ⟨h.1, h.2.1, Nat.lt_succ_self _, h.2.2⟩
  | case4 =>
    rcases h with ⟨hfiles, hpos, hlt, -⟩
    exact answer_error_inv (hfiles.mono (le_of_lt hlt)) (lt_trans hpos hlt)
  | case5 => exact ⟨⟨l.files, rfl, h.1⟩, h.2⟩
  | case6 =>
    -- the write left nothing in the store
    rcases h with ⟨hfiles, hpos, hlt, -⟩
    cases hclean
    refine answer_error_inv ?_ (lt_trans hpos hlt)
    show Durable (l.files ++ []) l.durableRecords l.state.nextLsn
    rw [append_nil]
    exact hfiles.mono (le_of_lt hlt)
  | case7 => exact h
  | case9 =>
    rcases h with ⟨⟨base, hbase, hfiles⟩, hpos, hlt, -⟩
    exact answer_error_inv (remove_durable hbase hfiles hlt) (lt_trans hpos hlt)
  | case10 =>
    rcases h with ⟨⟨base, hbase, hfiles⟩, hpos, hlt, -⟩
    cases hclean
    exact answer_error_inv (remove_durable hbase hfiles hlt) (lt_trans hpos hlt)
  | case11 =>
    -- from here on the segment counts, before the commit is acknowledged
    rcases h with ⟨⟨base, hbase, hfiles⟩, hpos, hlt, hrecords⟩
    refine ⟨?_, lt_trans hpos hlt⟩
    rw [hbase, ← hrecords]
    exact hfiles.append hpos hlt
  | case12 =>
    refine ⟨?_, h.2⟩
    rw [durableRecords_answer]
    exact h.1

variable {files : List (Nat × SegmentFile V)}

theorem recover_durable {records : List (Mutation V)} {bound : Nat}
    (h : Durable files records bound) (hpos : 0 < bound) : recover files = .ok records := by
  have h' : Durable files records (WalSegment.mk bound [] [] : WalSegment V).lsn := h
  have hreplay := replay_durable h' hpos .absent
  simpa [Leftover.file, Leftover.records] using hreplay

theorem recover_leftover {l : Log V} {segment : WalSegment V}
    (h : Durable files l.durableRecords segment.lsn) (hpos : 0 < segment.lsn)
    (hrecords : segment.mutations = commit) (fate : Leftover) :
    recover (files ++ fate.file segment) = .ok l.durableRecords ∨
      recover (files ++ fate.file segment) = .ok (l.durableRecords ++ commit) := by
  rw [replay_durable h hpos fate, ← hrecords]
  by_cases hw : fate = .whole
  · right
    simp [Leftover.records, hw]
  · left
    simp [Leftover.records, hw]

/-- After a crash in a state of the invariant. -/
theorem Inv.recover_survivors {l : Log V} (h : Inv l) (fate : Leftover) :
    recover (l.survivors fate) = .ok l.durableRecords ∨
      ∃ commit, l.inFlight = some commit ∧
        recover (l.survivors fate) = .ok (l.durableRecords ++ commit) := by
  unfold Inv at h
  unfold Log.survivors Log.inFlight
  cases hphase : l.phase with rw [hphase] at h
  | idle => exact .inl (recover_durable h.1 h.2)
  | appended => exact .inl (recover_durable h.1 h.2.1)
  | writing commit =>
    rcases h with ⟨hfiles, hpos, -, hrecords⟩
    exact (recover_leftover hfiles hpos hrecords fate).imp_right fun hall => ⟨commit, rfl, hall⟩
  | written commit =>
    rcases h with ⟨⟨base, hbase, hfiles⟩, hpos, hlt, hrecords⟩
    by_cases hlocal : l.localRoot = true
    · simp only [if_pos hlocal, Log.remove, hbase]
      rw [hfiles.filter_append]
      exact (recover_leftover hfiles hpos hrecords fate).imp_right fun hall => ⟨commit, rfl, hall⟩
    · simp only [if_neg hlocal, hbase]
      refine .inr ⟨commit, rfl, ?_⟩
      rw [← hrecords]
      exact recover_durable (hfiles.append hpos hlt) (lt_trans hpos hlt)
  | unsynced commit =>
    rcases h with ⟨⟨base, hbase, hfiles⟩, hpos, -, hrecords⟩
    simp only [Log.remove, hbase]
    rw [hfiles.filter_append]
    exact (recover_leftover hfiles hpos hrecords fate).imp_right fun hall => ⟨commit, rfl, hall⟩
  | flushed commit => exact .inr ⟨commit, rfl, recover_durable h.1 h.2⟩

/-- In every run whose failures leave no trace, a recovery after a crash at any point replays the
    records of the acknowledged commits, and of at most the commit in flight. -/
theorem replay_survivors (localRoot : Bool) (acts : List (Action V)) (l : Log V)
    (hrun : run Log.step (Log.new localRoot) acts = some l)
    (hclean : EveryStep Log.step Clean (Log.new localRoot) acts) (fate : Leftover) :
    recover (l.survivors fate) = .ok l.acknowledged.flatten ∨
      ∃ commit, l.inFlight = some commit ∧
        recover (l.survivors fate) = .ok (l.acknowledged.flatten ++ commit) :=
  (run_invariant_of_everyStep step_inv (new_inv localRoot) hclean hrun).recover_survivors fate

/-- A commit whose sync fails and is cleaned up, one that succeeds, and one that
    is being written at the crash. -/
theorem replay_survivors_after_fsync_failure : let acts : List (Action DemoValue) :=
      [.begin [.deleteVertex 1 []], .take, .put, .fsyncFails "EIO", .delete,
        .begin [.deleteVertex 2 []], .take, .put, .finish, .acknowledge,
        .begin [.deleteVertex 3 []], .take]
    ∃ l, run Log.step (Log.new true) acts = some l ∧
      l.acknowledged = [[.deleteVertex 2 []]] ∧ l.inFlight = some [.deleteVertex 3 []] ∧
      ∀ fate, recover (l.survivors fate) = .ok l.acknowledged.flatten ∨
        ∃ commit, l.inFlight = some commit ∧
          recover (l.survivors fate) = .ok (l.acknowledged.flatten ++ commit) := by
  intro acts
  refine ⟨_, rfl, rfl, rfl, ?_⟩
  refine replay_survivors true acts _ rfl ?_
  -- each commit finds the buffer empty
  refine everyStep_cons rfl rfl ?_
  refine everyStep_cons trivial rfl (everyStep_cons trivial rfl ?_)
  refine everyStep_cons trivial rfl (everyStep_cons trivial rfl ?_)
  refine everyStep_cons rfl rfl ?_
  refine everyStep_cons trivial rfl (everyStep_cons trivial rfl ?_)
  refine everyStep_cons trivial rfl (everyStep_cons trivial rfl ?_)
  exact everyStep_cons rfl rfl (everyStep_cons trivial rfl trivial)

/-- A commit whose segment cannot be written comes back with the next one. -/
theorem failed_commit_replayed : let acts : List (Action DemoValue) :=
      [.begin [.deleteVertex 1 []], .take, .putFails "timeout" .absent,
        .begin [.deleteVertex 2 []], .take, .put, .finish, .acknowledge]
    ∃ l, run Log.step (Log.new true) acts = some l ∧
      l.results = [([.deleteVertex 1 []], .error "timeout"), ([.deleteVertex 2 []], .ok 2)] ∧
      recover (l.survivors .absent) = .ok [.deleteVertex 1 [], .deleteVertex 2 []] ∧
      ¬ (recover (l.survivors .absent) = .ok l.acknowledged.flatten ∨
        ∃ commit, l.inFlight = some commit ∧
          recover (l.survivors .absent) = .ok (l.acknowledged.flatten ++ commit)) := by
  intro acts
  refine ⟨_, rfl, rfl, rfl, ?_⟩
  rintro (h | ⟨commit, hnone, -⟩)
  · have hlen := congrArg (fun r => r.toOption.map length) h
    exact absurd hlen (by decide)
  · exact absurd hnone (by simp [Log.inFlight, Log.answer])

end Runs

end Wal

end UniDb
