import Mathlib.Data.List.Range
import Mathlib.Data.List.Sort
import UniDb.Lib.AssocMap
import UniDb.Lib.Run

/-!
# The Flush Coordinator

Flushes stream side by side and end in any order, and are finalized in the order
in which their buffers were rotated out.

A rotation takes a permit, a sequence number and a place in `pendingCount`, all
under the writer's flush lock. Its stream then runs as a task of its own, which
owns a guard. However the task ends, the guard's sequence number is submitted
once: with the stream's result, or, when the task is dropped, with a failure
that the guard's destructor makes up. The finalizer is one more task. It takes
submissions from a channel into a buffer sorted by sequence number, and
finalizes the first of the buffer for as long as that is the number it expects.

The finalizer's awaits are the steps of the model: it waits for a submission,
looks at the buffer, or is inside a finalization, and in between the other tasks
do what they like. What a finalization answers is part of the action, so every
implementation of it is covered.

A sequence number is counted in each place where it can be: held by a guard,
in the channel, in the buffer, in the finalizer's hands, finalized, or lost to a
channel that was closed. Each number has exactly one place, and that is the
invariant everything else follows from.

## Main definitions

* `FlushSeqGuard.disarm`, `FlushSeqGuard.drop`: The two ways a guard ends.
* `Coordinator.submit`: Hand a sequence number to the finalizer.
* `Coordinator.recv`, `Coordinator.peek`, `Coordinator.finalizeOne`: The loop of
  the finalizer, await by await.
* `Ordered`: The invariant.

## Theorems

* `step_ordered`: Every step keeps the invariant.
* `step_work_lt`: The finalizer's own steps come to an end.
* `finalizes_in_rotate_order`: What holds in every state of every run.
* `pendingCount_ne_submitted_sub_finalized`: A flush is pending before it is
  submitted.
-/

namespace UniDb

open AList AssocMap Prod List Option

namespace FlushCoordinator

/-- A submission to the finalizer. `ρ` is what the rotation leaves for the other
    phases, and `ω` is what a stream produces. -/
structure FlushSubmit (ρ ω : Type) where
  seq : Nat
  rotated : ρ
  result : Except String ω

/-- The guard of a stream task. It is armed as long as it has its flush. -/
structure FlushSeqGuard (ρ : Type) where
  seq : Nat
  rotated : Option ρ

/-- How the future of a stream ends, unless its task is dropped. -/
inductive StreamEnd (ω : Type)
  | returned (result : Except String ω)
  | panicked (msg : String)
  | elapsed

/-- Where the finalizer's loop is. -/
inductive Phase (ρ ω : Type)
  | receiving
  | reordering
  | finalizing (s : FlushSubmit ρ ω)
  | exited

/-- The coordinator, its stream tasks and its finalizer. `submitted`,
    `finalized`, `discarded` and `dropped` record the past: what went into the
    channel, what was finalized and acknowledged, what `submit` threw away after
    the channel was closed, and what the finalizer still had when it exited. -/
structure Coordinator (ρ ω : Type) where
  permits : Nat
  nextSeq : Nat
  pendingCount : Nat
  flushFailures : Nat
  lastFlushError : Option String
  /-- The time limit of a stream, as error messages show it. -/
  streamTimeout : String
  /-- The sending side of the channel is still there. -/
  submitTx : Bool
  channel : List (FlushSubmit ρ ω)
  guards : AssocMap Nat (FlushSeqGuard ρ)
  /-- The reorder buffer, smallest sequence number first. -/
  pending : List (FlushSubmit ρ ω)
  expected : Nat
  phase : Phase ρ ω
  submitted : List Nat
  finalized : List (Nat × Except String String)
  discarded : List Nat
  dropped : List Nat

variable {ρ ω : Type}

/-- A panic becomes an error of the stream. -/
def runStreamCatching : StreamEnd ω → Option (Except String ω)
  | .returned result => some result
  | .panicked msg => some (.error ("flush stream task panicked: " ++ msg))
  | .elapsed => none

/-- What a stream task submits when it is not dropped. -/
def streamResult (timeout : String) (seq : Nat) (e : StreamEnd ω) : Except String ω :=
  match runStreamCatching e with
  | some result => result
  | none =>
    .error ("flush stream timed out after " ++ timeout ++ " (seq " ++ toString seq ++ ")")

namespace Coordinator

def new (maxPendingFlushes : Nat) (streamTimeout : String) : Coordinator ρ ω where
  permits := max maxPendingFlushes 1
  nextSeq := 0
  pendingCount := 0
  flushFailures := 0
  lastFlushError := none
  streamTimeout := streamTimeout
  submitTx := true
  channel := []
  guards := ∅
  pending := []
  expected := 0
  phase := .receiving
  submitted := []
  finalized := []
  discarded := []
  dropped := []

/-- Hand a flush to the finalizer. Once the channel is closed the flush is
    thrown away, which gives its permit back. -/
def submit (c : Coordinator ρ ω) (seq : Nat) (rotated : ρ) (result : Except String ω) :
    Coordinator ρ ω :=
  if c.submitTx then
    { c with
      channel := c.channel ++ [⟨seq, rotated, result⟩]
      submitted := c.submitted ++ [seq] }
  else
    { c with
      pendingCount := c.pendingCount - 1
      permits := c.permits + 1
      discarded := c.discarded ++ [seq] }

/-- Rotate under the flush lock, and spawn the stream task with its guard. -/
def rotate (c : Coordinator ρ ω) (rotated : ρ) : Option (Coordinator ρ ω) :=
  if c.permits = 0 then none
  else some { c with
    permits := c.permits - 1
    nextSeq := c.nextSeq + 1
    pendingCount := c.pendingCount + 1
    guards := c.guards.insert c.nextSeq ⟨c.nextSeq, some rotated⟩ }

end Coordinator

namespace FlushSeqGuard

/-- Take the flush back, which leaves the guard disarmed. -/
def disarm (g : FlushSeqGuard ρ) : Option (ρ × FlushSeqGuard ρ) :=
  g.rotated.map fun rotated => (rotated, { g with rotated := none })

/-- The destructor: a guard that is still armed submits a failure. -/
def drop (g : FlushSeqGuard ρ) (c : Coordinator ρ ω) : Coordinator ρ ω :=
  match g.rotated with
  | none => c
  | some rotated => c.submit g.seq rotated
      (.error ("flush stream task dropped before completion (seq " ++ toString g.seq ++ ")"))

end FlushSeqGuard

namespace Coordinator

variable (c : Coordinator ρ ω)

/-- The stream task runs to its end: it disarms its guard and submits. -/
def streamEnds (seq : Nat) (e : StreamEnd ω) : Option (Coordinator ρ ω) :=
  (c.guards.lookup seq).bind fun g => g.disarm.map fun d =>
    let c' := { c with guards := c.guards.erase seq }
    (d.2.drop c').submit g.seq d.1 (streamResult c.streamTimeout g.seq e)

/-- The stream task is dropped, and its guard with it. -/
def streamDropped (seq : Nat) : Option (Coordinator ρ ω) :=
  (c.guards.lookup seq).map fun g => g.drop { c with guards := c.guards.erase seq }

def closeSubmitChannel : Coordinator ρ ω :=
  { c with submitTx := false }

/-- The outer loop takes the next submission into the buffer, or ends when the
    channel is closed and empty; what is in the buffer then is dropped. -/
def recv : Option (Coordinator ρ ω) :=
  match c.phase, c.channel with
  | .receiving, s :: rest => some { c with
      channel := rest
      pending := c.pending.orderedInsert (·.seq ≤ ·.seq) s
      phase := .reordering }
  | .receiving, [] =>
    if c.submitTx then none
    else some { c with
      permits := c.permits + c.pending.length
      pending := []
      phase := .exited
      dropped := c.dropped ++ c.pending.map FlushSubmit.seq }
  | _, _ => none

/-- The inner loop looks at the smallest number in the buffer. -/
def peek : Option (Coordinator ρ ω) :=
  match c.phase, c.pending with
  | .reordering, s :: rest =>
    if s.seq = c.expected then some { c with pending := rest, phase := .finalizing s }
    else some { c with phase := .receiving }
  | .reordering, [] => some { c with phase := .receiving }
  | _, _ => none

/-- The finalization of the submission in hand returns: `published` is what
    `finalize` answers, and `err` is what `finalize_failure` answers. -/
def finalizeOne (published : Except String String) (err : String) :
    Option (Coordinator ρ ω) :=
  match c.phase with
  | .finalizing s =>
    let done (c : Coordinator ρ ω) (ack : Except String String) := { c with
      permits := c.permits + 1
      pendingCount := c.pendingCount - 1
      expected := c.expected + 1
      phase := .reordering
      finalized := c.finalized ++ [(s.seq, ack)] }
    match s.result with
    | .ok _ => some (done c published)
    | .error cause => some (done { c with
        lastFlushError := some cause
        flushFailures := c.flushFailures + 1 } (.error ("flush stream failed: " ++ err)))
  | _ => none

end Coordinator

/-- The steps of the writers, of the stream tasks, and of the finalizer. -/
inductive Action (ρ ω : Type)
  | rotate (rotated : ρ)
  | streamEnds (seq : Nat) (e : StreamEnd ω)
  | streamDropped (seq : Nat)
  | closeSubmitChannel
  | recv
  | peek
  | finalizeOne (published : Except String String) (err : String)

/-- The finalizer's own steps. -/
def Action.IsFinalizer : Action ρ ω → Prop
  | .recv | .peek | .finalizeOne _ _ => True
  | _ => False

def step (c : Coordinator ρ ω) : Action ρ ω → Option (Coordinator ρ ω)
  | .rotate rotated => c.rotate rotated
  | .streamEnds seq e => c.streamEnds seq e
  | .streamDropped seq => c.streamDropped seq
  | .closeSubmitChannel => some c.closeSubmitChannel
  | .recv => c.recv
  | .peek => c.peek
  | .finalizeOne published err => c.finalizeOne published err

namespace Coordinator

variable (c : Coordinator ρ ω)

/-- The number that is being finalized. -/
def inHand : List Nat :=
  match c.phase with
  | .finalizing s => [s.seq]
  | _ => []

/-- The finalizer has nothing to do: it waits on an empty channel, or is gone. -/
def Idle : Prop :=
  (c.phase = .receiving ∨ c.phase = .exited) ∧ c.channel = []

/-- A bound on the steps the finalizer can take by itself. -/
def work : Nat :=
  4 * c.channel.length + 2 * c.pending.length + match c.phase with
    | .exited => 0
    | .receiving => 1
    | .reordering => 2
    | .finalizing _ => 3

end Coordinator

open Coordinator

/-- The invariant of a coordinator with `slots` permits. -/
structure Ordered (slots : Nat) (c : Coordinator ρ ω) : Prop where
  /-- A rotated number is held by a guard, or was submitted, or thrown away. -/
  one_place : ∀ n, c.guards.keys.count n + c.submitted.count n + c.discarded.count n =
    if n < c.nextSeq then 1 else 0
  submitted_place : ∀ n, c.submitted.count n =
    (c.channel.map FlushSubmit.seq).count n + (c.pending.map FlushSubmit.seq).count n +
      c.inHand.count n + (c.finalized.map fst).count n + c.dropped.count n
  finalized_eq : c.finalized.map fst = List.range c.expected
  inHand_eq : ∀ n ∈ c.inHand, n = c.expected
  sorted : c.pending.Pairwise (·.seq ≤ ·.seq)
  receiving_ne : c.phase = .receiving → ∀ s ∈ c.pending, s.seq ≠ c.expected
  /-- Only an exited finalizer has dropped something. -/
  dropped_eq : c.phase ≠ .exited → c.dropped = []
  dropped_ne : c.expected ∉ c.dropped
  exited : c.phase = .exited → c.submitTx = false ∧ c.channel = [] ∧ c.pending = []
  armed : ∀ n g, c.guards.lookup n = some g → g.seq = n ∧ g.rotated.isSome
  discarded_eq : c.submitTx = true → c.discarded = []
  pendingCount_eq : c.pendingCount = c.guards.keys.length + c.channel.length +
    c.pending.length + c.inHand.length + c.dropped.length
  rotated_eq : c.pendingCount + c.finalized.length + c.discarded.length = c.nextSeq
  permits_eq : c.permits + c.guards.keys.length + c.channel.length + c.pending.length +
    c.inHand.length = slots

theorem new_ordered (maxPendingFlushes : Nat) (timeout : String) :
    Ordered (max maxPendingFlushes 1)
      (new maxPendingFlushes timeout : Coordinator ρ ω) := by
  constructor <;> simp [new, inHand]

namespace Ordered

variable {slots : Nat} {c c' : Coordinator ρ ω}

section

variable (h : Ordered slots c)

include h

theorem finalized_count (n : Nat) :
    (c.finalized.map fst).count n = if n < c.expected then 1 else 0 := by
  rw [h.finalized_eq]
  by_cases hn : n < c.expected
  · rw [if_pos hn]
    exact count_eq_one_of_mem nodup_range (mem_range.mpr hn)
  · rw [if_neg hn, count_eq_zero, mem_range]
    exact hn

theorem finalized_length : c.finalized.length = c.expected := by
  rw [← length_map fst, h.finalized_eq, length_range]

/-- The buffer holds no number that has been finalized. -/
theorem expected_le {s : FlushSubmit ρ ω} (hs : s ∈ c.pending) : c.expected ≤ s.seq := by
  have hpos : 0 < (c.pending.map FlushSubmit.seq).count s.seq :=
    count_pos_iff.mpr (mem_map_of_mem hs)
  have hone := h.one_place s.seq
  have hplace := h.submitted_place s.seq
  have hfin := h.finalized_count s.seq
  by_contra hlt
  rw [if_pos (by omega)] at hfin
  split at hone <;> omega

theorem rotate {r : ρ} (hs : c.rotate r = some c') : Ordered slots c' := by
  unfold Coordinator.rotate at hs
  split at hs
  · cases hs
  · rename_i hpermit
    obtain rfl := some.inj hs
    -- the new number is nowhere yet
    have hnew := h.one_place c.nextSeq
    rw [if_neg (lt_irrefl _)] at hnew
    have hnot : c.nextSeq ∉ c.guards.keys := count_eq_zero.mp (by omega)
    have hkeys : (c.guards.insert c.nextSeq ⟨c.nextSeq, some r⟩).keys =
        c.nextSeq :: c.guards.keys := by
      rw [keys_insert, erase_of_not_mem hnot]
    have hpending := h.pendingCount_eq
    have hrotated := h.rotated_eq
    have hpermits := h.permits_eq
    refine { h with
      one_place := ?_, armed := ?_, pendingCount_eq := ?_, rotated_eq := ?_, permits_eq := ?_ }
    · intro n
      have hn := h.one_place n
      simp only [hkeys, count_cons, beq_iff_eq]
      by_cases heq : c.nextSeq = n
      · subst heq
        simp only [if_true, Nat.lt_succ_self]
        omega
      · rw [if_neg heq]
        split at hn <;> split <;> omega
    · intro n g hg
      rcases lookup_insert_cases hg with ⟨rfl, rfl⟩ | ⟨-, hg⟩
      · exact ⟨rfl, rfl⟩
      · exact h.armed n g hg
    · simp only [hkeys, length_cons, Coordinator.inHand] at hpending ⊢
      omega
    · simp only
      omega
    · simp only [hkeys, length_cons, Coordinator.inHand] at hpermits ⊢
      omega

variable {seq : Nat}

/-- Submitting the number of a guard, and giving up the guard. -/
theorem submit (hmem : seq ∈ c.guards.keys) (r : ρ) (result : Except String ω) :
    Ordered slots ({ c with guards := c.guards.erase seq }.submit seq r result) := by
  have hlen := length_erase_of_mem hmem
  have hpos := length_pos_of_mem hmem
  -- the number leaves the guards for another place
  have hmoved : ∀ n, (c.guards.keys.erase seq).count n + [seq].count n =
      c.guards.keys.count n := by
    intro n
    rw [(perm_cons_erase hmem).count_eq n, count_cons, count_cons, count_nil, Nat.zero_add]
  have harmed : ∀ n g, (c.guards.erase seq).lookup n = some g → g.seq = n ∧ g.rotated.isSome :=
    fun n g hg => h.armed n g (lookup_of_erase hg).2
  have hpending := h.pendingCount_eq
  have hrotated := h.rotated_eq
  have hpermits := h.permits_eq
  unfold Coordinator.submit
  by_cases hopen : c.submitTx = true
  · rw [if_pos hopen]
    refine { h with
      one_place := ?_, submitted_place := ?_, exited := ?_, armed := harmed,
      pendingCount_eq := ?_, permits_eq := ?_ }
    · intro n
      have hn := h.one_place n
      have hm := hmoved n
      simp only [keys_erase, count_append]
      omega
    · intro n
      have hn := h.submitted_place n
      simp only [map_append, map_cons, map_nil, count_append, hn, Coordinator.inHand]
      omega
    · intro hex
      rw [(h.exited hex).1] at hopen
      exact absurd hopen Bool.false_ne_true
    · simp only [keys_erase, hlen, length_append, length_singleton,
        Coordinator.inHand] at hpending ⊢
      omega
    · simp only [keys_erase, hlen, length_append, length_singleton,
        Coordinator.inHand] at hpermits ⊢
      omega
  · rw [if_neg hopen]
    refine { h with
      one_place := ?_, armed := harmed, discarded_eq := fun htx => absurd htx hopen,
      pendingCount_eq := ?_, rotated_eq := ?_, permits_eq := ?_ }
    · intro n
      have hn := h.one_place n
      have hm := hmoved n
      simp only [keys_erase, count_append]
      omega
    · simp only [keys_erase, hlen, Coordinator.inHand] at hpending ⊢
      omega
    · simp only [length_append, length_singleton]
      omega
    · simp only [keys_erase, hlen, Coordinator.inHand] at hpermits ⊢
      omega

theorem streamEnds {e : StreamEnd ω} (hs : c.streamEnds seq e = some c') :
    Ordered slots c' := by
  unfold Coordinator.streamEnds at hs
  cases hg : c.guards.lookup seq with
  | none => simp [hg] at hs
  | some g =>
    rcases h.armed seq g hg with ⟨rfl, harmed⟩
    rcases isSome_iff_exists.mp harmed with ⟨r, hr⟩
    -- dropping the disarmed guard does nothing
    simp only [hg, bind_some, FlushSeqGuard.disarm, hr, map_some,
      FlushSeqGuard.drop, some.injEq] at hs
    subst hs
    exact h.submit (mem_keys.mp (mem_of_lookup hg)) r _

theorem streamDropped (hs : c.streamDropped seq = some c') : Ordered slots c' := by
  unfold Coordinator.streamDropped at hs
  cases hg : c.guards.lookup seq with
  | none => simp [hg] at hs
  | some g =>
    rcases h.armed seq g hg with ⟨rfl, harmed⟩
    rcases isSome_iff_exists.mp harmed with ⟨r, hr⟩
    simp only [hg, map_some, FlushSeqGuard.drop, hr, some.injEq] at hs
    subst hs
    exact h.submit (mem_keys.mp (mem_of_lookup hg)) r _

theorem closeSubmitChannel : Ordered slots c.closeSubmitChannel :=
  { h with
    exited := fun hex => ⟨rfl, (h.exited hex).2⟩
    discarded_eq := fun htx => absurd htx Bool.false_ne_true }

end

theorem orderedInsert_sorted {pending : List (FlushSubmit ρ ω)}
    (h : pending.Pairwise (·.seq ≤ ·.seq)) (s : FlushSubmit ρ ω) :
    (pending.orderedInsert (·.seq ≤ ·.seq) s).Pairwise (·.seq ≤ ·.seq) := by
  have : Std.Total (fun a b : FlushSubmit ρ ω => a.seq ≤ b.seq) := ⟨fun a b => Nat.le_total _ _⟩
  have : IsTrans (FlushSubmit ρ ω) (fun a b => a.seq ≤ b.seq) := ⟨fun _ _ _ => le_trans⟩
  exact List.Pairwise.orderedInsert s pending h

section

variable (h : Ordered slots c)

include h

theorem recv (hs : c.recv = some c') : Ordered slots c' := by
  have hpending := h.pendingCount_eq
  have hpermits := h.permits_eq
  unfold Coordinator.recv at hs
  split at hs
  · rename_i s rest hphase hchannel
    obtain rfl := some.inj hs
    have hperm := perm_orderedInsert (fun a b : FlushSubmit ρ ω => a.seq ≤ b.seq) s c.pending
    have hinHand : c.inHand = [] := by simp only [Coordinator.inHand, hphase]
    rw [hinHand, hchannel, length_cons, length_nil] at hpending hpermits
    -- a submission goes from the channel into the buffer, which stays sorted
    refine { h with
      submitted_place := ?_, inHand_eq := nofun,
      sorted := orderedInsert_sorted h.sorted s, receiving_ne := nofun,
      dropped_eq := fun _ => h.dropped_eq (by simp [hphase]), exited := nofun,
      pendingCount_eq := ?_, permits_eq := ?_ }
    · intro n
      have hn := h.submitted_place n
      have hcount := (hperm.map FlushSubmit.seq).count_eq n
      rw [map_cons, count_cons] at hcount
      rw [hinHand, hchannel, map_cons, count_cons] at hn
      simp only [hcount, Coordinator.inHand]
      omega
    all_goals
      simp only [hperm.length_eq, length_cons, Coordinator.inHand, length_nil]
      omega
  · rename_i hphase hchannel
    split at hs
    · cases hs
    · rename_i hclosed
      obtain rfl := some.inj hs
      -- the channel is closed and empty: what is buffered is dropped
      have hinHand : c.inHand = [] := by simp only [Coordinator.inHand, hphase]
      rw [hinHand, length_nil] at hpending hpermits
      refine { h with
        submitted_place := ?_, inHand_eq := nofun,
        sorted := List.Pairwise.nil, receiving_ne := nofun,
        dropped_eq := fun hr => absurd rfl hr, dropped_ne := ?_,
        exited := fun _ => ⟨Bool.eq_false_iff.mpr hclosed, hchannel, rfl⟩,
        pendingCount_eq := ?_, permits_eq := ?_ }
      · intro n
        have hn := h.submitted_place n
        rw [hinHand] at hn
        simp only [count_append, Coordinator.inHand, map_nil, count_nil] at hn ⊢
        omega
      · -- the finalizer was waiting, so the buffer does not have the expected number
        intro hmem
        rcases mem_append.mp hmem with hold | hnew
        · exact h.dropped_ne hold
        · rcases mem_map.mp hnew with ⟨s, hs, heq⟩
          exact h.receiving_ne hphase s hs heq
      · simp only [length_append, length_map, length_nil, Coordinator.inHand]
        omega
      · simp only [length_nil, Coordinator.inHand]
        omega
  · cases hs

/-- The inner loop ends when the expected number is not in the buffer. -/
theorem waits (hphase : c.phase = .reordering) (hne : ∀ s ∈ c.pending, s.seq ≠ c.expected) :
    Ordered slots { c with phase := .receiving } := by
  have hinHand : c.inHand = [] := by simp only [inHand, hphase]
  have hplace := h.submitted_place
  have hpending := h.pendingCount_eq
  have hpermits := h.permits_eq
  rw [hinHand] at hplace hpending hpermits
  exact { h with
    submitted_place := hplace
    inHand_eq := nofun
    receiving_ne := fun _ => hne
    dropped_eq := fun _ => h.dropped_eq (by simp [hphase])
    exited := nofun
    pendingCount_eq := hpending
    permits_eq := hpermits }

theorem peek (hs : c.peek = some c') : Ordered slots c' := by
  unfold Coordinator.peek at hs
  split at hs
  · rename_i s rest hphase hbuffer
    have hsorted := h.sorted
    rw [hbuffer, pairwise_cons] at hsorted
    split at hs
    · rename_i heq
      obtain rfl := some.inj hs
      have hinHand : c.inHand = [] := by simp only [Coordinator.inHand, hphase]
      have hpending := h.pendingCount_eq
      have hpermits := h.permits_eq
      rw [hinHand, hbuffer, length_cons, length_nil] at hpending hpermits
      refine { h with
        submitted_place := ?_, inHand_eq := fun n hn => (mem_singleton.mp hn).trans heq,
        sorted := hsorted.2, receiving_ne := nofun,
        dropped_eq := fun _ => h.dropped_eq (by simp [hphase]), exited := nofun,
        pendingCount_eq := ?_, permits_eq := ?_ }
      · intro n
        have hn := h.submitted_place n
        rw [hinHand, hbuffer, map_cons, count_cons, count_nil] at hn
        simp only [Coordinator.inHand, count_singleton]
        omega
      all_goals
        simp only [Coordinator.inHand, length_singleton]
        omega
    · rename_i hne
      obtain rfl := some.inj hs
      refine h.waits hphase ?_
      -- the first number is above the expected one, and no other is below the first
      have hlt := h.expected_le (hbuffer ▸ mem_cons_self)
      intro t ht
      rw [hbuffer] at ht
      rcases mem_cons.mp ht with rfl | hrest
      · exact hne
      · have hle := hsorted.1 t hrest
        omega
  · rename_i hphase hbuffer
    obtain rfl := some.inj hs
    refine h.waits hphase ?_
    rw [hbuffer]
    exact nofun
  · cases hs

/-- The end of a finalization keeps the invariant, whatever it answers. -/
theorem finalized {s : FlushSubmit ρ ω} (hphase : c.phase = .finalizing s) (failures : Nat)
    (lastError : Option String) (ack : Except String String) :
    Ordered slots { c with
      permits := c.permits + 1
      pendingCount := c.pendingCount - 1
      flushFailures := failures
      lastFlushError := lastError
      expected := c.expected + 1
      phase := .reordering
      finalized := c.finalized ++ [(s.seq, ack)] } := by
  have hinHand : c.inHand = [s.seq] := by simp only [inHand, hphase]
  have hseq : s.seq = c.expected := h.inHand_eq s.seq (hinHand ▸ mem_singleton_self _)
  have hdropped : c.dropped = [] := h.dropped_eq (by simp [hphase])
  have hpending := h.pendingCount_eq
  have hrotated := h.rotated_eq
  have hpermits := h.permits_eq
  rw [hinHand, length_singleton] at hpending hpermits
  refine { h with
    submitted_place := ?_, finalized_eq := ?_, inHand_eq := nofun,
    receiving_ne := nofun, dropped_eq := fun _ => hdropped,
    dropped_ne := hdropped ▸ not_mem_nil, exited := nofun,
    pendingCount_eq := ?_, rotated_eq := ?_, permits_eq := ?_ }
  · intro n
    have hn := h.submitted_place n
    rw [hinHand] at hn
    simp only [map_append, map_cons, map_nil, count_append, inHand, count_nil]
    omega
  · simp only [map_append, h.finalized_eq, map_cons, map_nil, hseq, range_succ]
  · simp only [inHand, length_nil]
    omega
  · simp only [length_append, length_singleton]
    omega
  · simp only [inHand, length_nil]
    omega

theorem finalizeOne {published : Except String String} {err : String}
    (hs : c.finalizeOne published err = some c') : Ordered slots c' := by
  unfold Coordinator.finalizeOne at hs
  split at hs
  · rename_i s hphase
    split at hs
    · obtain rfl := some.inj hs
      exact h.finalized hphase _ _ published
    · obtain rfl := some.inj hs
      exact h.finalized hphase _ _ _
  · cases hs

/-- While the finalizer is idle, its buffer does not have the number it expects. -/
theorem pending_ne_of_idle (hidle : c.Idle) : ∀ s ∈ c.pending, s.seq ≠ c.expected := by
  rcases hidle.1 with hphase | hphase
  · exact h.receiving_ne hphase
  · rw [(h.exited hphase).2.2]
    exact nofun

theorem expected_notMem_of_idle (hidle : c.Idle) : c.expected ∉ c.submitted := by
  have hplace := h.submitted_place c.expected
  have hfin := h.finalized_count c.expected
  rw [if_neg (lt_irrefl _)] at hfin
  have hdropped := count_eq_zero.mpr h.dropped_ne
  have hbuffer : (c.pending.map FlushSubmit.seq).count c.expected = 0 := by
    rw [count_eq_zero]
    intro hmem
    rcases mem_map.mp hmem with ⟨s, hs, heq⟩
    exact h.pending_ne_of_idle hidle s hs heq
  have hinHand : c.inHand = [] := by
    rcases hidle.1 with hphase | hphase <;> simp only [inHand, hphase]
  rw [hidle.2, hinHand, map_nil, count_nil] at hplace
  exact count_eq_zero.mp (by omega)

/-- An idle finalizer has finalized everything whose turn has come. -/
theorem lt_expected_of_idle (hidle : c.Idle) {m : Nat} (hm : ∀ n ≤ m, n ∈ c.submitted) :
    m < c.expected := by
  by_contra hle
  exact h.expected_notMem_of_idle hidle (hm c.expected (by omega))

theorem submitted_nodup : c.submitted.Nodup := by
  rw [nodup_iff_count_le_one]
  intro n
  have hn := h.one_place n
  split at hn <;> omega

theorem mem_submitted_of_lt {n : Nat} (hn : n < c.expected) : n ∈ c.submitted := by
  have hplace := h.submitted_place n
  have hfin := h.finalized_count n
  rw [if_pos hn] at hfin
  exact count_pos_iff.mp (by omega)

/-- When every stream has ended, and none of them after the channel was closed,
    an idle finalizer has finalized every number. -/
theorem expected_eq_of_idle (hidle : c.Idle) (hguards : c.guards.keys = [])
    (hdiscarded : c.discarded = []) : c.expected = c.nextSeq := by
  have hexp := h.one_place c.expected
  have hcount := count_eq_zero.mpr (h.expected_notMem_of_idle hidle)
  rw [hguards, hdiscarded, hcount] at hexp
  have hge : c.nextSeq ≤ c.expected := by
    by_contra hlt
    rw [if_pos (by omega)] at hexp
    simp at hexp
  have hrotated := h.rotated_eq
  have hlen := h.finalized_length
  omega

end

end Ordered

theorem step_ordered {slots : Nat} (c : Coordinator ρ ω) (a : Action ρ ω) (c' : Coordinator ρ ω)
    (h : Ordered slots c) (hs : step c a = some c') : Ordered slots c' := by
  cases a with
  | rotate => exact h.rotate hs
  | streamEnds => exact h.streamEnds hs
  | streamDropped => exact h.streamDropped hs
  | closeSubmitChannel => exact some.inj hs ▸ h.closeSubmitChannel
  | recv => exact h.recv hs
  | peek => exact h.peek hs
  | finalizeOne => exact h.finalizeOne hs

/-- Every step of the finalizer uses up work, so it comes to rest between submissions. -/
theorem step_work_lt (c : Coordinator ρ ω) (a : Action ρ ω) (c' : Coordinator ρ ω)
    (ha : a.IsFinalizer) (hs : step c a = some c') : c'.work < c.work := by
  cases a with
  | rotate | streamEnds | streamDropped | closeSubmitChannel => exact ha.elim
  | recv =>
    simp only [step, recv] at hs
    split at hs
    · rename_i s rest hphase hchannel
      obtain rfl := some.inj hs
      simp only [work, hphase, hchannel, length_cons, orderedInsert_length]
      omega
    · rename_i hphase hchannel
      split at hs
      · cases hs
      · obtain rfl := some.inj hs
        simp only [work, hphase, hchannel, length_nil]
        omega
    · cases hs
  | peek =>
    simp only [step, peek] at hs
    split at hs
    · rename_i s rest hphase hbuffer
      split at hs
      · obtain rfl := some.inj hs
        simp only [work, hphase, hbuffer, length_cons]
        omega
      · obtain rfl := some.inj hs
        simp only [work, hphase]
        omega
    · rename_i hphase hbuffer
      obtain rfl := some.inj hs
      simp only [work, hphase]
      omega
    · cases hs
  | finalizeOne =>
    simp only [step, finalizeOne] at hs
    split at hs
    · rename_i s hphase
      split at hs
      all_goals
        obtain rfl := some.inj hs
        simp only [work, hphase]
        omega
    · cases hs

theorem idle_of_stuck {slots : Nat} {c : Coordinator ρ ω} (h : Ordered slots c)
    (hstuck : ∀ a : Action ρ ω, a.IsFinalizer → step c a = none) : c.Idle := by
  cases hphase : c.phase with
  | receiving =>
    have hrecv := hstuck .recv trivial
    cases hchannel : c.channel with
    | nil => exact ⟨.inl hphase, hchannel⟩
    | cons => simp [step, recv, hphase, hchannel] at hrecv
  | reordering =>
    have hpeek := hstuck .peek trivial
    cases hbuffer : c.pending with
    | nil => simp [step, peek, hphase, hbuffer] at hpeek
    | cons =>
      simp only [step, peek, hphase, hbuffer] at hpeek
      split at hpeek <;> cases hpeek
  | finalizing =>
    have hfin := hstuck (.finalizeOne (.error "") "") trivial
    simp only [step, finalizeOne, hphase] at hfin
    split at hfin <;> cases hfin
  | exited => exact ⟨.inr hphase, (h.exited hphase).2.1⟩

/-- In every state of every run, whatever the order in which the streams end and
    however they end:

    the numbers that were finalized are the first `expected` rotated ones, each
    once and in rotate order, and each of them was submitted;
    the finalizer's own steps come to an end, and when it can take none it is
    idle; then every number was finalized that was submitted together with all
    smaller ones, and of everything left in the buffer a smaller number is
    missing, and if no guard is left and none was submitted too late then all
    rotated numbers are finalized;
    `pendingCount` is the number of rotations without the finalizations, and
    without the submissions after the channel was closed. -/
theorem finalizes_in_rotate_order (maxPendingFlushes : Nat) (timeout : String)
    (acts : List (Action ρ ω)) (c : Coordinator ρ ω)
    (hrun : run step (new maxPendingFlushes timeout) acts = some c) :
    c.finalized.map fst = List.range c.expected ∧
    c.submitted.Nodup ∧ (∀ n < c.expected, n ∈ c.submitted) ∧
    (∀ as c', (∀ a ∈ as, a.IsFinalizer) → run step c as = some c' → as.length ≤ c.work) ∧
    ((∀ a : Action ρ ω, a.IsFinalizer → step c a = none) → c.Idle) ∧
    (c.Idle →
      (∀ m, (∀ n ≤ m, n ∈ c.submitted) → m < c.expected) ∧
      (∀ s ∈ c.pending, ∃ n < s.seq, n ∉ c.submitted) ∧
      (c.guards.keys = [] → c.discarded = [] → c.finalized.map fst = List.range c.nextSeq)) ∧
    c.pendingCount + c.finalized.length + c.discarded.length = c.nextSeq ∧
    (c.submitTx = true → c.discarded = []) := by
  have h := run_invariant step_ordered (new_ordered ..) hrun
  refine ⟨h.finalized_eq, h.submitted_nodup, fun n => h.mem_submitted_of_lt, ?_, idle_of_stuck h,
    ?_, h.rotated_eq, h.discarded_eq⟩
  · intro as c' has hrun'
    have hle := run_length_add_le work step_work_lt has hrun'
    omega
  · intro hidle
    refine ⟨fun m => h.lt_expected_of_idle hidle, ?_, ?_⟩
    · intro s hs
      have hle := h.expected_le hs
      have hne := h.pending_ne_of_idle hidle s hs
      exact ⟨c.expected, by omega, h.expected_notMem_of_idle hidle⟩
    · intro hguards hdiscarded
      rw [← h.expected_eq_of_idle hidle hguards hdiscarded]
      exact h.finalized_eq

/-- Three flushes: the streams end in the order 2, 0, 1, and that of 1 is dropped. -/
def reversedStreams : List (Action Unit Unit) :=
  [.rotate (), .rotate (), .rotate (), .streamEnds 2 (.returned (.ok ())),
    .streamEnds 0 (.returned (.ok ())), .recv, .peek, .recv, .peek, .finalizeOne (.ok "a") "",
    .peek, .streamDropped 1, .recv, .peek, .finalizeOne (.ok "") "dropped", .peek,
    .finalizeOne (.ok "c") "", .peek]

theorem finalizes_in_rotate_order_reversedStreams :
    ∃ c : Coordinator Unit Unit, run step (new 4 "60s") reversedStreams = some c ∧
      c.finalized.map fst = [0, 1, 2] ∧ c.finalized.map fst = List.range c.expected :=
  ⟨_, rfl, rfl, (finalizes_in_rotate_order 4 "60s" reversedStreams _ rfl).1⟩

/-- A flush is pending from its rotation on, while its stream still runs. -/
theorem pendingCount_ne_submitted_sub_finalized :
    ∃ c : Coordinator Unit Unit, run step (new 1 "60s") [.rotate ()] = some c ∧
      c.pendingCount = 1 ∧ c.submitted.length - c.finalized.length = 0 :=
  ⟨_, rfl, rfl, rfl⟩

end FlushCoordinator

end UniDb
