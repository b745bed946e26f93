import Mathlib.Data.List.Range
import Mathlib.Data.Nat.Basic
import UniDb.Lib.AssocMap
import UniDb.Lib.Run

/-!
# The Publish Sequencer

Commit announcements leave in commit order, although the post-commit work that
builds them finishes in any order.

A ticket is issued under the writer's flush lock, so ticket order is commit
order. Completing a ticket, by publishing it or by dropping it, buffers its
announcement in `ready`; `complete` then releases every announcement that is
due, which is the longest run of buffered slots starting at `next`. Releasing a
slot that carries a WAL LSN raises the announced mark to that LSN.

Every operation runs under the sequencer's lock, so an interleaving of ticket
holders is a run of the actions below in any order. A drop during unwinding is
the same call as any other drop.

The loop of `complete` is given as many rounds as there are buffered slots.
Each round takes one slot out of the buffer, so the loop never stops early:
`releaseDue_done` is the proof.

## Main definitions

* `PublishSequencer.complete`: Record a slot as complete and release what is due.
* `PublishTicket.publish`, `PublishTicket.drop`: The two ways a ticket ends.
* `System`: A sequencer with the tickets that are still held.
* `Ordered`: The invariant of the sequencer over its whole life.

## Theorems

* `complete_ordered`: Completing a held ticket keeps the invariant.
* `step_ok`: Every action keeps the invariant.
* `isDrained_iff`: The sequencer is drained when no ticket is held.
* `releases_in_order_exactly_once`: What holds in every state of every run.
* `announced_not_le_publishedLsns`: Dropped tickets raise the mark as well.
-/

namespace UniDb

open AList AssocMap List

namespace Publish

/-- What the sequencer's lock protects. Slots in `ready` are complete and not
    yet released, each with its announcement, if it has one, and its LSN. -/
structure State (α : Type) where
  /-- Sequence number the next issued ticket gets. -/
  issued : Nat
  /-- Sequence number of the next announcement to release. -/
  next : Nat
  ready : AssocMap Nat (Option α × Nat)
  /-- LSN of each issued ticket that carries one and is not complete. -/
  lsns : AssocMap Nat Nat

/-- The sequencer, with the announcements it has released so far, oldest
    first. An announcement is a value of `α` where the source has a closure. -/
structure PublishSequencer (α : Type) where
  state : State α
  announced : Nat
  releases : List (Nat × Option α)

/-- A commit's place in the announcement order. -/
structure PublishTicket (α : Type) where
  seq : Nat
  completed : Bool
  abandoned : Option α

variable {α : Type}

namespace PublishSequencer

/-- A sequencer that raises a mark which stands at `announced` already. -/
def withAnnouncedMark (announced : Nat) : PublishSequencer α where
  state := { issued := 0, next := 0, ready := ∅, lsns := ∅ }
  announced := announced
  releases := []

variable (q : PublishSequencer α)

def issueAt (lsn : Nat) : PublishSequencer α × PublishTicket α :=
  let seq := q.state.issued
  -- a commit that is not in the log has no number to announce
  let lsns := if 0 < lsn then q.state.lsns.insert seq lsn else q.state.lsns
  ({ q with state := { q.state with issued := seq + 1, lsns := lsns } },
    { seq := seq, completed := false, abandoned := none })

/-- The ticket of a commit that is not in the write-ahead log. -/
def issue : PublishSequencer α × PublishTicket α :=
  q.issueAt 0

def announcedLsn : Nat := q.announced

def isDrained : Bool :=
  q.state.next == q.state.issued

/-- One round of the release loop: the slot `next` goes out, and the mark is
    raised once its announcement has run. -/
def releaseOne (entry : Option α) (lsn : Nat) : PublishSequencer α where
  state := { q.state with
    next := q.state.next + 1
    ready := q.state.ready.erase q.state.next }
  announced := if 0 < lsn then max q.announced lsn else q.announced
  releases := q.releases ++ [(q.state.next, entry)]

/-- The release loop, for at most `fuel` rounds. -/
def releaseDue : Nat → PublishSequencer α → PublishSequencer α
  | 0, q => q
  | fuel + 1, q => match q.state.ready.lookup q.state.next with
    | none => q
    | some (entry, lsn) => releaseDue fuel (q.releaseOne entry lsn)

/-- Move a slot from the unfinished ones to the buffer. -/
def buffer (seq : Nat) (announcement : Option α) :
    PublishSequencer α :=
  let lsn := (q.state.lsns.lookup seq).getD 0
  { q with state := { q.state with
      lsns := q.state.lsns.erase seq
      ready := q.state.ready.insert seq (announcement, lsn) } }

/-- Record `seq` as complete and release every announcement now due. -/
def complete (seq : Nat) (announcement : Option α) :
    PublishSequencer α :=
  let buffered := q.buffer seq announcement
  -- each round takes one slot out of the buffer
  releaseDue buffered.state.ready.keys.length buffered

end PublishSequencer

open PublishSequencer

namespace PublishTicket

variable (t : PublishTicket α)

def onAbandon (announce : α) : PublishTicket α :=
  { t with abandoned := some announce }

/-- Dropping a ticket that was not published gives up its place. -/
def drop (q : PublishSequencer α) : PublishSequencer α :=
  if t.completed then q else q.complete t.seq t.abandoned

/-- Publishing consumes the ticket, so it is dropped when the call returns. -/
def publish (q : PublishSequencer α) (announce : α) :
    PublishSequencer α :=
  let t' := { t with completed := true, abandoned := none }
  t'.drop (q.complete t'.seq (some announce))

end PublishTicket

/-- A sequencer and the tickets still held, by sequence number. `lsnOf`,
    `published` and `outcome` record the past: the LSN each ticket was issued
    with, the tickets that were published, and what each finished ticket left
    to announce. -/
structure System (α : Type) where
  sequencer : PublishSequencer α
  tickets : AssocMap Nat (PublishTicket α)
  lsnOf : List Nat
  published : List Nat
  outcome : AssocMap Nat (Option α)

/-- The calls a ticket's issuer and holder can make. -/
inductive Action (α : Type)
  | issueAt (lsn : Nat)
  | onAbandon (seq : Nat) (announce : α)
  | publish (seq : Nat) (announce : α)
  | drop (seq : Nat)

def init (mark : Nat) : System α where
  sequencer := withAnnouncedMark mark
  tickets := ∅
  lsnOf := []
  published := []
  outcome := ∅

/-- One call. The calls on a ticket need the ticket to be held still. -/
def step (s : System α) : Action α → Option (System α)
  | .issueAt lsn =>
    let (q, t) := s.sequencer.issueAt lsn
    some { s with sequencer := q, tickets := s.tickets.insert t.seq t, lsnOf := s.lsnOf ++ [lsn] }
  | .onAbandon seq announce => (s.tickets.lookup seq).map fun t =>
    { s with tickets := s.tickets.insert seq (t.onAbandon announce) }
  | .publish seq announce => (s.tickets.lookup seq).map fun t =>
    { s with
      sequencer := t.publish s.sequencer announce
      tickets := s.tickets.erase seq
      published := s.published ++ [seq]
      outcome := s.outcome.insert seq (some announce) }
  | .drop seq => (s.tickets.lookup seq).map fun t =>
    { s with
      sequencer := t.drop s.sequencer
      tickets := s.tickets.erase seq
      outcome := s.outcome.insert seq t.abandoned }

/-- The invariant of a sequencer whose unfinished slots are those in `held`.
    Slots below `next` are released, in order; each slot from there up to
    `issued` is either held or buffered; and the mark is the largest LSN among
    the released ones, or what it started from. -/
structure Ordered (mark : Nat) (lsnOf : List Nat) (outcome : Nat → Option (Option α))
    (held : Nat → Prop) (q : PublishSequencer α) : Prop where
  issued_eq : q.state.issued = lsnOf.length
  next_le : q.state.next ≤ q.state.issued
  releases_fst : q.releases.map Prod.fst = List.range q.state.next
  releases_outcome : ∀ r ∈ q.releases, outcome r.1 = some r.2
  pending_iff : ∀ i, held i ∨ i ∈ q.state.ready ↔ q.state.next ≤ i ∧ i < q.state.issued
  ready_lsn : ∀ i a l, q.state.ready.lookup i = some (a, l) →
    lsnOf.getD i 0 = l ∧ outcome i = some a
  held_lsn : ∀ i, held i → lsnOf.getD i 0 = (q.state.lsns.lookup i).getD 0
  held_notMem : ∀ i, held i → i ∉ q.state.ready
  lsns_lt : ∀ i, q.state.issued ≤ i → q.state.lsns.lookup i = none
  announced_eq : q.announced = (q.releases.map fun r => lsnOf.getD r.1 0).foldl max mark

namespace Ordered

variable {mark : Nat} {lsnOf : List Nat} {outcome : Nat → Option (Option α)} {held : Nat → Prop}
  {q : PublishSequencer α}

section

variable (h : Ordered mark lsnOf outcome held q)

include h

theorem release_lt {r : Nat × Option α} (hr : r ∈ q.releases) : r.1 < q.state.next := by
  rw [← mem_range, ← h.releases_fst]
  exact mem_map_of_mem hr

/-- One round of the loop keeps the invariant. -/
theorem releaseOne {entry : Option α} {lsn : Nat}
    (hr : q.state.ready.lookup q.state.next = some (entry, lsn)) :
    Ordered mark lsnOf outcome held (q.releaseOne entry lsn) := by
  have hmem : q.state.next ∈ q.state.ready := mem_of_lookup hr
  have hlt : q.state.next < q.state.issued := ((h.pending_iff _).mp (.inr hmem)).2
  rcases h.ready_lsn _ _ _ hr with ⟨hlsn, hout⟩
  constructor
  case issued_eq => exact h.issued_eq
  case next_le => exact hlt
  -- slots are released one by one, so the released numbers are the first ones
  case releases_fst =>
    simp only [PublishSequencer.releaseOne, map_append, h.releases_fst, range_succ,
      map_cons, map_nil]
  case releases_outcome =>
    intro r hrel
    simp only [PublishSequencer.releaseOne, mem_append, mem_singleton] at hrel
    rcases hrel with hold | rfl
    · exact h.releases_outcome r hold
    · exact hout
  case pending_iff =>
    intro i
    have hi := h.pending_iff i
    simp only [PublishSequencer.releaseOne, mem_erase]
    by_cases hin : i = q.state.next
    · -- the released slot is neither held nor buffered any more
      subst hin
      have hnot : ¬ held q.state.next := fun hheld => h.held_notMem _ hheld hmem
      simp only [hnot, ne_eq, not_true_eq_false, false_and, or_self, false_iff]
      omega
    · simp only [ne_eq, hin, not_false_eq_true, true_and, hi]
      omega
  case ready_lsn =>
    intro i a l hl
    simp only [PublishSequencer.releaseOne, lookup_erase_eq] at hl
    by_cases hin : i = q.state.next
    · simp [hin] at hl
    · rw [if_neg hin] at hl
      exact h.ready_lsn i a l hl
  case held_lsn => exact h.held_lsn
  case held_notMem =>
    intro i hi hmem'
    exact h.held_notMem i hi (mem_erase.mp hmem').2
  case lsns_lt => exact h.lsns_lt
  case announced_eq =>
    simp only [PublishSequencer.releaseOne, map_append, map_cons, map_nil,
      foldl_append, foldl_cons, foldl_nil, ← h.announced_eq, hlsn]
    split <;> omega

theorem releaseDue (fuel : Nat) :
    Ordered mark lsnOf outcome held (releaseDue fuel q) := by
  induction fuel generalizing q with
  | zero => exact h
  | succ n ih =>
    simp only [releaseDue]
    split
    · exact h
    · rename_i entry lsn hr
      exact ih (h.releaseOne hr)

end

end Ordered

/-- The loop is never cut short: with a round for each buffered slot, it ends
    because the next slot is not buffered. -/
theorem releaseDue_done (fuel : Nat) (q : PublishSequencer α)
    (hfuel : q.state.ready.keys.length ≤ fuel) : (releaseDue fuel q).state.next ∉
      (releaseDue fuel q).state.ready := by
  induction fuel generalizing q with
  | zero =>
    intro hmem
    have hnil : q.state.ready.keys = [] := length_eq_zero_iff.mp (by omega)
    rw [releaseDue, AList.mem_keys, hnil] at hmem
    exact not_mem_nil hmem
  | succ n ih =>
    simp only [releaseDue]
    split
    · rename_i hnone
      exact notMem_iff_lookup.mpr hnone
    · rename_i entry lsn hr
      refine ih _ ?_
      have hmem : q.state.next ∈ q.state.ready.keys :=
        mem_keys.mp (mem_of_lookup hr)
      simp only [releaseOne, keys_erase]
      rw [length_erase_of_mem hmem]
      omega

theorem releaseDue_announced_le (fuel : Nat) (q : PublishSequencer α) :
    q.announced ≤ (releaseDue fuel q).announced := by
  induction fuel generalizing q with
  | zero => exact le_rfl
  | succ n ih =>
    simp only [releaseDue]
    split
    · exact le_rfl
    · rename_i entry lsn hr
      refine le_trans ?_ (ih (q.releaseOne entry lsn))
      simp only [releaseOne]
      split <;> omega

variable {mark : Nat} {outcome : Nat → Option (Option α)} {q : PublishSequencer α}

/-- Completing a held ticket keeps the invariant; the ticket is held no more,
    and its outcome is what was handed in for it. -/
theorem complete_ordered {lsnOf : List Nat} {held : Nat → Prop}
    (h : Ordered mark lsnOf outcome held q) (seq : Nat) (hheld : held seq) (a : Option α) :
    Ordered mark lsnOf (fun i => if i = seq then some a else outcome i)
      (fun i => held i ∧ i ≠ seq) (q.complete seq a) := by
  refine Ordered.releaseDue ?_ _
  have hseq := (h.pending_iff seq).mp (.inl hheld)
  constructor
  case issued_eq => exact h.issued_eq
  case next_le => exact h.next_le
  case releases_fst => exact h.releases_fst
  case releases_outcome =>
    intro r hr
    -- what was released had another number
    have hlt := h.release_lt hr
    rw [if_neg (by omega)]
    exact h.releases_outcome r hr
  case pending_iff =>
    intro i
    have hi := h.pending_iff i
    simp only [buffer, mem_insert]
    by_cases his : i = seq
    · subst his
      simpa using hseq
    · simp [his, hi]
  case ready_lsn =>
    intro i b l hl
    simp only [buffer, lookup_insert_eq] at hl
    by_cases his : i = seq
    · -- the slot goes into the buffer with the LSN of its ticket
      subst his
      rw [if_pos rfl, Option.some.injEq, Prod.mk.injEq] at hl
      rcases hl with ⟨rfl, rfl⟩
      exact ⟨h.held_lsn i hheld, if_pos rfl⟩
    · rw [if_neg his] at hl ⊢
      exact h.ready_lsn i b l hl
  case held_lsn =>
    rintro i ⟨hi, his⟩
    simp only [buffer, lookup_erase_eq, if_neg his]
    exact h.held_lsn i hi
  case held_notMem =>
    rintro i ⟨hi, his⟩
    simp only [buffer, mem_insert, his, false_or]
    exact h.held_notMem i hi
  case lsns_lt =>
    intro i hi
    simp [buffer, h.lsns_lt i hi]
  case announced_eq => exact h.announced_eq

theorem issueAt_ordered {lsnOf : List Nat} {held : Nat → Prop}
    (h : Ordered mark lsnOf outcome held q) (lsn : Nat) :
    Ordered mark (lsnOf ++ [lsn]) outcome (fun i => i = q.state.issued ∨ held i)
      (q.issueAt lsn).1 := by
  -- an older slot keeps its LSN in the longer list
  have hold : ∀ i, i < q.state.issued → (lsnOf ++ [lsn]).getD i 0 = lsnOf.getD i 0 := by
    intro i hi
    rw [h.issued_eq] at hi
    simp [getD_eq_getElem?_getD, getElem?_append_left hi]
  have hready : ∀ i, i ∈ q.state.ready → i < q.state.issued := fun i hi =>
    ((h.pending_iff i).mp (.inr hi)).2
  constructor
  case issued_eq => simp [issueAt, h.issued_eq]
  case next_le => exact Nat.le_succ_of_le h.next_le
  case releases_fst => exact h.releases_fst
  case releases_outcome => exact h.releases_outcome
  case pending_iff =>
    intro i
    have hi := h.pending_iff i
    have hnext := h.next_le
    simp only [issueAt, or_assoc, hi]
    omega
  case ready_lsn =>
    intro i a l hl
    rw [hold i (hready i (mem_of_lookup hl))]
    exact h.ready_lsn i a l hl
  case held_lsn =>
    intro i hi
    simp only [issueAt]
    rcases hi with rfl | hi
    · have hnew : (lsnOf ++ [lsn]).getD q.state.issued 0 = lsn := by
        simp [h.issued_eq, getD_eq_getElem?_getD]
      rw [hnew]
      split
      · simp
      · rw [h.lsns_lt _ le_rfl, Option.getD_none]
        omega
    · have hlt : i < q.state.issued := ((h.pending_iff i).mp (.inl hi)).2
      rw [hold i hlt, h.held_lsn i hi]
      split
      · rw [lookup_insert_eq, if_neg (by omega)]
      · rfl
  case held_notMem =>
    rintro i (rfl | hi) hmem
    · -- a slot is buffered only after it was issued
      exact absurd (hready _ hmem) (lt_irrefl _)
    · exact h.held_notMem i hi hmem
  case lsns_lt =>
    intro i hi
    simp only [issueAt] at hi ⊢
    have hnone := h.lsns_lt i (by omega)
    split
    · rw [lookup_insert_eq, if_neg (by omega), hnone]
    · exact hnone
  case announced_eq =>
    have hmap : (q.releases.map fun r => (lsnOf ++ [lsn]).getD r.1 0) =
        q.releases.map fun r => lsnOf.getD r.1 0 := by
      refine map_congr_left ?_
      intro r hr
      exact hold r.1 (lt_of_lt_of_le (h.release_lt hr) h.next_le)
    show q.announced = _
    rw [h.announced_eq]
    exact congrArg (foldl max mark) hmap.symm

/-- The invariant of a sequencer together with the tickets held. -/
structure System.Ok (mark : Nat) (s : System α) : Prop where
  ordered : Ordered mark s.lsnOf s.outcome.lookup (· ∈ s.tickets) s.sequencer
  ticket : ∀ i t, s.tickets.lookup i = some t → t.seq = i ∧ t.completed = false
  settled : s.sequencer.state.next ∉ s.sequencer.state.ready

theorem init_ok (mark : Nat) : (init mark : System α).Ok mark := by
  refine ⟨?_, ?_, ?_⟩
  · constructor <;> simp [init, withAnnouncedMark]
  · intro i t h
    simp [init] at h
  · simp [init, withAnnouncedMark]

variable {s : System α}

/-- A ticket that ends, however it ends, is completed exactly once. -/
theorem finish_ok (h : s.Ok mark) {seq : Nat} (hmem : seq ∈ s.tickets) (a : Option α)
    (published : List Nat) :
    System.Ok mark { s with
      sequencer := s.sequencer.complete seq a
      tickets := s.tickets.erase seq
      published := published
      outcome := s.outcome.insert seq a } ∧
    s.sequencer.announced ≤ (s.sequencer.complete seq a).announced := by
  refine ⟨⟨?_, ?_, releaseDue_done _ _ le_rfl⟩,
    releaseDue_announced_le _ (s.sequencer.buffer seq a)⟩
  · have hord := complete_ordered h.ordered seq hmem a
    have hout : (s.outcome.insert seq a).lookup =
        fun i => if i = seq then some a else s.outcome.lookup i :=
      funext fun i => lookup_insert_eq _ _ _ _
    have hheld : (fun i => i ∈ s.tickets.erase seq) = fun i => i ∈ s.tickets ∧ i ≠ seq :=
      funext fun i => propext (mem_erase.trans and_comm)
    simp only [hout, hheld]
    exact hord
  · intro i t ht
    exact h.ticket i t (lookup_of_erase ht).2

theorem step_ok (s : System α) (act : Action α) (s' : System α) (h : s.Ok mark)
    (hs : step s act = some s') :
    s'.Ok mark ∧ s.sequencer.announced ≤ s'.sequencer.announced := by
  cases act with
  | issueAt lsn =>
    cases hs
    refine ⟨⟨?_, ?_, h.settled⟩, le_rfl⟩
    · have hord := issueAt_ordered h.ordered lsn
      simp only [mem_insert]
      exact hord
    · intro i t ht
      rcases lookup_insert_cases ht with ⟨rfl, rfl⟩ | ⟨-, ht⟩
      · exact ⟨rfl, rfl⟩
      · exact h.ticket i t ht
  | onAbandon seq announce =>
    rcases Option.map_eq_some_iff.mp hs with ⟨t, ht, rfl⟩
    refine ⟨⟨?_, ?_, h.settled⟩, le_rfl⟩
    · have hheld : (fun i => i ∈ s.tickets.insert seq (t.onAbandon announce)) =
          fun i => i ∈ s.tickets := by
        funext i
        simp only [mem_insert, eq_iff_iff, or_iff_right_iff_imp]
        rintro rfl
        exact mem_of_lookup ht
      simp only [hheld]
      exact h.ordered
    · intro i u hu
      rcases lookup_insert_cases hu with ⟨rfl, rfl⟩ | ⟨-, hu⟩
      · exact h.ticket i t ht
      · exact h.ticket i u hu
  | publish seq announce =>
    rcases Option.map_eq_some_iff.mp hs with ⟨t, ht, rfl⟩
    -- the drop at the end of the call finds the ticket completed
    simp only [PublishTicket.publish, PublishTicket.drop, (h.ticket seq t ht).1]
    exact finish_ok h (mem_of_lookup ht) (some announce) _
  | drop seq =>
    rcases Option.map_eq_some_iff.mp hs with ⟨t, ht, rfl⟩
    simp only [PublishTicket.drop, (h.ticket seq t ht).1, (h.ticket seq t ht).2]
    exact finish_ok h (mem_of_lookup ht) t.abandoned s.published

/-- The slot that holds the others up is not buffered, so its ticket is held. -/
theorem System.Ok.next_held (h : s.Ok mark)
    (hlt : s.sequencer.state.next < s.sequencer.state.issued) :
    s.sequencer.state.next ∈ s.tickets := by
  rcases (h.ordered.pending_iff _).mpr ⟨le_rfl, hlt⟩ with hheld | hready
  · exact hheld
  · exact absurd hready h.settled

/-- A slot is released exactly when its ticket and all earlier ones are finished. -/
theorem System.Ok.lt_next_iff (h : s.Ok mark) {i : Nat} (hi : i < s.sequencer.state.issued) :
    i < s.sequencer.state.next ↔ ∀ j ≤ i, j ∉ s.tickets := by
  constructor
  · intro hlt j hj hmem
    have := (h.ordered.pending_iff j).mp (.inl hmem)
    omega
  · intro hnone
    by_contra hge
    exact hnone _ (by omega) (h.next_held (by omega))

variable {acts : List (Action α)}

theorem run_ok (h : run step (init mark) acts = some s) : s.Ok mark :=
  run_invariant (fun s act s' hs hstep => (step_ok s act s' hs hstep).1) (init_ok mark) h

/-- The sequencer has released everything exactly when no ticket is held. -/
theorem isDrained_iff (h : run step (init mark) acts = some s) :
    s.sequencer.isDrained = true ↔ ∀ j, j ∉ s.tickets := by
  have hok := run_ok h
  have hle := hok.ordered.next_le
  simp only [isDrained, beq_iff_eq]
  constructor
  · intro heq j hmem
    have := (hok.ordered.pending_iff j).mp (.inl hmem)
    omega
  · intro hnone
    by_contra hne
    exact hnone _ (hok.next_held (by omega))

/-- Three tickets, of which the second is published before the first is dropped. While the third
    is held the sequencer is not drained, although nothing is buffered; afterwards it is. -/
theorem isDrained_iff_mixed :
    ∃ s t : System Nat,
      run step (init 0) [.issueAt 4, .issueAt 7, .publish 1 70, .onAbandon 0 41, .issueAt 9,
        .drop 0] = some s ∧
      run step (init 0) [.issueAt 4, .issueAt 7, .publish 1 70, .onAbandon 0 41, .issueAt 9,
        .drop 0, .drop 2] = some t ∧
      s.sequencer.isDrained = false ∧ (¬ ∀ j, j ∉ s.tickets) ∧
      t.sequencer.isDrained = true ∧ ∀ j, j ∉ t.tickets := by
  refine ⟨_, _, rfl, rfl, rfl, ?_, rfl, ?_⟩
  · intro hnone
    have hdrained := (@isDrained_iff _ 0 _ [.issueAt 4, .issueAt 7, .publish 1 70,
      .onAbandon 0 41, .issueAt 9, .drop 0] rfl).mpr hnone
    cases hdrained
  · exact (@isDrained_iff _ 0 _ [.issueAt 4, .issueAt 7, .publish 1 70, .onAbandon 0 41,
      .issueAt 9, .drop 0, .drop 2] rfl).mp rfl

/-- The LSNs of the released slots, in release order. -/
def releasedLsns (s : System α) : List Nat :=
  s.sequencer.releases.map fun r => s.lsnOf.getD r.1 0

/-- In every state of every run: slots are released in ticket order, each at most once and exactly
    once as soon as it and every earlier ticket is finished; a released slot announces what its
    holder left for it; the mark is the largest LSN of a released slot, published or dropped, or
    where it started; and it never goes down. -/
theorem releases_in_order_exactly_once (mark : Nat) (acts later : List (Action α))
    (s t : System α) (hs : run step (init mark) acts = some s) (ht : run step s later = some t) :
    s.sequencer.releases.map Prod.fst = List.range s.sequencer.state.next ∧
    (∀ i < s.sequencer.state.issued, (s.sequencer.releases.map Prod.fst).count i =
      if ∀ j ≤ i, j ∉ s.tickets then 1 else 0) ∧
    (∀ r ∈ s.sequencer.releases, s.outcome.lookup r.1 = some r.2) ∧
    s.sequencer.announcedLsn = (releasedLsns s).foldl max mark ∧
    s.sequencer.announcedLsn ≤ t.sequencer.announcedLsn := by
  have hok := run_ok hs
  refine ⟨hok.ordered.releases_fst, ?_, hok.ordered.releases_outcome, hok.ordered.announced_eq,
    run_le_of_step_le (fun s => s.sequencer.announced) step_ok hok ht⟩
  intro i hi
  rw [hok.ordered.releases_fst, nodup_range.count]
  simp [hok.lt_next_iff hi]

/-- Three tickets, finished in the order 1, 0, 2: one published out of order,
    one dropped with an abandon announcement, one dropped with none. -/
theorem releases_in_order_exactly_once_mixed :
    ∃ s : System Nat,
      run step (init 0) [.issueAt 4, .issueAt 7, .publish 1 70, .onAbandon 0 41, .issueAt 9,
        .drop 0, .drop 2] = some s ∧
      s.sequencer.releases = [(0, some 41), (1, some 70), (2, none)] ∧
      s.sequencer.announcedLsn = (releasedLsns s).foldl max 0 :=
  ⟨_, rfl, by decide, (releases_in_order_exactly_once 0 [.issueAt 4, .issueAt 7, .publish 1 70,
    .onAbandon 0 41, .issueAt 9, .drop 0, .drop 2] [] _ _ rfl rfl).2.2.2.1⟩

/-- The LSNs of the published tickets whose predecessors are all released. -/
def publishedLsns (s : System α) : List Nat :=
  (s.published.filter (· ≤ s.sequencer.state.next)).map fun i => s.lsnOf.getD i 0

/-- The mark is not bounded by the LSNs of published tickets: a dropped ticket raises it as well. -/
theorem announced_not_le_publishedLsns :
    ¬ ∀ (acts : List (Action Nat)) (s : System Nat), run step (init 0) acts = some s →
      s.sequencer.announcedLsn ≤ (publishedLsns s).foldl max 0 := by
  intro h
  exact absurd (h [.issueAt 3, .publish 0 30, .issueAt 9, .drop 1] _ rfl) (by decide)

end Publish

end UniDb
