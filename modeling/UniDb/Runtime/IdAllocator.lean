import Mathlib.Algebra.Group.Nat.Defs
import Mathlib.Data.List.Basic
import UniDb.Lib.AssocMap
import UniDb.Lib.Run

/-!
# Id Allocation

Vertex and edge ids come from two counters. An allocator reserves a batch of ids
by storing a higher counter, and hands them out from memory until the batch is
used up. A transaction keeps a reservoir of ids that it takes from the allocator
several at a time.

Three values move separately for each counter: the cursor, which is the next id
to hand out, the reservation in memory, and the stored counter. An allocator that
is opened starts at the stored counter, so ids are unique as long as the cursor
never passes it. The reservation is what ties them together: a batch is only
handed out after its write was acknowledged, and a write that fails takes the
reservation in memory back. The stored counter may then be ahead of the
reservation, if the write reached the store after all, and a later write of the
other counter may even lower it again, but never below the reservation.

## Main definitions

* `IdAllocator`: An allocator, with the object it stores its counters in.
* `allocateVid`, `allocateVids`, `allocateEid`, `allocateEids`, `checkpoint`: The
  calls to an allocator.
* `TxIdReservoir`: The ids that a transaction has taken and not used.
* `Ids`, `Ids.step`: Calls in any order, with crashes and reopens.

## Theorems

* `Sound.allocateOne`, `Sound.allocateMany`: What a call hands out.
* `step_inv`: What every call keeps.
* `ids_unique`: No id is handed out twice, and all are below the stored counter.
-/

namespace UniDb

open AssocMap List

namespace IdAlloc

/-- The two kinds of ids. -/
inductive Kind
  | vid
  | eid
  deriving DecidableEq, Repr

/-- Addition of 64-bit counters, which may not fit. -/
def checkedAdd (a b : Nat) : Option Nat :=
  if a + b < 2 ^ 64 then some (a + b) else none

/-- What is stored of an allocator: the end of the batch of each counter. -/
structure CounterManifest where
  nextVidBatch : Nat
  nextEidBatch : Nat
  deriving DecidableEq, Repr

namespace CounterManifest

/-- A path that was never written counts as this. -/
def empty : CounterManifest := ⟨0, 0⟩

variable (m : CounterManifest)

def next : Kind → Nat
  | .vid => m.nextVidBatch
  | .eid => m.nextEidBatch

def setNext (k : Kind) (n : Nat) : CounterManifest :=
  match k with
  | .vid => { m with nextVidBatch := n }
  | .eid => { m with nextEidBatch := n }

@[simp] theorem next_setNext (k k' : Kind) (n : Nat) :
    (m.setNext k n).next k' = if k' = k then n else m.next k' := by
  cases k <;> cases k' <;> rfl

end CounterManifest

/-- How a write to the object store can fail. -/
inductive PutError
  | alreadyExists
  | notYetImplemented
  | notSupported
  | timedOut
  | other (message : String)
  deriving DecidableEq, Repr

/-- The answer to a write: an entity tag, or an error after which the write may
    have taken effect or not. -/
inductive PutReply
  | ok (eTag : Option String)
  | err (e : PutError) (stored : Bool)

/-- What the object holds after a write with this answer. -/
def PutReply.put (reply : PutReply) (manifest : CounterManifest)
    (object : Option CounterManifest) : Option CounterManifest :=
  match reply with
  | .ok _ => some manifest
  | .err _ stored => if stored then some manifest else object

inductive AllocError
  | exhausted (k : Kind)
  | put (e : PutError)
  deriving DecidableEq, Repr

def AllocError.message : AllocError → String
  | .exhausted .vid => "VID space exhausted"
  | .exhausted .eid => "EID space exhausted"
  | .put .timedOut => "Object store put_opts timed out after 30s"
  | .put .alreadyExists => "already exists"
  | .put .notYetImplemented => "not yet implemented"
  | .put .notSupported => "not supported"
  | .put (.other message) => message

/-- How a call ends. An addition that is not checked and does not fit is an
    `overflow`, whether the build panics or wraps. -/
inductive Outcome (α : Type)
  | ok (a : α)
  | err (e : AllocError)
  | overflow
  | panic
  deriving DecidableEq, Repr

structure AllocatorState where
  manifest : CounterManifest
  manifestVersion : Option String
  currentVid : Nat
  currentEid : Nat
  deriving Repr

namespace AllocatorState

variable (s : AllocatorState)

def current : Kind → Nat
  | .vid => s.currentVid
  | .eid => s.currentEid

def setCurrent (k : Kind) (n : Nat) : AllocatorState :=
  match k with
  | .vid => { s with currentVid := n }
  | .eid => { s with currentEid := n }

@[simp] theorem current_setCurrent (k k' : Kind) (n : Nat) :
    (s.setCurrent k n).current k' = if k' = k then n else s.current k' := by
  cases k <;> cases k' <;> rfl

@[simp] theorem manifest_setCurrent (k : Kind) (n : Nat) :
    (s.setCurrent k n).manifest = s.manifest := by
  cases k <;> rfl

end AllocatorState

/-- An allocator, and the object at its path. -/
structure IdAllocator where
  object : Option CounterManifest
  state : AllocatorState
  batchSize : Nat

namespace IdAllocator

/-- Open an allocator. It starts where the last batch ended. -/
def new (object : Option CounterManifest) (eTag : Option String) (batchSize : Nat) : IdAllocator :=
  let manifest := object.getD .empty
  ⟨object, ⟨manifest, object.bind fun _ => eTag, manifest.nextVidBatch, manifest.nextEidBatch⟩,
    batchSize⟩

variable (a : IdAllocator) (k : Kind)

def setNext (n : Nat) : IdAllocator :=
  { a with state := { a.state with manifest := a.state.manifest.setNext k n } }

def setCurrent (n : Nat) : IdAllocator :=
  { a with state := a.state.setCurrent k n }

/-- Whether a conditional write that failed is tried once more without the condition. -/
def retriesPlain : PutError → Bool
  | .notYetImplemented => true
  | .notSupported => a.state.manifestVersion.isSome
  | .alreadyExists => a.state.manifestVersion.isNone
  | _ => false

/-- Store the counters, with the answers to the conditional write and to the plain
    one that may follow. -/
def persistManifest (io : PutReply × PutReply) :
    Except AllocError Unit × IdAllocator :=
  let first := io.1.put a.state.manifest a.object
  match io.1 with
  | .ok eTag =>
    (.ok (), { a with object := first, state := { a.state with manifestVersion := eTag } })
  | .err e _ =>
    if a.retriesPlain e then
      let second := io.2.put a.state.manifest first
      match io.2 with
      | .ok eTag =>
        (.ok (), { a with object := second, state := { a.state with manifestVersion := eTag } })
      | .err e' _ => (.error (.put e'), { a with object := second })
    else (.error (.put e), { a with object := first })

/-- Reserve ids up to a counter. A failed write takes the reservation back. -/
def reserve (reserved : Nat) (io : PutReply × PutReply) :
    Except AllocError Unit × IdAllocator :=
  let prev := a.state.manifest.next k
  match (a.setNext k reserved).persistManifest io with
  | (.ok _, a') => (.ok (), a')
  -- the write may have reached the store, so the object keeps what it holds
  | (.error e, a') => (.error e, a'.setNext k prev)

/-- Reserve a batch from `start` on, if one is needed. -/
def ensure (needed : Bool) (start : Nat) (io : PutReply × PutReply) :
    Except AllocError Unit × IdAllocator :=
  if needed then
    match checkedAdd start a.batchSize with
    | none => (.error (.exhausted k), a)
    | some reserved => a.reserve k reserved io
  else (.ok (), a)

def allocateOne (a : IdAllocator) (io : PutReply × PutReply) :
    Outcome (List Nat) × IdAllocator :=
  let cursor := a.state.current k
  match a.ensure k (a.state.manifest.next k ≤ cursor) cursor io with
  | (.error e, a') => (.err e, a')
  | (.ok _, a') =>
    match checkedAdd cursor 1 with
    | none => (.overflow, a')
    | some next => (.ok [cursor], a'.setCurrent k next)

def allocateMany (a : IdAllocator) (count : Nat) (io : PutReply × PutReply) :
    Outcome (List Nat) × IdAllocator :=
  let cursor := a.state.current k
  match checkedAdd cursor count with
  | none => (.err (.exhausted k), a)
  | some want =>
    match a.ensure k (a.state.manifest.next k < want) want io with
    | (.error e, a') => (.err e, a')
    | (.ok _, a') =>
      -- each id is an addition of its own, and the cursor moves by another one
      match (List.range count).mapM (checkedAdd cursor), checkedAdd cursor count with
      | some ids, some next => (.ok ids, a'.setCurrent k next)
      | _, _ => (.overflow, a')

def allocateVid := allocateOne .vid

def allocateVids := allocateMany .vid

def allocateEid := allocateOne .eid

def allocateEids := allocateMany .eid

/-- Store the counters, which are at least the cursors. -/
def checkpoint
    (io : PutReply × PutReply) : Except AllocError Unit × IdAllocator :=
  let a := if a.state.manifest.nextVidBatch < a.state.currentVid
    then a.setNext .vid a.state.currentVid else a
  let a := if a.state.manifest.nextEidBatch < a.state.currentEid
    then a.setNext .eid a.state.currentEid else a
  a.persistManifest io

end IdAllocator

/-- The batch size of a reservoir that is opened without one. -/
def defaultReservoirBatch : Nat := 16

/-- The ids that a transaction has taken and not used yet. -/
structure TxIdReservoir where
  vids : List Nat
  eids : List Nat
  batchSize : Nat
  deriving DecidableEq, Repr

namespace TxIdReservoir

def new (batchSize : Nat) : TxIdReservoir :=
  ⟨[], [], if batchSize = 0 then defaultReservoirBatch else batchSize⟩

variable (r : TxIdReservoir)

def ids : Kind → List Nat
  | .vid => r.vids
  | .eid => r.eids

def setIds (k : Kind) (ids : List Nat) : TxIdReservoir :=
  match k with
  | .vid => { r with vids := ids }
  | .eid => { r with eids := ids }

@[simp] theorem ids_setIds (k k' : Kind) (ids : List Nat) :
    (r.setIds k ids).ids k' = if k' = k then ids else r.ids k' := by
  cases k <;> cases k' <;> rfl

/-- The next id. An empty reservoir takes a batch from the allocator. -/
def nextId (k : Kind) (r : TxIdReservoir) (a : IdAllocator) (io : PutReply × PutReply) :
    Outcome (List Nat) × TxIdReservoir × IdAllocator :=
  match r.ids k with
  | id :: rest => (.ok [id], r.setIds k rest, a)
  | [] =>
    match a.allocateMany k r.batchSize io with
    | (.ok (first :: rest), a') => (.ok [first], r.setIds k rest, a')
    | (.ok [], a') => (.panic, r, a')
    | (.err e, a') => (.err e, r, a')
    | (.overflow, a') => (.overflow, r, a')
    | (.panic, a') => (.panic, r, a')

def nextVid := nextId .vid

def nextEid := nextId .eid

end TxIdReservoir

/-! ## Calls, crashes and reopens -/

/-- The object of a path, the allocator that is open on it with the reservoirs of the
    transactions, and what the calls returned. -/
structure Ids where
  object : Option CounterManifest
  opened : Option (AllocatorState × Nat)
  reservoirs : AssocMap Nat TxIdReservoir
  answers : List (Kind × Outcome (List Nat))

namespace Ids

def start (object : Option CounterManifest) : Ids := ⟨object, none, ∅, []⟩

variable (s : Ids)

/-- The ids that were returned to a caller. -/
def returned (k : Kind) : List Nat :=
  s.answers.flatMap fun answer =>
    match answer with
    | (k', .ok ids) => if k' = k then ids else []
    | _ => []

/-- The counter that is stored. -/
def stored (k : Kind) : Nat := (s.object.getD .empty).next k

def allocator : Option IdAllocator := s.opened.map fun o => ⟨s.object, o.1, o.2⟩

/-- The state after a call to the allocator. -/
def after (a : IdAllocator) : Ids :=
  { s with object := a.object, opened := some (a.state, a.batchSize) }

def answer (k : Kind) (o : Outcome (List Nat)) : Ids :=
  { s with answers := s.answers ++ [(k, o)] }

end Ids

/-- What can happen. The replies of the store come with the calls. -/
inductive Call
  | new (batchSize : Nat) (eTag : Option String)
  | newFails
  | allocate (k : Kind) (io : PutReply × PutReply)
  | allocateBatch (k : Kind) (count : Nat) (io : PutReply × PutReply)
  | checkpoint (io : PutReply × PutReply)
  | newReservoir (tx batchSize : Nat)
  | next (k : Kind) (tx : Nat) (io : PutReply × PutReply)
  | dropReservoir (tx : Nat)
  | crash

/-- One call. A crash, or a shutdown, loses the allocator with all reservoirs, and
    there is one live allocator at a time. -/
def Ids.step (s : Ids) : Call → Option Ids
  | .new batchSize eTag =>
    match s.opened with
    | some _ => none
    | none =>
      if batchSize = 0 then none else some (s.after (.new s.object eTag batchSize))
  | .newFails =>
    match s.opened with
    | some _ => none
    | none => some s
  | .allocate k io => s.allocator.map fun a =>
    let r := a.allocateOne k io
    (s.after r.2).answer k r.1
  | .allocateBatch k count io => s.allocator.map fun a =>
    let r := a.allocateMany k count io
    (s.after r.2).answer k r.1
  | .checkpoint io => s.allocator.map fun a => s.after (a.checkpoint io).2
  | .newReservoir tx batchSize =>
    s.allocator.bind fun _ =>
      if tx ∈ s.reservoirs then none
      else some { s with reservoirs := s.reservoirs.insert tx (.new batchSize) }
  | .next k tx io =>
    s.allocator.bind fun a => (s.reservoirs.lookup tx).map fun r =>
      let n := r.nextId k a io
      { (s.after n.2.2).answer k n.1 with reservoirs := s.reservoirs.insert tx n.2.1 }
  | .dropReservoir tx => some { s with reservoirs := s.reservoirs.erase tx }
  | .crash => some { s with opened := none, reservoirs := ∅ }

/-! ## What a call hands out -/

/-- The cursor, the reservation and the stored counter are in this order. -/
structure Sound (a : IdAllocator) : Prop where
  batch : 1 ≤ a.batchSize
  cursor : ∀ k, a.state.current k ≤ a.state.manifest.next k
  stored : ∀ k, a.state.manifest.next k ≤ (a.object.getD .empty).next k
  fits : ∀ k, a.state.current k < a.state.manifest.next k → a.state.manifest.next k < 2 ^ 64

theorem checkedAdd_eq_some {a b c : Nat} : checkedAdd a b = some c ↔ a + b < 2 ^ 64 ∧ a + b =
    c := by
  unfold checkedAdd
  split <;> simp_all

/-- The ids of a batch fit, since the end of the batch does. -/
theorem mapM_checkedAdd {start n : Nat} (h : start + n < 2 ^ 64) :
    (List.range n).mapM (checkedAdd start) = some ((List.range n).map (start + ·)) := by
  have hall : ∀ l : List Nat, (∀ i ∈ l, i < n) →
      l.mapM (checkedAdd start) = some (l.map (start + ·)) := by
    intro l
    induction l with
    | nil => exact fun _ => rfl
    | cons i l ih =>
      intro hl
      have hi : i < n := hl i mem_cons_self
      have hadd : checkedAdd start i = some (start + i) :=
        checkedAdd_eq_some.mpr ⟨by omega, rfl⟩
      rw [mapM_cons, hadd, ih fun j hj => hl j (mem_cons_of_mem i hj)]
      rfl
  exact hall _ fun i hi => mem_range.mp hi

namespace IdAllocator

/-- A write leaves the memory alone, and the object holds what was written unless
    the write failed. -/
theorem persistManifest_spec (a : IdAllocator) (io : PutReply × PutReply) :
    (a.persistManifest io).2.state.manifest = a.state.manifest ∧
    (∀ k, (a.persistManifest io).2.state.current k = a.state.current k) ∧
    (a.persistManifest io).2.batchSize = a.batchSize ∧
    ((a.persistManifest io).2.object = some a.state.manifest ∨
      (a.persistManifest io).2.object = a.object ∧ ∃ e, (a.persistManifest io).1 = .error e) := by
  have hcurrent : ∀ (s : AllocatorState) (eTag : Option String) (k : Kind),
      ({ s with manifestVersion := eTag } : AllocatorState).current k = s.current k := by
    intro s eTag k
    cases k <;> rfl
  rcases io with ⟨first, second⟩
  unfold persistManifest
  cases first with
  | ok eTag => exact ⟨rfl, hcurrent a.state eTag, rfl, .inl rfl⟩
  | err e stored =>
    simp only [PutReply.put]
    split
    -- either of the two writes may have stored the counters, even if both failed
    · cases second with
      | ok eTag => exact ⟨rfl, hcurrent a.state eTag, rfl, .inl rfl⟩
      | err e' stored' =>
        refine ⟨rfl, fun _ => rfl, rfl, ?_⟩
        cases stored' with
        | true => exact .inl rfl
        | false =>
          cases stored with
          | true => exact .inl rfl
          | false => exact .inr ⟨rfl, _, rfl⟩
    · refine ⟨rfl, fun _ => rfl, rfl, ?_⟩
      cases stored with
      | true => exact .inl rfl
      | false => exact .inr ⟨rfl, _, rfl⟩

end IdAllocator

namespace Sound

variable {a : IdAllocator} {k : Kind}

/-- An allocator that is opened hands out nothing below the stored counter. -/
theorem new (object : Option CounterManifest) (eTag : Option String) {batchSize : Nat}
    (h : 1 ≤ batchSize) : Sound (.new object eTag batchSize) := by
  have hcursor : ∀ k, (IdAllocator.new object eTag batchSize).state.current k =
      (object.getD .empty).next k := by
    intro k
    cases k <;> rfl
  refine ⟨h, fun k => le_of_eq (hcursor k), fun k => le_rfl, fun k hlt => ?_⟩
  exact absurd hlt (lt_irrefl _)

/-- Counters that are stored as they are. -/
theorem persistManifest (h : Sound a) (io : PutReply × PutReply) :
    Sound (a.persistManifest io).2 := by
  rcases a.persistManifest_spec io with ⟨hmanifest, hcurrent, hbatch, hobject⟩
  refine ⟨hbatch ▸ h.batch, fun k => ?_, fun k => ?_, fun k => ?_⟩
  · rw [hmanifest, hcurrent]
    exact h.cursor k
  · rw [hmanifest]
    rcases hobject with hnew | ⟨hold, -⟩
    · rw [hnew]
      exact le_rfl
    · rw [hold]
      exact h.stored k
  · rw [hmanifest, hcurrent]
    exact h.fits k

/-- A reservation that is taken back leaves the stored counter where it is, or further on. -/
theorem reserve (h : Sound a) {reserved : Nat} (hlt : a.state.manifest.next k < reserved)
    (hfits : reserved < 2 ^ 64) (io : PutReply × PutReply) :
    Sound (a.reserve k reserved io).2 ∧
    (∀ k', (a.reserve k reserved io).2.state.current k' = a.state.current k') ∧
    ((a.reserve k reserved io).1 = .ok () →
      (a.reserve k reserved io).2.state.manifest.next k = reserved) := by
  rcases (a.setNext k reserved).persistManifest_spec io with ⟨hmanifest, hcurrent, hbatch, hobject⟩
  have hcur : ∀ k', (a.setNext k reserved).state.current k' = a.state.current k' := by
    intro k'
    cases k' <;> rfl
  have hset : ∀ k', (a.setNext k reserved).state.manifest.next k' =
      if k' = k then reserved else a.state.manifest.next k' :=
    fun k' => CounterManifest.next_setNext a.state.manifest k k' reserved
  -- the new reservation is above the old one for this counter, and the same for the other
  have hup : ∀ k', a.state.manifest.next k' ≤ (a.setNext k reserved).state.manifest.next k' := by
    intro k'
    rw [hset]
    split
    · next hk => exact hk ▸ le_of_lt hlt
    · exact le_rfl
  unfold IdAllocator.reserve
  rcases hio : (a.setNext k reserved).persistManifest io with ⟨_ | _, a'⟩
  · rename_i e
    rw [hio] at hmanifest hcurrent hbatch hobject
    have hback : ∀ k', (a'.setNext k (a.state.manifest.next k)).state.manifest.next k' =
        a.state.manifest.next k' := by
      intro k'
      have hnext := CounterManifest.next_setNext a'.state.manifest k k' (a.state.manifest.next k)
      refine hnext.trans ?_
      rw [hmanifest, hset]
      by_cases hk : k' = k
      · rw [if_pos hk, hk]
      · rw [if_neg hk, if_neg hk]
    have hcur' : ∀ k', (a'.setNext k (a.state.manifest.next k)).state.current k' =
        a.state.current k' := by
      intro k'
      rw [← hcur, ← hcurrent]
      cases k' <;> rfl
    refine ⟨⟨?_, fun k' => ?_, fun k' => ?_, fun k' => ?_⟩, hcur', nofun⟩
    · exact hbatch ▸ h.batch
    · rw [hcur', hback]
      exact h.cursor k'
    · rw [hback]
      rcases hobject with hnew | ⟨hold, -⟩
      · show _ ≤ (a'.object.getD .empty).next k'
        rw [hnew]
        exact hup k'
      · show _ ≤ (a'.object.getD .empty).next k'
        rw [hold]
        exact h.stored k'
    · rw [hcur', hback]
      exact h.fits k'
  · rw [hio] at hmanifest hcurrent hbatch hobject
    have hstored : a'.object = some (a.setNext k reserved).state.manifest := by
      rcases hobject with hnew | ⟨-, e, he⟩
      · exact hnew
      · cases he
    refine ⟨⟨hbatch ▸ h.batch, fun k' => ?_, fun k' => ?_, fun k' => ?_⟩, fun k' => ?_, fun _ => ?_⟩
    · rw [hmanifest, hcurrent, hcur]
      exact le_trans (h.cursor k') (hup k')
    · rw [hmanifest, hstored]
      exact le_rfl
    · rw [hmanifest, hcurrent, hcur, hset]
      split
      · exact fun _ => hfits
      · exact h.fits k'
    · rw [hcurrent, hcur]
    · rw [hmanifest, hset, if_pos rfl]

/-- The ids up to `start` are reserved, or the call fails. -/
theorem ensure (h : Sound a) {needed : Bool} {start : Nat}
    (hneeded : needed = true → a.state.manifest.next k ≤ start) (io : PutReply × PutReply) :
    Sound (a.ensure k needed start io).2 ∧
    (∀ k', (a.ensure k needed start io).2.state.current k' = a.state.current k') ∧
    ((a.ensure k needed start io).1 = .ok () →
      if needed then start < (a.ensure k needed start io).2.state.manifest.next k
      else (a.ensure k needed start io).2.state.manifest.next k = a.state.manifest.next k) := by
  unfold IdAllocator.ensure
  cases needed with
  | false => exact ⟨h, fun _ => rfl, fun _ => rfl⟩
  | true =>
    simp only [if_true]
    cases hadd : checkedAdd start a.batchSize with
    | none => exact ⟨h, fun _ => rfl, nofun⟩
    | some =>
      rcases checkedAdd_eq_some.mp hadd with ⟨hfits, hsum⟩
      have hbatch := h.batch
      have hstart := hneeded rfl
      rcases h.reserve (k := k) (by omega) (hsum ▸ hfits) io with ⟨hsound, hcur, hnext⟩
      refine ⟨hsound, hcur, fun hok => ?_⟩
      rw [hnext hok]
      omega

/-- The cursor may move up to the reservation. -/
theorem setCurrent (h : Sound a) {n : Nat} (hcur : a.state.current k ≤ n)
    (hle : n ≤ a.state.manifest.next k) : Sound (a.setCurrent k n) := by
  have hmanifest : (a.setCurrent k n).state.manifest = a.state.manifest :=
    AllocatorState.manifest_setCurrent a.state k n
  have hcurrent : ∀ k', (a.setCurrent k n).state.current k' =
      if k' = k then n else a.state.current k' :=
    fun k' => AllocatorState.current_setCurrent a.state k k' n
  refine ⟨h.batch, fun k' => ?_, fun k' => ?_, fun k' => ?_⟩
  · rw [hmanifest, hcurrent]
    split
    · next hk => exact hk ▸ hle
    · exact h.cursor k'
  · rw [hmanifest]
    exact h.stored k'
  · rw [hmanifest, hcurrent]
    split
    · next hk => exact fun hlt => h.fits k' (lt_of_le_of_lt (hk ▸ hcur) hlt)
    · exact h.fits k'

end Sound

/-- A call hands out `n` ids from the cursor on, or fails. -/
structure Hands (k : Kind) (n : Nat) (a : IdAllocator) (r : Outcome (List Nat) × IdAllocator) :
    Prop where
  sound : Sound r.2
  other : ∀ k', k' ≠ k → r.2.state.current k' = a.state.current k'
  result : (∃ e, r.1 = .err e ∧ r.2.state.current k = a.state.current k) ∨
    r.1 = .ok ((List.range n).map (a.state.current k + ·)) ∧
      r.2.state.current k = a.state.current k + n

theorem Hands.setCurrent {k : Kind} {a a' : IdAllocator} {n : Nat} (h : Sound a')
    (hcur : ∀ k', a'.state.current k' = a.state.current k')
    (hle : a.state.current k + n ≤ a'.state.manifest.next k) :
    Hands k n a (.ok ((List.range n).map (a.state.current k + ·)),
      a'.setCurrent k (a.state.current k + n)) := by
  have hcurrent : ∀ k', (a'.setCurrent k (a.state.current k + n)).state.current k' =
      if k' = k then a.state.current k + n else a'.state.current k' :=
    fun k' => AllocatorState.current_setCurrent a'.state k k' _
  refine ⟨h.setCurrent (by rw [hcur]; omega) hle, fun k' hk => ?_, .inr ⟨rfl, ?_⟩⟩
  · rw [hcurrent, if_neg hk, hcur]
  · rw [hcurrent, if_pos rfl]

namespace Sound

variable {a : IdAllocator}

/-- One id. It is below the reservation, which fits in 64 bits, so the cursor does not overflow. -/
theorem allocateOne (h : Sound a) (k : Kind) (io : PutReply × PutReply) :
    Hands k 1 a (a.allocateOne k io) := by
  simp only [IdAllocator.allocateOne]
  have hneed : decide (a.state.manifest.next k ≤ a.state.current k) = true →
      a.state.manifest.next k ≤ a.state.current k := of_decide_eq_true
  have hens := h.ensure hneed io
  rcases hio : a.ensure k (a.state.manifest.next k ≤ a.state.current k) (a.state.current k) io
    with ⟨_ | _, a'⟩
  · rw [hio] at hens
    exact ⟨hens.1, fun k' _ => hens.2.1 k', .inl ⟨_, rfl, hens.2.1 k⟩⟩
  · rw [hio] at hens
    rcases hens with ⟨hsound, hcur, hnext⟩
    simp only at hsound hcur ⊢
    have hlt : a.state.current k < a'.state.manifest.next k := by
      have hthen := hnext rfl
      by_cases hneeded : a.state.manifest.next k ≤ a.state.current k
      · simpa [hneeded] using hthen
      · simp only [hneeded, decide_false, Bool.false_eq_true, if_false] at hthen
        omega
    have hfits := hsound.fits k (by rw [hcur]; exact hlt)
    have hadd : checkedAdd (a.state.current k) 1 = some (a.state.current k + 1) :=
      checkedAdd_eq_some.mpr ⟨by omega, rfl⟩
    simp only [hadd]
    exact Hands.setCurrent (n := 1) hsound hcur hlt

/-- Several ids. The end of the range was checked first, and if the reservation ended before it,
    the new one ends after it. -/
theorem allocateMany (h : Sound a) (k : Kind) (count : Nat) (io : PutReply × PutReply) :
    Hands k count a (a.allocateMany k count io) := by
  simp only [IdAllocator.allocateMany]
  cases hwant : checkedAdd (a.state.current k) count with
  | none => exact ⟨h, fun _ _ => rfl, .inl ⟨_, rfl, rfl⟩⟩
  | some =>
    rcases checkedAdd_eq_some.mp hwant with ⟨hfits, rfl⟩
    simp only
    have hneed : decide (a.state.manifest.next k < a.state.current k + count) = true →
        a.state.manifest.next k ≤ a.state.current k + count :=
      fun hdec => le_of_lt (of_decide_eq_true hdec)
    have hens := h.ensure hneed io
    rcases hio : a.ensure k (a.state.manifest.next k < a.state.current k + count)
      (a.state.current k + count) io with ⟨_ | _, a'⟩
    · rw [hio] at hens
      exact ⟨hens.1, fun k' _ => hens.2.1 k', .inl ⟨_, rfl, hens.2.1 k⟩⟩
    · rw [hio] at hens
      rcases hens with ⟨hsound, hcur, hnext⟩
      simp only [mapM_checkedAdd hfits]
      refine Hands.setCurrent hsound hcur ?_
      have hthen := hnext rfl
      by_cases hneeded : a.state.manifest.next k < a.state.current k + count
      · simp only [hneeded, decide_true, if_true] at hthen
        omega
      · simp only [hneeded, decide_false, Bool.false_eq_true, if_false] at hthen
        omega

/-- The reservations are never behind the cursors, so a checkpoint moves nothing. -/
theorem checkpoint (h : Sound a) (io : PutReply × PutReply) :
    Sound (a.checkpoint io).2 ∧ ∀ k, (a.checkpoint io).2.state.current k = a.state.current k := by
  have hvid : ¬ a.state.manifest.nextVidBatch < a.state.currentVid := not_lt.mpr (h.cursor .vid)
  have heid : ¬ a.state.manifest.nextEidBatch < a.state.currentEid := not_lt.mpr (h.cursor .eid)
  unfold IdAllocator.checkpoint
  simp only [if_neg hvid, if_neg heid]
  exact ⟨h.persistManifest io, (a.persistManifest_spec io).2.1⟩

end Sound

/-! ## Pools of ids -/

/-- Pools of ids below a limit that share no id. -/
structure Apart {ι : Type} (pool : ι → List Nat) (limit : Nat) : Prop where
  nodup : ∀ i, (pool i).Nodup
  disjoint : ∀ i j, i ≠ j → ∀ id ∈ pool i, id ∉ pool j
  below : ∀ i, ∀ id ∈ pool i, id < limit

namespace Apart

variable {ι : Type} {pool pool' : ι → List Nat} {limit : Nat} (h : Apart pool limit)

include h

/-- What a call leaves alone. -/
theorem congr (hpool : ∀ i, pool' i = pool i) : Apart pool' limit :=
  (funext hpool : pool' = pool) ▸ h

/-- Ids may be lost. -/
theorem sublist (hsub : ∀ i, (pool' i).Sublist (pool i)) {limit' : Nat} (hle : limit ≤ limit') :
    Apart pool' limit' where
  nodup i := (h.nodup i).sublist (hsub i)
  disjoint i j hij id hi hj := h.disjoint i j hij id ((hsub i).subset hi) ((hsub j).subset hj)
  below i id hi := lt_of_lt_of_le (h.below i id ((hsub i).subset hi)) hle

/-- The next ids go to one pool. -/
theorem grow [DecidableEq ι] (i : ι) (n : Nat)
    (hpool : ∀ j, pool' j = if j = i then pool i ++ (List.range n).map (limit + ·) else pool j) :
    Apart pool' (limit + n) := by
  have hmem : ∀ {j id}, id ∈ pool' j → id ∈ pool j ∨ j = i ∧ limit ≤ id ∧ id < limit + n := by
    intro j id hid
    rw [hpool] at hid
    split at hid
    · next hj =>
      rw [mem_append, mem_map] at hid
      rcases hid with hid | ⟨x, hx, rfl⟩
      · exact .inl (hj ▸ hid)
      · have := mem_range.mp hx
        exact .inr ⟨hj, by omega, by omega⟩
    · exact .inl hid
  refine ⟨fun j => ?_, fun j j' hjj id hj hj' => ?_, fun j id hj => ?_⟩
  · rw [hpool]
    split
    · refine nodup_append'.mpr ⟨h.nodup i, ?_, fun id hid hnew => ?_⟩
      · exact nodup_range.map fun a b hab => Nat.add_left_cancel hab
      · rcases mem_map.mp hnew with ⟨x, -, rfl⟩
        have := h.below i _ hid
        omega
    · exact h.nodup j
  · -- a new id is at or above the limit, and the old ones are below it
    rcases hmem hj with hold | ⟨rfl, hge, -⟩
    · rcases hmem hj' with hold' | ⟨rfl, hge', -⟩
      · exact h.disjoint j j' hjj id hold hold'
      · have := h.below j id hold
        omega
    · rcases hmem hj' with hold' | ⟨rfl, -, -⟩
      · have := h.below j' id hold'
        omega
      · exact hjj rfl
  · rcases hmem hj with hold | ⟨-, -, hlt⟩
    · have := h.below j id hold
      omega
    · exact hlt

/-- The first id of one pool goes to another one. -/
theorem move [DecidableEq ι] {i j : ι} (hij : i ≠ j) {id : Nat} {rest : List Nat}
    (hi : pool i = id :: rest)
    (hpool : ∀ x, pool' x = if x = i then rest else if x = j then pool j ++ [id] else pool x) :
    Apart pool' limit := by
  have hnodup := h.nodup i
  rw [hi, nodup_cons] at hnodup
  have hid : id ∈ pool i := hi ▸ mem_cons_self
  have hrest : ∀ {x}, x ∈ rest → x ∈ pool i := fun hx => hi ▸ mem_cons_of_mem id hx
  have hmem : ∀ {x y}, y ∈ pool' x →
      x = i ∧ y ∈ rest ∨ x ≠ i ∧ y ∈ pool x ∨ x = j ∧ y = id := by
    intro x y hy
    rw [hpool] at hy
    split at hy
    · next hx => exact .inl ⟨hx, hy⟩
    · next hx =>
      split at hy
      · next hxj =>
        rw [mem_append, mem_singleton] at hy
        rcases hy with hy | hy
        · exact .inr (.inl ⟨hx, hxj ▸ hy⟩)
        · exact .inr (.inr ⟨hxj, hy⟩)
      · exact .inr (.inl ⟨hx, hy⟩)
  refine ⟨fun x => ?_, fun x x' hxx y hx hx' => ?_, fun x y hx => ?_⟩
  · rw [hpool]
    split
    · exact hnodup.2
    · split
      · refine nodup_append'.mpr ⟨h.nodup j, nodup_singleton id, fun y hy hy' => ?_⟩
        rw [mem_singleton] at hy'
        exact h.disjoint i j hij id hid (hy' ▸ hy)
      · exact h.nodup x
  · rcases hmem hx with ⟨rfl, hr⟩ | ⟨hxi, hold⟩ | ⟨rfl, rfl⟩
    · rcases hmem hx' with ⟨rfl, -⟩ | ⟨-, hold'⟩ | ⟨-, rfl⟩
      · exact hxx rfl
      · exact h.disjoint x x' hxx y (hrest hr) hold'
      · exact hnodup.1 hr
    · rcases hmem hx' with ⟨rfl, hr'⟩ | ⟨-, hold'⟩ | ⟨-, rfl⟩
      · exact h.disjoint x x' hxx y hold (hrest hr')
      · exact h.disjoint x x' hxx y hold hold'
      · exact h.disjoint x i hxi y hold hid
    · rcases hmem hx' with ⟨rfl, hr'⟩ | ⟨hxi', hold'⟩ | ⟨rfl, -⟩
      · exact hnodup.1 hr'
      · exact h.disjoint i x' (fun heq => hxi' heq.symm) y hid hold'
      · exact hxx rfl
  · rcases hmem hx with ⟨-, hr⟩ | ⟨-, hold⟩ | ⟨-, rfl⟩
    · exact h.below i y (hrest hr)
    · exact h.below x y hold
    · exact h.below i y hid

end Apart

/-! ## Runs -/

namespace Ids

/-- Where an id is: with a caller, or in the reservoir of a transaction. -/
def pool (s : Ids) (k : Kind) : Option Nat → List Nat
  | none => s.returned k
  | some tx => ((s.reservoirs.lookup tx).map (·.ids k)).getD []

/-- Ids below this were handed out, or are lost. -/
def limit (s : Ids) (k : Kind) : Nat :=
  match s.opened with
  | none => s.stored k
  | some (state, _) => state.current k

/-- Only an answer with ids, of this kind, adds to what was returned. -/
theorem returned_answer_ok (s : Ids) (k : Kind) (ids : List Nat) :
    (s.answer k (.ok ids)).returned k = s.returned k ++ ids := by
  unfold returned answer
  simp

theorem returned_answer_err (s : Ids) (k k' : Kind) (e : AllocError) :
    (s.answer k' (.err e)).returned k = s.returned k := by
  unfold returned answer
  rw [flatMap_append, flatMap_singleton, append_nil]

variable {k : Kind}

theorem returned_answer_of_ne (s : Ids) {k' : Kind} (h : k ≠ k') (o : Outcome (List Nat)) :
    (s.answer k' o).returned k = s.returned k := by
  unfold returned answer
  rw [flatMap_append, flatMap_singleton]
  cases o with
  | ok => simp [if_neg fun heq : k' = k => h heq.symm]
  | _ => rw [append_nil]

/-- What every call keeps. -/
structure Inv (s : Ids) : Prop where
  faultless : ∀ answer ∈ s.answers, answer.2 ≠ .overflow ∧ answer.2 ≠ .panic
  sound : ∀ a, s.allocator = some a → Sound a
  apart : ∀ k, Apart (s.pool k) (s.limit k)
  batch : ∀ tx r, s.reservoirs.lookup tx = some r → 1 ≤ r.batchSize

/-- At first no id is anywhere. -/
theorem start_inv (object : Option CounterManifest) : (start object).Inv where
  faultless answer h := nomatch h
  sound a h := nomatch h
  apart k := by
    have hpool : ∀ i, (start object).pool k i = [] := by
      intro i
      cases i <;> rfl
    refine ⟨fun i => ?_, fun i j _ id h => ?_, fun i id h => ?_⟩
    · rw [hpool]
      exact nodup_nil
    · rw [hpool] at h
      cases h
    · rw [hpool] at h
      cases h
  batch tx r h := nomatch h

variable {s : Ids} {a : IdAllocator}

theorem allocator_eq_some (h : s.allocator = some a) :
    s.opened = some (a.state, a.batchSize) ∧ a.object = s.object := by
  unfold allocator at h
  cases hopen : s.opened with
  | none => simp [hopen] at h
  | some =>
    rw [hopen, Option.map_some, Option.some.injEq] at h
    rw [← h]
    exact ⟨rfl, rfl⟩

/-- While an allocator is open the limit is its cursor. -/
theorem limit_of_allocator (h : s.allocator = some a) (k : Kind) :
    s.limit k = a.state.current k := by
  rw [limit, (allocator_eq_some h).1]

theorem pool_after (s : Ids) (a : IdAllocator) (k : Kind) (i : Option Nat) :
    (s.after a).pool k i = s.pool k i := by
  cases i <;> rfl

variable {o : Outcome (List Nat)} {a' : IdAllocator} {rest : List Nat} {tx : Nat}

/-- Neither the unchecked additions nor the first id of a batch can fail. -/
theorem faultless_answer (h : ∀ answer ∈ s.answers, answer.2 ≠ .overflow ∧ answer.2 ≠ .panic)
    (ho : o ≠ .overflow ∧ o ≠ .panic) :
    ∀ answer ∈ (s.answer k o).answers, answer.2 ≠ .overflow ∧ answer.2 ≠ .panic := by
  exact forall_mem_append.mpr ⟨h, forall_mem_singleton.mpr ho⟩

/-- The ids of a call go to its caller. -/
theorem Inv.hands (h : s.Inv) (ha : s.allocator = some a) {n : Nat}
    {r : Outcome (List Nat) × IdAllocator} (hr : Hands k n a r) :
    ((s.after r.2).answer k r.1).Inv := by
  refine ⟨?_, ?_, fun k' => ?_, h.batch⟩
  · refine faultless_answer (s := s.after r.2) h.faultless ?_
    rcases hr.result with ⟨e, he, -⟩ | ⟨hn, -⟩
    · rw [he]
      exact ⟨nofun, nofun⟩
    · rw [hn]
      exact ⟨nofun, nofun⟩
  · intro a' ha'
    cases ha'
    exact hr.sound
  · have hold : Apart (s.pool k') (a.state.current k') := limit_of_allocator ha k' ▸ h.apart k'
    show Apart (((s.after r.2).answer k r.1).pool k') (r.2.state.current k')
    -- ids of the other kind stay where they are
    by_cases hk : k' = k
    · subst hk
      rcases hr.result with ⟨e, he, hcur⟩ | ⟨hn, hcur⟩
      · rw [hcur, he]
        refine hold.congr fun i => ?_
        cases i with
        | none => exact returned_answer_err (s.after r.2) k' k' e
        | some => rfl
      · rw [hcur, hn]
        refine hold.grow none n fun i => ?_
        cases i with
        | none =>
          exact returned_answer_ok (s.after r.2) k' _
        | some =>
          rfl
    · rw [hr.other k' hk]
      refine hold.congr fun i => ?_
      cases i with
      | none => exact returned_answer_of_ne (s.after r.2) hk r.1
      | some => rfl

/-- The state after a transaction took its next id. -/
def next (s : Ids) (k : Kind) (tx : Nat) (n : Outcome (List Nat) × TxIdReservoir × IdAllocator) :
    Ids :=
  { (s.after n.2.2).answer k n.1 with reservoirs := s.reservoirs.insert tx n.2.1 }

/-- A call of a transaction changes its own reservoir and no other. -/
theorem pool_next_tx (s : Ids) (k k' : Kind) (tx t : Nat)
    (n : Outcome (List Nat) × TxIdReservoir × IdAllocator) :
    (s.next k tx n).pool k' (some t) = if t = tx then n.2.1.ids k' else s.pool k' (some t) := by
  show ((((s.reservoirs.insert tx n.2.1).lookup t).map (·.ids k')).getD []) = _
  rw [lookup_insert_eq]
  split <;> rfl

variable {r : TxIdReservoir}

/-- A transaction takes the first of some ids and keeps the others. -/
theorem apart_next {tx first : Nat}
    {pool : Option Nat → List Nat} {limit : Nat} (hold : Apart pool limit)
    (hpool : ∀ i, i ≠ some tx → pool i = s.pool k i) (htx : pool (some tx) = first :: rest) :
    Apart ((s.next k tx (.ok [first], r.setIds k rest, a')).pool k) limit := by
  refine hold.move (i := some tx) (j := none) nofun htx fun i => ?_
  cases i with
  | none =>
    rw [if_neg nofun, if_pos rfl, hpool none nofun]
    exact returned_answer_ok (s.after a') k [first]
  | some t =>
    rw [pool_next_tx]
    by_cases ht : t = tx
    · rw [if_pos ht, if_pos (congrArg some ht)]
      exact (TxIdReservoir.ids_setIds ..).trans (if_pos rfl)
    · have hne : some t ≠ some tx := fun heq => ht (Option.some.inj heq)
      rw [if_neg ht, if_neg hne, if_neg nofun, hpool _ hne]

/-- The ids of the other kind stay where they are. -/
theorem apart_next_of_ne {k' : Kind} (hk : k' ≠ k) (hr : s.reservoirs.lookup tx = some r)
    {limit : Nat} (hold : Apart (s.pool k') limit) :
    Apart ((s.next k tx (o, r.setIds k rest, a')).pool k') limit := by
  refine hold.congr fun i => ?_
  cases i with
  | none => exact returned_answer_of_ne (s.after a') hk o
  | some t =>
    rw [pool_next_tx]
    split
    · next ht =>
      subst ht
      show (r.setIds k rest).ids k' = ((s.reservoirs.lookup t).map (·.ids k')).getD []
      rw [TxIdReservoir.ids_setIds, if_neg hk, hr]
      rfl
    · rfl

/-- What is left to show of a transaction that takes its next id. -/
theorem Inv.next_of_apart (h : s.Inv) (hr : s.reservoirs.lookup tx = some r)
    (ho : o ≠ .overflow ∧ o ≠ .panic) (hsound : Sound a')
    (hother : ∀ k', k' ≠ k → Apart (s.pool k') (a'.state.current k'))
    (hk : Apart ((s.next k tx (o, r.setIds k rest, a')).pool k) (a'.state.current k)) :
    (s.next k tx (o, r.setIds k rest, a')).Inv := by
  refine ⟨faultless_answer (s := s.after a') h.faultless ho, ?_, fun k' => ?_,
    fun t r' hlookup => ?_⟩
  · intro a'' ha''
    cases ha''
    exact hsound
  · by_cases heq : k' = k
    · exact heq ▸ hk
    · exact apart_next_of_ne heq hr (hother k' heq)
  · have hsize : (r.setIds k rest).batchSize = r.batchSize := by
      cases k <;> rfl
    rcases lookup_insert_cases hlookup with ⟨-, rfl⟩ | ⟨-, hlookup⟩
    · rw [hsize]
      exact h.batch tx r hr
    · exact h.batch t r' hlookup

/-- A transaction takes its next id, from its reservoir or from the allocator. -/
theorem Inv.next (h : s.Inv) (ha : s.allocator = some a) (hr : s.reservoirs.lookup tx = some r)
    (k : Kind) (io : PutReply × PutReply) : (s.next k tx (r.nextId k a io)).Inv := by
  have hsound := h.sound a ha
  have hold : ∀ k', Apart (s.pool k') (a.state.current k') :=
    fun k' => limit_of_allocator ha k' ▸ h.apart k'
  have htx : s.pool k (some tx) = r.ids k := by
    show ((s.reservoirs.lookup tx).map (·.ids k)).getD [] = r.ids k
    rw [hr]
    rfl
  unfold TxIdReservoir.nextId
  cases hids : r.ids k with
  -- the reservoir has an id, and the allocator is not asked
  | cons =>
    exact h.next_of_apart hr ⟨nofun, nofun⟩ hsound (fun k' _ => hold k')
      (apart_next (hold k) (fun _ _ => rfl) (htx.trans hids))
  | nil =>
    have hands := hsound.allocateMany k r.batchSize io
    have hkeep : r.setIds k [] = r := by
      cases k <;> cases r <;> simp_all [TxIdReservoir.ids, TxIdReservoir.setIds]
    rcases hans : a.allocateMany k r.batchSize io with ⟨o, a'⟩
    rw [hans] at hands
    rcases hands with ⟨hsound', hother, ⟨e, he, hcur⟩ | ⟨hn, hcur⟩⟩
    · subst he
      rw [← hkeep]
      refine h.next_of_apart hr ⟨nofun, nofun⟩ hsound' (fun k' hk => hother k' hk ▸ hold k') ?_
      rw [hcur]
      refine (hold k).congr fun i => ?_
      cases i with
      | none => exact returned_answer_err (s.after a') k k e
      | some =>
        rw [pool_next_tx, hkeep]
        split
        · next ht => rw [ht, htx]
        · rfl
    · -- the batch goes to the reservoir, and its first id on to the caller
      have hsize := h.batch tx r hr
      obtain ⟨m, hm⟩ : ∃ m, r.batchSize = m + 1 := ⟨r.batchSize - 1, by omega⟩
      rw [hm, range_succ_eq_map, map_cons, Nat.add_zero] at hn
      subst hn
      refine h.next_of_apart hr ⟨nofun, nofun⟩ hsound' (fun k' hk => hother k' hk ▸ hold k') ?_
      rw [hcur]
      refine apart_next ((hold k).grow (some tx) r.batchSize fun _ => rfl)
        (fun i hi => if_neg hi) ?_
      rw [if_pos rfl, htx, hids, nil_append, hm, range_succ_eq_map, map_cons, Nat.add_zero]

/-- The invariant that makes a crash harmless: an allocator that is opened next starts at or above
    every id that was handed out. -/
theorem Inv.limit_le_stored (h : s.Inv) (k : Kind) : s.limit k ≤ s.stored k := by
  cases hopen : s.opened with
  | none => rw [limit, hopen]
  | some o =>
    have hsound := h.sound ⟨s.object, o.1, o.2⟩ (by rw [allocator, hopen]; rfl)
    rw [limit, hopen]
    exact le_trans (hsound.cursor k) (hsound.stored k)

/-- What every call keeps. Ids only move between pools, enter one at the limit, or are lost. -/
theorem step_inv {s' : Ids} {call : Call} (h : s.Inv) (hstep : s.step call = some s') :
    s'.Inv := by
  revert hstep
  fun_cases Ids.step s call <;> intro hstep
  case case1 | case2 | case4 => cases hstep
  case case3 batchSize eTag hopen hbatch =>
    cases hstep
    refine ⟨h.faultless, ?_, fun k => ?_, h.batch⟩
    · intro a ha
      cases ha
      exact Sound.new s.object eTag (Nat.one_le_iff_ne_zero.mpr hbatch)
    · -- the cursor starts at the stored counter
      have hlimit : s.limit k = (IdAllocator.new s.object eTag batchSize).state.current k := by
        rw [limit, hopen]
        cases k <;> rfl
      show Apart _ ((IdAllocator.new s.object eTag batchSize).state.current k)
      rw [← hlimit]
      exact (h.apart k).congr fun i => pool_after s _ k i
  case case5 =>
    cases hstep
    exact h
  case case6 k io =>
    rcases Option.map_eq_some_iff.mp hstep with ⟨a, ha, rfl⟩
    exact h.hands ha ((h.sound a ha).allocateOne k io)
  case case7 k count io =>
    rcases Option.map_eq_some_iff.mp hstep with ⟨a, ha, rfl⟩
    exact h.hands ha ((h.sound a ha).allocateMany k count io)
  case case8 io =>
    rcases Option.map_eq_some_iff.mp hstep with ⟨a, ha, rfl⟩
    rcases (h.sound a ha).checkpoint io with ⟨hsound, hcur⟩
    refine ⟨h.faultless, ?_, fun k => ?_, h.batch⟩
    · intro a' ha'
      cases ha'
      exact hsound
    · show Apart _ ((a.checkpoint io).2.state.current k)
      rw [hcur, ← limit_of_allocator ha]
      exact (h.apart k).congr fun i => pool_after s _ k i
  case case9 tx batchSize =>
    rcases Option.bind_eq_some_iff.mp hstep with ⟨a, ha, hnew⟩
    by_cases htx : tx ∈ s.reservoirs
    · simp [htx] at hnew
    · simp only [if_neg htx, Option.some.injEq] at hnew
      subst hnew
      refine ⟨h.faultless, h.sound, fun k => ?_, fun t r hr => ?_⟩
      · refine (h.apart k).congr fun i => ?_
        cases i with
        | none => rfl
        | some t =>
          show (((s.reservoirs.insert tx (.new batchSize)).lookup t).map (·.ids k)).getD [] =
            ((s.reservoirs.lookup t).map (·.ids k)).getD []
          rw [lookup_insert_eq]
          split
          · next ht =>
            rw [ht, notMem_iff_lookup.mp htx]
            cases k <;> rfl
          · rfl
      · rcases lookup_insert_cases hr with ⟨-, rfl⟩ | ⟨-, hr⟩
        · unfold TxIdReservoir.new defaultReservoirBatch
          simp only
          split <;> omega
        · exact h.batch t r hr
  case case10 k tx io =>
    rcases Option.bind_eq_some_iff.mp hstep with ⟨a, ha, hnext⟩
    rcases Option.map_eq_some_iff.mp hnext with ⟨r, hr, rfl⟩
    exact h.next ha hr k io
  case case11 tx =>
    cases hstep
    refine ⟨h.faultless, h.sound, fun k => ?_, fun t r hr => ?_⟩
    · refine (h.apart k).sublist (fun i => ?_) le_rfl
      cases i with
      | none => exact .refl _
      | some t =>
        show ((((s.reservoirs.erase tx).lookup t).map (·.ids k)).getD []).Sublist _
        rw [lookup_erase_eq]
        split
        · exact nil_sublist _
        · exact .refl _
    · exact h.batch t r (lookup_of_erase hr).2
  case case12 =>
    cases hstep
    refine ⟨h.faultless, nofun, fun k => ?_, nofun⟩
    -- the reservoirs and the rest of the batch are lost, and the limit moves up to the stored
    -- counter
    refine (h.apart k).sublist (fun i => ?_) (h.limit_le_stored k)
    cases i with
    | none => exact .refl _
    | some => exact nil_sublist _

end Ids

/-- Over every run of calls, crashes and reopens, with any failing writes, no id is returned twice,
    no addition overflows, and what was returned is below the stored counter. -/
theorem ids_unique (object : Option CounterManifest) (calls : List Call) {s : Ids}
    (hrun : run Ids.step (Ids.start object) calls = some s) :
    (∀ k, (s.returned k).Nodup) ∧ (∀ answer ∈ s.answers, answer.2 ≠ .overflow) ∧
    ∀ k, ∀ id ∈ s.returned k, ∃ manifest, s.object = some manifest ∧ id < manifest.next k := by
  have hinv : s.Inv :=
    run_invariant (fun _ _ _ h hstep => Ids.step_inv h hstep) (Ids.start_inv object) hrun
  refine ⟨fun k => (hinv.apart k).nodup none, fun answer h => (hinv.faultless answer h).1,
    fun k id hid => ?_⟩
  have hlt : id < s.stored k :=
    lt_of_lt_of_le ((hinv.apart k).below none id hid) (hinv.limit_le_stored k)
  unfold Ids.stored at hlt
  cases hobj : s.object with rw [hobj] at hlt
  | none => cases k <;> exact absurd hlt (Nat.not_lt_zero id)
  | some manifest => exact ⟨manifest, rfl, hlt⟩

/-- A write that fails and took effect, a retry, a write of the other counter that
    lowers the stored one again, a reservoir, and a crash. -/
def retryCalls : List Call :=
  let ok : PutReply × PutReply := (.ok none, .ok none)
  [.new 2 none, .allocate .vid ok, .allocateBatch .vid 5 (.err .timedOut true, .ok none),
    .allocate .eid ok, .newReservoir 1 3, .next .vid 1 ok, .next .vid 1 ok, .crash, .new 2 none,
    .allocate .vid ok]

theorem ids_unique_retry :
    ∃ s, run Ids.step (Ids.start none) retryCalls = some s ∧ s.returned .vid = [0, 1, 2, 6] ∧
      s.returned .eid = [0] ∧ (∀ k, (s.returned k).Nodup) ∧
      (∀ answer ∈ s.answers, answer.2 ≠ .overflow) ∧
      ∀ k, ∀ id ∈ s.returned k, ∃ manifest, s.object = some manifest ∧ id < manifest.next k :=
  ⟨_, rfl, by decide, by decide, ids_unique none retryCalls rfl⟩

end IdAlloc

end UniDb
