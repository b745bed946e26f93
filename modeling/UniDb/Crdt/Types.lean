import Mathlib.Data.List.Lex
import Mathlib.Data.Prod.Lex
import Mathlib.Order.WithBot
import UniDb.Lib.MapJoin

/-!
# Replicated Data Types

Counters, sets, registers, maps, sequences and clocks that are merged by their states.

The hash maps of the source are association maps, and equality of two states is equality of
their maps, whatever the iteration orders. A counter that would overflow its 64 bits makes
the update have no result.

A register keeps the value with the larger timestamp, and among equal timestamps the value
with the larger serialized form. Both comparisons together are one comparison of ranks, and
the merge keeps the register of larger rank, its own if the ranks are equal.

## Main definitions

* `Serialize`: The serialized form of a value.
* `GCounter`, `GSet`, `LWWRegister`, `LWWMap`, `Rga`, `VectorClock`, `VCRegister`: The data
  types, each with its updates and its merge.

## Theorems

* `LWWRegister.merge_eq`: The merge keeps the register of larger rank.
* `LWWRegister.merge_comm`, `LWWRegister.merge_assoc`: Laws of the register.
* `VectorClock.happenedBefore_iff`: The causal order of clocks.
-/

namespace UniDb.Crdts

abbrev Bytes := List (Fin 256)

/-- `serde_json::to_vec`, which may fail. -/
class Serialize (T : Type) where
  toVec : T → Option Bytes

open Serialize AssocMap

/-- The text `null`. -/
def null : Bytes := [110, 117, 108, 108]

/-- An absent value is written as `null`, and a present one as itself. -/
instance {T : Type} [Serialize T] : Serialize (Option T) where
  toVec
    | none => some null
    | some v => toVec v

/-- The serialized form as a key for comparisons. A value that cannot be serialized has the
    least key. -/
def key {T : Type} [Serialize T] (v : T) : WithBot Bytes := toVec v

/-! ### Counters and sets that grow -/

structure GCounter where
  counts : Counters

def GCounter.new : GCounter := ⟨∅⟩

def GCounter.increment (self : GCounter) (actor : String) (value : Nat) : Option GCounter :=
  if value = 0 then some self else (self.counts.bump actor value).map GCounter.mk

def GCounter.merge (self other : GCounter) : GCounter := ⟨self.counts.join other.counts⟩

structure GSet (T : Type) where
  elements : Finset T

def GSet.new {T : Type} : GSet T := ⟨∅⟩

def GSet.add {T : Type} [DecidableEq T] (self : GSet T) (element : T) : GSet T :=
  ⟨insert element self.elements⟩

def GSet.merge {T : Type} [DecidableEq T] (self other : GSet T) : GSet T :=
  ⟨self.elements ∪ other.elements⟩

/-! ### Registers -/

structure LWWRegister (T : Type) where
  value : T
  timestamp : Int
  deriving DecidableEq

namespace LWWRegister

variable {T : Type}

/-- A write with the timestamp that the register has is accepted. -/
def set (self : LWWRegister T) (value : T) (timestamp : Int) : LWWRegister T :=
  if self.timestamp ≤ timestamp then { value := value, timestamp := timestamp } else self

variable [Serialize T]

def merge (self other : LWWRegister T) : LWWRegister T :=
  if self.timestamp < other.timestamp then
    { value := other.value, timestamp := other.timestamp }
  else if other.timestamp = self.timestamp then
    match toVec self.value, toVec other.value with
    | none, none => self
    | _, _ => if key self.value < key other.value then { self with value := other.value } else self
  else self

/-- What registers are compared by. -/
def rank (r : LWWRegister T) : Int ×ₗ WithBot Bytes := toLex (r.timestamp, key r.value)

variable (a b : LWWRegister T)

theorem rank_lt_iff : a.rank < b.rank ↔
    a.timestamp < b.timestamp ∨ a.timestamp = b.timestamp ∧ key a.value < key b.value :=
  Prod.Lex.toLex_lt_toLex

/-- The tie-break looks at the keys alone: two values without a serialized form have equal keys. -/
theorem tie_break (self other : LWWRegister T) : (match toVec self.value, toVec other.value with
      | none, none => self
      | _, _ =>
        if key self.value < key other.value then { self with value := other.value } else self) =
      if key self.value < key other.value then { self with value := other.value } else self := by
  split
  · rename_i hs ho
    have hnot : ¬ key self.value < key other.value := by
      have heq : key self.value = key other.value := hs.trans ho.symm
      rw [heq]
      exact lt_irrefl _
    rw [if_neg hnot]
  · rfl

theorem merge_eq : a.merge b = if a.rank < b.rank then b else a := by
  unfold merge
  rw [tie_break]
  by_cases ht : a.timestamp < b.timestamp
  · rw [if_pos ht, if_pos ((rank_lt_iff a b).mpr (.inl ht))]
  · rw [if_neg ht]
    by_cases heq : b.timestamp = a.timestamp
    · rw [if_pos heq]
      by_cases hk : key a.value < key b.value
      · rw [if_pos hk, if_pos ((rank_lt_iff a b).mpr (.inr ⟨heq.symm, hk⟩)), ← heq]
      · rw [if_neg hk, if_neg]
        intro hlt
        rcases (rank_lt_iff a b).mp hlt with h | h
        · exact ht h
        · exact hk h.2
    · rw [if_neg heq, if_neg]
      intro hlt
      rcases (rank_lt_iff a b).mp hlt with h | h
      · exact ht h
      · exact heq h.1.symm

theorem rank_eq_iff : a.rank = b.rank ↔
    a.timestamp = b.timestamp ∧ toVec a.value = toVec b.value := by
  constructor
  · intro h
    have hpair : (a.timestamp, key a.value) = (b.timestamp, key b.value) := toLex.injective h
    exact ⟨congrArg Prod.fst hpair, congrArg Prod.snd hpair⟩
  · rintro ⟨ht, hv⟩
    have hkey : key a.value = key b.value := hv
    rw [rank, rank, ht, hkey]

theorem eq_of_rank_eq {a b : LWWRegister T}
    (hinj : toVec a.value = toVec b.value → a.value = b.value) (h : a.rank = b.rank) : a = b := by
  rcases (rank_eq_iff a b).mp h with ⟨ht, hv⟩
  rcases a with ⟨v, t⟩
  rcases b with ⟨w, u⟩
  rw [LWWRegister.mk.injEq]
  exact ⟨hinj hv, ht⟩

theorem merge_comm {a b : LWWRegister T}
    (hinj : toVec a.value = toVec b.value → a.value = b.value) : a.merge b = b.merge a := by
  rw [merge_eq, merge_eq]
  rcases lt_trichotomy a.rank b.rank with h | h | h
  · rw [if_pos h, if_neg h.not_gt]
  · rw [if_neg h.not_lt, if_neg h.not_gt, eq_of_rank_eq hinj h]
  · rw [if_neg h.not_gt, if_pos h]

/-- The leftmost of the registers of largest rank is kept, however they are grouped. -/
theorem merge_assoc (a b c : LWWRegister T) : (a.merge b).merge c = a.merge (b.merge c) := by
  rw [merge_eq a b, merge_eq b c]
  by_cases hab : a.rank < b.rank
  · rw [if_pos hab]
    by_cases hbc : b.rank < c.rank
    · rw [if_pos hbc, merge_eq, if_pos hbc, merge_eq, if_pos (hab.trans hbc)]
    · rw [if_neg hbc, merge_eq, if_neg hbc, merge_eq, if_pos hab]
  · rw [if_neg hab]
    by_cases hbc : b.rank < c.rank
    · rw [if_pos hbc]
    · have hac : ¬ a.rank < c.rank := fun h => hab (h.trans_le (not_lt.mp hbc))
      rw [if_neg hbc, merge_eq, if_neg hac, merge_eq, if_neg hab]

theorem merge_idem (a : LWWRegister T) : a.merge a = a := by
  rw [merge_eq, if_neg (lt_irrefl _)]

end LWWRegister

/-! ### Maps of registers -/

/-- A key that was removed keeps a register without a value. -/
structure LWWMap (K V : Type) where
  map : AssocMap K (LWWRegister (Option V))

namespace LWWMap

variable {K V : Type} [DecidableEq K]

def new : LWWMap K V := ⟨∅⟩

/-- Writes the register of a key, which the first write creates. -/
def write (self : LWWMap K V) (key : K) (value : Option V) (timestamp : Int) : LWWMap K V :=
  match self.map.lookup key with
  | some register => ⟨self.map.insert key (register.set value timestamp)⟩
  | none => ⟨self.map.insert key { value := value, timestamp := timestamp }⟩

def put (self : LWWMap K V) (key : K) (value : V) (timestamp : Int) : LWWMap K V :=
  self.write key (some value) timestamp

def remove (self : LWWMap K V) (key : K) (timestamp : Int) : LWWMap K V :=
  self.write key none timestamp

def merge [Serialize V] (self other : LWWMap K V) : LWWMap K V :=
  ⟨self.map.joinWith LWWRegister.merge other.map⟩

end LWWMap

/-! ### Sequences -/

abbrev Uuid := Nat

structure RgaNode (T : Type) where
  id : Uuid
  elem : T
  originLeft : Option Uuid
  tombstone : Bool
  timestamp : Int

namespace RgaNode

variable {T : Type}

/-- Only the tombstone of a node changes. -/
def merge (node otherNode : RgaNode T) : RgaNode T :=
  if otherNode.tombstone then { node with tombstone := true } else node

/-- Nodes that agree on all that does not change. -/
def Immutable (a b : RgaNode T) : Prop :=
  a.id = b.id ∧ a.elem = b.elem ∧ a.originLeft = b.originLeft ∧ a.timestamp = b.timestamp

theorem merge_comm {a b : RgaNode T} (h : a.Immutable b) : a.merge b = b.merge a := by
  rcases a with ⟨i, e, o, s, t⟩
  rcases b with ⟨i', e', o', s', t'⟩
  rcases h with ⟨hi, he, ho, ht⟩
  cases hi
  cases he
  cases ho
  cases ht
  cases s <;> cases s' <;> rfl

theorem merge_assoc (a b c : RgaNode T) : (a.merge b).merge c = a.merge (b.merge c) := by
  rcases b with ⟨_, _, _, s, _⟩
  rcases c with ⟨_, _, _, s', _⟩
  cases s <;> cases s' <;> rfl

theorem merge_idem (a : RgaNode T) : a.merge a = a := by
  rcases a with ⟨_, _, _, s, _⟩
  cases s <;> rfl

end RgaNode

structure Rga (T : Type) where
  nodes : AssocMap Uuid (RgaNode T)

namespace Rga

variable {T : Type}

def new : Rga T := ⟨∅⟩

/-- Inserts an element under the id that was drawn for it. -/
def insert (self : Rga T) (id : Uuid) (prevId : Option Uuid) (elem : T) (timestamp : Int) :
    Rga T :=
  ⟨self.nodes.insert id
    { id := id, elem := elem, originLeft := prevId, tombstone := false, timestamp := timestamp }⟩

def delete (self : Rga T) (id : Uuid) : Rga T :=
  match self.nodes.lookup id with
  | some node => ⟨self.nodes.insert id { node with tombstone := true }⟩
  | none => self

def merge (self other : Rga T) : Rga T := ⟨self.nodes.joinWith RgaNode.merge other.nodes⟩

end Rga

/-! ### Clocks -/

structure VectorClock where
  clocks : Counters

namespace VectorClock

def new : VectorClock := ⟨∅⟩

def increment (self : VectorClock) (actor : String) : Option VectorClock :=
  (self.clocks.bump actor 1).map VectorClock.mk

def get (self : VectorClock) (actor : String) : Nat := self.clocks.count actor

def mergeClock (self other : VectorClock) : VectorClock := ⟨self.clocks.join other.clocks⟩

def happenedBefore (self other : VectorClock) : Bool :=
  if self.clocks.toList.any fun e => other.get e.1 < e.2 then false
  else
    (self.clocks.toList.any fun e => e.2 < other.get e.1) ||
      other.clocks.toList.any fun e => e.1 ∉ self.clocks && 0 < e.2

/-- The causal order, and `none` for concurrent clocks. -/
def causalCmp (self other : VectorClock) : Option Ordering :=
  if self.clocks.Same other.clocks then some .eq
  else if self.happenedBefore other then some .lt
  else if other.happenedBefore self then some .gt
  else none

/-- A clock happened before another if no count is larger and some count is smaller. -/
theorem happenedBefore_iff (a b : VectorClock) : a.happenedBefore b = true ↔
    (∀ x, a.get x ≤ b.get x) ∧ ∃ x, a.get x < b.get x := by
  -- an absent actor counts zero, so the loops over the entries see all larger counts
  have hget : ∀ (c : VectorClock) (x : String), c.get x ≠ 0 → (x, c.get x) ∈ c.clocks.toList := by
    intro c x hx
    rw [mem_toList]
    unfold get Counters.count at hx ⊢
    cases hl : c.clocks.lookup x with
    | none =>
      rw [hl] at hx
      exact absurd rfl hx
    | some => rfl
  have hmem : ∀ (c : VectorClock) (e : String × Nat), e ∈ c.clocks.toList → c.get e.1 = e.2 := by
    intro c e he
    rw [get, Counters.count, mem_toList.mp he]
    rfl
  have hle : (a.clocks.toList.any fun e => b.get e.1 < e.2) = false ↔
      ∀ x, a.get x ≤ b.get x := by
    simp only [List.any_eq_false, decide_eq_true_eq, not_lt]
    constructor
    · intro h x
      by_cases hx : a.get x = 0
      · rw [hx]
        exact Nat.zero_le _
      · exact h _ (hget a x hx)
    · intro h e he
      rw [← hmem a e he]
      exact h e.1
  unfold happenedBefore
  by_cases hany : (a.clocks.toList.any fun e => b.get e.1 < e.2) = true
  · rw [if_pos hany]
    refine ⟨fun h => (by cases h), fun h => ?_⟩
    rw [hle.mpr h.1] at hany
    cases hany
  · rw [if_neg hany, Bool.or_eq_true]
    rw [Bool.not_eq_true, hle] at hany
    refine ⟨fun h => ⟨hany, ?_⟩, fun h => ?_⟩
    · rcases h with h | h
      · rcases List.any_eq_true.mp h with ⟨e, he, hlt⟩
        exact ⟨e.1, by rw [hmem a e he]; exact of_decide_eq_true hlt⟩
      · rcases List.any_eq_true.mp h with ⟨e, he, hlt⟩
        rw [Bool.and_eq_true, decide_eq_true_eq, decide_eq_true_eq] at hlt
        refine ⟨e.1, ?_⟩
        -- the second loop: an actor that only the later clock has
        have hzero : a.get e.1 = 0 := by
          rw [get, Counters.count, notMem_iff_lookup.mp hlt.1]
          rfl
        rw [hzero, hmem b e he]
        exact hlt.2
    · rcases h.2 with ⟨x, hx⟩
      by_cases hin : x ∈ a.clocks
      · left
        rcases mem_iff_lookup.mp hin with ⟨v, hv⟩
        have he := mem_toList.mpr hv
        refine List.any_eq_true.mpr ⟨_, he, ?_⟩
        rw [hmem a _ he] at hx
        exact decide_eq_true hx
      · right
        have hpos : 0 < b.get x := Nat.zero_lt_of_lt hx
        refine List.any_eq_true.mpr ⟨_, hget b x hpos.ne', ?_⟩
        rw [Bool.and_eq_true]
        exact ⟨decide_eq_true hin, decide_eq_true hpos⟩

end VectorClock

inductive MergeResult
  | keptSelf
  | tookOther
  | concurrent
  deriving DecidableEq

structure VCRegister (T : Type) where
  value : T
  clock : VectorClock

namespace VCRegister

variable {T : Type}

def new (value : T) (actor : String) : Option (VCRegister T) :=
  (VectorClock.new.increment actor).map fun clock => { value := value, clock := clock }

def set (self : VCRegister T) (value : T) (actor : String) : Option (VCRegister T) :=
  (self.clock.increment actor).map fun clock => { value := value, clock := clock }

/-- The causally newer value is kept, and among concurrent ones the value with the larger
    serialized form. -/
def mergeRegister [Serialize T] (self other : VCRegister T) : VCRegister T × MergeResult :=
  match self.clock.causalCmp other.clock with
  | some .lt =>
    ({ value := other.value, clock := self.clock.mergeClock other.clock }, .tookOther)
  | some .gt | some .eq => ({ self with clock := self.clock.mergeClock other.clock }, .keptSelf)
  | none =>
    let value := match toVec self.value, toVec other.value with
      | none, none => self.value
      | _, _ => if key self.value < key other.value then other.value else self.value
    ({ value := value, clock := self.clock.mergeClock other.clock }, .concurrent)

def merge [Serialize T] (self other : VCRegister T) : VCRegister T := (self.mergeRegister other).1

end VCRegister

end UniDb.Crdts
