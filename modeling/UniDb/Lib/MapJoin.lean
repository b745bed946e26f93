import Mathlib.Algebra.Order.Group.Nat
import Mathlib.Order.Lattice.Nat
import UniDb.Lib.KeyedFold

/-!
# Joins of Maps

Merging one map into another, key by key.

The loop goes over the entries of the other map and combines each value with what the map
has under that key. The result does not depend on the iteration order, and what it shows
under a key depends on the two values under that key alone. The laws of the join therefore
follow from the laws of the function that combines two values, for just the values that
meet under a key.

## Main definitions

* `AssocMap.Same`: Equality of maps, whatever their iteration orders.
* `AssocMap.joinWith`: The merge loop.
* `Counters`, `Counters.join`, `Counters.bump`: Counters per actor.

## Theorems

* `AssocMap.lookup_joinWith`: The join, key by key.
* `AssocMap.joinWith_comm`, `AssocMap.joinWith_assoc`, `AssocMap.joinWith_idem`: Laws of
  the join from laws of the combining function.
* `AssocMap.joinWith_insert_iff`: A map joined with itself after one write.
* `Counters.count_join`: The join of counters is the larger count.
* `Counters.join_of_le`: Counters join to the larger ones.
-/

namespace UniDb

open Option AssocMap

namespace AssocMap

variable {K V : Type} [DecidableEq K]

/-- Two maps with the same entries. -/
def Same (m n : AssocMap K V) : Prop := ∀ k, m.lookup k = n.lookup k

variable {m n : AssocMap K V}

theorem Same.symm (h : m.Same n) : n.Same m := fun k => (h k).symm

theorem Same.trans {l : AssocMap K V} (h : m.Same n) (h' : n.Same l) : m.Same l :=
  fun k => (h k).trans (h' k)

/-- Equality of maps can be checked at the keys of both. -/
instance [DecidableEq V] (m n : AssocMap K V) : Decidable (m.Same n) :=
  decidable_of_iff (∀ k ∈ m.keys ++ n.keys, m.lookup k = n.lookup k) <| by
    refine ⟨fun h k => ?_, fun h k _ => h k⟩
    by_cases hk : k ∈ m.keys ++ n.keys
    · exact h k hk
    · rw [List.mem_append, not_or] at hk
      rw [AList.lookup_eq_none.mpr hk.1, AList.lookup_eq_none.mpr hk.2]

/-- Merge one entry into `m`. -/
def joinEntry (f : V → V → V) (m : AssocMap K V) (e : K × V) : AssocMap K V :=
  match m.lookup e.1 with
  | some v => m.insert e.1 (f v e.2)
  | none => m.insert e.1 e.2

theorem joinEntry_actsAt (f : V → V → V) :
    ActsAt (fun (m : AssocMap K V) k => m.lookup k) Prod.fst (joinEntry f)
      fun e o => merge f o (some e.2) := by
  intro m e a
  unfold joinEntry
  cases hl : m.lookup e.1 with
  | none | some =>
    simp only [lookup_insert_eq]
    split
    · rename_i ha
      rw [ha, hl]
      rfl
    · rfl

/-- Merge the entries of `n` into `m`. -/
def joinWith (f : V → V → V) (m n : AssocMap K V) : AssocMap K V :=
  n.toList.foldl (joinEntry f) m

theorem lookup_joinWith (f : V → V → V) (m n : AssocMap K V) (k : K) :
    (m.joinWith f n).lookup k = merge f (m.lookup k) (n.lookup k) := by
  rw [joinWith, (joinEntry_actsAt f).foldl_toList]
  cases n.lookup k with
  | none => cases m.lookup k <;> rfl
  | some => rfl

variable {f : V → V → V}

theorem joinWith_comm (hf : ∀ k v w, m.lookup k = some v → n.lookup k = some w → f v w = f w v) :
    (m.joinWith f n).Same (n.joinWith f m) := by
  intro k
  rw [lookup_joinWith, lookup_joinWith]
  cases hm : m.lookup k with
  | none => cases n.lookup k <;> rfl
  | some v =>
    cases hn : n.lookup k with
    | none => rfl
    | some w => exact congrArg some (hf k v w hm hn)

theorem joinWith_assoc {l : AssocMap K V}
    (hf : ∀ k u v w, m.lookup k = some u → n.lookup k = some v → l.lookup k = some w → f (f u v) w =
      f u (f v w)) :
    ((m.joinWith f n).joinWith f l).Same (m.joinWith f (n.joinWith f l)) := by
  intro k
  simp only [lookup_joinWith]
  cases hm : m.lookup k with
  | none => cases n.lookup k <;> cases l.lookup k <;> rfl
  | some u =>
    cases hn : n.lookup k with
    | none => cases l.lookup k <;> rfl
    | some v =>
      cases hl : l.lookup k with
      | none => rfl
      | some w => exact congrArg some (hf k u v w hm hn hl)

/-- A map absorbs another whose values its own absorb. -/
theorem joinWith_of_absorbs
    (hf : ∀ k w, n.lookup k = some w → ∃ v, m.lookup k = some v ∧ f v w = v) :
    (m.joinWith f n).Same m := by
  intro k
  rw [lookup_joinWith]
  cases hn : n.lookup k with
  | none => cases m.lookup k <;> rfl
  | some w =>
    rcases hf k w hn with ⟨v, hv, hvw⟩
    rw [hv]
    exact congrArg some hvw

theorem joinWith_idem (hf : ∀ v, f v v = v) (m : AssocMap K V) : (m.joinWith f m).Same m :=
  joinWith_of_absorbs fun _ v hv => ⟨v, hv, hf v⟩

/-- A map and the map after one write absorb each other exactly if the new value and the value
    that it replaced do. -/
theorem joinWith_insert_iff (hf : ∀ v, f v v = v) (m : AssocMap K V) (k : K) (v : V) :
    (Same (joinWith f (m.insert k v) m) (m.insert k v) ∧
        Same (joinWith f m (m.insert k v)) (m.insert k v)) ↔
      ∀ w, m.lookup k = some w → f v w = v ∧ f w v = v := by
  have hself : ∀ o : Option V, merge f o o = o := by
    intro o
    cases o with
    | none => rfl
    | some w => exact congrArg some (hf w)
  constructor
  · rintro ⟨h₁, h₂⟩ w hw
    have h₁' := h₁ k
    have h₂' := h₂ k
    rw [lookup_joinWith, lookup_insert_eq, if_pos rfl, hw] at h₁' h₂'
    exact ⟨some.inj h₁', some.inj h₂'⟩
  · intro h
    refine ⟨fun a => ?_, fun a => ?_⟩ <;> rw [lookup_joinWith, lookup_insert_eq]
    · split
      · rename_i ha
        rw [ha]
        cases hw : m.lookup k with
        | none => rfl
        | some w => exact congrArg some (h w hw).1
      · exact hself _
    · split
      · rename_i ha
        rw [ha]
        cases hw : m.lookup k with
        | none => rfl
        | some w => exact congrArg some (h w hw).2
      · exact hself _

end AssocMap

/-- One counter per actor. An actor without an entry counts zero. -/
abbrev Counters := AssocMap String Nat

namespace Counters

variable (m n : Counters)

def count (a : String) : Nat := (m.lookup a).getD 0

/-- The pointwise maximum: an entry is made where there is none, and then raised. -/
def join : Counters :=
  n.toList.foldl (fun m e => m.insert e.1 (max (m.count e.1) e.2)) m

/-- Adds to the counter of an actor. There is no result if the counter, which has 64 bits,
    overflows. -/
def bump (a : String) (v : Nat) : Option Counters :=
  if m.count a + v < 2 ^ 64 then some (m.insert a (m.count a + v)) else none

theorem join_same_joinWith : (join m n).Same (joinWith max m n) := by
  intro k
  have hacts : ActsAt (fun (m : Counters) k => m.lookup k) Prod.fst
      (fun (m : Counters) (e : String × Nat) => m.insert e.1 (max (m.count e.1) e.2))
      fun e o => merge max o (some e.2) := by
    intro m e a
    beta_reduce
    rw [lookup_insert_eq, count]
    split
    · rename_i ha
      rw [ha]
      cases m.lookup e.1 with
      | none => exact congrArg some (Nat.zero_max e.2)
      | some => rfl
    · rfl
  rw [join, hacts.foldl_toList, lookup_joinWith]
  cases n.lookup k with
  | none => cases m.lookup k <;> rfl
  | some => rfl

theorem lookup_join (k : String) : (join m n).lookup k = merge max (m.lookup k) (n.lookup k) := by
  rw [join_same_joinWith, lookup_joinWith]

@[simp] theorem count_join (a : String) : count (join m n) a = max (count m a) (count n a) := by
  rw [count, lookup_join, count, count]
  cases m.lookup a with
  | none =>
    cases n.lookup a with
    | none => rfl
    | some w => exact (Nat.zero_max w).symm
  | some v =>
    cases n.lookup a with
    | none => exact (Nat.max_zero v).symm
    | some => rfl

theorem join_comm : (join m n).Same (join n m) := by
  intro k
  rw [lookup_join, lookup_join]
  have hcomm : Std.Commutative (merge (max : Nat → Nat → Nat)) := inferInstance
  exact hcomm.comm _ _

theorem join_assoc (l : Counters) : (join (join m n) l).Same (join m (join n l)) := by
  intro k
  simp only [lookup_join]
  have hassoc : Std.Associative (merge (max : Nat → Nat → Nat)) := inferInstance
  exact hassoc.assoc _ _ _

variable {m n} {m' : Counters}

/-- Entries that are at most those of `n`, at keys that `n` has. -/
def Le (m n : Counters) : Prop := ∀ k v, m.lookup k = some v → ∃ w, n.lookup k = some w ∧ v ≤ w

theorem Le.refl (m : Counters) : Le m m := fun _ v hv => ⟨v, hv, le_rfl⟩

theorem join_of_le (h : Le n m) : (join m n).Same m := by
  refine (join_same_joinWith m n).trans (joinWith_of_absorbs ?_)
  intro k w hw
  rcases h k w hw with ⟨v, hv, hle⟩
  exact ⟨v, hv, max_eq_left hle⟩

theorem join_idem (m : Counters) : (join m m).Same m := join_of_le (Le.refl m)

variable {a : String} {v : Nat}

theorem bump_ok (h : m.bump a v = some m') :
    m.count a + v < 2 ^ 64 ∧ m' = m.insert a (m.count a + v) := by
  unfold bump at h
  split at h
  · rename_i hlt
    exact ⟨hlt, (some.inj h).symm⟩
  · cases h

theorem le_bump (h : m.bump a v = some m') : Le m m' := by
  rw [(bump_ok h).2]
  intro k w hw
  by_cases hk : k = a
  · subst hk
    refine ⟨_, by rw [lookup_insert_eq, if_pos rfl], ?_⟩
    rw [count, hw]
    exact Nat.le_add_right w v
  · exact ⟨w, by rw [lookup_insert_eq, if_neg hk, hw], le_rfl⟩

theorem count_insert (m : Counters) (a b : String) (v : Nat) :
    count (m.insert a v) b = if b = a then v else m.count b := by
  rw [count, lookup_insert_eq]
  split <;> rfl

theorem count_bump (h : m.bump a v = some m') (b : String) :
    count m' b = if b = a then m.count a + v else m.count b := by
  rw [(bump_ok h).2, count_insert]

end Counters

end UniDb
