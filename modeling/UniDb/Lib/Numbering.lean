import Mathlib.Data.List.MinMax
import Mathlib.Order.Lattice.Nat
import UniDb.Lib.AssocMap

/-!
# Numbered Tables

Tables whose entries carry numbers, and when the numbers tell the keys apart.

A new entry gets the number after the largest one, so a table that only grows
this way has distinct numbers. Laying a list of entries over a table keeps the
numbers of both, and the result has distinct numbers exactly if no entry that
was laid over has the number of an entry that shows through.

## Main definitions

* `Numbered`: No two entries have a number in common.
* `maxNum`: The largest number, zero in an empty table.
* `insertAll`: The table with a list of entries laid over it.
* `keyOf`: The key that a number is found under.
* `Laid`: A table and a view of it that had entries of its own added.

## Theorems

* `Numbered.insert_of_lt`: A number above all others keeps them distinct.
* `numbered_insertAll_iff`: When laying entries over a table keeps them distinct.
* `Laid.grow`, `Laid.add`, `Laid.rebuild`: The table grows, the view grows, and
  the view is built anew.
* `numbered_iff_keyOf`: Numbers are distinct exactly if each leads back to its key.
-/

namespace UniDb

open AssocMap List Prod

variable {K V : Type} [DecidableEq K] (num : V → Nat)

/-- No two entries have a number in common. -/
def Numbered (m : AssocMap K V) : Prop :=
  ∀ k k' v v', m.lookup k = some v → m.lookup k' = some v' → num v = num v' → k = k'

/-- The largest number, zero in an empty table. -/
def maxNum (m : AssocMap K V) : Nat := (m.toList.map fun e => num e.2).foldr max 0

/-- The key of an entry with the number. -/
def keyOf (m : AssocMap K V) (n : Nat) : Option K :=
  (m.toList.find? fun e => num e.2 = n).map fst

/-- The entries of the list are laid over the table, the last one of a key wins. -/
def insertAll (m : AssocMap K V) (l : List (K × V)) : AssocMap K V :=
  l.foldl (fun m e => m.insert e.1 e.2) m

variable {num} {m : AssocMap K V} {k : K}

theorem le_maxNum {v : V} (h : m.lookup k = some v) : num v ≤ maxNum num m :=
  le_max_of_le' 0 (mem_map.mpr ⟨(k, v), mem_toList.mpr h, rfl⟩)
    le_rfl

/-- A number above all others keeps them distinct. -/
theorem Numbered.insert_of_lt (h : Numbered num m) {v : V} (hv : maxNum num m < num v) :
    Numbered num (m.insert k v) := by
  intro a b x y ha hb hnum
  rw [lookup_insert_eq] at ha hb
  split at ha <;> split at hb
  · next hak hbk => rw [hak, hbk]
  · cases ha
    have hle : num y ≤ maxNum num m := le_maxNum hb
    omega
  · cases hb
    have hle : num x ≤ maxNum num m := le_maxNum ha
    omega
  · exact h a b x y ha hb hnum

variable {l : List (K × V)}

theorem lookup_insertAll_of_notMem (hk : k ∉ l.map fst) :
    (insertAll m l).lookup k = m.lookup k := by
  induction l generalizing m with
  | nil => rfl
  | cons e l ih =>
    simp only [map_cons, mem_cons, not_or] at hk
    simp only [insertAll, foldl_cons] at ih ⊢
    rw [ih hk.2, lookup_insert_eq, if_neg hk.1]

theorem lookup_insertAll_of_mem (hl : (l.map fst).Nodup) {v : V} (h : (k, v) ∈ l) :
    (insertAll m l).lookup k = some v := by
  induction l generalizing m with
  | nil => cases h
  | cons e l ih =>
    rw [map_cons, nodup_cons] at hl
    rcases mem_cons.mp h with rfl | h
    · -- no later entry has the key
      show (insertAll (m.insert k v) l).lookup k = some v
      rw [lookup_insertAll_of_notMem hl.1, lookup_insert_eq, if_pos rfl]
    · exact ih hl.2 h

theorem lookup_insertAll_iff (hl : (l.map fst).Nodup) {v : V} :
    (insertAll m l).lookup k = some v ↔ (k, v) ∈ l ∨ k ∉ l.map fst ∧ m.lookup k = some v := by
  by_cases hk : k ∈ l.map fst
  · rcases mem_map.mp hk with ⟨⟨_, v'⟩, hmem, rfl⟩
    rw [lookup_insertAll_of_mem hl hmem, Option.some.injEq]
    constructor
    · rintro rfl
      exact .inl hmem
    · rintro (h | h)
      · have hv := lookup_insertAll_of_mem (m := m) hl h
        rw [lookup_insertAll_of_mem hl hmem] at hv
        exact Option.some.inj hv
      · exact absurd hk h.1
  · rw [lookup_insertAll_of_notMem hk]
    constructor
    · exact fun h => .inr ⟨hk, h⟩
    · rintro (h | h)
      · exact absurd (mem_map.mpr ⟨_, h, rfl⟩) hk
      · exact h.2

/-- The numbers stay distinct exactly if no entry that shows through has the
    number of one that was laid over. -/
theorem numbered_insertAll_iff (hm : Numbered num m) (hl : (l.map fst).Nodup)
    (hnum : ∀ e ∈ l, ∀ e' ∈ l, num e.2 = num e'.2 → e.1 = e'.1) :
    Numbered num (insertAll m l) ↔ ∀ e ∈ l, ∀ k v, m.lookup k = some v →
      k ∉ l.map fst → num e.2 ≠ num v := by
  constructor
  · intro h e he k v hk hnot heq
    have hkey := h e.1 k e.2 v ((lookup_insertAll_iff hl).mpr (.inl he))
      ((lookup_insertAll_iff hl).mpr (.inr ⟨hnot, hk⟩)) heq
    exact hnot (hkey ▸ mem_map.mpr ⟨e, he, rfl⟩)
  · intro h a b x y ha hb heq
    rcases (lookup_insertAll_iff hl).mp ha with ha | ⟨hnota, ha⟩
    · rcases (lookup_insertAll_iff hl).mp hb with hb | ⟨hnotb, hb⟩
      · exact hnum (a, x) ha (b, y) hb heq
      · exact absurd heq (h (a, x) ha b y hb hnotb)
    · rcases (lookup_insertAll_iff hl).mp hb with hb | ⟨hnotb, hb⟩
      · exact absurd heq.symm (h (b, y) hb a x ha hnota)
      · exact hm a b x y ha hb heq

/-- A table, entries that were added to a view of it, and the view. An added
    entry got a number above all that the view had. -/
structure Laid (num : V → Nat) (table : AssocMap K V) (added : List (K × V))
    (view : AssocMap K V) : Prop where
  table : Numbered num table
  keys : (added.map fst).Nodup
  nums : ∀ e ∈ added, ∀ e' ∈ added, num e.2 = num e'.2 → e.1 = e'.1
  shown : ∀ e ∈ added, view.lookup e.1 = some e.2

section Laid

variable {view : AssocMap K V} {added : List (K × V)} {k : K} {v : V}

theorem Laid.of_numbered (h : Numbered num m) : Laid num m [] m :=
  ⟨h, nodup_nil, nofun, nofun⟩

section

variable (h : Laid num m added view)

include h

/-- The table grows, and the view does not see it. -/
theorem Laid.grow (hv : maxNum num m < num v) : Laid num (m.insert k v) added view :=
  { h with table := h.table.insert_of_lt hv }

/-- An entry is added to the view. -/
theorem Laid.add (hk : k ∉ view) (hv : maxNum num view < num v) :
    Laid num m (added ++ [(k, v)]) (view.insert k v) := by
  have hlt : ∀ e ∈ added, num e.2 < num v := fun e he =>
    lt_of_le_of_lt (le_maxNum (h.shown e he)) hv
  have hne : ∀ e ∈ added, e.1 ≠ k := by
    rintro e he rfl
    exact hk (mem_of_lookup (h.shown e he))
  refine ⟨h.table, ?_, ?_, ?_⟩
  · rw [map_append, nodup_append]
    refine ⟨h.keys, nodup_singleton _, ?_⟩
    rintro a ha b hb rfl
    rcases mem_map.mp ha with ⟨e, he, rfl⟩
    exact hne e he (mem_singleton.mp hb)
  · intro e he e' he' heq
    rcases mem_append.mp he with he | he <;> rcases mem_append.mp he' with he' | he'
    · exact h.nums e he e' he' heq
    · rw [mem_singleton.mp he'] at heq
      exact absurd heq (ne_of_lt (hlt e he))
    · rw [mem_singleton.mp he] at heq
      exact absurd heq.symm (ne_of_lt (hlt e' he'))
    · rw [mem_singleton.mp he, mem_singleton.mp he']
  · intro e he
    rw [lookup_insert_eq]
    rcases mem_append.mp he with he | he
    · rw [if_neg (hne e he), h.shown e he]
    · rw [mem_singleton.mp he, if_pos rfl]

/-- The view is built anew from the table. -/
theorem Laid.rebuild : Laid num m added (insertAll m added) :=
  { h with shown := fun _ he => (lookup_insertAll_iff h.keys).mpr (.inl he) }

end

end Laid

/-- Numbers are distinct exactly if each leads back to its key. -/
theorem numbered_iff_keyOf :
    Numbered num m ↔ ∀ k v, m.lookup k = some v → keyOf num m (num v) = some k := by
  constructor
  · intro h k v hk
    have hsome : (m.toList.find? fun e => num e.2 = num v).isSome := by
      rw [find?_isSome]
      exact ⟨(k, v), mem_toList.mpr hk, by simp⟩
    rcases Option.isSome_iff_exists.mp hsome with ⟨⟨k', v'⟩, hfind⟩
    have hmem := mem_toList.mp (mem_of_find?_eq_some hfind)
    have hnum : num v' = num v := by simpa using find?_some hfind
    rw [keyOf, hfind, h k k' v v' hk hmem hnum.symm]
    rfl
  · intro h k k' v v' hk hk' hnum
    have hback := h k v hk
    rw [hnum, h k' v' hk'] at hback
    exact (Option.some.inj hback).symm

end UniDb
