import Mathlib.Data.List.Sort
import Mathlib.Data.List.Nodup

/-!
# Sorted Lists

Sorting a list, removing repeats, and cutting a sorted list at a key.

A list that is sorted and then stripped of repeats is the one way to write down
its set of elements, so two such lists are compared by comparing what they
contain. A list sorted by a numeric key is cut at a value by counting: as many
elements as have a smaller key come before the first element that has not.

## Main definitions

* `eraseRepeats`: Keep one of each run of equal elements.
* `sortDedup`: Sort and keep one of each element.

## Theorems

* `mem_sortDedup`, `sortDedup_pairwise`: What the result is.
* `sortDedup_eq_iff`: It depends on the set of elements only.
* `filter_lt_append_filter_le`: Cutting a sorted list at a key.
* `drop_countP_lt`: The elements from a key on.
-/

namespace UniDb

open List

variable {α : Type}

section Dedup

variable [DecidableEq α]

/-- Keep one of each run of equal elements. -/
def eraseRepeats : List α → List α
  | [] => []
  | [a] => [a]
  | a :: b :: l => if a = b then eraseRepeats (b :: l) else a :: eraseRepeats (b :: l)

@[simp] theorem mem_eraseRepeats (l : List α) (x : α) : x ∈ eraseRepeats l ↔ x ∈ l := by
  fun_induction eraseRepeats l with
  | case1 | case2 => rfl
  | case3 a l ih | case4 a b l hne ih => simp [ih]

variable (le : α → α → Prop)

/-- In a sorted list equal elements are next to each other, so none is left. -/
theorem eraseRepeats_pairwise [Std.Antisymm le] {l : List α} (h : l.Pairwise le) :
    (eraseRepeats l).Pairwise fun a b => le a b ∧ a ≠ b := by
  fun_induction eraseRepeats l with
  | case1 => exact List.Pairwise.nil
  | case2 a => exact pairwise_singleton _ a
  | case3 a l ih => exact ih h.of_cons
  | case4 a b l hne ih =>
    have hb := rel_of_pairwise_cons h (mem_cons_self (a := b) (l := l))
    refine pairwise_cons.mpr ⟨?_, ih h.of_cons⟩
    intro x hx
    rw [mem_eraseRepeats] at hx
    have hax := rel_of_pairwise_cons h hx
    refine ⟨hax, ?_⟩
    -- an equal element further on would be below its own successor
    rintro rfl
    rcases mem_cons.mp hx with rfl | hmem
    · exact hne rfl
    · exact hne (antisymm hb (rel_of_pairwise_cons h.of_cons hmem))

variable [DecidableRel le]

/-- Sort a list and keep one of each of its elements. -/
def sortDedup (l : List α) : List α := eraseRepeats (l.insertionSort le)

@[simp] theorem mem_sortDedup (l : List α) (x : α) : x ∈ sortDedup le l ↔ x ∈ l := by
  rw [sortDedup, mem_eraseRepeats, mem_insertionSort]

variable [Std.Total le] [IsTrans α le] [Std.Antisymm le]

theorem sortDedup_pairwise (l : List α) : (sortDedup le l).Pairwise fun a b => le a b ∧ a ≠ b :=
  eraseRepeats_pairwise le (pairwise_insertionSort le l)

/-- The result depends on the set of elements only. -/
theorem sortDedup_eq_iff (l l' : List α) :
    sortDedup le l = sortDedup le l' ↔ ∀ x, x ∈ l ↔ x ∈ l' := by
  constructor
  · intro h x
    rw [← mem_sortDedup le l x, h, mem_sortDedup]
  · intro h
    have hs := sortDedup_pairwise le l
    have hs' := sortDedup_pairwise le l'
    have hperm : (sortDedup le l).Perm (sortDedup le l') := by
      refine (perm_ext_iff_of_nodup (hs.imp fun h => h.2) (hs'.imp fun h => h.2)).mpr ?_
      intro x
      rw [mem_sortDedup, mem_sortDedup]
      exact h x
    refine hperm.eq_of_pairwise ?_ hs hs'
    intro a b _ _ hab hba
    exact antisymm hab.1 hba.1

end Dedup

section Cut

variable {f : α → Nat} {l : List α}

/-- The elements with a smaller key come first. -/
theorem filter_lt_append_filter_le (h : l.Pairwise fun a b => f a ≤ f b) (v : Nat) :
    l.filter (fun a => decide (f a < v)) ++ l.filter (fun a => decide (v ≤ f a)) = l := by
  induction l with
  | nil => rfl
  | cons a l ih =>
    rw [pairwise_cons] at h
    by_cases ha : f a < v
    · rw [filter_cons_of_pos (by simpa using ha), filter_cons_of_neg (by simpa using ha),
        cons_append, ih h.2]
    · -- nothing after `a` has a smaller key than `a`
      have hnone : l.filter (fun b => decide (f b < v)) = [] := by
        rw [filter_eq_nil_iff]
        intro b hb
        have hle := h.1 b hb
        simp only [decide_eq_true_eq]
        omega
      have hrest := ih h.2
      rw [hnone, nil_append] at hrest
      rw [filter_cons_of_neg (by simpa using ha), filter_cons_of_pos (by simpa using ha),
        hnone, nil_append, hrest]

/-- Skipping as many elements as have a smaller key leaves the others. -/
theorem drop_countP_lt (h : l.Pairwise fun a b => f a ≤ f b) (v : Nat) :
    l.drop (l.countP fun a => decide (f a < v)) = l.filter fun a => decide (v ≤ f a) := by
  have hcut := filter_lt_append_filter_le h v
  rw [countP_eq_length_filter]
  nth_rewrite 2 [← hcut]
  exact drop_left

/-- Of the elements from a key on, those with this key come first. -/
theorem take_countP_lt (h : l.Pairwise fun a b => f a ≤ f b) (v : Nat) :
    l.take (l.countP fun a => decide (f a < v)) = l.filter fun a => decide (f a < v) := by
  have hcut := filter_lt_append_filter_le h v
  rw [countP_eq_length_filter]
  nth_rewrite 2 [← hcut]
  exact take_left

end Cut

end UniDb
