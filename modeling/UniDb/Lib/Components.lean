import Mathlib.Data.Finset.Basic
import Mathlib.Logic.Relation

/-!
# Strongly Connected Components

Vertices that reach one another, and lists of sets that are the components of a graph.

A list of sets is *layered* if each set is strongly connected and its edges lead into
itself or into an earlier set. That is what an algorithm that emits one component after
another maintains, and it says all there is to say: each set of a layered list is a whole
class of mutual reachability, and every edge leads to a set that is no later. A list of
components in this order is therefore also an order in which to evaluate them.

## Main definitions

* `Reach`, `Mutual`: Reachability in both senses.
* `Layered`: Strongly connected sets, each closed up to the earlier ones.

## Theorems

* `Layered.mem_iff_mutual`: A set of a layered list is a class of mutual reachability.
* `Layered.getElem?_unique`: A vertex is in one set at most.
* `Layered.edge_le`: Edges lead to sets that are no later.
-/

namespace UniDb

open List

variable {V : Type}

/-- Reachability along any number of edges. -/
abbrev Reach (E : V → V → Prop) : V → V → Prop := Relation.ReflTransGen E

/-- Vertices that reach one another. -/
def Mutual (E : V → V → Prop) (x y : V) : Prop := Reach E x y ∧ Reach E y x

theorem Mutual.refl (E : V → V → Prop) (x : V) : Mutual E x x := ⟨.refl, .refl⟩

/-- Each set is strongly connected, new, and closed up to the sets before it. -/
inductive Layered (E : V → V → Prop) : List (Finset V) → Prop
  | nil : Layered E []
  | snoc {Cs : List (Finset V)} {C : Finset V} : Layered E Cs → C.Nonempty →
      (∀ x ∈ C, ∀ y ∈ C, Reach E x y) →
      (∀ x ∈ C, ∀ y, E x y → y ∈ C ∨ ∃ D ∈ Cs, y ∈ D) → (∀ x ∈ C, ∀ D ∈ Cs, x ∉ D) →
      Layered E (Cs ++ [C])

namespace Layered

variable {E : V → V → Prop} {Cs : List (Finset V)} (h : Layered E Cs)

include h

variable {C : Finset V} {x y : V}

/-- The sets of a layered list are closed under edges. -/
theorem closed (hx : ∃ C ∈ Cs, x ∈ C) (hE : E x y) : ∃ C ∈ Cs, y ∈ C := by
  induction h with
  | nil =>
    rcases hx with ⟨C, hC, -⟩
    cases hC
  | @snoc Cs C _ _ _ hedge _ ih =>
    rcases hx with ⟨D, hD, hx⟩
    rcases mem_append.mp hD with hD | hD
    · rcases ih ⟨D, hD, hx⟩ with ⟨D', hD', hy⟩
      exact ⟨D', mem_append_left _ hD', hy⟩
    · rw [mem_singleton.mp hD] at hx
      rcases hedge x hx y hE with hy | ⟨D', hD', hy⟩
      · exact ⟨C, mem_append_right _ (mem_singleton_self C), hy⟩
      · exact ⟨D', mem_append_left _ hD', hy⟩

theorem closed_reach (hx : ∃ C ∈ Cs, x ∈ C) (hr : Reach E x y) : ∃ C ∈ Cs, y ∈ C := by
  induction hr with
  | refl => exact hx
  | tail _ hE ih => exact h.closed ih hE

/-- The last set keeps what it reaches in itself or in the earlier sets, and the earlier sets
    do not lead back. -/
theorem mem_iff_mutual (hC : C ∈ Cs) {x : V} (hx : x ∈ C) (y : V) :
    y ∈ C ↔ Mutual E x y := by
  induction h with
  | nil => cases hC
  | @snoc Cs D hCs hne hconn hedge hnew ih =>
    rcases mem_append.mp hC with hC | hC
    · exact ih hC
    · rw [mem_singleton.mp hC] at hx ⊢
      refine ⟨fun hy => ⟨hconn x hx y hy, hconn y hy x hx⟩, ?_⟩
      rintro ⟨hxy, hyx⟩
      rcases (snoc hCs hne hconn hedge hnew).closed_reach
        ⟨D, mem_append_right _ (mem_singleton_self D), hx⟩ hxy with ⟨D', hD', hy⟩
      rcases mem_append.mp hD' with hD' | hD'
      · rcases hCs.closed_reach ⟨D', hD', hy⟩ hyx with ⟨D'', hD'', hx'⟩
        exact absurd hx' (hnew x hx D'' hD'')
      · rwa [mem_singleton.mp hD'] at hy

theorem getElem?_unique {i j : Nat} {C D : Finset V} {x : V} (hi : Cs[i]? = some C)
    (hj : Cs[j]? = some D) (hC : x ∈ C) (hD : x ∈ D) : i = j := by
  induction h generalizing i j C D with
  | nil => cases hi
  | @snoc Cs B _ _ _ _ hnew ih =>
    have hcase : ∀ {k : Nat} {A : Finset V}, (Cs ++ [B])[k]? = some A →
        Cs[k]? = some A ∨ k = Cs.length ∧ A = B := by
      intro k A hk
      rcases lt_or_ge k Cs.length with hlt | hge
      · rw [getElem?_append_left hlt] at hk
        exact .inl hk
      · rw [getElem?_append_right hge] at hk
        rcases List.getElem?_eq_some_iff.mp hk with ⟨hlt, hA⟩
        rw [length_singleton] at hlt
        have hk' : k = Cs.length := by omega
        subst hk'
        refine .inr ⟨rfl, ?_⟩
        rw [← hA]
        simp
    rcases hcase hi with hi' | ⟨hi', rfl⟩ <;> rcases hcase hj with hj' | ⟨hj', rfl⟩
    · exact ih hi' hj' hC hD
    · exact absurd hC (hnew x hD C (mem_of_getElem? hi'))
    · exact absurd hD (hnew x hC D (mem_of_getElem? hj'))
    · rw [hi', hj']

theorem eq_iff_mutual {i j : Nat} {D : Finset V} (hi : Cs[i]? = some C) (hx : x ∈ C)
    (hj : Cs[j]? = some D) (hy : y ∈ D) : i = j ↔ Mutual E x y := by
  have hmem := h.mem_iff_mutual (mem_of_getElem? hi) hx y
  constructor
  · rintro rfl
    rw [hi] at hj
    cases hj
    exact hmem.mp hy
  · exact fun hxy => h.getElem?_unique hi hj (hmem.mpr hxy) hy

/-- The sets up to some place are layered. -/
theorem take (n : Nat) : Layered E (Cs.take n) := by
  induction h with
  | nil =>
    rw [take_nil]
    exact .nil
  | @snoc Cs C hCs hne hconn hedge hnew ih =>
    rcases le_or_gt n Cs.length with hle | hgt
    · rw [take_append_of_le_length hle]
      exact ih
    · rw [take_of_length_le (by simp; omega)]
      exact snoc hCs hne hconn hedge hnew

theorem edge_le {i : Nat} (hi : Cs[i]? = some C) (hx : x ∈ C)
    (hE : E x y) : ∃ j D, j ≤ i ∧ Cs[j]? = some D ∧ y ∈ D := by
  have hmem : C ∈ Cs.take (i + 1) := by
    refine mem_of_getElem? (i := i) ?_
    rw [getElem?_take_of_lt (Nat.lt_succ_self i), hi]
  rcases (h.take (i + 1)).closed ⟨C, hmem, hx⟩ hE with ⟨D, hD, hy⟩
  rcases mem_iff_getElem?.mp hD with ⟨j, hj⟩
  have hlt : j < i + 1 := by
    rcases List.getElem?_eq_some_iff.mp hj with ⟨hlt, -⟩
    exact lt_of_lt_of_le hlt (length_take_le _ _)
  rw [getElem?_take_of_lt hlt] at hj
  exact ⟨j, D, Nat.lt_succ_iff.mp hlt, hj, hy⟩

theorem nonempty (hC : C ∈ Cs) : C.Nonempty := by
  induction h with
  | nil => cases hC
  | snoc _ hne _ _ _ ih =>
    rcases mem_append.mp hC with hC | hC
    · exact ih hC
    · rwa [mem_singleton.mp hC]

theorem nodup : Cs.Nodup := by
  induction h with
  | nil => exact nodup_nil
  | @snoc Cs C _ hne _ _ hnew ih =>
    rw [← concat_eq_append, nodup_concat]
    refine ⟨fun hC => ?_, ih⟩
    rcases hne with ⟨x, hx⟩
    exact hnew x hx C hC hx

end Layered

end UniDb
