import Mathlib.Data.List.Basic
import Mathlib.Data.List.MinMax
import Mathlib.Data.List.Nodup

/-!
# Dataflow

Names that are bound by their first occurrence, and names that tasks make available.

A program that walks over occurrences of names and lets the first one of each name bind it
keeps a scope, which maps a name to the place that binds it. The scope and the walk agree if
the occurrences of each name in the scope are one that binds it, at the place the scope gives,
followed by ones that test it.

A task needs some names and gives others. What can be derived from some given names is a least
set, so it does not depend on the order in which tasks are run: a program that runs a task
whenever it is ready and stops when none is has everything that can be derived.

A choice of a smallest element does not depend on the order of a list as far as the order that
is minimised tells the elements apart.

## Main definitions

* `Occurrence`: A name, its place and what happens there.
* `FirstBinds`: The first occurrence of each name binds it.
* `Derivable`: The names that tasks can make available.

## Theorems

* `FirstBinds.bind`, `FirstBinds.test`: One more occurrence.
* `FirstBinds.of_nodup`: Distinct names that are all bound.
* `FirstBinds.exists_binds`, `FirstBinds.site_of_binds`: The occurrence that binds a name.
* `Derivable.mem_of_stuck`: Names available once no task is ready.
* `map_argmin_eq_of_perm`: The choice of a smallest element.
-/

namespace UniDb

open List

/-- What an occurrence does with its name. -/
inductive Role where
  | binds
  | tests
  | ignores
  deriving DecidableEq

structure Occurrence (N S : Type) where
  name : N
  site : S
  role : Role
  deriving DecidableEq

section FirstBinds

variable {N S : Type} [DecidableEq N]

/-- The first occurrence of each name binds it, at the place that the scope gives, and every
    later one tests it. -/
structure FirstBinds (scope : N → Option S) (occs : List (Occurrence N S)) : Prop where
  absent : ∀ n, scope n = none → ∀ o ∈ occs, o.name ≠ n
  bound : ∀ n site, scope n = some site → ∃ rest,
    occs.filter (·.name = n) = ⟨n, site, .binds⟩ :: rest ∧ ∀ o ∈ rest, o.role = .tests

namespace FirstBinds

variable {scope scope' : N → Option S} {occs : List (Occurrence N S)} {n : N} {site : S}

theorem bind (h : FirstBinds scope occs) (hn : scope n = none)
    (hscope : ∀ a, scope' a = if a = n then some site else scope a) :
    FirstBinds scope' (occs ++ [⟨n, site, .binds⟩]) := by
  constructor
  · intro a ha o ho
    rw [hscope] at ha
    split at ha
    · cases ha
    · next hne =>
      rcases mem_append.mp ho with ho | ho
      · exact h.absent a ha o ho
      · rw [mem_singleton.mp ho]
        exact fun heq => hne heq.symm
  · intro a site' ha
    rw [hscope] at ha
    split at ha
    · next heq =>
      subst heq
      cases ha
      refine ⟨[], ?_, by simp⟩
      rw [filter_append, filter_eq_nil_iff.mpr]
      · simp
      · intro o ho
        simpa using h.absent a hn o ho
    · next hne =>
      obtain ⟨rest, hrest, htests⟩ := h.bound a site' ha
      refine ⟨rest, ?_, htests⟩
      rw [filter_append, hrest, filter_cons_of_neg, filter_nil, append_nil]
      simpa using fun heq => hne (Eq.symm heq)

theorem test (h : FirstBinds scope occs) {site' : S} (hn : scope n = some site') :
    FirstBinds scope (occs ++ [⟨n, site, .tests⟩]) := by
  constructor
  · intro a ha o ho
    rcases mem_append.mp ho with ho | ho
    · exact h.absent a ha o ho
    · rw [mem_singleton.mp ho]
      rintro rfl
      rw [hn] at ha
      cases ha
  · intro a site₁ ha
    obtain ⟨rest, hrest, htests⟩ := h.bound a site₁ ha
    refine ⟨rest ++ [⟨n, site, .tests⟩].filter (·.name = a), ?_, ?_⟩
    · rw [filter_append, hrest, cons_append]
    · intro o ho
      rcases mem_append.mp ho with ho | ho
      · exact htests o ho
      · rw [mem_singleton.mp (mem_filter.mp ho).1]

/-- Occurrences that all bind, of distinct names. -/
theorem of_nodup (hnodup : (occs.map (·.name)).Nodup) (hbinds : ∀ o ∈ occs, o.role = .binds)
    (hscope : ∀ n site, scope n = some site ↔ ⟨n, site, .binds⟩ ∈ occs) :
    FirstBinds scope occs := by
  constructor
  · rintro n hn o ho rfl
    have hmem : ⟨o.name, o.site, .binds⟩ ∈ occs := by
      rw [← hbinds o ho]
      exact ho
    rw [(hscope _ _).mpr hmem] at hn
    cases hn
  · intro n site hn
    have hmem := (hscope n site).mp hn
    refine ⟨[], ?_, by simp⟩
    have hnd := List.Nodup.of_map _ hnodup
    refine perm_singleton.mp ((perm_ext_iff_of_nodup (hnd.filter _) (by simp)).mpr ?_)
    intro o
    rw [mem_filter, mem_singleton]
    constructor
    · rintro ⟨ho, hname⟩
      exact inj_on_of_nodup_map hnodup ho hmem (by simpa using hname)
    · rintro rfl
      exact ⟨hmem, by simp⟩

theorem exists_binds (h : FirstBinds scope occs) (hn : scope n = some site) :
    ⟨n, site, .binds⟩ ∈ occs := by
  obtain ⟨rest, hrest, -⟩ := h.bound n site hn
  have hmem : (⟨n, site, .binds⟩ : Occurrence N S) ∈ occs.filter (·.name = n) := by
    rw [hrest]
    exact mem_cons_self
  exact (mem_filter.mp hmem).1

theorem site_of_binds (h : FirstBinds scope occs) (hn : scope n = some site) {site' : S}
    (ho : ⟨n, site', .binds⟩ ∈ occs) : site' = site := by
  obtain ⟨rest, hrest, htests⟩ := h.bound n site hn
  have hmem : (⟨n, site', .binds⟩ : Occurrence N S) ∈ occs.filter (·.name = n) :=
    mem_filter.mpr ⟨ho, by simp⟩
  rw [hrest] at hmem
  rcases mem_cons.mp hmem with heq | hmem
  · exact congrArg Occurrence.site heq
  · exact absurd (htests _ hmem) (by simp)

theorem exists_site (h : FirstBinds scope occs) {o : Occurrence N S} (ho : o ∈ occs) :
    ∃ site, scope o.name = some site := by
  cases hs : scope o.name with
  | none => exact absurd rfl (h.absent _ hs o ho)
  | some site => exact ⟨site, rfl⟩

end FirstBinds

end FirstBinds

section Derivable

variable {N T : Type}

/-- The names that can be derived from some base by running tasks. -/
inductive Derivable (base : N → Prop) (task : T → Prop) (needs gives : T → List N) : N → Prop
  | base {n : N} : base n → Derivable base task needs gives n
  | gives {t : T} {n : N} : task t → (∀ a ∈ needs t, Derivable base task needs gives a) →
      n ∈ gives t → Derivable base task needs gives n

/-- Once no task is ready, everything that can be derived is available. -/
theorem Derivable.mem_of_stuck {base : N → Prop} {task : T → Prop} {needs gives : T → List N}
    {available : N → Prop} (hbase : ∀ n, base n → available n)
    (hstuck : ∀ t, task t → (∀ a ∈ needs t, available a) → ∀ n ∈ gives t, available n) {n : N}
    (h : Derivable base task needs gives n) : available n := by
  induction h with
  | base hb => exact hbase _ hb
  | gives ht _ hn ih => exact hstuck _ ht ih _ hn

end Derivable

section Argmin

variable {α β γ κ : Type} [LinearOrder κ]

/-- Two lists with the same elements up to order, seen through a map that the minimised order
    tells apart, have the same smallest element. -/
theorem map_argmin_eq_of_perm {f : α → γ} {g : β → γ} {rank : γ → κ} {xs : List α} {ys : List β}
    (hperm : (xs.map f).Perm (ys.map g))
    (hinj : ∀ a ∈ xs.map f, ∀ b ∈ xs.map f, rank a = rank b → a = b) :
    (xs.argmin (rank ∘ f)).map f = (ys.argmin (rank ∘ g)).map g := by
  cases hx : xs.argmin (rank ∘ f) with
  | none =>
    rw [argmin_eq_none] at hx
    subst hx
    rw [map_nil, nil_perm, map_eq_nil_iff] at hperm
    rw [hperm]
    rfl
  | some x =>
    cases hy : ys.argmin (rank ∘ g) with
    | none =>
      rw [argmin_eq_none] at hy
      subst hy
      rw [map_nil, perm_nil, map_eq_nil_iff] at hperm
      rw [hperm] at hx
      cases hx
    | some y =>
      have hxm := mem_map_of_mem (f := f) (argmin_mem hx)
      have hym := mem_map_of_mem (f := g) (argmin_mem hy)
      obtain ⟨y', hy', hgy⟩ := mem_map.mp (hperm.subset hxm)
      obtain ⟨x', hx', hfx⟩ := mem_map.mp (hperm.symm.subset hym)
      have hle : rank (f x) ≤ rank (g y) := by
        rw [← hfx]
        exact le_of_mem_argmin (f := rank ∘ f) hx' hx
      have hge : rank (g y) ≤ rank (f x) := by
        rw [← hgy]
        exact le_of_mem_argmin (f := rank ∘ g) hy' hy
      rw [Option.map_some, Option.map_some,
        hinj _ hxm _ (hperm.symm.subset hym) (le_antisymm hle hge)]

end Argmin

end UniDb
