import Mathlib.Data.List.Nodup
import Mathlib.Tactic.Common

/-!
# Key Tables

An index from keys to owners, kept together with the keys that each owner
recorded.

Every key has a shape, and an owner holds one key of a shape at a time: claiming
another one gives the old one up. The recorded keys are what makes that
possible, since the index cannot be searched by owner. A key that is claimed
from another owner stays recorded there, and that is why giving up a key first
asks whether it is still one's own.

The invariant is that every indexed key is recorded and that no owner has
recorded two keys of one shape. It says all there is to know about a sequence of
claims of different keys: the index afterwards does not depend on their order
(`owner_foldl_claim`), even when owners exchange keys.

## Main definitions

* `KeyTable`: The index and the recorded keys.
* `KeyTable.claim`, `KeyTable.release`: The operations.
* `KeyTable.Coherent`: The invariant.
* `KeyTable.Recorded`: What is known about recorded keys.

## Theorems

* `Coherent.claim`, `Coherent.release`: The operations keep the invariant.
* `owner_foldl_claim`, `owner_foldl_release`: The index after many of them.
* `Recorded.claim`, `Recorded.release`: A recorded key loses its owner only to
  another claim.
-/

namespace UniDb

open List Prod

@[ext] structure KeyTable (K O : Type) where
  owner : K → Option O
  held : O → List K

namespace KeyTable

variable {K O S : Type} [DecidableEq K] [DecidableEq O] [DecidableEq S] (shape : K → S)

/-- An owner takes a key and gives up the key of the same shape it had. -/
def claim (t : KeyTable K O) (c : K × O) : KeyTable K O where
  owner k :=
    if k = c.1 then some c.2
    else if k ∈ t.held c.2 ∧ shape k = shape c.1 ∧ t.owner k = some c.2 then none
    else t.owner k
  held o :=
    if o = c.2 then
      let kept := (t.held o).filter fun k => ¬ (k ≠ c.1 ∧ shape k = shape c.1)
      if c.1 ∈ kept then kept else kept ++ [c.1]
    else t.held o

/-- An owner gives up all keys. -/
def release (t : KeyTable K O) (o : O) : KeyTable K O where
  owner k := if k ∈ t.held o ∧ t.owner k = some o then none else t.owner k
  held o' := if o' = o then [] else t.held o'

/-- Indexed keys are recorded, and at most one of each shape. -/
structure Coherent (t : KeyTable K O) : Prop where
  held_of_owner : ∀ k o, t.owner k = some o → k ∈ t.held o
  one_per_shape : ∀ o, ∀ k ∈ t.held o, ∀ k' ∈ t.held o, shape k = shape k' → k = k'

/-- A recorded key is indexed to its owner, unless it was taken away. -/
def Recorded (t : KeyTable K O) (T : K → O → Prop) : Prop :=
  ∀ o, ∀ k ∈ t.held o, t.owner k = some o ∨ T k o

variable {shape} {t : KeyTable K O}

theorem mem_held_claim (c : K × O) (o : O) (k : K) :
    k ∈ (t.claim shape c).held o ↔
      if o = c.2 then k = c.1 ∨ (k ∈ t.held o ∧ shape k ≠ shape c.1) else k ∈ t.held o := by
  simp only [claim]
  by_cases ho : o = c.2
  · simp only [ho, if_true]
    by_cases hc : c.1 ∈ t.held c.2
    · rw [if_pos (by simp [hc])]
      simp only [mem_filter, decide_eq_true_eq, not_and, ne_eq]
      constructor
      · rintro ⟨hk, hshape⟩
        by_cases heq : k = c.1
        · exact .inl heq
        · exact .inr ⟨hk, hshape heq⟩
      · rintro (rfl | ⟨hk, hshape⟩)
        · exact ⟨hc, fun hne => absurd rfl hne⟩
        · exact ⟨hk, fun _ => hshape⟩
    · rw [if_neg (by simp [hc])]
      simp only [mem_append, mem_filter, decide_eq_true_eq, not_and, ne_eq, mem_singleton]
      constructor
      · rintro (⟨hk, hshape⟩ | heq)
        · exact .inr ⟨hk, hshape fun heq => hc (heq ▸ hk)⟩
        · exact .inl heq
      · rintro (heq | ⟨hk, hshape⟩)
        · exact .inr heq
        · exact .inl ⟨hk, fun _ => hshape⟩
  · simp [ho]

omit [DecidableEq S] in
theorem mem_held_release (o o' : O) (k : K) :
    k ∈ (t.release o).held o' ↔ o' ≠ o ∧ k ∈ t.held o' := by
  simp only [release]
  by_cases ho : o' = o <;> simp [ho]

variable {T : K → O → Prop}

/-- A claim takes the key away from everyone else. -/
theorem Recorded.claim (h : t.Recorded T) (c : K × O) :
    (t.claim shape c).Recorded fun k o => T k o ∨ (k = c.1 ∧ o ≠ c.2) := by
  intro o k hk
  rw [mem_held_claim] at hk
  by_cases ho : o = c.2
  · rw [if_pos ho] at hk
    rcases hk with rfl | ⟨hk, hshape⟩
    · exact .inl (by simp [KeyTable.claim, ho])
    · have hne : k ≠ c.1 := fun heq => hshape (heq ▸ rfl)
      rcases h o k hk with howner | htaken
      · exact .inl (by simp [KeyTable.claim, hne, hshape, howner])
      · exact .inr (.inl htaken)
  · rw [if_neg ho] at hk
    by_cases heq : k = c.1
    · exact .inr (.inr ⟨heq, ho⟩)
    · rcases h o k hk with howner | htaken
      · exact .inl (by simp [KeyTable.claim, heq, howner, ho])
      · exact .inr (.inl htaken)

omit [DecidableEq S] in
theorem Recorded.release (h : t.Recorded T) (o : O) : (t.release o).Recorded T := by
  intro o' k hk
  rcases (mem_held_release o o' k).mp hk with ⟨hne, hk⟩
  rcases h o' k hk with howner | htaken
  · exact .inl (by simp [KeyTable.release, howner, hne])
  · exact .inr htaken

omit [DecidableEq S] [DecidableEq K] [DecidableEq O] in
theorem Recorded.mono {T' : K → O → Prop} (h : t.Recorded T) (hT : ∀ k o, T k o → T' k o) :
    t.Recorded T' :=
  fun o k hk => (h o k hk).imp_right (hT k o)

omit [DecidableEq S] [DecidableEq K] [DecidableEq O] in
/-- A loop adds what its rounds take away from others. -/
theorem Recorded.foldl {σ α : Type} (table : σ → KeyTable K O) {op : σ → α → σ}
    {takes : α → K → O → Prop} (hop : ∀ {s T} (x : α), (table s).Recorded T →
      (table (op s x)).Recorded fun k o => T k o ∨ takes x k o)
    {s : σ} (h : (table s).Recorded T) (xs : List α) :
    (table (xs.foldl op s)).Recorded fun k o => T k o ∨ ∃ x ∈ xs, takes x k o := by
  induction xs generalizing s T with
  | nil => exact h.mono fun k o => .inl
  | cons x xs ih =>
    refine (ih (hop x h)).mono ?_
    rintro k o ((htaken | htaken) | ⟨y, hy, htaken⟩)
    · exact .inl htaken
    · exact .inr ⟨x, mem_cons_self, htaken⟩
    · exact .inr ⟨y, mem_cons_of_mem x hy, htaken⟩

theorem Recorded.foldl_claim (h : t.Recorded T) (cs : List (K × O)) :
    (cs.foldl (KeyTable.claim shape) t).Recorded fun k o =>
      T k o ∨ ∃ c ∈ cs, k = c.1 ∧ o ≠ c.2 :=
  .foldl id (fun c h => h.claim c) h cs

omit [DecidableEq S] in
theorem Recorded.foldl_release (h : t.Recorded T) (os : List O) :
    (os.foldl KeyTable.release t).Recorded T := by
  induction os generalizing t with
  | nil => exact h
  | cons o os ih => exact ih (h.release o)

namespace Coherent

variable (h : t.Coherent shape)

include h

theorem owner_claim (c : K × O) (k : K) (o : O) : (t.claim shape c).owner k = some o ↔
      (k = c.1 ∧ o = c.2) ∨ (k ≠ c.1 ∧ t.owner k = some o ∧ ¬ (o = c.2 ∧ shape k = shape c.1)) := by
  simp only [claim]
  by_cases heq : k = c.1
  · simp [heq, eq_comm]
  · rw [if_neg heq]
    constructor
    · intro hk
      split at hk
      · cases hk
      · rename_i hkept
        refine .inr ⟨heq, hk, ?_⟩
        rintro ⟨rfl, hshape⟩
        exact hkept ⟨h.held_of_owner k _ hk, hshape, hk⟩
    · rintro (⟨hk, _⟩ | ⟨_, hk, hnot⟩)
      · exact absurd hk heq
      · rw [if_neg, hk]
        rintro ⟨_, hshape, howner⟩
        rw [hk, Option.some.injEq] at howner
        exact hnot ⟨howner, hshape⟩

omit [DecidableEq S] in
theorem owner_release (o o' : O) (k : K) :
    (t.release o).owner k = some o' ↔ t.owner k = some o' ∧ o' ≠ o := by
  simp only [release]
  constructor
  · intro hk
    split at hk
    · cases hk
    · rename_i hkept
      refine ⟨hk, ?_⟩
      rintro rfl
      exact hkept ⟨h.held_of_owner k o' hk, hk⟩
  · rintro ⟨hk, hne⟩
    rw [if_neg, hk]
    rintro ⟨_, howner⟩
    rw [hk, Option.some.injEq] at howner
    exact hne howner

theorem claim (c : K × O) : (t.claim shape c).Coherent shape := by
  constructor
  · intro k o hk
    rw [mem_held_claim]
    rcases (h.owner_claim c k o).mp hk with ⟨hkey, ho⟩ | ⟨_, howner, hnot⟩
    · rw [if_pos ho]
      exact .inl hkey
    · have hheld := h.held_of_owner k o howner
      split
      · rename_i ho
        exact .inr ⟨hheld, fun hshape => hnot ⟨ho, hshape⟩⟩
      · exact hheld
  · intro o k hk k' hk' hshape
    rw [mem_held_claim] at hk hk'
    by_cases ho : o = c.2
    · rw [if_pos ho] at hk hk'
      -- the claimed key is the only one of its shape
      rcases hk with rfl | ⟨hk, hne⟩
      · rcases hk' with rfl | ⟨_, hne'⟩
        · rfl
        · exact absurd hshape.symm hne'
      · rcases hk' with rfl | ⟨hk', _⟩
        · exact absurd hshape hne
        · exact h.one_per_shape o k hk k' hk' hshape
    · rw [if_neg ho] at hk hk'
      exact h.one_per_shape o k hk k' hk' hshape

omit [DecidableEq S] in
theorem release (o : O) : (t.release o).Coherent shape := by
  constructor
  · intro k o' hk
    rcases (h.owner_release o o' k).mp hk with ⟨howner, hne⟩
    exact (mem_held_release o o' k).mpr ⟨hne, h.held_of_owner k o' howner⟩
  · intro o' k hk k' hk' hshape
    exact h.one_per_shape o' k ((mem_held_release o o' k).mp hk).2 k'
      ((mem_held_release o o' k').mp hk').2 hshape

theorem foldl_claim (cs : List (K × O)) : (cs.foldl (KeyTable.claim shape) t).Coherent shape := by
  induction cs generalizing t with
  | nil => exact h
  | cons c cs ih => exact ih (h.claim c)

omit [DecidableEq S] in
theorem foldl_release (os : List O) : (os.foldl KeyTable.release t).Coherent shape := by
  induction os generalizing t with
  | nil => exact h
  | cons o os ih => exact ih (h.release o)

omit [DecidableEq S] in
/-- The index after many releases. -/
theorem owner_foldl_release (os : List O) (k : K) (o : O) :
    (os.foldl KeyTable.release t).owner k = some o ↔ t.owner k = some o ∧ o ∉ os := by
  induction os generalizing t with
  | nil => simp
  | cons o' os ih =>
    rw [foldl_cons, ih (h.release o'), h.owner_release, mem_cons, not_or, and_assoc]

/-- The index after claims of different keys, in any order: a claimed key belongs to its claimant,
    and another key stays with its owner if the owner claims no key of that shape. -/
theorem owner_foldl_claim {cs : List (K × O)} (hkeys : (cs.map fst).Nodup)
    (hshapes : ∀ c ∈ cs, ∀ c' ∈ cs, c.2 = c'.2 → shape c.1 = shape c'.1 → c.1 = c'.1) (k : K)
    (o : O) : (cs.foldl (KeyTable.claim shape) t).owner k = some o ↔
      (k, o) ∈ cs ∨ ((∀ o', (k, o') ∉ cs) ∧ t.owner k = some o ∧
        ∀ k', (k', o) ∈ cs → shape k' ≠ shape k) := by
  induction cs generalizing t with
  | nil => simp
  | cons c cs ih =>
    rw [map_cons, nodup_cons] at hkeys
    have hrest : ∀ c' ∈ cs, ∀ c'' ∈ cs, c'.2 = c''.2 → shape c'.1 = shape c''.1 → c'.1 = c''.1 :=
      fun c' hc' c'' hc'' =>
        hshapes c' (mem_cons_of_mem c hc') c'' (mem_cons_of_mem c hc'')
    -- the first key is not claimed again, and its claimant claims no other of its shape
    have hfresh : ∀ o', (c.1, o') ∉ cs :=
      fun o' hmem => hkeys.1 (mem_map.mpr ⟨(c.1, o'), hmem, rfl⟩)
    have hone : ∀ k', (k', c.2) ∈ cs → shape k' ≠ shape c.1 := by
      intro k' hmem hshape
      have heq : k' = c.1 := hshapes (k', c.2) (mem_cons_of_mem c hmem) c
        mem_cons_self rfl hshape
      exact hfresh c.2 (heq ▸ hmem)
    rw [foldl_cons, ih (h.claim c) hkeys.2 hrest, h.owner_claim]
    simp only [mem_cons, not_or]
    constructor
    · rintro (hmem | ⟨hnone, ⟨rfl, rfl⟩ | ⟨hne, howner, hnot⟩, hkeep⟩)
      · exact .inl (.inr hmem)
      · exact .inl (.inl rfl)
      · refine .inr ⟨fun o' => ⟨fun heq => hne (congrArg fst heq), hnone o'⟩, howner, ?_⟩
        rintro k' (heq | hmem)
        · intro hshape
          exact hnot ⟨congrArg snd heq, hshape.symm.trans (congrArg (shape ∘ fst) heq)⟩
        · exact hkeep k' hmem
    · rintro ((heq | hmem) | ⟨hnone, howner, hkeep⟩)
      · obtain rfl : k = c.1 := congrArg fst heq
        obtain rfl : o = c.2 := congrArg snd heq
        exact .inr ⟨hfresh, .inl ⟨rfl, rfl⟩, hone⟩
      · exact .inl hmem
      · refine .inr ⟨fun o' => (hnone o').2, .inr ⟨?_, howner, ?_⟩,
          fun k' hmem => hkeep k' (.inr hmem)⟩
        · rintro rfl
          exact (hnone c.2).1 rfl
        · rintro ⟨rfl, hshape⟩
          exact hkeep c.1 (.inl rfl) hshape.symm

end Coherent

end KeyTable

end UniDb
