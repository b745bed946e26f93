import UniDb.Lib.AssocMap

/-!
# Loops over Distinct Keys

What a loop does that updates one key of a state after another.

A view shows a state as a value per key. An operation *acts at its key* if it
changes the view at one key only, by a function of what the view shows there.
A loop of such operations over distinct keys changes each of them once, so the
view after the loop can be read off key by key, and neither the order of the
loop nor what other loops do to other keys matters. That is how two programs
that visit the same keys in different orders are compared.

## Main definitions

* `ActsAt`: An operation changes a view at one key only.

## Theorems

* `foldl_eq_of_forall`, `foldlM_eq_of_forall`: A loop leaves alone what every
  round leaves alone.
* `foldl_comm_of_forall`, `foldl_comm_of_invariant`, `foldlM_ok_of_forall`: A
  projection that follows each round follows the loop.
* `forM_ok_iff`: A loop of checks passes if every check does.
* `ActsAt.foldl_of_notMem`: A loop leaves the other keys alone.
* `ActsAt.foldl_of_mem`: A loop changes each of its keys once.
* `ActsAt.foldl_last`: A loop of operations that overwrite.
* `ActsAt.foldl_toList`: A loop over the entries of a map.
* `ActsAt.foldl_keys`: A loop over the elements of a set.
* `AssocMap.lookup_foldl_orInsert`, `AssocMap.lookup_foldl_insert`: Copying one
  map into another.
* `AssocMap.lookup_foldl_update`: A loop that keeps one state per key.
-/

namespace UniDb

open AssocMap List

variable {σ κ β W : Type} {γ : Type} {op : σ → β → σ} {op' : γ → β → γ} (g : σ → γ) {ε : Type}
  {V : Type}

theorem foldl_eq_of_forall (h : ∀ s x, g (op s x) = g s) (xs : List β) (s : σ) :
    g (xs.foldl op s) = g s := by
  induction xs generalizing s with
  | nil => rfl
  | cons x xs ih => rw [foldl_cons, ih, h]

/-- A loop that a projection follows step by step. -/
theorem foldl_comm_of_forall (h : ∀ s x, g (op s x) = op' (g s) x)
    (xs : List β) (s : σ) : g (xs.foldl op s) = xs.foldl op' (g s) := by
  induction xs generalizing s with
  | nil => rfl
  | cons x xs ih => rw [foldl_cons, foldl_cons, ih, h]

variable {xs : List β}

/-- A loop of fallible rounds that succeed from the states of an invariant
    succeeds, and a projection follows it step by step. -/
theorem foldlM_ok_of_forall (I : σ → Prop) (g : σ → γ) {op : σ → β → Except ε σ}
    (h : ∀ s x, x ∈ xs → I s → ∃ s', op s x = .ok s' ∧ I s' ∧ g s' = op' (g s) x)
    {s : σ} (hs : I s) : ∃ s', xs.foldlM op s = .ok s' ∧ I s' ∧ g s' = xs.foldl op' (g s) := by
  induction xs generalizing s with
  | nil => exact ⟨s, rfl, hs, rfl⟩
  | cons x xs ih =>
    rcases h s x mem_cons_self hs with ⟨s₁, hop, hs₁, hg₁⟩
    rcases ih (fun t y hy => h t y (mem_cons_of_mem x hy)) hs₁ with ⟨s₂, hrest, hs₂, hg₂⟩
    refine ⟨s₂, ?_, hs₂, ?_⟩
    · rw [foldlM_cons, hop]
      exact hrest
    · rw [foldl_cons, ← hg₁, hg₂]

/-- A loop of fallible rounds leaves alone what every round leaves alone. -/
theorem foldlM_eq_of_forall {op : σ → β → Except ε σ}
    (h : ∀ s x s', op s x = .ok s' → g s' = g s) {s s' : σ} (hs : xs.foldlM op s = .ok s') :
    g s' = g s := by
  induction xs generalizing s with
  | nil => exact congrArg g (Except.ok.inj hs).symm
  | cons x xs ih =>
    rw [foldlM_cons] at hs
    cases hx : op s x with rw [hx] at hs
    | error => cases hs
    | ok s₁ => exact (ih hs).trans (h s x s₁ hx)

/-- A loop of checks passes if every check does. -/
theorem forM_ok_iff (f : β → Except ε Unit) (xs : List β) :
    forM xs f = .ok () ↔ ∀ x ∈ xs, f x = .ok () := by
  induction xs with
  | nil => simp [pure, Except.pure]
  | cons x xs ih =>
    rw [forM_cons, forall_mem_cons]
    cases hx : f x with
    | error => simp [bind, Except.bind]
    | ok => simpa [bind, Except.bind] using ih

/-- A loop over the states of an invariant that a projection follows. -/
theorem foldl_comm_of_invariant (I : σ → Prop) (g : σ → γ)
    (h : ∀ s x, x ∈ xs → I s → I (op s x) ∧ g (op s x) = op' (g s) x) {s : σ} (hs : I s) :
    I (xs.foldl op s) ∧ g (xs.foldl op s) = xs.foldl op' (g s) := by
  induction xs generalizing s with
  | nil => exact ⟨hs, rfl⟩
  | cons x xs ih =>
    rcases h s x mem_cons_self hs with ⟨hs₁, hg₁⟩
    rcases ih (fun t y hy => h t y (mem_cons_of_mem x hy)) hs₁ with ⟨hs₂, hg₂⟩
    refine ⟨hs₂, ?_⟩
    rw [foldl_cons, foldl_cons, hg₂, hg₁]

variable [DecidableEq κ] {view : σ → κ → W} {key : β → κ} {op : σ → β → σ} {f : β → W → W}

/-- The operation changes the view at its key only, and there by `f`. -/
def ActsAt (view : σ → κ → W) (key : β → κ) (op : σ → β → σ) (f : β → W → W) : Prop :=
  ∀ s x k, view (op s x) k = if k = key x then f x (view s k) else view s k

namespace ActsAt

theorem foldl_of_notMem (h : ActsAt view key op f) {xs : List β} {k : κ}
    (hk : k ∉ xs.map key) (s : σ) : view (xs.foldl op s) k = view s k := by
  induction xs generalizing s with
  | nil => rfl
  | cons x xs ih =>
    rw [map_cons, mem_cons, not_or] at hk
    rw [foldl_cons, ih hk.2, h s x k, if_neg hk.1]

theorem foldl_of_mem (h : ActsAt view key op f) {xs : List β} (hn : (xs.map key).Nodup)
    {x : β} (hx : x ∈ xs) (s : σ) : view (xs.foldl op s) (key x) = f x (view s (key x)) := by
  induction xs generalizing s with
  | nil => cases hx
  | cons y ys ih =>
    rw [map_cons, nodup_cons] at hn
    rw [foldl_cons]
    rcases mem_cons.mp hx with rfl | hmem
    · -- the key does not occur again, so the rest of the loop leaves it alone
      rw [foldl_of_notMem h hn.1, h s x, if_pos rfl]
    · have hne : key x ≠ key y := by
        intro heq
        rw [← heq] at hn
        exact hn.1 (mem_map_of_mem hmem)
      rw [ih hn.2 hmem, h s y, if_neg hne]

/-- A loop whose operations overwrite leaves the last one at each key. -/
theorem foldl_last {g : β → W} (h : ActsAt view key op fun x _ => g x) (xs : List β) (s : σ)
    (k : κ) : view (xs.foldl op s) k = (xs.filter (key · = k)).getLast?.elim (view s k) g := by
  induction xs using reverseRecOn with
  | nil => rfl
  | append_singleton xs x ih =>
    rw [foldl_append, foldl_cons, foldl_nil, h _ x k, filter_append, ih]
    by_cases hk : k = key x
    · simp [hk]
    · have hne : ¬ key x = k := fun heq => hk heq.symm
      simp [hk, hne]

theorem foldl_toList {V : Type} {op : σ → κ × V → σ} {f : κ × V → W → W}
    (h : ActsAt view Prod.fst op f) (m : AssocMap κ V) (s : σ) (k : κ) :
    view (m.toList.foldl op s) k = (m.lookup k).elim (view s k) fun v => f (k, v) (view s k) := by
  cases hl : m.lookup k with
  | none =>
    refine foldl_of_notMem h ?_ s
    rw [toList_map_fst, ← AList.mem_keys]
    exact notMem_iff_lookup.mpr hl
  | some =>
    exact foldl_of_mem h (toList_keys_nodup m) (mem_toList.mpr hl) s

theorem foldl_keys {op : σ → κ → σ} {f : κ → W → W} (h : ActsAt view id op f)
    (m : AssocSet κ) (s : σ) (k : κ) :
    view (m.keys.foldl op s) k = if k ∈ m then f k (view s k) else view s k := by
  by_cases hk : k ∈ m
  · rw [if_pos hk]
    refine foldl_of_mem h ?_ (AList.mem_keys.mp hk) s
    rw [map_id]
    exact m.keys_nodup
  · rw [if_neg hk]
    refine foldl_of_notMem h ?_ s
    rw [map_id]
    exact hk

end ActsAt

/-- Inserting the entries of a map where there is none keeps the older value. -/
theorem AssocMap.lookup_foldl_orInsert (m n : AssocMap κ V) (k : κ) :
    (n.toList.foldl (fun m e => m.orInsert e.1 e.2) m).lookup k = (m.lookup k).or (n.lookup k) := by
  have hacts : ActsAt (fun (m : AssocMap κ V) k => m.lookup k) Prod.fst
      (fun m e => m.orInsert e.1 e.2) (fun e o => o.or (some e.2)) := by
    intro m e a
    refine (lookup_orInsert m e.1 a e.2).trans ?_
    by_cases ha : a = e.1
    · rw [if_pos ha, if_pos ha, ha]
      cases hl : m.lookup e.1 <;> simp [hl]
    · rw [if_neg ha, if_neg ha]
  rw [hacts.foldl_toList n m k]
  cases n.lookup k <;> simp

theorem AssocMap.lookup_foldl_insert (m n : AssocMap κ V) (k : κ) :
    (n.toList.foldl (fun m e => m.insert e.1 e.2) m).lookup k = (n.lookup k).or (m.lookup k) := by
  have hacts : ActsAt (fun (m : AssocMap κ V) k => m.lookup k) Prod.fst
      (fun m e => m.insert e.1 e.2) (fun e _ => some e.2) :=
    fun m e a => lookup_insert_eq m e.1 a e.2
  rw [hacts.foldl_toList n m k]
  cases n.lookup k <;> simp

/-- A loop that keeps one state per key: the state of a key is the loop over the
    rows of that key. -/
theorem AssocMap.lookup_foldl_update (key : β → κ) (f : V → β → V) (init : V) (xs : List β)
    (k : κ) : (xs.foldl (fun m x => m.insert (key x) (f ((m.lookup (key x)).getD init) x))
      (∅ : AssocMap κ V)).lookup k =
      if xs.filter (key · = k) = [] then none else some ((xs.filter (key · = k)).foldl f init) := by
  induction xs using reverseRecOn with
  | nil => rfl
  | append_singleton xs x ih =>
    rw [foldl_append, foldl_cons, foldl_nil, filter_append, lookup_insert_eq]
    by_cases hk : k = key x
    · subst hk
      rw [if_pos rfl, ih]
      simp only [filter_cons, decide_true, if_true, filter_nil, append_eq_nil_iff,
        cons_ne_self, and_false, if_false, foldl_append, foldl_cons,
        foldl_nil, Option.some.injEq]
      split
      · next hnil => rw [hnil]; rfl
      · rfl
    · have hne : ¬ key x = k := fun h => hk h.symm
      rw [if_neg hk, ih]
      simp [hne]

end UniDb
