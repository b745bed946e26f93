import Mathlib.Data.Finset.Card
import Mathlib.Data.List.Range
import Mathlib.Data.List.Sort

/-!
# The Evaluation Order

Kahn's algorithm on the dependencies between the strongly connected components.

An entry of `inDegree` counts the dependencies of a component that are not in the order yet,
so a component is queued at the moment its last dependency is taken, and only then. If every
component depends on earlier ones only, none is left out.

Hash sets are iterated in an order of which only its elements are known.

## Main definitions

* `Iteration`: An order in which hash sets are iterated.
* `reverseDeps`: The dependents of each component.
* `KahnState.release`: One dependent of a component that was taken.
* `kahn`: The order.

## Theorems

* `KahnState.Inv.take_ok`: Taking a component keeps the invariant.
* `kahn_order`: The order lists every component once, each after those it depends on.
-/

namespace UniDb.Locy

open List Prod

/-- An order in which hash sets are iterated. -/
structure Iteration (α : Type) where
  toList : Finset α → List α
  nodup : ∀ s, (toList s).Nodup
  mem_iff : ∀ s x, x ∈ toList s ↔ x ∈ s

/-- Changes an entry of a vector. An index past the end is a panic. -/
def modifyAt {α : Type} (l : List α) (i : Nat) (f : α → α) : Option (List α) :=
  if i < l.length then some (l.modify i f) else none

section Algorithm

variable (it : Nat → Iteration Nat)

def addDependent (i : Nat) (rev : List (List Nat)) (dep : Nat) : Option (List (List Nat)) :=
  modifyAt rev dep (· ++ [i])

def reverseDeps (dependsOn : List (Finset Nat)) : Option (List (List Nat)) :=
  dependsOn.zipIdx.foldlM
    (fun rev (deps, i) => ((it i).toList deps).foldlM (addDependent i) rev)
    (replicate dependsOn.length [])

structure KahnState where
  inDegree : List Nat
  queue : List Nat
  order : List Nat

/-- A count below zero is a panic. -/
def KahnState.release (s : KahnState) (dependent : Nat) : Option KahnState :=
  match s.inDegree[dependent]? with
  | some (deg + 1) =>
    let s := { s with inDegree := s.inDegree.set dependent deg }
    some (if deg = 0 then { s with queue := s.queue ++ [dependent] } else s)
  | _ => none

/-- The loop, which ends with an empty queue. -/
def KahnState.loop (rev : List (List Nat)) : Nat → KahnState → Option KahnState
  | 0, _ => none
  | fuel + 1, s => match s.queue with
    | [] => some s
    | node :: queue => do
        let dependents ← rev[node]?
        let s ← dependents.foldlM KahnState.release
          { s with queue := queue, order := s.order ++ [node] }
        s.loop rev fuel

def kahn (dependsOn : List (Finset Nat)) : Option (List Nat) := do
  let rev ← reverseDeps it dependsOn
  let inDegree := dependsOn.map Finset.card
  let queue := inDegree.zipIdx.filterMap fun (deg, i) => if deg = 0 then some i else none
  let s ← KahnState.loop rev (dependsOn.length + 1)
    { inDegree := inDegree, queue := queue, order := [] }
  pure s.order

end Algorithm

/-! ### The dependents of a component -/

section Proofs

variable (it : Nat → Iteration Nat) {rev : List (List Nat)}

theorem foldlM_addDependent (i : Nat) {deps : List Nat} (hnodup : deps.Nodup)
    (hlt : ∀ d ∈ deps, d < rev.length) :
    ∃ rev', deps.foldlM (addDependent i) rev = some rev' ∧ rev'.length = rev.length ∧
      ∀ d, rev'[d]? = (rev[d]?).map fun l => if d ∈ deps then l ++ [i] else l := by
  induction deps generalizing rev with
  | nil => exact ⟨rev, rfl, rfl, fun d => by simp⟩
  | cons e deps ih =>
    rw [nodup_cons] at hnodup
    have he : addDependent i rev e = some (rev.modify e (· ++ [i])) :=
      if_pos (hlt e mem_cons_self)
    have hlen : (rev.modify e (· ++ [i])).length = rev.length := length_modify ..
    have hlt' : ∀ d ∈ deps, d < (rev.modify e (· ++ [i])).length := fun d hd =>
      hlen ▸ hlt d (mem_cons_of_mem _ hd)
    rcases ih hnodup.2 hlt' with ⟨rev', hrev', hlen', hget⟩
    refine ⟨rev', ?_, hlen'.trans hlen, fun d => ?_⟩
    · rw [foldlM_cons, he]
      exact hrev'
    · rw [hget, getElem?_modify, Option.map_eq_map, Option.map_map]
      congr 1
      funext l
      by_cases hd : d = e
      · subst hd
        simp [hnodup.1]
      · simp [hd, Ne.symm hd]

/-- The dependents of `d` are pushed in the order of the components. -/
theorem foldlM_reverseDeps (l : List (Finset Nat)) (k : Nat)
    (hlt : ∀ D ∈ l, ∀ d ∈ D, d < rev.length) :
    ∃ rev', (l.zipIdx k).foldlM
        (fun rev (deps, i) => ((it i).toList deps).foldlM (addDependent i) rev) rev = some rev' ∧
      rev'.length = rev.length ∧
      ∀ d, rev'[d]? = (rev[d]?).map (· ++ ((l.zipIdx k).filter fun p => d ∈ p.1).map snd) := by
  induction l generalizing k rev with
  | nil => exact ⟨rev, rfl, rfl, fun d => by simp⟩
  | cons D l ih =>
    have hD : ∀ d ∈ (it k).toList D, d < rev.length := fun d hd =>
      hlt D mem_cons_self d (((it k).mem_iff D d).mp hd)
    rcases foldlM_addDependent k ((it k).nodup D) hD with ⟨rev₁, hrev₁, hlen₁, hget₁⟩
    have hlt₁ : ∀ E ∈ l, ∀ d ∈ E, d < rev₁.length := fun E hE d hd =>
      hlen₁ ▸ hlt E (mem_cons_of_mem _ hE) d hd
    rcases ih (k + 1) hlt₁ with ⟨rev', hrev', hlen', hget'⟩
    refine ⟨rev', ?_, hlen'.trans hlen₁, fun d => ?_⟩
    · rw [zipIdx_cons, foldlM_cons]
      simp only [hrev₁]
      exact hrev'
    · rw [hget', hget₁, Option.map_map]
      congr 1
      funext acc
      by_cases hd : d ∈ D <;> simp [(it k).mem_iff, hd]

/-- The dependencies of a component. -/
def depsOf (dependsOn : List (Finset Nat)) (i : Nat) : Finset Nat := (dependsOn[i]?).getD ∅

variable {dependsOn : List (Finset Nat)}

theorem getElem?_eq_depsOf {i : Nat} (hi : i < dependsOn.length) :
    dependsOn[i]? = some (depsOf dependsOn i) := by
  rw [depsOf, getElem?_eq_getElem hi]
  rfl

theorem lt_of_mem_depsOf {i d : Nat} (hd : d ∈ depsOf dependsOn i) : i < dependsOn.length := by
  by_contra hi
  rw [depsOf, getElem?_eq_none (not_lt.mp hi)] at hd
  exact absurd hd (Finset.notMem_empty d)

theorem reverseDeps_ok (hlt : ∀ i, ∀ d ∈ depsOf dependsOn i, d < dependsOn.length) :
    ∃ rev, reverseDeps it dependsOn = some rev ∧
      ∀ d < dependsOn.length, ∃ l, rev[d]? = some l ∧ l.Nodup ∧
        ∀ i, i ∈ l ↔ d ∈ depsOf dependsOn i := by
  have hmem : ∀ D ∈ dependsOn, ∀ d ∈ D,
      d < (replicate dependsOn.length ([] : List Nat)).length := by
    intro D hD d hd
    rcases mem_iff_getElem?.mp hD with ⟨i, hi⟩
    rw [length_replicate]
    refine hlt i d ?_
    rw [depsOf, hi]
    exact hd
  rcases foldlM_reverseDeps it dependsOn 0 hmem with ⟨rev, hrev, -, hget⟩
  refine ⟨rev, hrev, fun d hd =>
    ⟨(dependsOn.zipIdx.filter fun p => d ∈ p.1).map snd, ?_, ?_, fun i => ?_⟩⟩
  · rw [hget, getElem?_replicate_of_lt hd, Option.map_some, nil_append]
  · refine List.Nodup.sublist (filter_sublist.map snd) ?_
    rw [zipIdx_map_snd]
    exact nodup_range' ..
  · simp only [mem_map, mem_filter, decide_eq_true_eq, Prod.exists,
      mem_zipIdx_iff_getElem?, exists_eq_right]
    constructor
    · rintro ⟨D, hD, hd⟩
      rw [depsOf, hD]
      exact hd
    · intro hd'
      exact ⟨_, getElem?_eq_depsOf (lt_of_mem_depsOf hd'), hd'⟩

/-! ### One round -/

/-- The dependents lose one dependency each. Those that had one are queued. -/
theorem foldlM_release {dependents : List Nat} (hnodup : dependents.Nodup) {s : KahnState}
    (hpos : ∀ j ∈ dependents, ∃ deg, s.inDegree[j]? = some (deg + 1)) :
    ∃ s', dependents.foldlM KahnState.release s = some s' ∧ s'.order = s.order ∧
      s'.queue = s.queue ++ dependents.filter (fun j => s.inDegree[j]? = some 1) ∧
      ∀ j, s'.inDegree[j]? =
        (s.inDegree[j]?).map fun deg => if j ∈ dependents then deg - 1 else deg := by
  induction dependents generalizing s with
  | nil => exact ⟨s, rfl, rfl, by simp, fun j => by simp⟩
  | cons e dependents ih =>
    rw [nodup_cons] at hnodup
    rcases hpos e List.mem_cons_self with ⟨deg, hdeg⟩
    have helt : e < s.inDegree.length := (List.getElem?_eq_some_iff.mp hdeg).1
    have hrel : ∃ s₁, s.release e = some s₁ ∧ s₁.order = s.order ∧
        s₁.inDegree = s.inDegree.set e deg ∧
        s₁.queue = s.queue ++ if deg = 0 then [e] else [] := by
      simp only [KahnState.release, hdeg]
      by_cases h0 : deg = 0
      · exact ⟨_, rfl, by rw [if_pos h0], by rw [if_pos h0], by rw [if_pos h0, if_pos h0]⟩
      · exact ⟨_, rfl, by rw [if_neg h0], by rw [if_neg h0], by simp [if_neg h0]⟩
    rcases hrel with ⟨s₁, hs₁, horder₁, hdeg₁, hqueue₁⟩
    have hother : ∀ j ∈ dependents, s₁.inDegree[j]? = s.inDegree[j]? := by
      intro j hj
      have hne : e ≠ j := fun hej => hnodup.1 (hej ▸ hj)
      rw [hdeg₁, getElem?_set_ne hne]
    rcases ih hnodup.2 (s := s₁) (fun j hj => (hother j hj).symm ▸
      hpos j (mem_cons_of_mem _ hj)) with ⟨s', hs', horder', hqueue', hdeg'⟩
    refine ⟨s', ?_, horder'.trans horder₁, ?_, fun j => ?_⟩
    · rw [foldlM_cons, hs₁]
      exact hs'
    · have hfilter : dependents.filter (fun j => s₁.inDegree[j]? = some 1) =
          dependents.filter (fun j => s.inDegree[j]? = some 1) := by
        refine filter_congr fun j hj => ?_
        rw [hother j hj]
      rw [hqueue', hqueue₁, hfilter, append_assoc, filter_cons, hdeg]
      by_cases h0 : deg = 0 <;> simp [h0]
    · rw [hdeg', hdeg₁, getElem?_set]
      by_cases hj : e = j
      · subst hj
        rw [if_pos rfl, if_pos helt, hdeg]
        simp [hnodup.1]
      · simp [hj, Ne.symm hj]

namespace KahnState

variable (dependsOn) in
/-- A component is taken or queued exactly if its dependencies are taken. -/
structure Inv (s : KahnState) : Prop where
  degree : ∀ i < dependsOn.length,
    s.inDegree[i]? = some (depsOf dependsOn i \ s.order.toFinset).card
  nodup : (s.order ++ s.queue).Nodup
  ready : ∀ i, i ∈ s.order ++ s.queue ↔
    i < dependsOn.length ∧ ∀ d ∈ depsOf dependsOn i, d ∈ s.order
  ordered : ∀ a x b, s.order = a ++ x :: b → ∀ d ∈ depsOf dependsOn x, d ∈ a

theorem Inv.init : Inv dependsOn
    { inDegree := dependsOn.map Finset.card
      queue := (dependsOn.map Finset.card).zipIdx.filterMap
        fun (deg, i) => if deg = 0 then some i else none
      order := [] } := by
  have hqueue : (dependsOn.map Finset.card).zipIdx.filterMap
      (fun (deg, i) => if deg = 0 then some i else none) =
      ((dependsOn.map Finset.card).zipIdx.filter fun p => p.1 = 0).map snd := by
    generalize (dependsOn.map Finset.card).zipIdx = l
    induction l with
    | nil => rfl
    | cons p l ih => by_cases h : p.1 = 0 <;> simp [h, ih]
  refine ⟨fun i hi => ?_, ?_, fun i => ?_, fun a x b h => ?_⟩
  · simp [getElem?_eq_depsOf hi]
  · rw [nil_append, hqueue]
    refine List.Nodup.sublist (filter_sublist.map snd) ?_
    rw [zipIdx_map_snd]
    exact nodup_range' ..
  · rw [nil_append, hqueue]
    simp only [mem_map, mem_filter, decide_eq_true_eq, Prod.exists,
      mem_zipIdx_iff_getElem?, exists_eq_right, getElem?_map, Option.map_eq_some_iff,
      not_mem_nil, imp_false]
    constructor
    · rintro ⟨D, hD, hcard⟩
      refine ⟨(List.getElem?_eq_some_iff.mp hD).1, fun d hd => ?_⟩
      rw [depsOf, hD] at hd
      rw [Finset.card_eq_zero.mp hcard] at hd
      exact Finset.notMem_empty d hd
    · rintro ⟨hi, hnone⟩
      exact ⟨_, getElem?_eq_depsOf hi, Finset.card_eq_zero.mpr
        (Finset.eq_empty_of_forall_notMem hnone)⟩
  · cases a <;> cases h

variable {s : KahnState}

/-- Taking a component keeps the invariant. -/
theorem Inv.take_ok {node : Nat} {queue dependents : List Nat}
    (h : Inv dependsOn s) (hqueue : s.queue = node :: queue) (hnodup : dependents.Nodup)
    (hdependents : ∀ i, i ∈ dependents ↔ node ∈ depsOf dependsOn i) :
    ∃ s', dependents.foldlM KahnState.release
        { s with queue := queue, order := s.order ++ [node] } = some s' ∧
      Inv dependsOn s' ∧ s'.order = s.order ++ [node] := by
  have hnew : node ∉ s.order := by
    have hnd := h.nodup
    rw [hqueue] at hnd
    exact fun hmem => disjoint_of_nodup_append hnd hmem mem_cons_self
  have herase : ∀ i, depsOf dependsOn i \ (s.order ++ [node]).toFinset =
      (depsOf dependsOn i \ s.order.toFinset).erase node := by
    intro i
    ext x
    simp only [Finset.mem_sdiff, Finset.mem_erase, mem_toFinset, mem_append, mem_singleton]
    tauto
  have hdiff : ∀ i, node ∈ depsOf dependsOn i →
      (depsOf dependsOn i \ (s.order ++ [node]).toFinset).card + 1 =
        (depsOf dependsOn i \ s.order.toFinset).card := by
    intro i hi
    have hmem : node ∈ depsOf dependsOn i \ s.order.toFinset :=
      Finset.mem_sdiff.mpr ⟨hi, fun hm => hnew (mem_toFinset.mp hm)⟩
    rw [herase, Finset.card_erase_add_one hmem]
  rcases foldlM_release hnodup
    (s := { s with queue := queue, order := s.order ++ [node] }) (fun j hj => by
      have hj' := (hdependents j).mp hj
      refine ⟨(depsOf dependsOn j \ (s.order ++ [node]).toFinset).card, ?_⟩
      rw [hdiff j hj']
      exact h.degree j (lt_of_mem_depsOf hj')) with ⟨s', hs', horder, hqueue', hdeg⟩
  -- a dependent with one dependency left is ready now, and was not before
  have hone : ∀ i, i ∈ dependents ∧ s.inDegree[i]? = some 1 ↔
      node ∈ depsOf dependsOn i ∧ ∀ d ∈ depsOf dependsOn i, d ∈ s.order ++ [node] := by
    intro i
    rw [hdependents]
    refine and_congr_right fun hi => ?_
    rw [h.degree i (lt_of_mem_depsOf hi), ← hdiff i hi, Option.some_inj, Nat.add_eq_right,
      Finset.card_eq_zero, Finset.sdiff_eq_empty_iff_subset]
    exact ⟨fun hsub d hd => mem_toFinset.mp (hsub hd),
      fun hall d hd => mem_toFinset.mpr (hall d hd)⟩
  have hlist : s'.order ++ s'.queue = (s.order ++ s.queue) ++
      dependents.filter (fun j => s.inDegree[j]? = some 1) := by
    rw [horder, hqueue', hqueue]
    simp
  have hfilter : ∀ i, i ∈ dependents.filter (fun j => s.inDegree[j]? = some 1) ↔
      i ∈ dependents ∧ s.inDegree[i]? = some 1 := by
    intro i
    rw [mem_filter, decide_eq_true_eq]
  refine ⟨s', hs', ⟨fun i hi => ?_, ?_, fun i => ?_, ?_⟩, horder⟩
  · rw [hdeg, horder]
    simp only [h.degree i hi, Option.map_some, hdependents]
    by_cases hmem : node ∈ depsOf dependsOn i
    · rw [if_pos hmem, ← hdiff i hmem, Nat.add_sub_cancel]
    · rw [if_neg hmem, herase, Finset.erase_eq_of_notMem fun h => hmem (Finset.mem_sdiff.mp h).1]
  · rw [hlist, nodup_append']
    refine ⟨h.nodup, hnodup.filter _, fun i hi hi' => ?_⟩
    have hnode := ((hone i).mp ((hfilter i).mp hi')).1
    exact hnew (((h.ready i).mp hi).2 node hnode)
  · rw [hlist, mem_append, h.ready, hfilter, hone, horder]
    constructor
    · rintro (⟨hi, hall⟩ | ⟨hnode, hall⟩)
      · exact ⟨hi, fun d hd => mem_append_left _ (hall d hd)⟩
      · exact ⟨lt_of_mem_depsOf hnode, hall⟩
    · rintro ⟨hi, hall⟩
      by_cases hnode : node ∈ depsOf dependsOn i
      · exact .inr ⟨hnode, hall⟩
      · refine .inl ⟨hi, fun d hd => ?_⟩
        rcases mem_append.mp (hall d hd) with hd' | hd'
        · exact hd'
        · exact absurd (mem_singleton.mp hd' ▸ hd) hnode
  · intro a x b hsplit d hd
    rw [horder] at hsplit
    rcases eq_nil_or_concat b with rfl | ⟨b', y, rfl⟩
    · -- the component taken now
      rcases append_inj' hsplit rfl with ⟨rfl, hx⟩
      cases hx
      exact ((h.ready node).mp (mem_append_right _ (hqueue ▸ mem_cons_self))).2 d hd
    · rw [concat_eq_append, ← cons_append, ← append_assoc] at hsplit
      exact h.ordered a x b' (append_inj' hsplit rfl).1 d hd

/-- No component is taken or queued twice. -/
theorem Inv.length_le (h : Inv dependsOn s) :
    s.order.length + s.queue.length ≤ dependsOn.length := by
  have hsub : ∀ i ∈ s.order ++ s.queue, i ∈ range dependsOn.length := fun i hi =>
    mem_range.mpr ((h.ready i).mp hi).1
  have hle := (h.nodup.subperm hsub).length_le
  rwa [length_append, length_range] at hle

theorem Inv.loop_ok (hrev : ∀ d < dependsOn.length, ∃ l, rev[d]? = some l ∧ l.Nodup ∧
      ∀ i, i ∈ l ↔ d ∈ depsOf dependsOn i) {fuel : Nat} (h : Inv dependsOn s)
    (hfuel : dependsOn.length < fuel + s.order.length) :
    ∃ s', s.loop rev fuel = some s' ∧ Inv dependsOn s' ∧ s'.queue = [] := by
  induction fuel generalizing s with
  | zero =>
    have hle := h.length_le
    omega
  | succ fuel ih =>
    unfold KahnState.loop
    cases hqueue : s.queue with
    | nil => exact ⟨s, rfl, h, hqueue⟩
    | cons node =>
      have hnode : node < dependsOn.length :=
        ((h.ready node).mp (mem_append_right _ (hqueue ▸ mem_cons_self))).1
      rcases hrev node hnode with ⟨l, hl, hnodup, hmem⟩
      rcases h.take_ok hqueue hnodup hmem with ⟨s₁, hs₁, hinv₁, horder₁⟩
      have hlen : s₁.order.length = s.order.length + 1 := by
        rw [horder₁, length_append, length_singleton]
      rcases ih hinv₁ (by omega) with ⟨s', hs', hinv', hempty⟩
      refine ⟨s', ?_, hinv', hempty⟩
      simp [hl, hs₁, hs']

end KahnState

/-- Every component once, each after those it depends on. -/
theorem kahn_order (hlt : ∀ i, ∀ d ∈ depsOf dependsOn i, d < i) :
    ∃ order, kahn it dependsOn = some order ∧ order.Perm (List.range dependsOn.length) ∧
      ∀ a i b, order = a ++ i :: b → ∀ d ∈ depsOf dependsOn i, d ∈ a := by
  rcases reverseDeps_ok it (fun i d hd => (hlt i d hd).trans (lt_of_mem_depsOf hd)) with
    ⟨rev, hrev, hspec⟩
  have hfuel : dependsOn.length < dependsOn.length + 1 + ([] : List Nat).length :=
    Nat.lt_succ_self _
  rcases KahnState.Inv.init.loop_ok hspec hfuel with ⟨s, hs, hinv, hempty⟩
  have hready : ∀ i, i ∈ s.order ↔
      i < dependsOn.length ∧ ∀ d ∈ depsOf dependsOn i, d ∈ s.order := by
    intro i
    have hi := hinv.ready i
    rwa [hempty, append_nil] at hi
  have hall : ∀ i < dependsOn.length, i ∈ s.order := by
    intro i
    induction i using Nat.strong_induction_on with
    | _ i ih =>
      intro hi
      exact (hready i).mpr ⟨hi, fun d hd => ih d (hlt i d hd) ((hlt i d hd).trans hi)⟩
  refine ⟨s.order, ?_, ?_, hinv.ordered⟩
  · simp only [kahn, hrev, hs, Option.bind_eq_bind, Option.bind_some]
    rfl
  · have hnd := hinv.nodup
    rw [hempty, append_nil] at hnd
    refine (perm_ext_iff_of_nodup hnd nodup_range).mpr fun i => ?_
    rw [mem_range]
    exact ⟨fun hi => ((hready i).mp hi).1, hall i⟩

end Proofs

end UniDb.Locy
