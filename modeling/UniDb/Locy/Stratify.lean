import Mathlib.Data.Finset.Sort
import Mathlib.Data.String.Basic
import UniDb.Locy.Kahn
import UniDb.Locy.Tarjan

/-!
# Stratification

The strata of a program: the strongly connected components of the dependencies between its
rules, and an order in which to evaluate them.

A negative dependency inside a component is refused, since the rule would be defined by its
own absence. A component is recursive if it has several rules, or one that depends on itself.
Only positive self-edges are looked at, which is enough once negative edges inside a
component are excluded.

Maps are lists of entries in the order in which they are iterated; the sets are iterated in an
order that may differ from one set to the next. A lookup that would panic gives `none`.

## Main definitions

* `DependencyGraph`: Positive and negative edges between rules.
* `HashOrder`: The iteration orders of the hash sets.
* `stratify`: The components, the cyclic negation check and the evaluation order.

## Theorems

* `mem_neighbours`: The search goes along positive and negative edges.
* `lookup_sccMap`: The component of a rule.
* `checkNegation_cases`: The check finds a negative edge inside a component.
* `stratify_correct`: The strata and their order.
-/

namespace UniDb.Locy

open AList AssocMap List

structure DependencyGraph where
  positiveEdges : AssocMap String (Finset String)
  negativeEdges : AssocMap String (Finset String)
  allRules : Finset String

structure StratificationResult where
  sccs : List (Finset String)
  sccOrder : List Nat
  sccMap : AssocMap String Nat
  isRecursive : List Bool
  sccDependsOn : List (Finset Nat)

inductive LocyCompileError where
  | cyclicNegation (rules : List String)
  deriving DecidableEq

/-- The sets of rule names that are iterated. -/
inductive HashSite where
  | allRules
  | positive (rule : String)
  | negative (rule : String)
  | neighbours (rule : String)
  | scc (index : Nat)

/-- The iteration orders of the sets of rule names and of the sets `sccDependsOn`. -/
structure HashOrder where
  rules : HashSite → Iteration String
  indices : Nat → Iteration Nat

section Algorithm

variable (o : HashOrder) (G : DependencyGraph)

/-- The edges of a map, in the order of its iteration. -/
def edgePairs (site : String → HashSite) (edges : AssocMap String (Finset String)) :
    List (String × String) :=
  edges.toList.flatMap fun (source, tos) =>
    ((o.rules (site source)).toList tos).map fun target => (source, target)

/-- The target is added to the set of its source, which is created if it is missing. -/
def addEdge (adj : AssocMap String (Finset String)) (edge : String × String) :
    AssocMap String (Finset String) :=
  adj.insert edge.1 (insert edge.2 ((adj.lookup edge.1).getD ∅))

/-- Positive and negative edges together. -/
def combinedAdjacency : AssocMap String (Finset String) :=
  let adj := ((o.rules .allRules).toList G.allRules).foldl (fun adj rule => adj.orInsert rule ∅) ∅
  let adj := (edgePairs o .positive G.positiveEdges).foldl addEdge adj
  (edgePairs o .negative G.negativeEdges).foldl addEdge adj

/-- The neighbours of a rule, in the order in which the search visits them. -/
def snapshotNeighbours (v : String) : List String :=
  (((combinedAdjacency o G).lookup v).map (o.rules (.neighbours v)).toList).getD []

def addScc (sccMap : AssocMap String Nat) (entry : Finset String × Nat) : AssocMap String Nat :=
  ((o.rules (.scc entry.2)).toList entry.1).foldl
    (fun sccMap rule => sccMap.insert rule entry.2) sccMap

def buildSccMap (sccs : List (Finset String)) : AssocMap String Nat :=
  sccs.zipIdx.foldl (addScc o) ∅

/-- The first negative edge inside a component, if there is one. -/
def checkNegation (sccs : List (Finset String)) (sccMap : AssocMap String Nat) :
    List (String × String) → Option (Option LocyCompileError)
  | [] => some none
  | (source, target) :: edges => do
      let fromScc ← sccMap.lookup source
      let toScc ← sccMap.lookup target
      if fromScc = toScc then
        (sccs[fromScc]?).map fun scc => some (.cyclicNegation (scc.sort (· ≤ ·)))
      else checkNegation sccs sccMap edges

/-- The only rule of a component is looked up among the positive edges only. -/
def isRecursiveScc (i : Nat) (scc : Finset String) : Option Bool :=
  if 1 < scc.card then some true
  else match (o.rules (.scc i)).toList scc with
    | [] => none
    | rule :: _ => some <| match G.positiveEdges.lookup rule with
        | some deps => rule ∈ deps
        | none => false

/-- An edge inside a component is no dependency of the component. -/
def addSccEdge (sccMap : AssocMap String Nat) (fromScc : Nat) (dependsOn : List (Finset Nat))
    (target : String) : Option (List (Finset Nat)) := do
  let toScc ← sccMap.lookup target
  if fromScc ≠ toScc then modifyAt dependsOn fromScc (insert toScc) else some dependsOn

/-- The component of a rule is looked up before its edges are. -/
def addSccEdges (site : String → HashSite) (sccMap : AssocMap String Nat)
    (dependsOn : List (Finset Nat)) (entry : String × Finset String) :
    Option (List (Finset Nat)) := do
  let fromScc ← sccMap.lookup entry.1
  ((o.rules (site entry.1)).toList entry.2).foldlM (addSccEdge sccMap fromScc) dependsOn

def buildSccDependsOn (sccs : List (Finset String)) (sccMap : AssocMap String Nat) :
    Option (List (Finset Nat)) := do
  let dependsOn ← G.positiveEdges.toList.foldlM (addSccEdges o .positive sccMap)
    (replicate sccs.length ∅)
  G.negativeEdges.toList.foldlM (addSccEdges o .negative sccMap) dependsOn

def stratify : Option (Except LocyCompileError StratificationResult) := do
  let rules := G.allRules.sort (· ≤ ·)
  let sccs ← tarjan (snapshotNeighbours o G) rules
  let sccMap := buildSccMap o sccs
  match ← checkNegation sccs sccMap (edgePairs o .negative G.negativeEdges) with
  | some err => pure (.error err)
  | none =>
    let isRecursive ← sccs.zipIdx.mapM fun (scc, i) => isRecursiveScc o G i scc
    let sccDependsOn ← buildSccDependsOn o G sccs sccMap
    let sccOrder ← kahn o.indices sccDependsOn
    pure (.ok { sccs, sccOrder, sccMap, isRecursive, sccDependsOn })

end Algorithm

/-! ### The edges -/

namespace DependencyGraph

variable (G : DependencyGraph)

def Positive (x y : String) : Prop := ∃ tos, G.positiveEdges.lookup x = some tos ∧ y ∈ tos

def Negative (x y : String) : Prop := ∃ tos, G.negativeEdges.lookup x = some tos ∧ y ∈ tos

/-- A rule reads another one, or its absence. -/
def Depends (x y : String) : Prop := G.Positive x y ∨ G.Negative x y

/-- The rules of both edge maps are known. -/
structure Known : Prop where
  positive_source : ∀ x ∈ G.positiveEdges, x ∈ G.allRules
  negative_source : ∀ x ∈ G.negativeEdges, x ∈ G.allRules
  target : ∀ x y, G.Depends x y → y ∈ G.allRules

end DependencyGraph

section Proofs

variable {o : HashOrder} {G : DependencyGraph}

/-- Each edge is listed, whatever the iteration orders are. -/
theorem mem_edgePairs (site : String → HashSite) (edges : AssocMap String (Finset String))
    (x y : String) :
    (x, y) ∈ edgePairs o site edges ↔ ∃ tos, edges.lookup x = some tos ∧ y ∈ tos := by
  unfold edgePairs
  simp only [mem_flatMap, mem_map, Prod.exists, Prod.mk.injEq, mem_toList, Iteration.mem_iff]
  constructor
  · rintro ⟨source, tos, hlookup, target, hmem, rfl, rfl⟩
    exact ⟨tos, hlookup, hmem⟩
  · rintro ⟨tos, hlookup, hmem⟩
    exact ⟨x, tos, hlookup, y, hmem, rfl, rfl⟩

/-- Adding edges one after the other unites the sets of each source. -/
theorem mem_foldl_addEdge (edges : List (String × String))
    (adj : AssocMap String (Finset String)) (x y : String) :
    y ∈ ((edges.foldl addEdge adj).lookup x).getD ∅ ↔
      y ∈ (adj.lookup x).getD ∅ ∨ (x, y) ∈ edges := by
  induction edges generalizing adj with
  | nil => simp
  | cons edge edges ih =>
    rw [foldl_cons, ih, addEdge, lookup_insert_eq, mem_cons]
    by_cases hx : x = edge.1
    · subst hx
      rw [if_pos rfl, Option.getD_some, Finset.mem_insert, Prod.ext_iff]
      tauto
    · rw [if_neg hx, Prod.ext_iff]
      tauto

/-- The first loop gives every rule an empty set, so that it adds no edge. -/
theorem lookup_foldl_orInsert (rules : List String) (adj : AssocMap String (Finset String))
    (h : ∀ x, (adj.lookup x).getD ∅ = ∅) (x : String) :
    ((rules.foldl (fun adj rule => adj.orInsert rule ∅) adj).lookup x).getD ∅ = ∅ := by
  induction rules generalizing adj with
  | nil => exact h x
  | cons rule rules ih =>
    refine ih _ fun z => ?_
    have hz := h z
    rw [lookup_orInsert]
    split <;> cases hl : adj.lookup z <;> simp_all

/-- The search goes along both kinds of edges, so a negative dependency puts rules into one
    component as a positive one does. -/
theorem mem_neighbours (x y : String) : y ∈ snapshotNeighbours o G x ↔ G.Depends x y := by
  have hmem : y ∈ ((combinedAdjacency o G).lookup x).getD ∅ ↔ G.Depends x y := by
    simp only [combinedAdjacency, mem_foldl_addEdge, mem_edgePairs]
    rw [lookup_foldl_orInsert _ ∅ (fun _ => rfl)]
    simp [DependencyGraph.Depends, DependencyGraph.Positive, DependencyGraph.Negative]
  rw [← hmem, snapshotNeighbours]
  cases (combinedAdjacency o G).lookup x with
  | none => simp
  | some => simp [Iteration.mem_iff]

/-! ### The component of a rule -/

/-- The rules of one component are mapped to its index, and no other rule is touched. -/
theorem lookup_foldl_insert (rules : List String) (i : Nat) (sccMap : AssocMap String Nat)
    (x : String) : (rules.foldl (fun sccMap rule => sccMap.insert rule i) sccMap).lookup x =
      if x ∈ rules then some i else sccMap.lookup x := by
  induction rules generalizing sccMap with
  | nil => simp
  | cons rule rules ih =>
    rw [foldl_cons, ih, lookup_insert_eq]
    by_cases hx : x ∈ rules <;> by_cases hr : x = rule <;> simp [hx, hr]

theorem lookup_addScc (sccMap : AssocMap String Nat) (entry : Finset String × Nat) (x : String) :
    (addScc o sccMap entry).lookup x = if x ∈ entry.1 then some entry.2 else sccMap.lookup x := by
  rw [addScc, lookup_foldl_insert]
  simp only [Iteration.mem_iff]

/-- The map names a component that holds the rule, and names one if there is one. -/
theorem lookup_foldl_addScc (l : List (Finset String × Nat)) (sccMap : AssocMap String Nat)
    (x : String) : (∀ i, (l.foldl (addScc o) sccMap).lookup x = some i →
        sccMap.lookup x = some i ∨ ∃ p ∈ l, x ∈ p.1 ∧ p.2 = i) ∧
      (sccMap.lookup x ≠ none ∨ (∃ p ∈ l, x ∈ p.1) →
        (l.foldl (addScc o) sccMap).lookup x ≠ none) := by
  induction l generalizing sccMap with
  | nil => exact ⟨fun i hi => .inl hi, fun h => h.resolve_right (by simp)⟩
  | cons p l ih =>
    specialize ih (addScc o sccMap p)
    rw [lookup_addScc] at ih
    refine ⟨fun i hi => ?_, fun h => ih.2 ?_⟩
    -- a later component may overwrite the entry, so only membership is claimed here
    · rcases ih.1 i hi with hi' | ⟨q, hq, hxq⟩
      · by_cases hx : x ∈ p.1
        · rw [if_pos hx] at hi'
          exact .inr ⟨p, mem_cons_self, hx, Option.some_inj.mp hi'⟩
        · rw [if_neg hx] at hi'
          exact .inl hi'
      · exact .inr ⟨q, mem_cons_of_mem _ hq, hxq⟩
    · by_cases hx : x ∈ p.1
      · rw [if_pos hx]
        exact .inl (Option.some_ne_none _)
      · rw [if_neg hx]
        refine h.imp_right fun ⟨q, hq, hxq⟩ => ?_
        rcases mem_cons.mp hq with rfl | hq
        · exact absurd hxq hx
        · exact ⟨q, hq, hxq⟩

/-- What the components have to be, as the search finds them. -/
structure Components (G : DependencyGraph) (sccs : List (Finset String)) : Prop where
  layered : Layered G.Depends sccs
  covers : ∀ x, (∃ C ∈ sccs, x ∈ C) ↔ x ∈ G.allRules

/-- The search returns, and what it returns are the classes of mutual dependency in an order in
    which edges point backwards. -/
theorem tarjan_components (hG : G.Known) :
    ∃ sccs, tarjan (snapshotNeighbours o G) (G.allRules.sort (· ≤ ·)) = some sccs ∧
      Components G sccs := by
  have hrel : (fun x y => y ∈ snapshotNeighbours o G x) = G.Depends := by
    funext x y
    exact propext (mem_neighbours x y)
  have hclosed : ∀ x ∈ G.allRules.sort (· ≤ ·), ∀ y ∈ snapshotNeighbours o G x,
      y ∈ G.allRules.sort (· ≤ ·) := fun x _ y hy =>
    (Finset.mem_sort _).mpr (hG.target x y ((mem_neighbours x y).mp hy))
  rcases tarjan_layered (Finset.sort_nodup G.allRules (· ≤ ·)) hclosed with
    ⟨sccs, hsccs, hlayered, hcovers⟩
  refine ⟨sccs, hsccs, hrel ▸ hlayered, fun x => ?_⟩
  rw [hcovers, Finset.mem_sort]

variable {sccs : List (Finset String)} (h : Components G sccs)

include h

/-- The component of a rule. Components are disjoint, so the last entry written for a rule is the
    only one. -/
theorem lookup_sccMap (x : String) (i : Nat) :
    (buildSccMap o sccs).lookup x = some i ↔ ∃ C, sccs[i]? = some C ∧ x ∈ C := by
  have hfold := lookup_foldl_addScc (o := o) sccs.zipIdx ∅ x
  have hof : ∀ j, (buildSccMap o sccs).lookup x = some j → ∃ C, sccs[j]? = some C ∧ x ∈ C := by
    intro j hj
    rcases hfold.1 j hj with h0 | ⟨⟨C, k⟩, hp, hx, rfl⟩
    · cases h0
    · exact ⟨C, mem_zipIdx_iff_getElem?.mp hp, hx⟩
  refine ⟨hof i, fun ⟨C, hC, hx⟩ => ?_⟩
  have hsome := hfold.2 (.inr ⟨(C, i), mem_zipIdx_iff_getElem?.mpr hC, hx⟩)
  rcases Option.ne_none_iff_exists'.mp hsome with ⟨j, hj⟩
  rcases hof j hj with ⟨D, hD, hxD⟩
  rw [h.layered.getElem?_unique hC hD hx hxD]
  exact hj

variable {x : String}

/-- Every known rule is in a component, so no lookup panics. -/
theorem Components.index_of_known (hx : x ∈ G.allRules) :
    ∃ (i : Nat) (C : Finset String), sccs[i]? = some C ∧ x ∈ C := by
  rcases (h.covers x).mpr hx with ⟨C, hC, hxC⟩
  rcases mem_iff_getElem?.mp hC with ⟨i, hi⟩
  exact ⟨i, C, hi, hxC⟩

/-! ### Negative edges inside a component -/

/-- The check decides whether a negative edge has both ends in one component, that is, on a cycle.
    It stops at the first such edge. -/
theorem checkNegation_cases {edges : List (String × String)}
    (hknown : ∀ e ∈ edges, e.1 ∈ G.allRules ∧ e.2 ∈ G.allRules) :
    (checkNegation sccs (buildSccMap o sccs) edges = some none ∧
        ∀ e ∈ edges, ¬ Mutual G.Depends e.1 e.2) ∨
      (∃ rules, checkNegation sccs (buildSccMap o sccs) edges =
        some (some (.cyclicNegation rules))) ∧ ∃ e ∈ edges, Mutual G.Depends e.1 e.2 := by
  induction edges with
  | nil => exact .inl ⟨rfl, nofun⟩
  | cons e edges ih =>
    have hend := hknown e mem_cons_self
    rcases h.index_of_known hend.1 with ⟨i, C, hi, hC⟩
    rcases h.index_of_known hend.2 with ⟨j, D, hj, hD⟩
    have hsame := h.layered.eq_iff_mutual hi hC hj hD
    simp only [checkNegation, (lookup_sccMap h _ _).mpr ⟨C, hi, hC⟩,
      (lookup_sccMap h _ _).mpr ⟨D, hj, hD⟩, Option.bind_eq_bind, Option.bind_some]
    -- both ends in one component means one index, since components are disjoint
    by_cases hij : i = j
    · rw [if_pos hij, hi, Option.map_some]
      exact .inr ⟨⟨_, rfl⟩, e, mem_cons_self, hsame.mp hij⟩
    · rw [if_neg hij]
      rcases ih fun e' he' => hknown e' (mem_cons_of_mem _ he') with
        ⟨hnone, hall⟩ | ⟨hsome, e', he', hmutual⟩
      · refine .inl ⟨hnone, fun e' he' => ?_⟩
        rcases mem_cons.mp he' with rfl | he'
        · exact fun hmutual => hij (hsame.mpr hmutual)
        · exact hall e' he'
      · exact .inr ⟨hsome, e', mem_cons_of_mem _ he', hmutual⟩

omit h

/-! ### Recursive components -/

/-- Two rules in one component are on a cycle. -/
theorem transGen_of_mutual {E : String → String → Prop} (h : Mutual E x y) (hne : x ≠ y) :
    Relation.TransGen E x x := by
  rcases Relation.reflTransGen_iff_eq_or_transGen.mp h.1 with heq | hxy
  · exact absurd heq.symm hne
  · exact hxy.trans_left h.2

/-- Without negative edges inside a component, a rule alone in its component depends on itself
    only through a positive edge. -/
theorem isRecursiveScc_iff (h : Components G sccs)
    (hneg : ∀ x y, G.Negative x y → ¬ Mutual G.Depends x y) {i : Nat} (hi : sccs[i]? = some C) :
    ∃ b, isRecursiveScc o G i C = some b ∧
      (b = true ↔ ∃ x ∈ C, Relation.TransGen G.Depends x x) := by
  have hmem := mem_of_getElem? hi
  unfold isRecursiveScc
  by_cases hcard : 1 < C.card
  · rw [if_pos hcard]
    refine ⟨true, rfl, iff_of_true rfl ?_⟩
    rcases Finset.one_lt_card.mp hcard with ⟨x, hx, y, hy, hne⟩
    exact ⟨x, hx, transGen_of_mutual ((h.layered.mem_iff_mutual hmem hx y).mp hy) hne⟩
  · rw [if_neg hcard]
    rcases h.layered.nonempty hmem with ⟨r, hr⟩
    have honly : ∀ y ∈ C, y = r := fun y hy =>
      Finset.card_le_one.mp (not_lt.mp hcard) y hy r hr
    -- a component has a rule, so `iter().next().unwrap()` does not panic
    cases hiter : (o.rules (.scc i)).toList C with
    | nil =>
      have hr' := ((o.rules (.scc i)).mem_iff C r).mpr hr
      rw [hiter] at hr'
      cases hr'
    | cons rule =>
      have hrule : rule ∈ C := ((o.rules (.scc i)).mem_iff C rule).mp
        (hiter ▸ mem_cons_self)
      have hpos : (match G.positiveEdges.lookup rule with
          | some deps => decide (rule ∈ deps)
          | none => false) = true ↔ G.Positive rule rule := by
        unfold DependencyGraph.Positive
        cases G.positiveEdges.lookup rule <;> simp
      refine ⟨_, rfl, hpos.trans ⟨fun hself => ⟨rule, hrule, .single (.inl hself)⟩, ?_⟩⟩
      rintro ⟨x, hx, hcycle⟩
      have hxr : x = rule := (honly x hx).trans (honly rule hrule).symm
      subst hxr
      -- the first edge of a cycle stays in the component, so it is a self-edge, and by `hneg` it
      -- is not negative
      rcases Relation.TransGen.head'_iff.mp hcycle with ⟨z, hxz, hzx⟩
      have hz : z = x := (honly z ((h.layered.mem_iff_mutual hmem hx z).mpr
        ⟨.single hxz, hzx⟩)).trans (honly x hx).symm
      subst hz
      exact hxz.resolve_right fun hn => hneg z z hn (.refl _ z)

theorem mapM_eq_some_map {α β : Type} {f : α → Option β} {g : α → β} (l : List α)
    (h : ∀ a ∈ l, f a = some (g a)) : l.mapM f = some (l.map g) := by
  induction l with
  | nil => rfl
  | cons a l ih =>
    rw [mapM_cons, h a mem_cons_self, ih fun b hb => h b (mem_cons_of_mem _ hb)]
    rfl

/-- One flag for each component, and no panic. -/
theorem isRecursive_ok (h : Components G sccs)
    (hneg : ∀ x y, G.Negative x y → ¬ Mutual G.Depends x y) :
    ∃ flags, sccs.zipIdx.mapM (fun (scc, i) => isRecursiveScc o G i scc) = some flags ∧
      flags.length = sccs.length ∧ ∀ (i : Nat) (C : Finset String), sccs[i]? = some C →
        (flags[i]? = some true ↔ ∃ x ∈ C, Relation.TransGen G.Depends x x) := by
  refine ⟨sccs.zipIdx.map fun p => (isRecursiveScc o G p.2 p.1).getD false, ?_, by simp, ?_⟩
  · refine mapM_eq_some_map _ fun p hp => ?_
    rcases isRecursiveScc_iff (o := o) h hneg (mem_zipIdx_iff_getElem?.mp hp) with ⟨b, hb, -⟩
    simp [hb]
  · intro i C hi
    rcases isRecursiveScc_iff (o := o) h hneg hi with ⟨b, hb, hiff⟩
    rw [getElem?_map, getElem?_zipIdx, hi]
    simp [hb, hiff]

/-! ### The dependencies between components -/

variable {dependsOn : List (Finset Nat)}

/-- Adding a dependency to one component leaves the others alone. -/
theorem mem_depsOf_modify {k : Nat} (hk : k < dependsOn.length) (i j t : Nat) :
    j ∈ depsOf (dependsOn.modify k (insert t)) i ↔ j ∈ depsOf dependsOn i ∨ i = k ∧ j = t := by
  rw [depsOf, getElem?_modify, depsOf]
  by_cases hik : k = i
  · subst hik
    simp [getElem?_eq_getElem hk, or_comm]
  · simp [hik, Ne.symm hik]

variable {sccMap : AssocMap String Nat}

/-- The edges of one rule. Known targets have a component, so the loop does not panic. -/
theorem foldlM_addSccEdge {fromScc : Nat} {targets : List String}
    (hknown : ∀ y ∈ targets, y ∈ sccMap) (hlt : fromScc < dependsOn.length) :
    ∃ dependsOn', targets.foldlM (addSccEdge sccMap fromScc) dependsOn = some dependsOn' ∧
      dependsOn'.length = dependsOn.length ∧ ∀ i j, j ∈ depsOf dependsOn' i ↔
        j ∈ depsOf dependsOn i ∨ i = fromScc ∧ i ≠ j ∧ ∃ y ∈ targets, sccMap.lookup y = some j := by
  induction targets generalizing dependsOn with
  | nil => exact ⟨dependsOn, rfl, rfl, fun i j => by simp⟩
  | cons y targets ih =>
    rcases mem_iff_lookup.mp (hknown y mem_cons_self) with ⟨t, ht⟩
    have hstep : ∃ d₁, addSccEdge sccMap fromScc dependsOn y = some d₁ ∧
        d₁.length = dependsOn.length ∧ ∀ i j, j ∈ depsOf d₁ i ↔
          j ∈ depsOf dependsOn i ∨ i = fromScc ∧ i ≠ j ∧ j = t := by
      simp only [addSccEdge, ht, Option.bind_eq_bind, Option.bind_some]
      by_cases hne : fromScc = t
      · refine ⟨dependsOn, by rw [if_neg (not_not.mpr hne)], rfl, fun i j => ?_⟩
        refine ⟨.inl, ?_⟩
        rintro (hj | ⟨rfl, hij, rfl⟩)
        · exact hj
        · exact absurd hne hij
      · refine ⟨dependsOn.modify fromScc (insert t), ?_, length_modify .., fun i j => ?_⟩
        · rw [if_pos hne, modifyAt, if_pos hlt]
        · rw [mem_depsOf_modify hlt]
          refine or_congr_right ⟨?_, fun ⟨hi, _, hj⟩ => ⟨hi, hj⟩⟩
          rintro ⟨rfl, rfl⟩
          exact ⟨rfl, hne, rfl⟩
    rcases hstep with ⟨d₁, hd₁, hlen₁, hmem₁⟩
    have hlt₁ : fromScc < d₁.length := hlen₁ ▸ hlt
    rcases ih (fun z hz => hknown z (mem_cons_of_mem _ hz)) hlt₁ with
      ⟨d', hd', hlen', hmem'⟩
    refine ⟨d', ?_, hlen'.trans hlen₁, fun i j => ?_⟩
    · rw [foldlM_cons, hd₁]
      exact hd'
    · rw [hmem', hmem₁, exists_mem_cons_iff, ht, Option.some_inj, or_assoc, ← and_or_left,
        ← and_or_left, eq_comm (a := t)]

/-- The edges of one kind, rule after rule. -/
theorem foldlM_addSccEdges (site : String → HashSite) {entries : List (String × Finset String)}
    (hsource : ∀ e ∈ entries, ∃ i, sccMap.lookup e.1 = some i ∧ i < dependsOn.length)
    (htarget : ∀ e ∈ entries, ∀ y ∈ e.2, y ∈ sccMap) :
    ∃ dependsOn', entries.foldlM (addSccEdges o site sccMap) dependsOn = some dependsOn' ∧
      dependsOn'.length = dependsOn.length ∧ ∀ i j, j ∈ depsOf dependsOn' i ↔
        j ∈ depsOf dependsOn i ∨ i ≠ j ∧ ∃ e ∈ entries, ∃ y ∈ e.2,
          sccMap.lookup e.1 = some i ∧ sccMap.lookup y = some j := by
  induction entries generalizing dependsOn with
  | nil => exact ⟨dependsOn, rfl, rfl, fun i j => by simp⟩
  | cons e entries ih =>
    rcases hsource e mem_cons_self with ⟨k, hk, hlt⟩
    have he : ∀ y ∈ (o.rules (site e.1)).toList e.2, y ∈ sccMap := fun y hy =>
      htarget e mem_cons_self y ((Iteration.mem_iff _ _ _).mp hy)
    rcases foldlM_addSccEdge he hlt with ⟨d₁, hd₁, hlen₁, hmem₁⟩
    have hsource₁ : ∀ e' ∈ entries, ∃ i, sccMap.lookup e'.1 = some i ∧ i < d₁.length :=
      fun e' he' => hlen₁ ▸ hsource e' (mem_cons_of_mem _ he')
    rcases ih hsource₁ (fun e' he' => htarget e' (mem_cons_of_mem _ he')) with
      ⟨d', hd', hlen', hmem'⟩
    refine ⟨d', ?_, hlen'.trans hlen₁, fun i j => ?_⟩
    · rw [foldlM_cons, addSccEdges, hk]
      simp only [Option.bind_eq_bind, Option.bind_some, hd₁]
      exact hd'
    · rw [hmem', hmem₁, exists_mem_cons_iff, hk]
      simp only [Iteration.mem_iff, Option.some_inj]
      constructor
      · rintro ((hj | ⟨rfl, hij, y, hy, hyj⟩) | ⟨hij, hex⟩)
        · exact .inl hj
        · exact .inr ⟨hij, .inl ⟨y, hy, rfl, hyj⟩⟩
        · exact .inr ⟨hij, .inr hex⟩
      · rintro (hj | ⟨hij, ⟨y, hy, rfl, hyj⟩ | hex⟩)
        · exact .inl (.inl hj)
        · exact .inl (.inr ⟨rfl, hij, y, hy, hyj⟩)
        · exact .inr ⟨hij, hex⟩

theorem lookup_of_known (h : Components G sccs) (hx : x ∈ G.allRules) :
    ∃ i, (buildSccMap o sccs).lookup x = some i ∧ i < sccs.length := by
  rcases h.index_of_known hx with ⟨i, C, hi, hC⟩
  exact ⟨i, (lookup_sccMap h x i).mpr ⟨C, hi, hC⟩, (List.getElem?_eq_some_iff.mp hi).1⟩

/-- A component depends on another one if a rule of it depends on a rule of the other, positively
    or negatively. -/
theorem buildSccDependsOn_ok (hG : G.Known) (h : Components G sccs) :
    ∃ dependsOn, buildSccDependsOn o G sccs (buildSccMap o sccs) = some dependsOn ∧
      dependsOn.length = sccs.length ∧ ∀ i j, j ∈ depsOf dependsOn i ↔ i ≠ j ∧ ∃ x y,
        G.Depends x y ∧ (buildSccMap o sccs).lookup x = some i ∧
          (buildSccMap o sccs).lookup y = some j := by
  have hmem : ∀ y ∈ G.allRules, y ∈ buildSccMap o sccs := fun y hy =>
    mem_iff_lookup.mpr ((lookup_of_known h hy).imp fun _ hi => hi.1)
  have hlen : (replicate sccs.length (∅ : Finset Nat)).length = sccs.length :=
    length_replicate
  have hpositive : ∀ e ∈ G.positiveEdges.toList, ∃ i, (buildSccMap o sccs).lookup e.1 = some i ∧
      i < (replicate sccs.length (∅ : Finset Nat)).length := by
    intro e he
    rw [hlen]
    exact lookup_of_known h (hG.positive_source e.1 (mem_of_lookup (mem_toList.mp he)))
  rcases foldlM_addSccEdges (o := o) .positive hpositive (fun e he y hy => hmem y
    (hG.target e.1 y (.inl ⟨e.2, mem_toList.mp he, hy⟩))) with
    ⟨d₁, hd₁, hlen₁, hmem₁⟩
  have hnegative : ∀ e ∈ G.negativeEdges.toList, ∃ i, (buildSccMap o sccs).lookup e.1 = some i ∧
      i < d₁.length := by
    intro e he
    rw [hlen₁, hlen]
    exact lookup_of_known h (hG.negative_source e.1 (mem_of_lookup (mem_toList.mp he)))
  rcases foldlM_addSccEdges (o := o) .negative hnegative (fun e he y hy => hmem y
    (hG.target e.1 y (.inr ⟨e.2, mem_toList.mp he, hy⟩))) with
    ⟨d', hd', hlen', hmem'⟩
  refine ⟨d', ?_, (hlen'.trans hlen₁).trans hlen, fun i j => ?_⟩
  · rw [buildSccDependsOn, hd₁]
    exact hd'
  · have hempty : j ∉ depsOf (replicate sccs.length ∅) i := by
      rw [depsOf, getElem?_replicate]
      split <;> exact Finset.notMem_empty j
    -- an entry of a map and a target in it are an edge
    have hedges : ∀ m : AssocMap String (Finset String),
        (∃ e ∈ m.toList, ∃ y ∈ e.2, (buildSccMap o sccs).lookup e.1 = some i ∧
          (buildSccMap o sccs).lookup y = some j) ↔
        ∃ x y, (∃ tos, m.lookup x = some tos ∧ y ∈ tos) ∧
          (buildSccMap o sccs).lookup x = some i ∧ (buildSccMap o sccs).lookup y = some j := by
      intro m
      constructor
      · rintro ⟨e, he, y, hy, hij⟩
        exact ⟨e.1, y, ⟨e.2, mem_toList.mp he, hy⟩, hij⟩
      · rintro ⟨x, y, ⟨tos, htos, hy⟩, hij⟩
        exact ⟨(x, tos), mem_toList.mpr htos, y, hy, hij⟩
    rw [hmem', hmem₁, hedges, hedges]
    simp only [hempty, false_or, DependencyGraph.Depends, or_and_right, exists_or, and_or_left]
    rfl

/-- Components come after all components that their rules reach. -/
theorem idxOf_lt_of_reach (h : Components G sccs) {order : List Nat} (hnodup : order.Nodup)
    (hall : ∀ i < sccs.length, i ∈ order) (horder : ∀ a i b, order = a ++ i :: b → ∀ j, i ≠ j →
      (∃ x y, G.Depends x y ∧ (∃ C, sccs[i]? = some C ∧ x ∈ C) ∧ ∃ D, sccs[j]? = some D ∧ y ∈ D) →
        j ∈ a)
    (hreach : Reach G.Depends x y) {i j : Nat} {D : Finset String} (hi : sccs[i]? = some C)
    (hx : x ∈ C) (hj : sccs[j]? = some D) (hy : y ∈ D) :
    i = j ∨ order.idxOf j < order.idxOf i := by
  -- one edge: the order lists the component of its target first
  have hedge : ∀ {k l : Nat} {A B : Finset String} {u v : String}, sccs[k]? = some A → u ∈ A →
      sccs[l]? = some B → v ∈ B → G.Depends u v → k = l ∨ order.idxOf l < order.idxOf k := by
    intro k l A B u v hk hu hl hv huv
    rcases eq_or_ne k l with heq | hne
    · exact .inl heq
    · right
      have hmem := hall k (List.getElem?_eq_some_iff.mp hk).1
      rcases append_of_mem hmem with ⟨a, b, hsplit⟩
      have hla := horder a k b hsplit l hne ⟨u, v, huv, ⟨A, hk, hu⟩, B, hl, hv⟩
      have hka : k ∉ a := by
        rw [hsplit] at hnodup
        exact fun hka => disjoint_of_nodup_append hnodup hka mem_cons_self
      rw [hsplit, idxOf_append_of_mem hla, idxOf_append_of_notMem hka, idxOf_cons_self]
      exact lt_of_lt_of_le (idxOf_lt_length_of_mem hla) (Nat.le_add_right _ _)
  -- a path is followed edge by edge from its start; its rules are in components, as the components
  -- are closed under edges
  induction hreach generalizing j D with
  | refl => exact .inl (h.layered.getElem?_unique hi hj hx hy)
  | @tail z y hxz hzy ih =>
    rcases h.layered.closed_reach ⟨C, mem_of_getElem? hi, hx⟩ hxz with ⟨B, hB, hz⟩
    rcases mem_iff_getElem?.mp hB with ⟨k, hk⟩
    have hkj := hedge hk hz hj hy hzy
    rcases ih hk hz with rfl | hik
    · exact hkj
    · rcases hkj with rfl | hkj
      · exact .inr hik
      · exact .inr (hkj.trans hik)

/-- `stratify` refuses a program exactly if a negative edge lies on a cycle. Otherwise its
    components are the classes of mutual dependency, its order lists each of them once and after
    those it depends on, and the recursive ones are those with a rule that depends on itself. -/
theorem stratify_correct (o : HashOrder) (G : DependencyGraph) (hG : G.Known) :
    ((∃ rules, stratify o G = some (.error (.cyclicNegation rules))) ↔
        ∃ x y, G.Negative x y ∧ Reach G.Depends y x) ∧
      ((¬ ∃ x y, G.Negative x y ∧ Reach G.Depends y x) →
        ∃ r, stratify o G = some (.ok r) ∧
          (r.sccs.Nodup ∧ ∀ C, C ∈ r.sccs ↔
            ∃ x ∈ G.allRules, ∀ y, y ∈ C ↔ Mutual G.Depends x y) ∧
          (r.sccOrder.Perm (List.range r.sccs.length) ∧
            ∀ (i j : Nat) (C D : Finset String), r.sccs[i]? = some C → r.sccs[j]? = some D →
              i ≠ j → (∃ x ∈ C, ∃ y ∈ D, Reach G.Depends x y) →
              r.sccOrder.idxOf j < r.sccOrder.idxOf i) ∧
          (r.isRecursive.length = r.sccs.length ∧
            ∀ (i : Nat) (C : Finset String), r.sccs[i]? = some C →
              (r.isRecursive[i]? = some true ↔
                ∃ x ∈ C, Relation.TransGen G.Depends x x))) := by
  rcases tarjan_components (o := o) hG with ⟨sccs, hsccs, h⟩
  have hpairs : ∀ e ∈ edgePairs o .negative G.negativeEdges, G.Negative e.1 e.2 := fun e he =>
    (mem_edgePairs _ _ e.1 e.2).mp he
  -- the ends of a negative edge are mutually dependent if the edge lies on a cycle
  have hmutual : ∀ {x y}, G.Negative x y → (Mutual G.Depends x y ↔ Reach G.Depends y x) :=
    fun hxy => ⟨fun hm => hm.2, fun hr => ⟨.single (.inr hxy), hr⟩⟩
  have hknown : ∀ e ∈ edgePairs o .negative G.negativeEdges,
      e.1 ∈ G.allRules ∧ e.2 ∈ G.allRules := by
    intro e he
    have hneg := hpairs e he
    refine ⟨?_, hG.target e.1 e.2 (.inr hneg)⟩
    rcases hneg with ⟨tos, htos, -⟩
    exact hG.negative_source e.1 (mem_of_lookup htos)
  have hcheck := checkNegation_cases (o := o) h hknown
  unfold stratify
  simp only [hsccs, Option.bind_eq_bind, Option.bind_some]
  rcases hcheck with ⟨hnone, hacyclic⟩ | ⟨⟨rules, hrules⟩, e, he, hcycle⟩
  · have hneg : ∀ x y, G.Negative x y → ¬ Mutual G.Depends x y := fun x y hxy =>
      hacyclic (x, y) ((mem_edgePairs _ _ x y).mpr hxy)
    have hno : ¬ ∃ x y, G.Negative x y ∧ Reach G.Depends y x := by
      rintro ⟨x, y, hxy, hyx⟩
      exact hneg x y hxy ((hmutual hxy).mpr hyx)
    rcases isRecursive_ok (o := o) h hneg with ⟨flags, hflags, hflagsLen, hrec⟩
    rcases buildSccDependsOn_ok (o := o) hG h with ⟨dependsOn, hdepends, hlen, hdeps⟩
    -- Tarjan emits a component after those it reaches, so the dependencies go to smaller indices
    -- and are acyclic
    have hlt : ∀ i, ∀ d ∈ depsOf dependsOn i, d < i := by
      intro i d hd
      rcases (hdeps i d).mp hd with ⟨hne, x, y, hxy, hxi, hyd⟩
      rcases (lookup_sccMap h x i).mp hxi with ⟨C, hC, hx⟩
      rcases (lookup_sccMap h y d).mp hyd with ⟨D, hD, hy⟩
      rcases h.layered.edge_le hC hx hxy with ⟨j, D', hji, hD', hy'⟩
      rw [h.layered.getElem?_unique hD hD' hy hy'] at hne ⊢
      exact lt_of_le_of_ne hji (Ne.symm hne)
    rcases kahn_order o.indices hlt with ⟨order, horder, hperm, hafter⟩
    rw [hlen] at hperm
    simp only [hnone, hflags, hdepends, horder, Option.bind_some, Option.pure_def]
    refine ⟨⟨fun ⟨rules, hr⟩ => (by cases hr), fun hex => absurd hex hno⟩, fun _ =>
      ⟨_, rfl, ⟨h.layered.nodup, fun C => ?_⟩, ⟨hperm, ?_⟩, hflagsLen, hrec⟩⟩
    · constructor
      · intro hC
        rcases h.layered.nonempty hC with ⟨x, hx⟩
        exact ⟨x, (h.covers x).mp ⟨C, hC, hx⟩, h.layered.mem_iff_mutual hC hx⟩
      · rintro ⟨x, hx, hclass⟩
        rcases (h.covers x).mpr hx with ⟨D, hD, hxD⟩
        have heq : C = D := by
          ext y
          rw [hclass, h.layered.mem_iff_mutual hD hxD]
        exact heq ▸ hD
    · intro i j C D hi hj hne ⟨x, hx, y, hy, hreach⟩
      refine (idxOf_lt_of_reach h (hperm.nodup_iff.mpr nodup_range)
        (fun k hk => hperm.mem_iff.mpr (mem_range.mpr hk)) ?_ hreach hi hx hj hy).resolve_left
        hne
      rintro a k b hsplit l hkl ⟨u, v, huv, hu, hv⟩
      refine hafter a k b hsplit l ((hdeps k l).mpr ⟨hkl, u, v, huv, ?_, ?_⟩)
      · exact (lookup_sccMap h u k).mpr hu
      · exact (lookup_sccMap h v l).mpr hv
  · have hyes : ∃ x y, G.Negative x y ∧ Reach G.Depends y x :=
      ⟨e.1, e.2, hpairs e he, hcycle.2⟩
    simp only [hrules, Option.bind_some, Option.pure_def]
    exact ⟨⟨fun _ => hyes, fun _ => ⟨rules, rfl⟩⟩, fun hno => absurd hyes hno⟩

/-- Sets iterated in ascending order. -/
def ascending : HashOrder where
  rules _ := ⟨fun s => s.sort (· ≤ ·), fun s => s.sort_nodup _, fun s _ => s.mem_sort _⟩
  indices _ := ⟨fun s => s.sort (· ≤ ·), fun s => s.sort_nodup _, fun s _ => s.mem_sort _⟩

/-- Two rules, of which one reads the other and the other its absence. -/
def negatedPair : DependencyGraph where
  positiveEdges := (∅ : AssocMap String (Finset String)).insert "a" {"b"}
  negativeEdges := (∅ : AssocMap String (Finset String)).insert "b" {"a"}
  allRules := {"a", "b"}

/-- Two rules that read one another, below one that reads the absence of the first. -/
def pairBelow : DependencyGraph where
  positiveEdges := ((∅ : AssocMap String (Finset String)).insert "a" {"b"}).insert "b" {"a"}
  negativeEdges := (∅ : AssocMap String (Finset String)).insert "c" {"a"}
  allRules := {"a", "b", "c"}

theorem negatedPair_known : negatedPair.Known := by
  constructor
  case positive_source | negative_source =>
    intro x hx
    simp only [negatedPair, mem_insert, notMem_empty, or_false] at hx
    subst hx
    decide
  · rintro x y (⟨tos, htos, hy⟩ | ⟨tos, htos, hy⟩) <;>
      simp only [negatedPair, lookup_insert_eq, lookup_empty] at htos <;>
      split at htos <;> cases htos <;> rw [Finset.mem_singleton.mp hy] <;> decide

theorem pairBelow_depends (h : pairBelow.Depends x y) :
    x = "a" ∧ y = "b" ∨ x = "b" ∧ y = "a" ∨ x = "c" ∧ y = "a" := by
  rcases h with ⟨tos, htos, hy⟩ | ⟨tos, htos, hy⟩ <;>
    simp only [pairBelow, lookup_insert_eq, lookup_empty] at htos <;>
    split at htos <;> grind

theorem pairBelow_known : pairBelow.Known := by
  refine ⟨fun x hx => ?_, fun x hx => ?_, fun x y hxy => ?_⟩
  · simp only [pairBelow, mem_insert, notMem_empty, or_false] at hx
    rcases hx with rfl | rfl <;> decide
  · simp only [pairBelow, mem_insert, notMem_empty, or_false] at hx
    subst hx
    decide
  · rcases pairBelow_depends hxy with ⟨-, rfl⟩ | ⟨-, rfl⟩ | ⟨-, rfl⟩ <;> decide

theorem stratify_correct_pairs : (negatedPair.Known ∧ ∃ rules,
      stratify ascending negatedPair = some (.error (.cyclicNegation rules))) ∧
    pairBelow.Known ∧ ∃ r, stratify ascending pairBelow = some (.ok r) ∧
      r.sccOrder.Perm (List.range r.sccs.length) := by
  refine ⟨⟨negatedPair_known, (stratify_correct ascending negatedPair negatedPair_known).1.mpr
    ⟨"b", "a", ⟨{"a"}, rfl, by decide⟩, .single (.inl ⟨{"b"}, rfl, by decide⟩)⟩⟩,
    pairBelow_known, ?_⟩
  -- nothing leads back to `c`, so the negative edge of `c` is on no cycle
  have hstays : ∀ {x y}, Reach pairBelow.Depends x y → x ≠ "c" → y ≠ "c" := by
    intro x y hxy hx
    induction hxy with
    | refl => exact hx
    | tail _ hedge =>
      rcases pairBelow_depends hedge with ⟨-, rfl⟩ | ⟨-, rfl⟩ | ⟨-, rfl⟩ <;> decide
  rcases (stratify_correct ascending pairBelow pairBelow_known).2 (by
    rintro ⟨x, y, hneg, hreach⟩
    rcases hneg with ⟨tos, htos, hy⟩
    simp only [pairBelow, lookup_insert_eq, lookup_empty] at htos
    split at htos
    · cases htos
      refine hstays hreach ?_ ‹_›
      rw [Finset.mem_singleton.mp hy]
      decide
    · cases htos) with ⟨r, hr, -, horder, -⟩
  exact ⟨r, hr, horder.1⟩

end Proofs

end UniDb.Locy
