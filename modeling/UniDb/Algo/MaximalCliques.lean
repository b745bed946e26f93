import Mathlib.Data.Finset.Card
import Mathlib.Data.List.MinMax
import Mathlib.Order.Minimal
import UniDb.Algo.Projection

/-!
# Maximal Cliques

The enumeration of maximal cliques by Bron and Kerbosch, with a pivot.

A call holds a clique `r`, and splits the vertices adjacent to all of it into candidates `p` and
vertices `x` whose cliques have been listed. It lists the maximal cliques between `r` and
`r ∪ p`. One candidate after another moves from `p` to `x`, so no clique is listed twice. The
neighbours of the pivot need no call: a maximal clique that avoids the other candidates would
have room for the pivot.

Hash sets iterate in any order, which may differ from call to call.

## Main definitions

* `IterationOrder`: How hash sets iterate.
* `bronKerboschPivot`, `run`: The algorithm.
* `Enumerates`: A list that holds each set with a property once.

## Theorems

* `bronKerboschPivot_ok`: What a call lists.
* `cliques_exact`: Every maximal clique that is large enough, once.
-/

namespace UniDb.Algo.MaximalCliques

open List

/-- A hash set iterates over its elements in some order, given for each path of calls. -/
structure IterationOrder where
  iter : List Nat → Finset Nat → List Nat
  nodup : ∀ path s, (iter path s).Nodup
  mem_iter : ∀ {path s x}, x ∈ iter path s ↔ x ∈ s

section Algorithm

variable (o : IterationOrder) (adj : Nat → Finset Nat) (minSize : Nat)

/-- What a call is given: the clique with its last vertex in front, the candidates, the vertices
    that are done and the cliques listed so far. -/
abbrev Enumeration := List Nat → Finset Nat → Finset Nat → List (List Nat) →
  Option (List (List Nat))

/-- One candidate of the loop. -/
def tryCandidate (call : Enumeration) (r : List Nat) :
    Finset Nat × Finset Nat × List (List Nat) → Nat →
      Option (Finset Nat × Finset Nat × List (List Nat))
  | (p, x, cliques), v =>
    (call (v :: r) (p.filter (· ∈ adj v)) (x.filter (· ∈ adj v)) cliques).map
      fun cliques => (p.erase v, insert v x, cliques)

/-- The last vertex with the most neighbours in `p` is the pivot. -/
def bronKerboschPivot : Nat → Enumeration
  | 0, _, _, _, _ => none
  | fuel + 1, r, p, x, cliques =>
    if p = ∅ ∧ x = ∅ then
      some (if minSize ≤ r.length then cliques ++ [o.iter r r.toFinset] else cliques)
    else do
      let u ← (o.iter r (p ∪ x)).reverse.argmax fun u => (p.filter (· ∈ adj u)).card
      let candidates := (o.iter r p).filter (· ∉ adj u)
      let (_, _, cliques) ←
        candidates.foldlM (tryCandidate adj (bronKerboschPivot fuel) r) (p, x, cliques)
      return cliques

end Algorithm

/-- Enters an edge into the adjacency sets. -/
def link (u : Nat) (adj : Nat → Finset Nat) (v : Nat) : Nat → Finset Nat :=
  if u ≠ v then
    let adj := Function.update adj u (insert v (adj u))
    Function.update adj v (insert u (adj v))
  else adj

def adjacency (g : GraphProjection) : Nat → Finset Nat :=
  (range g.vertexCount).foldl (fun adj u => (g.neighbors u).foldl (link u) adj) fun _ => ∅

/-- Calls nest no deeper than there are vertices. -/
def run (o : IterationOrder) (g : GraphProjection) (minSize : Nat) : Option (List (List Vid)) :=
  if g.vertexCount = 0 then some []
  else
    (bronKerboschPivot o (adjacency g) minSize (g.vertexCount + 1) []
      (Finset.range g.vertexCount) ∅ []).map (·.map (·.map g.toVid))

/-! ### What a call lists -/

/-- The list holds each set with a property once, each without repetitions. -/
structure Enumerates (P : Finset Nat → Prop) (L : List (List Nat)) : Prop where
  nodup : ∀ l ∈ L, l.Nodup
  once : (L.map toFinset).Nodup
  mem_iff : ∀ s, s ∈ L.map toFinset ↔ P s

/-- Lists of disjoint families, one after the other. -/
theorem Enumerates.append {P Q R : Finset Nat → Prop} {L M : List (List Nat)} (hP : Enumerates P L)
    (hQ : Enumerates Q M) (hdisjoint : ∀ s, P s → ¬ Q s) (hR : ∀ s, R s ↔ P s ∨ Q s) :
    Enumerates R (L ++ M) where
  nodup l hl := (mem_append.mp hl).elim (hP.nodup l) (hQ.nodup l)
  once := by
    rw [map_append, nodup_append]
    refine ⟨hP.once, hQ.once, fun s hs t ht heq => ?_⟩
    exact hdisjoint s ((hP.mem_iff s).mp hs) ((hQ.mem_iff s).mp (heq ▸ ht))
  mem_iff s := by rw [map_append, mem_append, hP.mem_iff, hQ.mem_iff, hR]

/-- Pairwise adjacent vertices. -/
def Clique (V : Finset Nat) (adj : Nat → Finset Nat) (s : Finset Nat) : Prop :=
  s ⊆ V ∧ ∀ a ∈ s, ∀ b ∈ s, a ≠ b → b ∈ adj a

/-- The cliques that a call for `r` and `p` is to list. -/
def Between (V : Finset Nat) (adj : Nat → Finset Nat) (minSize : Nat) (r p s : Finset Nat) : Prop :=
  r ⊆ s ∧ s ⊆ r ∪ p ∧ Maximal (Clique V adj) s ∧ minSize ≤ s.card

variable {adj : Nat → Finset Nat} {minSize : Nat} {V r p s : Finset Nat} {v : Nat}

/-- The maximal cliques with `v` lie between smaller bounds. -/
theorem between_insert (hv : v ∈ p) :
    Between V adj minSize (insert v r) (p.filter (· ∈ adj v)) s ↔
      Between V adj minSize r p s ∧ v ∈ s := by
  constructor
  · rintro ⟨hr, hp, hmax⟩
    rw [Finset.insert_subset_iff] at hr
    refine ⟨⟨hr.2, fun y hy => ?_, hmax⟩, hr.1⟩
    have hmem := hp hy
    simp only [Finset.mem_union, Finset.mem_insert, Finset.mem_filter] at hmem ⊢
    rcases hmem with (rfl | hmem) | hmem
    · exact .inr hv
    · exact .inl hmem
    · exact .inr hmem.1
  · rintro ⟨⟨hr, hp, hmax⟩, hvs⟩
    refine ⟨Finset.insert_subset hvs hr, fun y hy => ?_, hmax⟩
    rw [Finset.mem_union, Finset.mem_insert, Finset.mem_filter]
    by_cases hne : v = y
    · exact .inl (.inl hne.symm)
    · refine (Finset.mem_union.mp (hp hy)).imp .inr fun hyp => ⟨hyp, ?_⟩
      exact hmax.1.prop.2 v hvs y hy hne

/-- The maximal cliques without `v` are those left once `v` is no candidate any more. -/
theorem between_erase (hv : v ∉ r) :
    Between V adj minSize r (p.erase v) s ↔ Between V adj minSize r p s ∧ v ∉ s := by
  constructor
  · rintro ⟨hr, hp, hmax⟩
    refine ⟨⟨hr, hp.trans (Finset.union_subset_union_right (Finset.erase_subset v p)), hmax⟩, ?_⟩
    intro hvs
    simpa [hv] using hp hvs
  · rintro ⟨⟨hr, hp, hmax⟩, hvs⟩
    refine ⟨hr, fun y hy => ?_, hmax⟩
    rw [Finset.mem_union, Finset.mem_erase]
    exact (Finset.mem_union.mp (hp hy)).imp_right fun hyp => ⟨fun heq => hvs (heq ▸ hy), hyp⟩

section Calls

variable {o : IterationOrder} {adj : Nat → Finset Nat} {minSize : Nat} {V : Finset Nat}
  (hsymm : ∀ x y, y ∈ adj x → x ∈ adj y) (hirr : ∀ x, x ∉ adj x)

include hsymm in
theorem Clique.insert {s : Finset Nat} {v : Nat} (h : Clique V adj s) (hv : v ∈ V)
    (hadj : ∀ b ∈ s, b ≠ v → b ∈ adj v) : Clique V adj (insert v s) := by
  refine ⟨Finset.insert_subset hv h.1, fun a ha b hb hne => ?_⟩
  rcases Finset.mem_insert.mp ha with rfl | ha'
  · exact hadj b (Finset.mem_of_mem_insert_of_ne hb hne.symm) hne.symm
  · rcases Finset.mem_insert.mp hb with rfl | hb'
    · exact hsymm _ _ (hadj a ha' hne)
    · exact h.2 a ha' b hb' hne

/-- A clique, and the vertices adjacent to all of it. -/
structure Call (V : Finset Nat) (adj : Nat → Finset Nat) (r : List Nat) (p x : Finset Nat) :
    Prop where
  nodup : r.Nodup
  clique : Clique V adj r.toFinset
  common : ∀ v, v ∈ p ∪ x ↔ v ∈ V ∧ ∀ w ∈ r, v ∈ adj w

variable {r : List Nat} {p x : Finset Nat} {v u : Nat} (h : Call V adj r p x)

include hirr h in
/-- A vertex adjacent to the whole clique is not in it, as no vertex is adjacent to itself. -/
theorem Call.notMem (hv : v ∈ p ∪ x) : v ∉ r := fun hr => hirr v (((h.common v).mp hv).2 v hr)

include hsymm hirr h in
/-- The call for a candidate. -/
theorem Call.cons (hv : v ∈ p) :
    Call V adj (v :: r) (p.filter (· ∈ adj v)) (x.filter (· ∈ adj v)) := by
  have hmem : v ∈ p ∪ x := Finset.mem_union_left x hv
  obtain ⟨hV, hadj⟩ := (h.common v).mp hmem
  refine ⟨nodup_cons.mpr ⟨h.notMem hirr hmem, h.nodup⟩, ?_, fun w => ?_⟩
  · rw [toFinset_cons]
    exact h.clique.insert hsymm hV fun b hb _ => hsymm _ _ (hadj b (mem_toFinset.mp hb))
  · rw [← Finset.filter_union, Finset.mem_filter, h.common, forall_mem_cons]
    tauto

include h in
/-- A candidate that was tried is done: it stays adjacent to the clique. -/
theorem Call.move (hv : v ∈ p) : Call V adj r (p.erase v) (insert v x) := by
  refine ⟨h.nodup, h.clique, fun w => ?_⟩
  rw [← h.common w, Finset.mem_union, Finset.mem_union, Finset.mem_erase, Finset.mem_insert]
  by_cases hw : w = v
  · subst hw
    simp [hv]
  · simp [hw]

include hsymm hirr h in
/-- A maximal clique holds a candidate that is not adjacent to the pivot. -/
theorem Call.exists_candidate {s : Finset Nat} (hu : u ∈ p ∪ x)
    (hs : Between V adj minSize r.toFinset p s) : ∃ c ∈ s, c ∈ p ∧ c ∉ adj u := by
  obtain ⟨hr, hp, hmax, -⟩ := hs
  obtain ⟨hV, hadj⟩ := (h.common u).mp hu
  have hur : u ∉ r.toFinset := fun hmem => h.notMem hirr hu (mem_toFinset.mp hmem)
  by_contra hnone
  push Not at hnone
  have hall : ∀ c ∈ s, c ≠ u → c ∈ adj u := by
    intro c hc _
    rcases Finset.mem_union.mp (hp hc) with hcr | hcp
    · exact hsymm _ _ (hadj c (mem_toFinset.mp hcr))
    · exact hnone c hc hcp
  -- otherwise the pivot is adjacent to all of the clique and extends it
  have hins := hmax.prop.insert hsymm hV hall
  have hus : u ∈ s := hmax.le_of_ge hins (Finset.subset_insert u s) (Finset.mem_insert_self u s)
  have hup := (Finset.mem_union.mp (hp hus)).resolve_left hur
  exact hirr u (hnone u hus hup)

/-- A clique that no vertex extends is maximal. -/
theorem Call.between_iff (h : Call V adj r ∅ ∅) {s : Finset Nat} :
    Between V adj minSize r.toFinset ∅ s ↔ s = r.toFinset ∧ minSize ≤ r.length := by
  rw [← toFinset_card_of_nodup h.nodup]
  constructor
  · rintro ⟨hr, hp, -, hsize⟩
    rw [Finset.union_empty] at hp
    cases hp.antisymm hr
    exact ⟨rfl, hsize⟩
  · rintro ⟨rfl, hsize⟩
    refine ⟨subset_rfl, Finset.subset_union_left, ⟨h.clique, fun t ht hle v hv => ?_⟩, hsize⟩
    by_contra hvr
    have hcommon : v ∈ ∅ ∪ ∅ := (h.common v).mpr ⟨ht.1 hv, fun w hw => ?_⟩
    · simp at hcommon
    · have hw' := mem_toFinset.mpr hw
      exact ht.2 w (hle hw') v hv fun heq => hvr (heq ▸ hw')

/-- A call that lists what it is to list. -/
def Lists (V : Finset Nat) (adj : Nat → Finset Nat) (minSize fuel : Nat) (call : Enumeration) :
    Prop :=
  ∀ {r p x} cliques, Call V adj r p x → p.card < fuel →
    ∃ L, call r p x cliques = some (cliques ++ L) ∧
      Enumerates (Between V adj minSize r.toFinset p) L

variable {call : Enumeration} {fuel : Nat} (hcall : Lists V adj minSize fuel call)

include hsymm hirr hcall h in
/-- The loop lists the cliques that hold a candidate. -/
theorem candidates_ok {cs : List Nat} (hcs : cs.Nodup) (hp : ∀ c ∈ cs, c ∈ p)
    (hfuel : p.card ≤ fuel) (cliques : List (List Nat)) :
    ∃ p' x' L, cs.foldlM (tryCandidate adj call r) (p, x, cliques) = some (p', x', cliques ++ L) ∧
      Enumerates (fun s => Between V adj minSize r.toFinset p s ∧ ∃ c ∈ cs, c ∈ s) L := by
  induction cs generalizing p x cliques with
  | nil => exact ⟨p, x, [], by simp, by simp, by simp, by simp⟩
  | cons v cs ih =>
    have hv := hp v mem_cons_self
    have hvr : v ∉ r.toFinset := fun hmem =>
      h.notMem hirr (Finset.mem_union_left x hv) (mem_toFinset.mp hmem)
    rw [nodup_cons] at hcs
    have hless : (p.filter (· ∈ adj v)).card < p.card :=
      Finset.card_lt_card (Finset.filter_ssubset.mpr ⟨v, hv, hirr v⟩)
    obtain ⟨L, hL, hfirst⟩ := hcall cliques (h.cons hsymm hirr hv) (hless.trans_le hfuel)
    obtain ⟨p', x', M, hM, hrest⟩ := ih (h.move hv) hcs.2
      (fun c hc => Finset.mem_erase.mpr ⟨fun heq => hcs.1 (heq ▸ hc), hp c (mem_cons_of_mem _ hc)⟩)
      (Finset.card_erase_le.trans hfuel) (cliques ++ L)
    rw [toFinset_cons] at hfirst
    -- the first cliques hold `v`, the others do not
    refine ⟨p', x', L ++ M, ?_, hfirst.append hrest (fun s hs hs' => ?_) fun s => ?_⟩
    · rw [foldlM_cons, tryCandidate, hL, ← append_assoc]
      exact hM
    · exact ((between_erase hvr).mp hs'.1).2 ((between_insert hv).mp hs).2
    · rw [between_insert hv, between_erase hvr]
      simp only [mem_cons, exists_eq_or_imp]
      tauto

include hsymm hirr in
/-- A call lists the maximal cliques between its bounds. -/
theorem bronKerboschPivot_ok (o : IterationOrder) (minSize fuel : Nat) :
    Lists V adj minSize fuel (bronKerboschPivot o adj minSize fuel) := by
  induction fuel with
  | zero => exact fun _ _ hfuel => absurd hfuel (Nat.not_lt_zero _)
  | succ fuel ih =>
    intro r p x cliques h hfuel
    unfold bronKerboschPivot
    split
    · next hempty =>
      obtain ⟨rfl, rfl⟩ := hempty
      have hiter : (o.iter r r.toFinset).toFinset = r.toFinset := by
        ext v
        rw [mem_toFinset, o.mem_iter]
      by_cases hsize : minSize ≤ r.length
      · refine ⟨[o.iter r r.toFinset], by rw [if_pos hsize], by simp [o.nodup], by simp,
          fun s => ?_⟩
        rw [h.between_iff, map_singleton, mem_singleton, hiter, and_iff_left hsize]
      · refine ⟨[], by rw [if_neg hsize, append_nil], by simp, by simp, fun s => ?_⟩
        simp [h.between_iff, hsize]
    · next hsome =>
      -- there is a pivot, as one of the sets is not empty
      obtain ⟨u, hu⟩ : ∃ u, (o.iter r (p ∪ x)).reverse.argmax
          (fun u => (p.filter (· ∈ adj u)).card) = some u := by
        refine Option.ne_none_iff_exists'.mp fun hnone => hsome ?_
        rw [argmax_eq_none, reverse_eq_nil_iff, eq_nil_iff_forall_not_mem] at hnone
        rw [← Finset.union_eq_empty]
        exact Finset.eq_empty_of_forall_notMem fun v hv => hnone v (o.mem_iter.mpr hv)
      have hpivot : u ∈ p ∪ x := o.mem_iter.mp (mem_reverse.mp (argmax_mem hu))
      obtain ⟨p', x', L, hL, hloop⟩ := candidates_ok hsymm hirr h ih
        ((o.nodup r p).filter (· ∉ adj u)) (fun c hc => o.mem_iter.mp (mem_of_mem_filter hc))
        (Nat.le_of_lt_succ hfuel) cliques
      refine ⟨L, ?_, hloop.nodup, hloop.once, fun s => ?_⟩
      · simp only [hu, Option.bind_eq_bind, Option.bind_some, hL]
        rfl
      rw [hloop.mem_iff, and_iff_left_iff_imp]
      -- skipping the neighbours of the pivot loses no clique
      intro hs
      obtain ⟨c, hc, hcp, hcu⟩ := h.exists_candidate hsymm hirr hpivot hs
      exact ⟨c, mem_filter.mpr ⟨o.mem_iter.mpr hcp, by simpa using hcu⟩, hc⟩

end Calls

/-! ### The graph -/

/-- Adjacent in the undirected simple graph: some edge joins the two slots, in either direction. -/
def Adjacent (g : GraphProjection) (x y : Nat) : Prop :=
  x ≠ y ∧ (y ∈ g.outNeighbors x ∨ x ∈ g.outNeighbors y)

theorem mem_link (u x y : Nat) (adj : Nat → Finset Nat) (v : Nat) : y ∈ link u adj v x ↔
    y ∈ adj x ∨ u ≠ v ∧ (x = u ∧ y = v ∨ x = v ∧ y = u) := by
  unfold link
  by_cases huv : u = v
  · simp [huv]
  · rw [if_pos huv]
    simp only [Function.update_apply]
    by_cases hx : x = v <;> by_cases hx' : x = u <;> simp_all <;> tauto

/-- A loop that only adds pairs. -/
theorem mem_foldl {α : Type} {f : (Nat → Finset Nat) → α → Nat → Finset Nat} {P : α → Prop}
    {x y : Nat} (hf : ∀ adj a, y ∈ f adj a x ↔ y ∈ adj x ∨ P a) (l : List α)
    (adj : Nat → Finset Nat) : y ∈ l.foldl f adj x ↔ y ∈ adj x ∨ ∃ a ∈ l, P a := by
  induction l generalizing adj with
  | nil => simp
  | cons a l ih => simp [ih, hf, or_assoc]

/-- The sets hold the edges of both directions, with or without reverse rows, and no loops. -/
theorem mem_adjacency {g : GraphProjection} {x y : Nat} : y ∈ adjacency g x ↔ Adjacent g x y := by
  have hrow : ∀ adj u, y ∈ (g.neighbors u).foldl (link u) adj x ↔ y ∈ adj x ∨
      ∃ v ∈ g.neighbors u, u ≠ v ∧ (x = u ∧ y = v ∨ x = v ∧ y = u) :=
    fun adj u => mem_foldl (mem_link u x y) _ adj
  unfold adjacency
  rw [mem_foldl hrow]
  constructor
  · rintro (hempty | ⟨u, -, v, hv, hne, ⟨rfl, rfl⟩ | ⟨rfl, rfl⟩⟩)
    · cases hempty
    · exact ⟨hne, g.mem_neighbors hv⟩
    · exact ⟨hne.symm, (g.mem_neighbors hv).symm⟩
  · rintro ⟨hne, hout | hout⟩
    · exact .inr ⟨x, mem_range.mpr (Csr.row_lt hout), y, mem_append_left _ hout, hne,
        .inl ⟨rfl, rfl⟩⟩
    · exact .inr ⟨y, mem_range.mpr (Csr.row_lt hout), x, mem_append_left _ hout, hne.symm,
        .inr ⟨rfl, rfl⟩⟩

/-- The cliques listed are the maximal sets of pairwise adjacent vertices that are large enough,
    each once, in whatever order hash sets iterate. The empty set of an empty graph is not a
    clique. -/
theorem cliques_exact (o : IterationOrder) (g : GraphProjection) (minSize : Nat) :
    ∃ L, run o g minSize = some (L.map (·.map g.toVid)) ∧
      Enumerates (fun s => s.Nonempty ∧ minSize ≤ s.card ∧
        Maximal (fun s => (∀ x ∈ s, x < g.vertexCount) ∧
          ∀ x ∈ s, ∀ y ∈ s, x ≠ y → Adjacent g x y) s) L := by
  have hclique : Clique (Finset.range g.vertexCount) (adjacency g) = fun s =>
      (∀ x ∈ s, x < g.vertexCount) ∧ ∀ x ∈ s, ∀ y ∈ s, x ≠ y → Adjacent g x y := by
    funext s
    simp only [Clique, mem_adjacency, Finset.subset_iff, Finset.mem_range]
  rw [← hclique]
  unfold run
  split
  · next hzero =>
    refine ⟨[], rfl, by simp, by simp, fun s => ⟨nofun, ?_⟩⟩
    rintro ⟨⟨x, hx⟩, -, hmax⟩
    have hlt := Finset.mem_range.mp (hmax.prop.1 hx)
    rw [hzero] at hlt
    exact absurd hlt (Nat.not_lt_zero x)
  · next hpos =>
    have hsymm : ∀ x y, y ∈ adjacency g x → x ∈ adjacency g y := by
      simp only [mem_adjacency]
      exact fun x y h => ⟨h.1.symm, h.2.symm⟩
    have hirr : ∀ x, x ∉ adjacency g x := fun x h => (mem_adjacency.mp h).1 rfl
    have hstart :
        Call (Finset.range g.vertexCount) (adjacency g) [] (Finset.range g.vertexCount) ∅ :=
      ⟨nodup_nil, by simp [Clique], by simp⟩
    obtain ⟨L, hL, hlist⟩ := bronKerboschPivot_ok hsymm hirr o minSize
      (g.vertexCount + 1) [] hstart (by simp)
    refine ⟨L, by rw [hL]; rfl, hlist.nodup, hlist.once, fun s => ?_⟩
    rw [hlist.mem_iff]
    constructor
    · rintro ⟨-, -, hmax, hsize⟩
      refine ⟨Finset.nonempty_iff_ne_empty.mpr ?_, hsize, hmax⟩
      rintro rfl
      -- a vertex is a clique, so the empty set is not maximal
      have hsingle : Clique (Finset.range g.vertexCount) (adjacency g) {0} :=
        ⟨by simpa using Nat.pos_of_ne_zero hpos, by simp⟩
      simpa using hmax.le_of_ge hsingle (Finset.empty_subset _)
    · rintro ⟨-, hsize, hmax⟩
      exact ⟨by simp, by simpa using hmax.prop.1, hmax, hsize⟩

end UniDb.Algo.MaximalCliques
