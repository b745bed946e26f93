import UniDb.Algo.Projection
import UniDb.Locy.Tarjan

/-!
# Strongly Connected Components of a Projection

Tarjan's algorithm again, this time as a recursion that writes the number of a component
beside each vertex.

A call does what the machine with an explicit work stack does between pushing a frame and
taking it off. A context is a state of the machine without its frames, so the recursion ends
because the machine does, and finds the same components; the induction is on the rounds that
are left, which also bound the depth of the calls.

## Main definitions

* `TarjanContext`, `strongconnect`, `run`: The recursion.
* `Numbers`: The numbers written are the places of the components.

## Theorems

* `edges_ok`: A loop over neighbours follows the machine.
* `scc_exact`: Components are numbered by mutual reachability, in reverse topological order.
-/

namespace UniDb.Algo.Scc

open Locy List

/-- The stack has its top in front. A vertex without an entry has not been visited. -/
structure TarjanContext where
  index : Nat := 0
  stack : List Nat := []
  onStack : Finset Nat := ∅
  indices : AssocMap Nat Nat := ∅
  lowlink : AssocMap Nat Nat := ∅
  components : AssocMap Nat Nat := ∅
  componentCount : Nat := 0

structure SccResult where
  components : List (Vid × Nat)
  componentCount : Nat

namespace TarjanContext

variable (ctx : TarjanContext)

def enter (v : Nat) : TarjanContext :=
  { ctx with
    indices := ctx.indices.insert v ctx.index
    lowlink := ctx.lowlink.insert v ctx.index
    index := ctx.index + 1
    stack := v :: ctx.stack
    onStack := insert v ctx.onStack }

/-- The minimum of a lowlink and `x`. -/
def lower (v x : Nat) : TarjanContext :=
  if x < num ctx.lowlink v then { ctx with lowlink := ctx.lowlink.insert v x } else ctx

end TarjanContext

/-- Pops the stack down to `v` and numbers what it pops. -/
def popComponent (v c : Nat) : List Nat → Finset Nat → AssocMap Nat Nat →
    Option (List Nat × Finset Nat × AssocMap Nat Nat)
  | [], _, _ => none
  | w :: stack, onStack, components =>
    if w = v then some (stack, onStack.erase w, components.insert w c)
    else popComponent v c stack (onStack.erase w) (components.insert w c)

/-- What is left to do once the neighbours of `v` are processed. -/
def TarjanContext.close (ctx : TarjanContext) (v : Nat) : Option TarjanContext :=
  if num ctx.lowlink v = num ctx.indices v then
    (popComponent v ctx.componentCount ctx.stack ctx.onStack ctx.components).map
      fun (stack, onStack, components) =>
        { ctx with stack, onStack, components, componentCount := ctx.componentCount + 1 }
  else some ctx

/-- One neighbour of `v`. -/
def TarjanContext.edge (strongconnect : TarjanContext → Nat → Option TarjanContext) (v : Nat)
    (ctx : TarjanContext) (w : Nat) : Option TarjanContext :=
  if w ∉ ctx.indices then
    (strongconnect ctx w).map fun ctx => ctx.lower v (num ctx.lowlink w)
  else if w ∈ ctx.onStack then some (ctx.lower v (num ctx.indices w))
  else some ctx

section

variable (neighbors : Nat → List Nat)

/-- A call, with calls below it to the depth `fuel`. -/
def strongconnect : Nat → TarjanContext → Nat → Option TarjanContext
  | 0, _, _ => none
  | fuel + 1, ctx, v =>
    ((neighbors v).foldlM (TarjanContext.edge (strongconnect fuel) v) (ctx.enter v)).bind
      (·.close v)

/-- One vertex of the outer loop. -/
def visitRoot (fuel : Nat) (ctx : TarjanContext) (v : Nat) : Option TarjanContext :=
  if v ∈ ctx.indices then some ctx else strongconnect neighbors fuel ctx v

end

/-- Calls nest no deeper than there are rounds in the machine. -/
def run (g : GraphProjection) : Option SccResult :=
  let fuel := tarjanFuel g.outNeighbors (range g.vertexCount) + 1
  ((range g.vertexCount).foldlM (visitRoot g.outNeighbors fuel) {}).map fun ctx =>
      { components := (range g.vertexCount).map fun i => (g.toVid i, num ctx.components i)
        componentCount := ctx.componentCount }

/-! ### The machine -/

/-- A context is a state of the machine without its components and frames. -/
abbrev TarjanContext.state (ctx : TarjanContext) (sccs : List (Finset Nat))
    (work : List (Frame Nat)) : TarjanState Nat :=
  ⟨ctx.index, ctx.stack, ctx.onStack, ctx.indices, ctx.lowlink, sccs, work⟩

/-- What the caller does with the lowlink of `v`. -/
def TarjanContext.handBack (ctx : TarjanContext) (v : Nat) : List (Frame Nat) → TarjanContext
  | [] => ctx
  | p :: _ => ctx.lower p.v (num ctx.lowlink v)

/-- A vertex is numbered by the last component it was popped into. -/
structure Numbers (ctx : TarjanContext) (sccs : List (Finset Nat)) : Prop where
  count : sccs.length = ctx.componentCount
  last : ∀ i C, sccs[i]? = some C → ∀ x ∈ C, (∀ j D, i < j → sccs[j]? = some D → x ∉ D) →
    num ctx.components x = i

/-- The machine collects what it pops into a set, and the source numbers it. Both pop the same
    vertices. -/
theorem popComponent_of_popScc {v : Nat} (c : Nat) (m : AssocMap Nat Nat) {stack stack' : List Nat}
    {onStack onStack' scc scc' : Finset Nat}
    (h : popScc v stack onStack scc = some (stack', onStack', scc'))
    (hscc : ∀ x ∈ scc, num m x = c) :
    ∃ m', popComponent v c stack onStack m = some (stack', onStack', m') ∧
      (∀ x ∈ scc', num m' x = c) ∧ scc ⊆ scc' ∧ ∀ x ∉ scc', num m' x = num m x := by
  induction stack generalizing onStack scc m with
  | nil => cases h
  | cons w stack ih =>
    have hins : ∀ x ∈ insert w scc, num (m.insert w c) x = c := by
      intro x hx
      rw [num_insert]
      split
      · rfl
      · next hne => exact hscc x (Finset.mem_of_mem_insert_of_ne hx hne)
    have hold : ∀ x ∉ insert w scc, num (m.insert w c) x = num m x := by
      intro x hx
      rw [num_insert, if_neg]
      rintro rfl
      exact hx (Finset.mem_insert_self _ _)
    unfold popScc at h
    unfold popComponent
    -- the loop ends at `v`, which is popped too
    by_cases hw : w = v
    · rw [if_pos hw] at h ⊢
      cases h
      exact ⟨_, rfl, hins, Finset.subset_insert _ _, hold⟩
    · rw [if_neg hw] at h ⊢
      obtain ⟨m', hpop, hnew, hsub, hkept⟩ := ih _ h hins
      refine ⟨m', hpop, hnew, (Finset.subset_insert _ _).trans hsub, fun x hx => ?_⟩
      rw [hkept x hx, hold x fun hmem => hx (hsub hmem)]

section Machine

variable {neighbors : Nat → List Nat} {ctx : TarjanContext} {sccs : List (Finset Nat)}
  {s' : TarjanState Nat} {v w x fuel n : Nat} {rest : List Nat} {fs : List (Frame Nat)}

section

variable (h : Numbers ctx sccs)

include h

theorem Numbers.enter : Numbers (ctx.enter v) sccs := { h with }

theorem Numbers.lower : Numbers (ctx.lower v x) sccs := by
  unfold TarjanContext.lower
  split
  · exact { h with }
  · exact h

/-- A component that is closed gets the next number, and older ones keep theirs. -/
theorem Numbers.snoc {scc : Finset Nat} {stack : List Nat} {onStack : Finset Nat}
    {m : AssocMap Nat Nat} (hnew : ∀ x ∈ scc, num m x = ctx.componentCount)
    (hkept : ∀ x ∉ scc, num m x = num ctx.components x) :
    Numbers { ctx with
      stack, onStack, components := m, componentCount := ctx.componentCount + 1 }
      (sccs ++ [scc]) := by
  refine ⟨by simp [h.count], fun i C hC x hx hlast => ?_⟩
  have hend : (sccs ++ [scc])[sccs.length]? = some scc := by simp
  rcases lt_trichotomy i sccs.length with hlt | rfl | hgt
  · rw [getElem?_append_left hlt] at hC
    refine (hkept x (hlast _ _ hlt hend)).trans (h.last i C hC x hx fun j D hij hD => ?_)
    rw [← getElem?_append_left (List.getElem?_eq_some_iff.mp hD).1] at hD
    exact hlast j D hij hD
  · cases hend.symm.trans hC
    rw [h.count]
    exact hnew x hx
  · have hlt := (List.getElem?_eq_some_iff.mp hC).1
    rw [length_append, length_singleton] at hlt
    omega

/-- A neighbour that has been visited. -/
theorem edge_of_mem (fuel : Nat) (hw : w ∈ ctx.indices)
    (hs : (ctx.state sccs (⟨v, w :: rest⟩ :: fs)).edge neighbors v w rest fs = some s') :
    ∃ ctx', ctx.edge (strongconnect neighbors fuel) v w = some ctx' ∧ Numbers ctx' sccs ∧
      s' = ctx'.state sccs (⟨v, rest⟩ :: fs) := by
  simp only [TarjanState.edge] at hs
  unfold TarjanContext.edge
  rw [if_neg (not_not_intro hw)] at hs ⊢
  by_cases hon : w ∈ ctx.onStack
  · rw [if_pos hon] at hs ⊢
    refine ⟨_, rfl, h.lower, ?_⟩
    split at hs
    · next wIdx vLow hidx hlow =>
      cases hs
      have hnum : num ctx.indices w = wIdx := congrArg (·.getD 0) hidx
      have hvlow : num ctx.lowlink v = vLow := congrArg (·.getD 0) hlow
      rw [TarjanContext.lower, hnum, hvlow]
      split <;> rfl
    · cases hs
  · rw [if_neg hon] at hs ⊢
    cases hs
    exact ⟨_, rfl, h, rfl⟩

/-- The component of `v` is closed, and its lowlink handed to the caller. -/
theorem close_ok (hs : (ctx.state sccs (⟨v, []⟩ :: fs)).finish v fs = some s') :
    ∃ ctx' sccs', ctx.close v = some ctx' ∧ Numbers ctx' sccs' ∧
      s' = (ctx'.handBack v fs).state sccs' fs := by
  unfold TarjanState.finish at hs
  simp only [Option.bind_eq_bind, Option.bind_eq_some_iff] at hs
  obtain ⟨vLow, hlow, vIdx, hidx, hs⟩ := hs
  have hvlow : num ctx.lowlink v = vLow := congrArg (·.getD 0) hlow
  have hvidx : num ctx.indices v = vIdx := congrArg (·.getD 0) hidx
  -- first the component, then what the caller does with the lowlink
  have hclose : ∃ ctx' sccs', ctx.close v = some ctx' ∧ Numbers ctx' sccs' ∧
      ctx'.lowlink = ctx.lowlink ∧ (match fs with
        | [] => some (ctx'.state sccs' fs)
        | p :: _ => (ctx'.lowlink.lookup p.v).map fun pLow =>
          if vLow < pLow then
            { ctx'.state sccs' fs with lowlink := ctx'.lowlink.insert p.v vLow }
          else ctx'.state sccs' fs) = some s' := by
    unfold TarjanContext.close
    rw [hvlow, hvidx]
    by_cases hroot : vLow = vIdx
    · rw [if_pos hroot] at hs ⊢
      obtain ⟨s₁, hs₁, hs⟩ := Option.bind_eq_some_iff.mp hs
      obtain ⟨⟨stack, onStack, scc⟩, hpop, rfl⟩ := Option.map_eq_some_iff.mp hs₁
      obtain ⟨m, hm, hnew, -, hkept⟩ :=
        popComponent_of_popScc ctx.componentCount ctx.components hpop (by simp)
      rw [hm]
      exact ⟨_, sccs ++ [scc], rfl, h.snoc hnew hkept, rfl, by cases fs <;> exact hs⟩
    · rw [if_neg hroot] at hs ⊢
      exact ⟨ctx, sccs, rfl, h, rfl, by cases fs <;> exact hs⟩
  obtain ⟨ctx', sccs', hctx', hN, hlow', hs⟩ := hclose
  refine ⟨ctx', sccs', hctx', hN, ?_⟩
  cases fs with
  | nil => exact (Option.some.inj hs).symm
  | cons p =>
    obtain ⟨pLow, hp, rfl⟩ := Option.map_eq_some_iff.mp hs
    have hplow : num ctx'.lowlink p.v = pLow := congrArg (·.getD 0) hp
    rw [TarjanContext.handBack, TarjanContext.lower, hplow, hlow', hvlow]
    split <;> rfl

/-- A loop over neighbours follows the machine to the end of the frame. -/
theorem edges_ok (hn : n ≤ fuel)
    (hrun : drive neighbors n (ctx.state sccs (⟨v, rest⟩ :: fs)) = some s') :
    ∃ ctx' sccs' k, rest.foldlM (TarjanContext.edge (strongconnect neighbors fuel) v) ctx =
        some ctx' ∧ Numbers ctx' sccs' ∧ k < n ∧
      ∃ s, (ctx'.state sccs' (⟨v, []⟩ :: fs)).finish v fs = some s ∧
        drive neighbors k s = some s' := by
  -- on the rounds of the machine; a call takes fewer rounds than there are left, so its fuel
  -- suffices
  induction n using Nat.strong_induction_on generalizing sccs ctx v rest fs fuel with
  | _ n ih =>
    cases n with
    | zero => cases hrun
    | succ n =>
      obtain ⟨s₁, hs₁, hrun₁⟩ := Option.bind_eq_some_iff.mp hrun
      cases rest with
      | nil => exact ⟨ctx, sccs, n, rfl, h, Nat.lt_succ_self n, s₁, hs₁, hrun₁⟩
      | cons w rest =>
        by_cases hw : w ∈ ctx.indices
        · obtain ⟨ctx₁, hctx₁, hN₁, rfl⟩ := edge_of_mem h fuel hw hs₁
          obtain ⟨ctx', sccs', k, hfold, hN', hk, hend⟩ :=
            ih n (Nat.lt_succ_self n) hN₁ (Nat.le_of_succ_le hn) hrun₁
          refine ⟨ctx', sccs', k, ?_, hN', hk.trans (Nat.lt_succ_self n), hend⟩
          rw [foldlM_cons, hctx₁]
          exact hfold
        · -- the call for `w` runs until its frame is taken off
          have hvisit : s₁ = (ctx.enter w).state sccs (⟨w, neighbors w⟩ :: ⟨v, rest⟩ :: fs) := by
            simp only [TarjanState.step, TarjanState.edge] at hs₁
            rw [if_pos hw] at hs₁
            exact (Option.some.inj hs₁).symm
          subst hvisit
          obtain ⟨fuel, rfl⟩ := Nat.exists_eq_succ_of_ne_zero (Nat.ne_zero_of_lt hn)
          obtain ⟨ctx₂, sccs₂, k, hcall, hN₂, hk, s₃, hs₃, hrun₃⟩ :=
            ih n (Nat.lt_succ_self n) h.enter (Nat.le_of_succ_le_succ hn) hrun₁
          obtain ⟨ctx₃, sccs₃, hclose, hN₃, rfl⟩ := close_ok hN₂ hs₃
          have hk' := hk.trans (Nat.lt_succ_self n)
          obtain ⟨ctx', sccs', k', hfold, hN', hk'', hend⟩ :=
            ih k hk' hN₃.lower (hk'.le.trans hn) hrun₃
          refine ⟨ctx', sccs', k', ?_, hN', hk''.trans hk', hend⟩
          rw [foldlM_cons, TarjanContext.edge, if_pos hw, strongconnect, hcall]
          simp only [Option.bind_some, hclose, Option.map_some]
          exact hfold

/-- The outer loop follows the machine from root to root. -/
theorem visitRoots_ok {roots : List Nat}
    (hs : roots.foldlM (searchRoot neighbors fuel) (ctx.state sccs []) = some s') :
    ∃ ctx' sccs', roots.foldlM (visitRoot neighbors (fuel + 1)) ctx = some ctx' ∧
      Numbers ctx' sccs' ∧ s' = ctx'.state sccs' [] := by
  induction roots generalizing ctx sccs with
  | nil =>
    cases hs
    exact ⟨ctx, sccs, rfl, h, rfl⟩
  | cons v roots ih =>
    obtain ⟨s₁, hs₁, hs⟩ := Option.bind_eq_some_iff.mp hs
    unfold searchRoot at hs₁
    rw [foldlM_cons, visitRoot]
    by_cases hv : v ∈ ctx.indices
    · rw [if_pos hv] at hs₁ ⊢
      cases hs₁
      exact ih h hs
    · rw [if_neg hv] at hs₁ ⊢
      obtain ⟨ctx₁, sccs₁, k, hcall, hN₁, -, s₂, hs₂, hrun⟩ := edges_ok h.enter le_rfl hs₁
      obtain ⟨ctx₂, sccs₂, hclose, hN₂, rfl⟩ := close_ok hN₁ hs₂
      rw [strongconnect, hcall]
      change ∃ _ _, (ctx₁.close v).bind _ = _ ∧ _
      rw [hclose]
      refine ih hN₂ ?_
      cases k with
      | zero => cases hrun
      | succ =>
        cases hrun
        exact hs

end

end Machine

/-- The search ends without a panic. Two vertices have one component exactly if each reaches the
    other, the numbers are those below the count, and an edge between components leads to a
    smaller number. -/
theorem scc_exact (g : GraphProjection) : ∃ res, run g = some res ∧
    res.components.map Prod.fst = g.vids ∧
    (∀ i j x y a b, res.components[i]? = some (x, a) → res.components[j]? = some (y, b) →
      (a = b ↔ Mutual (fun u v => v ∈ g.outNeighbors u) i j) ∧
      (j ∈ g.outNeighbors i → a ≠ b → b < a)) ∧
    ∀ k, k < res.componentCount ↔ ∃ x, (x, k) ∈ res.components := by
  have hclosed : ∀ x ∈ range g.vertexCount, ∀ y ∈ g.outNeighbors x, y ∈ range g.vertexCount :=
    fun x _ y hy => mem_range.mpr (Csr.lt_of_mem_row hy)
  obtain ⟨Cs, hCs, hlayered, hcovers⟩ := tarjan_layered nodup_range hclosed
  obtain ⟨s', hs', rfl⟩ := Option.map_eq_some_iff.mp hCs
  have hinit : Numbers {} [] := ⟨rfl, by simp⟩
  obtain ⟨ctx, sccs, hrun, hN, rfl⟩ := visitRoots_ok hinit hs'
  -- components are disjoint, so the last one a vertex was popped into is the only one
  have hnum : ∀ i C x, sccs[i]? = some C → x ∈ C → num ctx.components x = i := by
    intro i C x hi hx
    refine hN.last i C hi x hx fun j D hij hD hxD => ?_
    exact hij.ne (hlayered.getElem?_unique hi hD hx hxD)
  have hcover : ∀ x, x < g.vertexCount → ∃ C, sccs[num ctx.components x]? = some C ∧ x ∈ C := by
    intro x hx
    obtain ⟨C, hC, hmem⟩ := (hcovers x).mpr (mem_range.mpr hx)
    obtain ⟨i, hi⟩ := mem_iff_getElem?.mp hC
    rw [hnum i C x hi hmem]
    exact ⟨C, hi, hmem⟩
  have hget : ∀ {i x a},
      ((range g.vertexCount).map fun i => (g.toVid i, num ctx.components i))[i]? = some (x, a) →
      i < g.vertexCount ∧ num ctx.components i = a := by
    intro i x a h
    obtain ⟨hlt, heq⟩ := List.getElem?_eq_some_iff.mp h
    rw [getElem_map, getElem_range] at heq
    exact ⟨by simpa using hlt, (Prod.mk.inj heq).2⟩
  refine ⟨_, by rw [run, hrun, Option.map_some], ?_, fun i j x y a b hi hj => ?_, fun k => ?_⟩
  · refine ext_getElem (by simp [GraphProjection.vertexCount]) fun i h₁ h₂ => ?_
    simp [GraphProjection.toVid, h₂]
  · obtain ⟨hlt, rfl⟩ := hget hi
    obtain ⟨hlt', rfl⟩ := hget hj
    obtain ⟨C, hC, hiC⟩ := hcover i hlt
    obtain ⟨D, hD, hjD⟩ := hcover j hlt'
    refine ⟨hlayered.eq_iff_mutual hC hiC hD hjD, fun hE hne => ?_⟩
    -- the search closes a component after all that it reaches
    obtain ⟨k, D', hk, hD', hj'⟩ := hlayered.edge_le hC hiC hE
    rw [hlayered.getElem?_unique hD hD' hjD hj'] at hne ⊢
    exact lt_of_le_of_ne hk hne.symm
  · simp only [← hN.count, mem_map, Prod.mk.injEq]
    constructor
    · intro hk
      obtain ⟨x, hx⟩ := hlayered.nonempty (getElem_mem hk)
      have hknown := (hcovers x).mp ⟨_, getElem_mem hk, hx⟩
      exact ⟨_, x, hknown, rfl, hnum k _ x (getElem?_eq_getElem hk) hx⟩
    · rintro ⟨-, x, hx, -, rfl⟩
      obtain ⟨C, hC, -⟩ := hcover x (mem_range.mp hx)
      exact (List.getElem?_eq_some_iff.mp hC).1

end UniDb.Algo.Scc
