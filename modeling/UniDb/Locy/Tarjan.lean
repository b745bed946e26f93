import Mathlib.Algebra.BigOperators.Group.Finset.Basic
import Mathlib.Algebra.Order.Ring.Nat
import Mathlib.Algebra.Order.BigOperators.Group.Finset
import UniDb.Lib.AssocMap
import UniDb.Lib.Components

/-!
# Tarjan's Algorithm with an Explicit Work Stack

The strongly connected components of a graph, by a depth-first search whose call frames are
kept in a list.

Each frame of the work stack owns a segment of the component stack: its own vertex and,
above it, the vertices of calls that have returned to it without closing a component. The
vertices of a segment and its frame's vertex reach one another, and the lowlink of the frame
bounds the indices of all vertices further down that its segment has an edge to. When a frame
is finished with a lowlink that is its own index, no edge leads out of its segment except to
components that are already closed, so the segment is a component. Otherwise its vertices
reach one further down, and the segment is joined to that of the parent.

The neighbours of a vertex are visited in the order of a list. Nothing is assumed of that
order.

## Main definitions

* `Frame`, `TarjanState`: The state of the search.
* `TarjanState.step`: One round of the loop.
* `tarjan`: The components, in the order in which they are closed.
* `Segment`, `Segments`: The part of the component stack that a frame owns.

## Theorems

* `Inv.step_ok`: A round does not fail, keeps the invariant and lowers the measure.
* `tarjan_layered`: The result is layered and covers the graph.
-/

namespace UniDb.Locy

open AList List

/-- A call in flight: its vertex, and the neighbours that are not processed yet. -/
structure Frame (V : Type) where
  v : V
  rest : List V

/-- Both stacks have their top in front. -/
structure TarjanState (V : Type) where
  indexCounter : Nat
  sccStack : List V
  onStack : Finset V
  index : AssocMap V Nat
  lowlink : AssocMap V Nat
  sccs : List (Finset V)
  work : List (Frame V)

section Algorithm

variable {V : Type} [DecidableEq V] (neighbours : V → List V)

/-- Numbers a vertex and pushes its frame. -/
def TarjanState.visit (s : TarjanState V) (w : V) : TarjanState V :=
  { s with
    index := s.index.insert w s.indexCounter
    lowlink := s.lowlink.insert w s.indexCounter
    indexCounter := s.indexCounter + 1
    sccStack := w :: s.sccStack
    onStack := insert w s.onStack
    work := ⟨w, neighbours w⟩ :: s.work }

/-- The next neighbour `w` of the top frame's vertex `v`. An entry that is missing is a panic. -/
def TarjanState.edge (s : TarjanState V) (v w : V) (rest : List V) (fs : List (Frame V)) :
    Option (TarjanState V) :=
  let s := { s with work := ⟨v, rest⟩ :: fs }
  if w ∉ s.index then some (s.visit neighbours w)
  else if w ∈ s.onStack then
    match s.index.lookup w, s.lowlink.lookup v with
    | some wIdx, some vLow =>
      some (if wIdx < vLow then { s with lowlink := s.lowlink.insert v wIdx } else s)
    | _, _ => none
  else some s

/-- Pops the component stack down to `v`. -/
def popScc (v : V) : List V → Finset V → Finset V → Option (List V × Finset V × Finset V)
  | [], _, _ => none
  | w :: stack, onStack, scc =>
    if w = v then some (stack, onStack.erase w, insert w scc)
    else popScc v stack (onStack.erase w) (insert w scc)

/-- The top frame's vertex `v` has no neighbours left. -/
def TarjanState.finish (s : TarjanState V) (v : V) (fs : List (Frame V)) :
    Option (TarjanState V) := do
  let vLow ← s.lowlink.lookup v
  let vIdx ← s.index.lookup v
  let s ← if vLow = vIdx then
      (popScc v s.sccStack s.onStack ∅).map fun (stack, onStack, scc) =>
        { s with sccStack := stack, onStack := onStack, sccs := s.sccs ++ [scc] }
    else some s
  let s := { s with work := fs }
  match fs with
  | [] => some s
  | parent :: _ =>
    (s.lowlink.lookup parent.v).map fun pLow =>
      if vLow < pLow then { s with lowlink := s.lowlink.insert parent.v vLow } else s

/-- One round of the loop for the top frame. -/
def TarjanState.step (s : TarjanState V) (frame : Frame V) (fs : List (Frame V)) :
    Option (TarjanState V) :=
  match frame.rest with
  | w :: rest => s.edge neighbours frame.v w rest fs
  | [] => s.finish frame.v fs

/-- The loop, which ends with an empty work stack. -/
def drive : Nat → TarjanState V → Option (TarjanState V)
  | 0, _ => none
  | fuel + 1, s => match s.work with
    | [] => some s
    | frame :: fs => (s.step neighbours frame fs).bind (drive fuel)

def searchRoot (fuel : Nat) (s : TarjanState V) (root : V) : Option (TarjanState V) :=
  if root ∈ s.index then some s
  else drive neighbours fuel ({ s with work := [] }.visit neighbours root)

/-- Rounds that are enough: two for each vertex and one for each edge. -/
def tarjanFuel (nodes : List V) : Nat :=
  (nodes.map fun v => 2 + (neighbours v).length).sum + 1

def tarjan (nodes : List V) : Option (List (Finset V)) :=
  (nodes.foldlM (searchRoot neighbours (tarjanFuel neighbours nodes))
    { indexCounter := 0, sccStack := [], onStack := ∅, index := ∅, lowlink := ∅, sccs := [],
      work := [] }).map TarjanState.sccs

end Algorithm

/-! ### The invariant -/

section Invariant

variable {V : Type} [DecidableEq V]

/-- The number of a vertex. -/
def num (m : AssocMap V Nat) (x : V) : Nat := (m.lookup x).getD 0

theorem lookup_of_mem {m : AssocMap V Nat} {x : V} (h : x ∈ m) : m.lookup x = some (num m x) := by
  rcases AssocMap.mem_iff_lookup.mp h with ⟨n, hn⟩
  rw [num, hn]
  rfl

theorem num_insert (m : AssocMap V Nat) (x y : V) (n : Nat) :
    num (m.insert x n) y = if y = x then n else num m y := by
  unfold num
  rw [AssocMap.lookup_insert_eq]
  split <;> rfl

variable (E : V → V → Prop) (index lowlink : AssocMap V Nat)

/-- What holds of the segment `seg` of a frame `f`, over the frames `fs` with the component
    stack `st`. -/
structure Segment (f : Frame V) (fs : List (Frame V)) (seg st : List V) : Prop where
  edge : ∀ p ∈ fs.head?, E p.v f.v
  reach_top : ∀ y ∈ seg, Reach E y f.v
  reach_seg : ∀ y ∈ seg, Reach E f.v y
  rest : ∀ w ∈ f.rest, E f.v w
  visited : ∀ y ∈ f.v :: seg, ∀ w, E y w → (y = f.v → w ∉ f.rest) → w ∈ index
  low_mem : f.v ∈ lowlink
  low_le : num lowlink f.v ≤ num index f.v
  low_reach : ∃ z ∈ seg ++ f.v :: st, num index z = num lowlink f.v ∧ Reach E f.v z
  low_bound : ∀ y ∈ f.v :: seg, ∀ w ∈ st, E y w → (y = f.v → w ∉ f.rest) →
    num lowlink f.v ≤ num index w

/-- The component stack is made of the segments of the frames. -/
inductive Segments : List (Frame V) → List V → Prop
  | nil : Segments [] []
  | cons {f : Frame V} {fs : List (Frame V)} {seg st : List V} : Segments fs st →
      Segment E index lowlink f fs seg st → Segments (f :: fs) (seg ++ f.v :: st)

variable {E index lowlink} {f : Frame V} {fs : List (Frame V)} {stack : List V}

/-- Every vertex on the component stack reaches the vertex of the top frame. -/
theorem Segments.reach_head (h : Segments E index lowlink (f :: fs) stack) :
    ∀ z ∈ stack, Reach E z f.v := by
  induction fs generalizing f stack with
  | nil =>
    cases h with
    | cons htail hseg =>
      cases htail
      exact forall_mem_append.mpr ⟨hseg.reach_top, forall_mem_singleton.mpr .refl⟩
  | cons p fs ih =>
    cases h with
    | cons htail hseg =>
      exact forall_mem_append.mpr ⟨hseg.reach_top, forall_mem_cons.mpr
        ⟨.refl, fun z hz => (ih htail z hz).tail (hseg.edge p rfl)⟩⟩

variable {seg st : List V} {index' lowlink' : AssocMap V Nat}

/-- Later numbers and lowlinks of vertices that are not on the stack do not matter. -/
theorem Segment.congr (h : Segment E index lowlink f fs seg st) (hmono : ∀ x ∈ index, x ∈ index')
    (hindex : ∀ x ∈ seg ++ f.v :: st, num index' x = num index x)
    (hlow : num lowlink' f.v = num lowlink f.v) (hmem : f.v ∈ lowlink') :
    Segment E index' lowlink' f fs seg st where
  edge := h.edge
  reach_top := h.reach_top
  reach_seg := h.reach_seg
  rest := h.rest
  visited y hy w hw hrest := hmono w (h.visited y hy w hw hrest)
  low_mem := hmem
  low_le := by
    rw [hlow, hindex f.v (mem_append_right _ mem_cons_self)]
    exact h.low_le
  low_reach := by
    rcases h.low_reach with ⟨z, hz, hnum, hreach⟩
    refine ⟨z, hz, ?_, hreach⟩
    rw [hindex z hz, hlow, hnum]
  low_bound y hy w hw hE hrest := by
    rw [hlow, hindex w (mem_append_right _ (mem_cons_of_mem _ hw))]
    exact h.low_bound y hy w hw hE hrest

theorem Segments.congr (h : Segments E index lowlink fs stack) (hmono : ∀ x ∈ index, x ∈ index')
    (hindex : ∀ x ∈ stack, num index' x = num index x)
    (hlow : ∀ x ∈ stack, num lowlink' x = num lowlink x)
    (hmem : ∀ x ∈ stack, x ∈ lowlink → x ∈ lowlink') :
    Segments E index' lowlink' fs stack := by
  induction h with
  | nil => exact .nil
  | @cons f fs seg st htail hseg ih =>
    have hst : ∀ {x}, x ∈ st → x ∈ seg ++ f.v :: st := fun hx =>
      mem_append_right _ (mem_cons_of_mem _ hx)
    have hf : f.v ∈ seg ++ f.v :: st := mem_append_right _ mem_cons_self
    exact .cons (ih (fun x hx => hindex x (hst hx)) (fun x hx => hlow x (hst hx))
      fun x hx => hmem x (hst hx)) (hseg.congr hmono hindex (hlow f.v hf)
        (hmem f.v hf hseg.low_mem))

theorem Segments.cons_inv (h : Segments E index lowlink (f :: fs) stack) :
    ∃ seg st, stack = seg ++ f.v :: st ∧ Segments E index lowlink fs st ∧
      Segment E index lowlink f fs seg st := by
  cases h with
  | cons htail hseg => exact ⟨_, _, rfl, htail, hseg⟩

/-- A frame that owns nothing but its vertex. -/
theorem Segments.cons_nil (h : Segments E index lowlink fs st)
    (hseg : Segment E index lowlink f fs [] st) :
    Segments E index lowlink (f :: fs) (f.v :: st) :=
  .cons h hseg

theorem Segments.nil_inv (h : Segments E index lowlink [] stack) : stack = [] := by
  cases h
  rfl

variable (E) (K : Finset V)

/-- What holds of the numbers and the components. Vertices are numbered exactly if they are on
    the component stack or in a closed component. -/
structure Core (s : TarjanState V) : Prop where
  order : s.sccStack.Pairwise fun a b => num s.index b < num s.index a
  onStack : ∀ x, x ∈ s.onStack ↔ x ∈ s.sccStack
  lt_counter : ∀ x ∈ s.index, num s.index x < s.indexCounter
  numbered : ∀ x, x ∈ s.index ↔ x ∈ s.sccStack ∨ ∃ C ∈ s.sccs, x ∈ C
  disjoint : ∀ x ∈ s.sccStack, ∀ C ∈ s.sccs, x ∉ C
  layered : Layered E s.sccs
  known : ∀ x ∈ s.index, x ∈ K

/-- The invariant of the search. -/
structure Inv (s : TarjanState V) : Prop extends Core E K s where
  segments : Segments E s.index s.lowlink s.work s.sccStack

variable {E K} {s : TarjanState V}

theorem Core.congr {s' : TarjanState V} (h : Core E K s) (hstack : s'.sccStack = s.sccStack)
    (honStack : s'.onStack = s.onStack) (hindex : s'.index = s.index)
    (hcounter : s'.indexCounter = s.indexCounter) (hsccs : s'.sccs = s.sccs) : Core E K s' := by
  constructor
  · rw [hstack, hindex]
    exact h.order
  · rw [hstack, honStack]
    exact h.onStack
  · rw [hindex, hcounter]
    exact h.lt_counter
  · rw [hstack, hindex, hsccs]
    exact h.numbered
  · rw [hstack, hsccs]
    exact h.disjoint
  · rw [hsccs]
    exact h.layered
  · rw [hindex]
    exact h.known

/-- Vertices further down the component stack have smaller numbers. -/
theorem Core.lt_of_split (h : Core E K s) {above below : List V}
    (hst : s.sccStack = above ++ below) {x y : V} (hx : x ∈ above) (hy : y ∈ below) :
    num s.index y < num s.index x := by
  have hpw := h.order
  rw [hst, pairwise_append] at hpw
  exact hpw.2.2 x hx y hy

theorem Core.mem_index (h : Core E K s) {x : V} (hx : x ∈ s.sccStack) : x ∈ s.index :=
  (h.numbered x).mpr (.inl hx)

/-! ### Visiting a vertex -/

variable {w : V}

/-- A new vertex gets the next number and goes on top. -/
theorem Core.visit (h : Core E K s) (neighbours : V → List V) (hw : w ∉ s.index) (hK : w ∈ K) :
    Core E K (s.visit neighbours w) := by
  have hne : ∀ x ∈ s.index, x ≠ w := fun x hx hxw => hw (hxw ▸ hx)
  have hnum : ∀ x ∈ s.index, num (s.index.insert w s.indexCounter) x = num s.index x := by
    intro x hx
    rw [num_insert, if_neg (hne x hx)]
  have hself : num (s.index.insert w s.indexCounter) w = s.indexCounter := by
    rw [num_insert, if_pos rfl]
  constructor
  · refine pairwise_cons.mpr ⟨fun y hy => ?_, h.order.imp_of_mem fun {a b} ha hb hab => ?_⟩
    · have hy' := h.mem_index hy
      rw [TarjanState.visit, hnum y hy', hself]
      exact h.lt_counter y hy'
    · rw [TarjanState.visit, hnum a (h.mem_index ha), hnum b (h.mem_index hb)]
      exact hab
  · intro x
    show x ∈ insert w s.onStack ↔ x ∈ w :: s.sccStack
    rw [Finset.mem_insert, mem_cons, h.onStack]
  · intro x hx
    show num (s.index.insert w s.indexCounter) x < s.indexCounter + 1
    by_cases hxw : x = w
    · rw [hxw, hself]
      exact Nat.lt_succ_self _
    · have hx' : x ∈ s.index := (mem_insert s.index).mp hx |>.resolve_left hxw
      rw [hnum x hx']
      exact Nat.lt_succ_of_lt (h.lt_counter x hx')
  · intro x
    show x ∈ s.index.insert w s.indexCounter ↔ x ∈ w :: s.sccStack ∨ ∃ C ∈ s.sccs, x ∈ C
    rw [mem_insert, mem_cons, h.numbered x, or_assoc]
  · intro x hx C hC hxC
    rcases mem_cons.mp hx with rfl | hx
    · exact hw ((h.numbered x).mpr (.inr ⟨C, hC, hxC⟩))
    · exact h.disjoint x hx C hC hxC
  · exact h.layered
  · intro x hx
    rcases (mem_insert s.index).mp hx with rfl | hx
    · exact hK
    · exact h.known x hx

variable {index lowlink : AssocMap V Nat} {fuel : Nat} {n : Nat}

theorem Segment.visit {neighbours : V → List V} (hedge : ∀ p ∈ fs.head?, w ∈ neighbours p.v) :
    Segment (fun x y => y ∈ neighbours x) (index.insert w n) (lowlink.insert w n)
      ⟨w, neighbours w⟩ fs [] st := by
  have hself : num (index.insert w n) w = num (lowlink.insert w n) w := by
    rw [num_insert, num_insert, if_pos rfl, if_pos rfl]
  refine ⟨hedge, ?_, ?_, fun _ hx => hx, ?_, ?_, hself.ge, ?_, ?_⟩
  · exact nofun
  · exact nofun
  · intro y hy x hx hrest
    rw [mem_singleton.mp hy] at hx hrest
    exact absurd hx (hrest rfl)
  · exact (mem_insert lowlink).mpr (.inl rfl)
  · exact ⟨w, mem_cons_self, hself, .refl⟩
  · intro y hy x _ hx hrest
    rw [mem_singleton.mp hy] at hx hrest
    exact absurd hx (hrest rfl)

variable {neighbours : V → List V} {E : V → V → Prop} {v : V} {rest : List V}

/-- A frame whose next neighbour was just visited. -/
theorem Segment.advance (h : Segment E index lowlink ⟨v, w :: rest⟩ fs seg st)
    (hw : w ∉ seg ++ v :: st) :
    Segment E (index.insert w n) (lowlink.insert w n) ⟨v, rest⟩ fs seg st := by
  have hnum : ∀ (m : AssocMap V Nat), ∀ x ∈ seg ++ v :: st, num (m.insert w n) x = num m x := by
    intro m x hx
    have hne : x ≠ w := fun hxw => hw (hxw ▸ hx)
    rw [num_insert, if_neg hne]
  have hv : v ∈ seg ++ v :: st := mem_append_right _ mem_cons_self
  refine ⟨h.edge, h.reach_top, h.reach_seg, fun x hx => h.rest x (mem_cons_of_mem _ hx),
    ?_, ?_, ?_, ?_, ?_⟩
  · intro y hy x hx hrest
    rw [mem_insert]
    by_cases hxw : x = w
    · exact .inl hxw
    · refine .inr (h.visited y hy x hx fun hyv hx' => ?_)
      exact (mem_cons.mp hx').elim hxw (hrest hyv)
  · exact (mem_insert lowlink).mpr (.inr h.low_mem)
  · rw [hnum index v hv, hnum lowlink v hv]
    exact h.low_le
  · rcases h.low_reach with ⟨z, hz, hzn, hreach⟩
    refine ⟨z, hz, ?_, hreach⟩
    rw [hnum index z hz, hnum lowlink v hv]
    exact hzn
  · intro y hy x hx hE hrest
    have hx' : x ∈ seg ++ v :: st := mem_append_right _ (mem_cons_of_mem _ hx)
    rw [hnum lowlink v hv, hnum index x hx']
    refine h.low_bound y hy x hx hE fun hyv hmem => ?_
    rcases mem_cons.mp hmem with rfl | hmem
    · exact hw hx'
    · exact hrest hyv hmem

/-- The search goes on into a neighbour that has no number yet. -/
theorem Inv.visit_edge (h : Inv (fun x y => y ∈ neighbours x) K s)
    (hwork : s.work = ⟨v, w :: rest⟩ :: fs) (hw : w ∉ s.index) (hK : w ∈ K) :
    Inv (fun x y => y ∈ neighbours x) K
      ({ s with work := ⟨v, rest⟩ :: fs }.visit neighbours w) := by
  have hsegs := h.segments
  rw [hwork] at hsegs
  rcases hsegs.cons_inv with ⟨seg, st, hst, htail, hseg⟩
  have hnot : w ∉ s.sccStack := fun hmem => hw (h.mem_index hmem)
  rw [hst] at hnot
  have hnotst : ∀ x ∈ st, x ≠ w := fun x hx hxw =>
    hnot (hxw ▸ mem_append_right _ (mem_cons_of_mem _ hx))
  have hcore : Core (fun x y => y ∈ neighbours x) K { s with work := ⟨v, rest⟩ :: fs } :=
    h.toCore.congr rfl rfl rfl rfl rfl
  refine ⟨hcore.visit neighbours hw hK, ?_⟩
  show Segments _ (s.index.insert w s.indexCounter) (s.lowlink.insert w s.indexCounter)
    (⟨w, neighbours w⟩ :: ⟨v, rest⟩ :: fs) (w :: s.sccStack)
  rw [hst]
  refine Segments.cons_nil (.cons ?_ (hseg.advance hnot)) (.visit ?_)
  · refine htail.congr (fun x hx => (mem_insert _).mpr (.inr hx)) ?_ ?_ ?_
    · intro x hx
      rw [num_insert, if_neg (hnotst x hx)]
    · intro x hx
      rw [num_insert, if_neg (hnotst x hx)]
    · exact fun x _ hx => (mem_insert _).mpr (.inr hx)
  · rintro p ⟨⟩
    exact hseg.rest w mem_cons_self

theorem Inv.visit_root (h : Inv (fun x y => y ∈ neighbours x) K s) (hwork : s.work = [])
    (hw : w ∉ s.index) (hK : w ∈ K) :
    Inv (fun x y => y ∈ neighbours x) K ({ s with work := [] }.visit neighbours w) := by
  have hsegs := h.segments
  rw [hwork] at hsegs
  have hcore : Core (fun x y => y ∈ neighbours x) K { s with work := [] } :=
    h.toCore.congr rfl rfl rfl rfl rfl
  refine ⟨hcore.visit neighbours hw hK, ?_⟩
  rw [hsegs.nil_inv]
  exact Segments.cons_nil .nil (.visit nofun)

/-! ### An edge to a vertex with a number -/

theorem Segment.skip (h : Segment E index lowlink ⟨v, w :: rest⟩ fs seg st) (hw : w ∈ index)
    (hlow : w ∈ st → num lowlink v ≤ num index w) :
    Segment E index lowlink ⟨v, rest⟩ fs seg st := by
  refine ⟨h.edge, h.reach_top, h.reach_seg, fun x hx => h.rest x (mem_cons_of_mem _ hx),
    ?_, h.low_mem, h.low_le, h.low_reach, ?_⟩
  · intro y hy x hx hrest
    by_cases hxw : x = w
    · exact hxw ▸ hw
    · refine h.visited y hy x hx fun hyv hx' => ?_
      exact (mem_cons.mp hx').elim hxw (hrest hyv)
  · intro y hy x hx hE hrest
    by_cases hxw : x = w
    · subst hxw
      exact hlow hx
    · refine h.low_bound y hy x hx hE fun hyv hx' => ?_
      exact (mem_cons.mp hx').elim hxw (hrest hyv)

/-- Lowering the lowlink of a frame to the number of a vertex on the stack that it reaches. -/
theorem Segment.lower {z : V} (h : Segment E index lowlink f fs seg st)
    (hz : z ∈ seg ++ f.v :: st) (hzn : num index z = n) (hreach : Reach E f.v z)
    (hn : n < num lowlink f.v) : Segment E index (lowlink.insert f.v n) f fs seg st := by
  have hself : num (lowlink.insert f.v n) f.v = n := by rw [num_insert, if_pos rfl]
  refine ⟨h.edge, h.reach_top, h.reach_seg, h.rest, h.visited, ?_, ?_, ?_, ?_⟩
  · exact (mem_insert lowlink).mpr (.inl rfl)
  · rw [hself]
    exact hn.le.trans h.low_le
  · exact ⟨z, hz, hzn.trans hself.symm, hreach⟩
  · intro y hy w hw hE hrest
    rw [hself]
    exact hn.le.trans (h.low_bound y hy w hw hE hrest)

/-- The frames below do not see a change of the lowlink of a vertex above them. -/
theorem Segments.insert_lowlink (h : Segments E index lowlink fs st) (hv : v ∉ st) (n : Nat) :
    Segments E index (lowlink.insert v n) fs st := by
  refine h.congr (fun _ hx => hx) (fun _ _ => rfl) ?_ ?_
  · intro x hx
    have hne : x ≠ v := fun hxv => hv (hxv ▸ hx)
    rw [num_insert, if_neg hne]
  · exact fun x _ hx => (mem_insert _).mpr (.inr hx)

theorem Core.notMem_below (h : Core E K s) (hst : s.sccStack = seg ++ v :: st) :
    v ∉ st ∧ v ∉ seg := by
  have hpw := h.order
  rw [hst, pairwise_append, pairwise_cons] at hpw
  exact ⟨fun hv => lt_irrefl _ (hpw.2.1.1 v hv),
    fun hv => lt_irrefl _ (hpw.2.2 v hv v mem_cons_self)⟩

/-- One neighbour. A new one is entered, one on the stack may lower the lowlink, and one in a
    component is skipped. -/
theorem Inv.edge (h : Inv (fun x y => y ∈ neighbours x) K s) (hwork : s.work = ⟨v, w :: rest⟩ :: fs)
    (hK : ∀ x ∈ K, ∀ y ∈ neighbours x, y ∈ K) :
    ∃ s', s.edge neighbours v w rest fs = some s' ∧ Inv (fun x y => y ∈ neighbours x) K s' ∧
      (w ∉ s.index ∧ s'.work = ⟨w, neighbours w⟩ :: ⟨v, rest⟩ :: fs ∧
          s'.index = s.index.insert w s.indexCounter ∨
        s'.work = ⟨v, rest⟩ :: fs ∧ s'.index = s.index) := by
  have hsegs := h.segments
  rw [hwork] at hsegs
  rcases hsegs.cons_inv with ⟨seg, st, hst, htail, hseg⟩
  have hvst : v ∈ s.sccStack := hst ▸ mem_append_right _ mem_cons_self
  have hEw : w ∈ neighbours v := hseg.rest w mem_cons_self
  unfold TarjanState.edge
  by_cases hw : w ∈ s.index
  · rw [if_neg (not_not.mpr hw)]
    by_cases hon : w ∈ s.onStack
    · have hwst : w ∈ seg ++ v :: st := hst ▸ (h.onStack w).mp hon
      rw [if_pos hon]
      simp only [lookup_of_mem hw, lookup_of_mem hseg.low_mem]
      refine ⟨_, rfl, ?_, .inr ?_⟩
      · by_cases hlt : num s.index w < num s.lowlink v
        · rw [if_pos hlt]
          refine ⟨h.toCore.congr rfl rfl rfl rfl rfl, ?_⟩
          rw [hst]
          have hlower := hseg.lower hwst rfl (.single hEw) hlt
          refine .cons (htail.insert_lowlink (h.notMem_below hst).1 _) (hlower.skip hw fun _ => ?_)
          rw [num_insert, if_pos rfl]
        · rw [if_neg hlt]
          refine ⟨h.toCore.congr rfl rfl rfl rfl rfl, ?_⟩
          rw [hst]
          exact .cons htail (hseg.skip hw fun _ => not_lt.mp hlt)
      · split <;> exact ⟨rfl, rfl⟩
    · rw [if_neg hon]
      -- a numbered vertex that is not on the stack is in a component
      have hwst : w ∉ st := fun hmem => hon ((h.onStack w).mpr
        (hst ▸ mem_append_right _ (mem_cons_of_mem _ hmem)))
      refine ⟨_, rfl, ⟨h.toCore.congr rfl rfl rfl rfl rfl, ?_⟩, .inr ⟨rfl, rfl⟩⟩
      rw [hst]
      exact .cons htail (hseg.skip hw fun hmem => absurd hmem hwst)
  · rw [if_pos hw]
    refine ⟨_, rfl, h.visit_edge hwork hw ?_, .inl ⟨hw, rfl, rfl⟩⟩
    exact hK v (h.known v (h.mem_index hvst)) w hEw

/-! ### A vertex without neighbours left -/

/-- The pops remove a segment with its vertex and collect them. -/
theorem popScc_segment (hv : v ∉ seg) (st : List V) (onStack scc : Finset V) :
    ∃ onStack' scc', popScc v (seg ++ v :: st) onStack scc = some (st, onStack', scc') ∧
      (∀ x, x ∈ onStack' ↔ x ∈ onStack ∧ x ∉ v :: seg) ∧
      (∀ x, x ∈ scc' ↔ x ∈ scc ∨ x ∈ v :: seg) := by
  induction seg generalizing onStack scc with
  | nil =>
    refine ⟨onStack.erase v, insert v scc, by rw [nil_append, popScc, if_pos rfl], ?_, ?_⟩
    · intro x
      rw [Finset.mem_erase, mem_singleton, and_comm]
    · intro x
      rw [Finset.mem_insert, mem_singleton, or_comm]
  | cons w seg ih =>
    rw [mem_cons, not_or] at hv
    rcases ih hv.2 (onStack.erase w) (insert w scc) with ⟨on', scc', heq, hon, hscc⟩
    refine ⟨on', scc', ?_, ?_, ?_⟩
    · rw [cons_append, popScc, if_neg (Ne.symm hv.1), heq]
    · intro x
      rw [hon, Finset.mem_erase]
      simp only [mem_cons]
      tauto
    · intro x
      rw [hscc, Finset.mem_insert]
      simp only [mem_cons]
      tauto

/-- The segment of a vertex whose lowlink is its own number is a component. -/
theorem Inv.layered_segment {C : Finset V} (h : Inv E K s) (hst : s.sccStack = seg ++ v :: st)
    (hseg : Segment E s.index s.lowlink ⟨v, []⟩ fs seg st) (hroot : num s.lowlink v = num s.index v)
    (hC : ∀ x, x ∈ C ↔ x ∈ v :: seg) : Layered E (s.sccs ++ [C]) := by
  have hmem : ∀ x ∈ v :: seg, x ∈ s.sccStack := by
    intro x hx
    rw [hst]
    rcases mem_cons.mp hx with rfl | hx
    · exact mem_append_right _ mem_cons_self
    · exact mem_append_left _ hx
  have hto : ∀ x ∈ v :: seg, Reach E x v := by
    exact forall_mem_cons.mpr ⟨.refl, hseg.reach_top⟩
  have hfrom : ∀ x ∈ v :: seg, Reach E v x := by
    exact forall_mem_cons.mpr ⟨.refl, hseg.reach_seg⟩
  refine .snoc h.layered ⟨v, (hC v).mpr mem_cons_self⟩ ?_ ?_ ?_
  · intro x hx y hy
    exact (hto x ((hC x).mp hx)).trans (hfrom y ((hC y).mp hy))
  · intro x hx y hE
    have hx' := (hC x).mp hx
    rcases (h.numbered y).mp (hseg.visited x hx' y hE fun _ => not_mem_nil) with hy | hy
    · left
      rw [hC, mem_cons]
      rw [hst, mem_append, mem_cons] at hy
      rcases hy with hy | hy | hy
      · exact .inr hy
      · exact .inl hy
      · -- an edge further down would have lowered the lowlink
        have hbound := hseg.low_bound x hx' y hy hE fun _ => not_mem_nil
        have hst' : s.sccStack = (seg ++ [v]) ++ st := by rw [hst, append_cons]
        have hlt := h.lt_of_split hst' (mem_append_right _ (mem_singleton_self v)) hy
        rw [hroot] at hbound
        exact absurd hlt (not_lt.mpr hbound)
    · exact .inr hy
  · intro x hx D hD
    exact h.disjoint x (hmem x ((hC x).mp hx)) D hD

/-- A root is popped with its segment, and they are a component. -/
theorem Inv.close {onStack C : Finset V} (h : Inv E K s) (hst : s.sccStack = seg ++ v :: st)
    (htail : Segments E s.index s.lowlink fs st)
    (hseg : Segment E s.index s.lowlink ⟨v, []⟩ fs seg st) (hroot : num s.lowlink v = num s.index v)
    (hC : ∀ x, x ∈ C ↔ x ∈ v :: seg) (hon : ∀ x, x ∈ onStack ↔ x ∈ s.onStack ∧ x ∉ v :: seg) :
    Inv E K { s with
      sccStack := st
      onStack := onStack
      sccs := s.sccs ++ [C]
      work := fs } := by
  have hst' : s.sccStack = (seg ++ [v]) ++ st := by rw [hst, append_cons]
  have hmem : ∀ x, x ∈ s.sccStack ↔ x ∈ v :: seg ∨ x ∈ st := by
    intro x
    rw [hst, mem_append, mem_cons, mem_cons]
    tauto
  -- the stack is in the order of the numbers, so nothing is in it twice
  have hnot : ∀ x ∈ st, x ∉ v :: seg := by
    intro x hx hx'
    have hx'' : x ∈ seg ++ [v] := by
      rw [mem_append, mem_singleton]
      exact (mem_cons.mp hx').symm
    exact lt_irrefl _ (h.lt_of_split hst' hx'' hx)
  refine ⟨⟨?_, ?_, h.lt_counter, ?_, ?_, h.layered_segment hst hseg hroot hC, h.known⟩, htail⟩
  · have hpw := h.order
    rw [hst', pairwise_append] at hpw
    exact hpw.2.1
  · intro x
    rw [hon, h.onStack, hmem]
    constructor
    · rintro ⟨hx | hx, hx'⟩
      · exact absurd hx hx'
      · exact hx
    · exact fun hx => ⟨.inr hx, hnot x hx⟩
  · intro x
    have hlast : (∃ D ∈ s.sccs ++ [C], x ∈ D) ↔ (∃ D ∈ s.sccs, x ∈ D) ∨ x ∈ C := by
      simp
    rw [h.numbered, hlast, hC, hmem]
    exact (or_assoc.trans or_comm).trans or_assoc
  · intro x hx D hD
    rcases mem_append.mp hD with hD | hD
    · exact h.disjoint x ((hmem x).mpr (.inr hx)) D hD
    · rw [mem_singleton.mp hD, hC]
      exact hnot x hx

/-- The segment of a vertex that is no root becomes part of that of its caller. -/
theorem Segment.join {p : Frame V} {segp : List V} (hp : Segment E index lowlink p fs segp st)
    (hv : Segment E index lowlink ⟨v, []⟩ (p :: fs) seg (segp ++ p.v :: st))
    (hreach : Reach E v p.v) (hle : num lowlink p.v ≤ num lowlink v) :
    Segment E index lowlink p fs (seg ++ v :: segp) st := by
  -- both tops reach one another, so the joined segment is one class
  have hpv : Reach E p.v v := .single (hv.edge p rfl)
  have hcase : ∀ y, y ∈ p.v :: (seg ++ v :: segp) → y ∈ v :: seg ∨ y ∈ p.v :: segp := by
    intro y hy
    simp only [mem_cons, mem_append] at hy ⊢
    tauto
  have hsplit : ∀ y, y ∈ seg ++ v :: segp → y ∈ v :: seg ∨ y ∈ segp := by
    intro y hy
    simp only [mem_cons, mem_append] at hy ⊢
    tauto
  refine ⟨hp.edge, ?_, ?_, hp.rest, ?_, hp.low_mem, hp.low_le, ?_, ?_⟩
  · intro y hy
    rcases hsplit y hy with hy | hy
    · rcases mem_cons.mp hy with rfl | hy
      · exact hreach
      · exact (hv.reach_top y hy).trans hreach
    · exact hp.reach_top y hy
  · intro y hy
    rcases hsplit y hy with hy | hy
    · rcases mem_cons.mp hy with rfl | hy
      · exact hpv
      · exact hpv.trans (hv.reach_seg y hy)
    · exact hp.reach_seg y hy
  · intro y hy w hE hrest
    rcases hcase y hy with hy | hy
    · exact hv.visited y hy w hE fun _ => not_mem_nil
    · exact hp.visited y hy w hE hrest
  · rcases hp.low_reach with ⟨z, hz, hzn⟩
    refine ⟨z, ?_, hzn⟩
    simp only [mem_cons, mem_append] at hz ⊢
    tauto
  · intro y hy w hw hE hrest
    rcases hcase y hy with hy | hy
    · have hw' : w ∈ segp ++ p.v :: st := mem_append_right _ (mem_cons_of_mem _ hw)
      exact hle.trans (hv.low_bound y hy w hw' hE fun _ => not_mem_nil)
    · exact hp.low_bound y hy w hw hE hrest

theorem Inv.finish (h : Inv E K s) (hwork : s.work = ⟨v, []⟩ :: fs) :
    ∃ s', s.finish v fs = some s' ∧ Inv E K s' ∧ s'.work = fs ∧ s'.index = s.index := by
  have hsegs := h.segments
  rw [hwork] at hsegs
  rcases hsegs.cons_inv with ⟨seg, st, hst, htail, hseg⟩
  have hst' : s.sccStack = (seg ++ [v]) ++ st := by rw [hst, append_cons]
  have hlt : ∀ x ∈ st, num s.index x < num s.index v := fun x hx =>
    h.lt_of_split hst' (mem_append_right _ (mem_singleton_self v)) hx
  have hvi : v ∈ s.index := h.mem_index (hst ▸ mem_append_right _ mem_cons_self)
  have hnot := h.notMem_below hst
  unfold TarjanState.finish
  simp only [lookup_of_mem hvi, lookup_of_mem hseg.low_mem, Option.bind_eq_bind, Option.bind_some]
  by_cases hroot : num s.lowlink v = num s.index v
  · rw [if_pos hroot]
    rcases popScc_segment hnot.2 st s.onStack ∅ with ⟨on', C, hpop, hon, hC⟩
    simp only [Finset.notMem_empty, false_or] at hC
    have hclose := h.close hst htail hseg hroot hC hon
    rw [hst, hpop, Option.map_some, Option.bind_some]
    cases fs with
    | nil => exact ⟨_, rfl, hclose, rfl, rfl⟩
    | cons p =>
      -- the number of `v` is larger than the lowlink below
      rcases htail.cons_inv with ⟨segp, stp, hstp, -, hsegp⟩
      have hp : num s.index p.v < num s.index v :=
        hlt p.v (hstp ▸ mem_append_right _ mem_cons_self)
      have hge : ¬ num s.lowlink v < num s.lowlink p.v := by
        rw [hroot]
        exact not_lt.mpr (hsegp.low_le.trans hp.le)
      simp only [lookup_of_mem hsegp.low_mem, Option.map_some, if_neg hge]
      exact ⟨_, rfl, hclose, rfl, rfl⟩
  · rw [if_neg hroot]
    rcases hseg.low_reach with ⟨z, hz, hzn, hvz⟩
    have hlow : num s.index z < num s.index v := by
      rw [hzn]
      exact lt_of_le_of_ne hseg.low_le hroot
    have hzst : z ∈ st := by
      rcases mem_append.mp hz with hz | hz
      · exact absurd (h.lt_of_split hst hz mem_cons_self) (not_lt.mpr hlow.le)
      · rcases mem_cons.mp hz with rfl | hz
        · exact absurd hlow (lt_irrefl _)
        · exact hz
    cases fs with
    | nil =>
      rw [htail.nil_inv] at hzst
      cases hzst
    | cons p =>
      have hzp := htail.reach_head z hzst
      rcases htail.cons_inv with ⟨segp, stp, rfl, htailp, hsegp⟩
      have hjoined : s.sccStack = (seg ++ v :: segp) ++ p.v :: stp := by
        rw [hst, append_assoc, cons_append]
      simp only [lookup_of_mem hsegp.low_mem, Option.map_some]
      refine ⟨_, rfl, ?_, by split <;> rfl, by split <;> rfl⟩
      by_cases hless : num s.lowlink v < num s.lowlink p.v
      · rw [if_pos hless]
        refine ⟨h.toCore.congr rfl rfl rfl rfl rfl, ?_⟩
        have hne : v ≠ p.v := fun hvp =>
          hnot.1 (hvp ▸ mem_append_right _ mem_cons_self)
        have hpz : Reach E p.v z := .head (hseg.edge p rfl) hvz
        have hv' : num (s.lowlink.insert p.v (num s.lowlink v)) v = num s.lowlink v := by
          rw [num_insert, if_neg hne]
        rw [hjoined]
        refine .cons (htailp.insert_lowlink (h.notMem_below hjoined).1 _)
          ((hsegp.lower hzst hzn hpz hless).join ?_ (hvz.trans hzp) ?_)
        · exact hseg.congr (fun _ hx => hx) (fun _ _ => rfl) hv'
            ((mem_insert _).mpr (.inr hseg.low_mem))
        · rw [num_insert, if_pos rfl, hv']
      · rw [if_neg hless]
        refine ⟨h.toCore.congr rfl rfl rfl rfl rfl, ?_⟩
        rw [hjoined]
        exact .cons htailp (hsegp.join hseg (hvz.trans hzp) (not_lt.mp hless))

/-! ### The search ends -/

variable (neighbours K) in
/-- Rounds left: a vertex without a number takes one for each neighbour and two more at most. -/
def pending (s : TarjanState V) : Nat :=
  (∑ x ∈ K with x ∉ s.index, (2 + (neighbours x).length)) +
    (s.work.map fun f => 1 + f.rest.length).sum

theorem sum_unnumbered_insert (m : AssocMap V Nat) (n : Nat) (c : V →
    Nat) (hw : w ∉ m) (hK : w ∈ K) :
    c w + ∑ x ∈ K with x ∉ m.insert w n, c x = ∑ x ∈ K with x ∉ m, c x := by
  have herase : K.filter (· ∉ m.insert w n) = (K.filter (· ∉ m)).erase w := by
    ext x
    simp only [Finset.mem_filter, Finset.mem_erase, mem_insert, not_or]
    tauto
  rw [herase]
  exact Finset.add_sum_erase _ c (Finset.mem_filter.mpr ⟨hK, hw⟩)

variable (h : Inv (fun x y => y ∈ neighbours x) K s)

include h

/-- Every round keeps the invariant and the numbers given, and leaves fewer rounds. -/
theorem Inv.step_ok (hwork : s.work = f :: fs) (hK : ∀ x ∈ K, ∀ y ∈ neighbours x, y ∈ K) :
    ∃ s', s.step neighbours f fs = some s' ∧ Inv (fun x y => y ∈ neighbours x) K s' ∧
      pending K neighbours s' < pending K neighbours s ∧ ∀ x ∈ s.index, x ∈ s'.index := by
  obtain ⟨v, rest⟩ := f
  cases rest with
  | nil =>
    rcases h.finish hwork with ⟨s', hs', hinv, hwork', hindex⟩
    refine ⟨s', hs', hinv, ?_, fun x hx => hindex ▸ hx⟩
    unfold pending
    rw [hwork', hindex, hwork, map_cons, sum_cons]
    simp
  | cons w =>
    rcases h.edge hwork hK with ⟨s', hs', hinv, ⟨hw, hwork', hindex⟩ | ⟨hwork', hindex⟩⟩
    · refine ⟨s', hs', hinv, ?_, fun x hx => ?_⟩
      · have hwK : w ∈ K := by
          refine hinv.known w ?_
          rw [hindex]
          exact (mem_insert _).mpr (.inl rfl)
        unfold pending
        rw [hwork', hindex, hwork, ← sum_unnumbered_insert s.index s.indexCounter _ hw hwK]
        simp only [map_cons, sum_cons, length_cons]
        omega
      · rw [hindex]
        exact (mem_insert _).mpr (.inr hx)
    · refine ⟨s', hs', hinv, ?_, fun x hx => hindex ▸ hx⟩
      unfold pending
      rw [hwork', hindex, hwork]
      simp only [map_cons, sum_cons, length_cons]
      omega

theorem Inv.drive_ok (hK : ∀ x ∈ K, ∀ y ∈ neighbours x, y ∈ K)
    (hfuel : pending K neighbours s < fuel) :
    ∃ s', drive neighbours fuel s = some s' ∧ Inv (fun x y => y ∈ neighbours x) K s' ∧
      s'.work = [] ∧ ∀ x ∈ s.index, x ∈ s'.index := by
  induction fuel generalizing s with
  | zero => exact absurd hfuel (Nat.not_lt_zero _)
  | succ fuel ih =>
    unfold drive
    cases hwork : s.work with
    | nil => exact ⟨s, rfl, h, hwork, fun _ hx => hx⟩
    | cons =>
      rcases h.step_ok hwork hK with ⟨s₁, hs₁, hinv₁, hless, hmono₁⟩
      rcases ih hinv₁ (by omega) with ⟨s', hs', hinv', hempty, hmono'⟩
      refine ⟨s', ?_, hinv', hempty, fun x hx => hmono' x (hmono₁ x hx)⟩
      simp [hs₁, hs']

/-- A search from a root gives it a number, and leaves no vertex on the stacks. -/
theorem Inv.searchRoot_ok {root : V} (hwork : s.work = []) (hroot : root ∈ K)
    (hK : ∀ x ∈ K, ∀ y ∈ neighbours x, y ∈ K)
    (hfuel : ∑ x ∈ K, (2 + (neighbours x).length) < fuel) :
    ∃ s', searchRoot neighbours fuel s root = some s' ∧
      Inv (fun x y => y ∈ neighbours x) K s' ∧ s'.work = [] ∧ root ∈ s'.index ∧
      ∀ x ∈ s.index, x ∈ s'.index := by
  unfold searchRoot
  by_cases hr : root ∈ s.index
  · rw [if_pos hr]
    exact ⟨s, rfl, h, hwork, hr, fun _ hx => hx⟩
  · rw [if_neg hr]
    have hle : pending K neighbours ({ s with work := [] }.visit neighbours root) < fuel := by
      refine lt_of_le_of_lt ?_ hfuel
      have hsub : ∑ x ∈ K with x ∉ s.index, (2 + (neighbours x).length) ≤
          ∑ x ∈ K, (2 + (neighbours x).length) :=
        Finset.sum_le_sum_of_subset (Finset.filter_subset _ K)
      rw [← sum_unnumbered_insert s.index s.indexCounter _ hr hroot] at hsub
      have hval : pending K neighbours ({ s with work := [] }.visit neighbours root) =
          (∑ x ∈ K with x ∉ s.index.insert root s.indexCounter, (2 + (neighbours x).length)) +
            (1 + (neighbours root).length + 0) := rfl
      omega
    rcases (h.visit_root hwork hr hroot).drive_ok hK hle with ⟨s', hs', hinv, hempty, hmono⟩
    refine ⟨s', hs', hinv, hempty, hmono root ?_, fun x hx => hmono x ?_⟩
    · exact (mem_insert _).mpr (.inl rfl)
    · exact (mem_insert _).mpr (.inr hx)

theorem Inv.searchRoots_ok {roots : List V} (hwork : s.work = [])
    (hroots : ∀ x ∈ roots, x ∈ K) (hK : ∀ x ∈ K, ∀ y ∈ neighbours x, y ∈ K)
    (hfuel : ∑ x ∈ K, (2 + (neighbours x).length) < fuel) :
    ∃ s', roots.foldlM (searchRoot neighbours fuel) s = some s' ∧
      Inv (fun x y => y ∈ neighbours x) K s' ∧ s'.work = [] ∧ (∀ x ∈ roots, x ∈ s'.index) ∧
      ∀ x ∈ s.index, x ∈ s'.index := by
  induction roots generalizing s with
  | nil => exact ⟨s, rfl, h, hwork, nofun, fun _ hx => hx⟩
  | cons root roots ih =>
    rcases h.searchRoot_ok hwork (hroots root mem_cons_self) hK hfuel with
      ⟨s₁, hs₁, hinv₁, hwork₁, hroot, hmono₁⟩
    rcases ih hinv₁ hwork₁ (fun x hx => hroots x (mem_cons_of_mem _ hx)) with
      ⟨s', hs', hinv', hwork', hall, hmono'⟩
    refine ⟨s', ?_, hinv', hwork', fun x hx => ?_, fun x hx => hmono' x (hmono₁ x hx)⟩
    · rw [foldlM_cons, hs₁]
      exact hs'
    · rcases mem_cons.mp hx with rfl | hx
      · exact hmono' x hroot
      · exact hall x hx

omit h

/-- The algorithm ends without a panic. Its components are layered and hold the vertices given. -/
theorem tarjan_layered {nodes : List V} (hnodup : nodes.Nodup)
    (hclosed : ∀ x ∈ nodes, ∀ y ∈ neighbours x, y ∈ nodes) :
    ∃ Cs, tarjan neighbours nodes = some Cs ∧ Layered (fun x y => y ∈ neighbours x) Cs ∧
      ∀ x, (∃ C ∈ Cs, x ∈ C) ↔ x ∈ nodes := by
  have hinit : Inv (fun x y => y ∈ neighbours x) nodes.toFinset
      { indexCounter := 0, sccStack := [], onStack := ∅, index := ∅, lowlink := ∅, sccs := [],
        work := [] } := by
    refine ⟨⟨.nil, ?_, ?_, ?_, ?_, .nil, ?_⟩, .nil⟩ <;> simp
  have hfuel : ∑ x ∈ nodes.toFinset, (2 + (neighbours x).length) < tarjanFuel neighbours nodes := by
    rw [sum_toFinset _ hnodup]
    exact Nat.lt_succ_self _
  have hroots : ∀ x ∈ nodes, x ∈ nodes.toFinset := fun x hx => mem_toFinset.mpr hx
  rcases hinit.searchRoots_ok rfl hroots (by simpa using hclosed) hfuel with
    ⟨s', hs', hinv, hwork, hall, -⟩
  refine ⟨s'.sccs, ?_, hinv.layered, fun x => ?_⟩
  · rw [tarjan, hs', Option.map_some]
  · have hsegs := hinv.segments
    rw [hwork] at hsegs
    have hnum := hinv.numbered x
    rw [hsegs.nil_inv] at hnum
    simp only [not_mem_nil, false_or] at hnum
    rw [← hnum]
    exact ⟨fun hx => mem_toFinset.mp (hinv.known x hx), hall x⟩

end Invariant

end UniDb.Locy
