import Mathlib.Algebra.Group.Nat.Defs
import Mathlib.Data.List.GetD
import UniDb.Storage.Adjacency

/-!
# Path Automata

A quantified path pattern is compiled to a chain of states, one for each number of hops. The
steps of the pattern label the chain in turn, and the ends of enough iterations accept.

States are numbered with 16 bits. The bounds of a pattern are not limited, so the numbers are
right only while the whole chain fits.

## Main definitions

* `fromVlp`, `fromQpp`, `withIterationSourceConstraint`: The compilation.
* `PathNfa.AcceptsFrom`: The hops that lead from a state to an accepting one.
* `Quantified`: The hops that a pattern describes.

## Theorems

* `Chain.acceptsFrom_iff`: What a chain accepts from each of its states.
* `addHops_eq`: The loop over the hops of a pattern that fits.
* `compile_exact_iff`: The automaton is that of the pattern exactly if the chain fits.
-/

namespace UniDb.Query

open List

/-- `as u16`. -/
def stateId (n : Nat) : Nat := n % 2 ^ 16

/-- The sum or product of two `usize`, where overflow is not checked. -/
def usize (n : Nat) : Nat := n % 2 ^ 64

inductive VertexConstraint
  | label (name : String)
  deriving DecidableEq

structure QppStep where
  edgeTypeIds : List Nat
  direction : Adjacency.Direction
  targetConstraint : Option VertexConstraint

structure NfaTransition where
  source : Nat
  target : Nat
  edgeTypeIds : List Nat
  direction : Adjacency.Direction
  sourceConstraint : Option VertexConstraint

structure PathNfa where
  transitions : List NfaTransition
  acceptingStates : List Nat
  startState : Nat
  numStates : Nat
  transitionsByState : List (Nat × Nat)
  stateConstraints : List (Option VertexConstraint)

namespace PathNfa

/-- The automaton of an empty range. -/
def trivial : PathNfa :=
  { transitions := [], acceptingStates := [], startState := 0, numStates := 1,
    transitionsByState := [(0, 0)], stateConstraints := [none] }

def transitionsFrom (nfa : PathNfa) (state : Nat) : List NfaTransition :=
  match nfa.transitionsByState[state]? with
  | some (first, last) => (nfa.transitions.take last).drop first
  | none => []

def stateConstraint (nfa : PathNfa) (state : Nat) : Option VertexConstraint :=
  (nfa.stateConstraints[state]?).getD none

/-- Where the transitions of each state are. -/
def indexOf (numStates hops : Nat) : List (Nat × Nat) :=
  (List.range numStates).map fun i => if i < hops then (i, i + 1) else (hops, hops)

def fromVlp (edgeTypeIds : List Nat) (direction : Adjacency.Direction) (minHops maxHops : Nat) :
    PathNfa :=
  if minHops > maxHops then trivial else
  let numStates := stateId (usize (maxHops + 1))
  { transitions := (List.range maxHops).map fun i =>
      { source := stateId i, target := stateId (i + 1), edgeTypeIds, direction,
        sourceConstraint := none }
    acceptingStates := (List.range' minHops (maxHops + 1 - minHops)).map stateId
    startState := 0
    numStates
    transitionsByState := indexOf numStates maxHops
    stateConstraints := .replicate numStates none }

/-- One round of the loop over the hops, which fails where the source indexes out of bounds. -/
def addHop (steps : List QppStep)
    (s : List NfaTransition × List (Option VertexConstraint)) (hop : Nat) :
    Option (List NfaTransition × List (Option VertexConstraint)) := do
  let step ← steps[hop % steps.length]?
  let target := stateId (hop + 1)
  if target < s.2.length then
    some (s.1 ++ [⟨stateId hop, target, step.edgeTypeIds, step.direction, none⟩],
      match step.targetConstraint with
      | some constraint => s.2.set target (some constraint)
      | none => s.2)
  else none

def addHops (steps : List QppStep) (numStates hops : Nat) :
    Option (List NfaTransition × List (Option VertexConstraint)) :=
  (List.range hops).foldlM (addHop steps) ([], .replicate numStates none)

def fromQpp (steps : List QppStep) (minIterations maxIterations : Nat) : Option PathNfa :=
  if steps = [] then none else
  if minIterations > maxIterations then some trivial else do
  let totalHops := usize (steps.length * maxIterations)
  let numStates := stateId (usize (totalHops + 1))
  let hops ← addHops steps numStates totalHops
  some
    { transitions := hops.1
      acceptingStates :=
        (List.range' minIterations (maxIterations + 1 - minIterations)).map fun iter =>
          stateId (usize (iter * steps.length))
      startState := 0
      numStates
      transitionsByState := indexOf numStates totalHops
      stateConstraints := hops.2 }

def withIterationSourceConstraint (nfa : PathNfa) (hopsPerIter : Nat)
    (constraint : VertexConstraint) : PathNfa :=
  { nfa with
    transitions := nfa.transitions.map fun t =>
      if hopsPerIter > 0 ∧ t.source % hopsPerIter = 0 then
        { t with sourceConstraint := some constraint }
      else t }

/-! ## What is accepted -/

/-- One hop of a path. -/
structure Hop (V : Type) where
  source : V
  target : V
  edgeType : Nat
  direction : Adjacency.Direction

variable {V : Type} (holds : VertexConstraint → V → Prop)

def Meets (constraint : Option VertexConstraint) (v : V) : Prop := ∀ c ∈ constraint, holds c v

def Takes (nfa : PathNfa) (t : NfaTransition) (hop : Hop V) : Prop :=
  hop.edgeType ∈ t.edgeTypeIds ∧ hop.direction ∈ t.direction.expand ∧
    Meets holds t.sourceConstraint hop.source ∧
    Meets holds (nfa.stateConstraint t.target) hop.target

def AcceptsFrom (nfa : PathNfa) : Nat → List (Hop V) → Prop
  | state, [] => state ∈ nfa.acceptingStates
  | state, hop :: hops =>
    ∃ t ∈ nfa.transitionsFrom state, nfa.Takes holds t hop ∧ nfa.AcceptsFrom t.target hops

/-- A hop that a step describes, from a vertex that meets `source`. -/
def Fits (step : QppStep) (source : Option VertexConstraint) (hop : Hop V) : Prop :=
  hop.edgeType ∈ step.edgeTypeIds ∧ hop.direction ∈ step.direction.expand ∧
    Meets holds source hop.source ∧ Meets holds step.targetConstraint hop.target

/-- Between `lo` and `hi` iterations of the steps, each from a vertex that meets `source`. -/
def Quantified (steps : List QppStep) (source : Option VertexConstraint) (lo hi : Nat)
    (hops : List (Hop V)) : Prop :=
  ∃ k, lo ≤ k ∧ k ≤ hi ∧ hops.length = k * steps.length ∧ ∀ i hop, hops[i]? = some hop →
    ∃ step, steps[i % steps.length]? = some step ∧
      Fits holds step (if i % steps.length = 0 then source else none) hop

/-- The states are numbered by the hops to them, and what is accepted is the pattern. -/
structure Exact (nfa : PathNfa) (steps : List QppStep) (source : Option VertexConstraint)
    (lo hi : Nat) : Prop where
  numStates : nfa.numStates = (if lo ≤ hi then steps.length * hi else 0) + 1
  numbers : nfa.transitions.map (fun t => (t.source, t.target)) =
    (List.range (if lo ≤ hi then steps.length * hi else 0)).map fun i => (i, i + 1)
  accepts : ∀ hops, nfa.AcceptsFrom holds nfa.startState hops ↔
    Quantified holds steps source lo hi hops

/-- A chain of `n` transitions, each from the state of its own number to the next one. -/
structure Chain (nfa : PathNfa) (n : Nat) (t : Nat → NfaTransition) : Prop where
  transitions : nfa.transitions = (List.range n).map t
  index : nfa.transitionsByState = indexOf (n + 1) n
  ends : ∀ i < n, (t i).source = i ∧ (t i).target = i + 1

variable {holds} {nfa : PathNfa} {n : Nat} {t : Nat → NfaTransition} {steps : List QppStep}
  {source : Option VertexConstraint} {lo hi : Nat}

theorem Chain.transitionsFrom_eq (h : Chain nfa n t) {i : Nat} (hi : i ≤ n) :
    nfa.transitionsFrom i = if i < n then [t i] else [] := by
  have hentry : nfa.transitionsByState[i]? = some (if i < n then (i, i + 1) else (n, n)) := by
    rw [h.index, indexOf, getElem?_map, getElem?_range (Nat.lt_succ_of_le hi)]
    rfl
  rw [transitionsFrom, hentry, h.transitions]
  by_cases hlt : i < n
  · simp only [if_pos hlt, ← map_take, ← map_drop, take_range,
      Nat.min_eq_left (Nat.succ_le_of_lt hlt), range_succ]
    rw [drop_left' length_range]
    rfl
  · simp only [if_neg hlt]
    exact drop_eq_nil_of_le (by simp)

theorem Chain.acceptsFrom_iff (h : Chain nfa n t) {i : Nat} (hi : i ≤ n) (hops : List (Hop V)) :
    nfa.AcceptsFrom holds i hops ↔ i + hops.length ≤ n ∧ i + hops.length ∈ nfa.acceptingStates ∧
      ∀ j hop, hops[j]? = some hop → nfa.Takes holds (t (i + j)) hop := by
  induction hops generalizing i with
  | nil => simp [AcceptsFrom, hi]
  | cons hop hops ih =>
    rw [AcceptsFrom, h.transitionsFrom_eq hi, length_cons, Nat.add_comm _ 1, ← Nat.add_assoc]
    by_cases hlt : i < n
    · rw [if_pos hlt]
      simp only [mem_singleton, exists_eq_left, (h.ends i hlt).2, ih hlt]
      -- The first hop takes the transition from `i`, the others come after it.
      constructor
      · rintro ⟨htake, hlen, hmem, hrest⟩
        refine ⟨hlen, hmem, fun j hop' hj => ?_⟩
        cases j with
        | zero => exact Option.some.inj hj ▸ htake
        | succ j => exact (Nat.add_right_comm i 1 j ▸ hrest j hop' hj :)
      · rintro ⟨hlen, hmem, hall⟩
        refine ⟨hall 0 hop rfl, hlen, hmem, fun j hop' hj => ?_⟩
        exact (Nat.add_right_comm i j 1 ▸ hall (j + 1) hop' hj :)
    · rw [if_neg hlt]
      exact iff_of_false (by simp) (by omega)

def stepAt (steps : List QppStep) (hop : Nat) : QppStep :=
  (steps[hop % steps.length]?).getD ⟨[], .both, none⟩

theorem getElem?_stepAt (h : steps ≠ []) (hop : Nat) :
    steps[hop % steps.length]? = some (stepAt steps hop) := by
  have hlt := Nat.mod_lt hop (length_pos_iff.mpr h)
  rw [stepAt, getElem?_eq_getElem hlt, Option.getD_some]

/-- An automaton of the pattern, if its chain and accepting states are as they should be. -/
theorem Chain.exact (h : Chain nfa (steps.length * hi) t) (hsteps : steps ≠ []) (hle : lo ≤ hi)
    (hnum : nfa.numStates = steps.length * hi + 1) (hstart : nfa.startState = 0)
    (hacc : ∀ x, x ∈ nfa.acceptingStates ↔ ∃ k, lo ≤ k ∧ k ≤ hi ∧ x = k * steps.length)
    (htakes : ∀ i < steps.length * hi, ∀ hop : Hop V, nfa.Takes holds (t i) hop ↔
      Fits holds (stepAt steps i) (if i % steps.length = 0 then source else none) hop) :
    nfa.Exact holds steps source lo hi := by
  refine ⟨by rw [if_pos hle, hnum], ?_, fun hops => ?_⟩
  · rw [if_pos hle, h.transitions, map_map]
    exact map_congr_left fun i hi => Prod.ext_iff.mpr (h.ends i (mem_range.mp hi))
  · rw [hstart, h.acceptsFrom_iff (Nat.zero_le _), Quantified, hacc]
    simp only [Nat.zero_add, getElem?_stepAt hsteps, Option.some.injEq, exists_eq_left']
    have hlt : hops.length ≤ steps.length * hi → ∀ j hop, hops[j]? = some hop →
        j < steps.length * hi := fun hlen j hop hj =>
      (List.getElem?_eq_some_iff.mp hj).1.trans_le hlen
    constructor
    · rintro ⟨hlen, ⟨k, hlo, hhi, hk⟩, hall⟩
      exact ⟨k, hlo, hhi, hk, fun j hop hj =>
        (htakes j (hlt hlen j hop hj) hop).mp (hall j hop hj)⟩
    · rintro ⟨k, hlo, hhi, hk, hall⟩
      have hlen : hops.length ≤ steps.length * hi := by
        rw [hk, Nat.mul_comm]
        exact Nat.mul_le_mul_left _ hhi
      exact ⟨hlen, ⟨k, hlo, hhi, hk⟩, fun j hop hj =>
        (htakes j (hlt hlen j hop hj) hop).mpr (hall j hop hj)⟩

theorem trivial_exact (h : hi < lo) : trivial.Exact holds steps source lo hi := by
  refine ⟨by rw [if_neg (not_le.mpr h)]; rfl, by rw [if_neg (not_le.mpr h)]; rfl, fun hops => ?_⟩
  refine iff_of_false ?_ fun ⟨k, hlo, hhi, _⟩ => absurd (hlo.trans hhi) (not_le.mpr h)
  cases hops with
  | nil => exact not_mem_nil
  | cons => exact fun ⟨t, ht, _⟩ => not_mem_nil ht

theorem stateId_of_lt {k : Nat} (h : k < 2 ^ 16) : stateId k = k := Nat.mod_eq_of_lt h

theorem stateId_usize (k : Nat) : stateId (usize k) = stateId k :=
  Nat.mod_mod_of_dvd k (Nat.pow_dvd_pow 2 (by decide))

theorem mem_accepting {m x : Nat} (hle : lo ≤ hi) (hfit : m * hi + 1 < 2 ^ 16) :
    x ∈ (List.range' lo (hi + 1 - lo)).map (fun k => stateId (k * m)) ↔
      ∃ k, lo ≤ k ∧ k ≤ hi ∧ x = k * m := by
  have hid : ∀ k ≤ hi, stateId (k * m) = k * m := by
    intro k hk
    have hmul := Nat.mul_le_mul_left m hk
    rw [Nat.mul_comm, stateId_of_lt (by omega)]
  simp only [mem_map, mem_range'_1]
  constructor
  · rintro ⟨k, ⟨hlo, hlt⟩, rfl⟩
    exact ⟨k, hlo, by omega, hid k (by omega)⟩
  · rintro ⟨k, hlo, hhi, rfl⟩
    exact ⟨k, ⟨hlo, by omega⟩, hid k hhi⟩

/-! ## The constructors -/

theorem fromVlp_exact {edgeTypeIds : List Nat} {direction : Adjacency.Direction}
    (hle : lo ≤ hi) (hfit : hi + 1 < 2 ^ 16) :
    (fromVlp edgeTypeIds direction lo hi).Exact holds [⟨edgeTypeIds, direction, none⟩] none
      lo hi := by
  have hnum : stateId (usize (hi + 1)) = hi + 1 := by rw [stateId_usize, stateId_of_lt hfit]
  have hlen : [QppStep.mk edgeTypeIds direction none].length * hi = hi := Nat.one_mul hi
  rw [fromVlp, if_neg (not_lt.mpr hle), hnum]
  refine Chain.exact (t := fun i => ⟨i, i + 1, edgeTypeIds, direction, none⟩) ?_
    (cons_ne_nil _ _) hle (by rw [hlen]) rfl (fun x => ?_) fun i _ hop => ?_
  · rw [hlen]
    refine ⟨map_congr_left fun i hmem => ?_, rfl, fun i _ => ⟨rfl, rfl⟩⟩
    have hlt := mem_range.mp hmem
    rw [stateId_of_lt (by omega), stateId_of_lt (by omega)]
  · have hacc := mem_accepting (m := 1) (x := x) hle (by omega)
    simpa only [length_singleton, Nat.mul_one] using hacc
  · simp [Takes, Fits, stateConstraint, stepAt, Nat.mod_one]

/-- The loop over the hops of a chain that fits. -/
theorem addHops_eq (hsteps : steps ≠ []) {N : Nat} (hN : N < 2 ^ 16)
    (hn : n < N) : ∃ constraints, addHops steps N n = some ((List.range n).map fun i =>
        ⟨i, i + 1, (stepAt steps i).edgeTypeIds, (stepAt steps i).direction, none⟩, constraints) ∧
      constraints.length = N ∧ ∀ i, (constraints[i]?).getD none =
        if 0 < i ∧ i ≤ n then (stepAt steps (i - 1)).targetConstraint else none := by
  induction n with
  | zero =>
    refine ⟨_, rfl, length_replicate, fun i => ?_⟩
    rw [if_neg (by omega), getElem?_getD_replicate_default_eq]
  | succ n ih =>
    obtain ⟨constraints, heq, hlen, hget⟩ := ih (Nat.lt_of_succ_lt hn)
    have htarget : stateId (n + 1) = n + 1 := stateId_of_lt (hn.trans hN)
    rw [addHops] at heq ⊢
    rw [range_succ, foldlM_append, heq]
    simp only [foldlM_cons, foldlM_nil, Option.bind_eq_bind, Option.bind_some, addHop,
      getElem?_stepAt hsteps, htarget, hlen, if_pos hn, stateId_of_lt ((Nat.lt_succ_self n).trans
        (hn.trans hN))]
    refine ⟨_, by rw [map_append]; rfl, ?_, fun i => ?_⟩
    · split
      · rw [length_set, hlen]
      · exact hlen
    -- Only the entry of the state that the hop leads to can change.
    by_cases hi : i = n + 1
    · rw [if_pos ⟨by omega, by omega⟩, hi, Nat.add_sub_cancel]
      cases hc : (stepAt steps n).targetConstraint with
      | none => rw [hget, if_neg (by omega)]
      | some => rw [getElem?_set_self (hlen ▸ hn), Option.getD_some]
    · have hiff : (0 < i ∧ i ≤ n + 1) ↔ 0 < i ∧ i ≤ n := by omega
      simp only [hiff, ← hget i]
      cases (stepAt steps n).targetConstraint with
      | none => rfl
      | some => rw [getElem?_set_ne (Ne.symm hi)]

/-- The automaton of a pattern, with the constraint on the start of each iteration. -/
def compile (steps : List QppStep) (source : Option VertexConstraint) (lo hi : Nat) :
    Option PathNfa :=
  (fromQpp steps lo hi).map fun nfa =>
    source.elim nfa (nfa.withIterationSourceConstraint steps.length)

theorem compile_exact (hsteps : steps ≠ []) (hle : lo ≤ hi)
    (hfit : steps.length * hi + 1 < 2 ^ 16) :
    ∃ nfa, compile steps source lo hi = some nfa ∧ nfa.Exact holds steps source lo hi := by
  obtain ⟨constraints, hhops, -, hget⟩ :=
    addHops_eq hsteps hfit (Nat.lt_succ_self (steps.length * hi))
  have htotal : usize (steps.length * hi) = steps.length * hi := Nat.mod_eq_of_lt (by omega)
  rw [compile, fromQpp, if_neg hsteps, if_neg (not_lt.mpr hle), htotal]
  simp only [stateId_usize, stateId_of_lt hfit, hhops, Option.bind_eq_bind, Option.bind_some,
    Option.map_some]
  refine ⟨_, rfl, Chain.exact (t := fun i => ⟨i, i + 1, (stepAt steps i).edgeTypeIds,
    (stepAt steps i).direction, if i % steps.length = 0 then source else none⟩)
    ⟨?_, by cases source <;> rfl, fun i _ => ⟨rfl, rfl⟩⟩ hsteps hle (by cases source <;> rfl)
    (by cases source <;> rfl) (fun x => ?_) fun i hlt hop => ?_⟩
  · cases source with
    | none => simp
    | some =>
      have hpos := length_pos_iff.mpr hsteps
      simp only [Option.elim_some, withIterationSourceConstraint, map_map]
      refine map_congr_left fun i _ => ?_
      simp only [Function.comp_apply, hpos, true_and]
      split <;> rfl
  · cases source <;> exact mem_accepting hle hfit
  · have hconstraint : ((constraints[i + 1]?).getD none) = (stepAt steps i).targetConstraint := by
      rw [hget, if_pos ⟨Nat.succ_pos i, hlt⟩, Nat.add_sub_cancel]
    cases source <;> simp [Takes, Fits, stateConstraint, withIterationSourceConstraint, hconstraint]

/-- Both constructors build the automaton of the pattern, with states that have their own numbers,
    exactly if there is a step and the chain of all hops has less than 2 ^ 16 states. -/
theorem compile_exact_iff (steps : List QppStep) (source : Option VertexConstraint)
    (edgeTypeIds : List Nat) (direction : Adjacency.Direction) (lo hi : Nat) :
    ((∃ nfa, compile steps source lo hi = some nfa ∧ nfa.Exact holds steps source lo hi) ↔
      steps ≠ [] ∧ (hi < lo ∨ steps.length * hi + 1 < 2 ^ 16)) ∧
    ((fromVlp edgeTypeIds direction lo hi).Exact holds [⟨edgeTypeIds, direction, none⟩] none
      lo hi ↔ hi < lo ∨ hi + 1 < 2 ^ 16) := by
  have hid : ∀ k, stateId k < 2 ^ 16 := fun k => Nat.mod_lt k (by decide)
  refine ⟨⟨?_, ?_⟩, ⟨fun h => ?_, ?_⟩⟩
  · rintro ⟨nfa, hnfa, hexact⟩
    obtain ⟨nfa₀, hqpp, rfl⟩ := Option.map_eq_some_iff.mp hnfa
    have hnum := hexact.numStates
    have helim : (source.elim nfa₀ (nfa₀.withIterationSourceConstraint steps.length)).numStates =
        nfa₀.numStates := by cases source <;> rfl
    rw [helim] at hnum
    unfold fromQpp at hqpp
    split at hqpp
    · cases hqpp
    · next hsteps =>
      split at hqpp
      · next hlt => exact ⟨hsteps, .inl hlt⟩
      · next hle =>
        obtain ⟨hops, -, heq⟩ := Option.bind_eq_some_iff.mp hqpp
        rw [if_pos (not_lt.mp hle), ← Option.some.inj heq] at hnum
        exact ⟨hsteps, .inr (hnum ▸ hid _)⟩
  · rintro ⟨hsteps, hfit⟩
    rcases lt_or_ge hi lo with hlt | hle
    · rw [compile, fromQpp, if_neg hsteps, if_pos hlt]
      cases source <;> exact ⟨_, rfl, trivial_exact hlt⟩
    · exact compile_exact hsteps hle (hfit.resolve_left (not_lt.mpr hle))
  · rcases lt_or_ge hi lo with hlt | hle
    · exact .inl hlt
    · have hnum := h.numStates
      rw [if_pos hle, fromVlp, if_neg (not_lt.mpr hle), length_singleton, Nat.one_mul] at hnum
      exact .inr (hnum ▸ hid _)
  · intro h
    rcases lt_or_ge hi lo with hlt | hle
    · rw [fromVlp, if_pos hlt]
      exact trivial_exact hlt
    · exact fromVlp_exact hle (h.resolve_left (not_lt.mpr hle))

/-- With one hop too many the chain has no states, and a path of one hop is not accepted. -/
theorem fromVlp_truncates :
    let hop : Hop Unit := ⟨(), (), 1, .outgoing⟩
    let nfa := fromVlp [1] .outgoing 1 65535
    nfa.numStates = 0 ∧ ¬ nfa.AcceptsFrom (fun _ _ => True) nfa.startState [hop] ∧
      Quantified (fun _ _ => True) [⟨[1], .outgoing, none⟩] none 1 65535 [hop] := by
  refine ⟨rfl, fun ⟨t, ht, _⟩ => not_mem_nil ht, 1, le_rfl, by decide, rfl, ?_⟩
  intro i hop hi
  obtain ⟨hlt, rfl⟩ := List.getElem?_eq_some_iff.mp hi
  obtain rfl : i = 0 := Nat.lt_one_iff.mp hlt
  exact ⟨_, rfl, by simp [Fits, Meets, Adjacency.Direction.expand]⟩

end PathNfa

end UniDb.Query
