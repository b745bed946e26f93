import Mathlib.Algebra.Group.Nat.Defs
import Mathlib.Data.List.Perm.Basic
import UniDb.Lib.AssocMap
import UniDb.Lib.Run

/-!
# Pinned Versions

Readers pin the version they read at, and a compaction merges no history above
the oldest pin.

A pin counts its version on the vertex tier, and, unless its reader's edges are
live, a version on the edge tier as well. A merge starts by taking the oldest
pin of its tier as its bound, and when it ends it raises the horizon, below
which history is gone, by at most that bound. A pin that comes later than a
merge may be below its bound; `pinChecked` reports whether that is so. All of
these are atomic under one lock, so an interleaving of readers and merges is a
run of them in any order.

The counts are what keeps a bound below a pin: a version stays among the keys
until the last guard that pins it is dropped. `Counts` says that a map of counts
and the list of live pins agree, and a live pin is then never below the smallest
key.

## Main definitions

* `PinState`: What the lock protects.
* `pin`, `pinTransaction`, `pinChecked`, `dropGuard`: The life of a pin.
* `beginMerge`, `endMerge`: The life of a merge.
* `Counts`: A map counts the elements of a list.

## Theorems

* `Counts.minKey_le`: The smallest key is at most every counted version.
* `step_readable`: Every step keeps what a readable pin was told.
* `readable_not_overtaken`: No merge of any run overtakes a readable pin.
* `minPinned_iff`: What the oldest pin is.
-/

namespace UniDb

open AssocMap List

namespace PinnedVersions

/-- The bound of a merge that starts when nothing is pinned. -/
def u64Max : Nat := 2 ^ 64 - 1

structure PinState where
  counts : AssocMap Nat Nat
  /-- The part of `counts` whose edge tier is versioned as well. -/
  edgeCounts : AssocMap Nat Nat
  horizon : Nat
  /-- The bounds of the merges in flight, by token. -/
  inFlight : AssocMap Nat Nat
  nextToken : Nat

structure PinGuard where
  version : Nat
  edgeVersion : Option Nat
  deriving DecidableEq, Repr

/-- Count one more pin of a version. -/
def retain (counts : AssocMap Nat Nat) (version : Nat) : AssocMap Nat Nat :=
  counts.insert version ((counts.lookup version).getD 0 + 1)

/-- Count one pin of a version less. -/
def release (counts : AssocMap Nat Nat) (version : Nat) : AssocMap Nat Nat :=
  match counts.lookup version with
  | none => counts
  | some n => if n - 1 = 0 then counts.erase version else counts.insert version (n - 1)

/-- The smallest key, which is the first one of the source's ordered map. -/
def minKey (counts : AssocMap Nat Nat) : Option Nat := counts.keys.min?

namespace PinState

/-- Nothing is pinned and nothing was merged. -/
def default : PinState where
  counts := ∅
  edgeCounts := ∅
  horizon := 0
  inFlight := ∅
  nextToken := 0

def pin (s : PinState) (version : Nat) : PinState × PinGuard :=
  ({ s with counts := retain s.counts version }, ⟨version, none⟩)

def pinTransaction (s : PinState) (version edgeVersion : Nat) : PinState × PinGuard :=
  ({ s with
      counts := retain s.counts version
      edgeCounts := retain s.edgeCounts edgeVersion },
    ⟨version, some edgeVersion⟩)

/-- Pin both tiers, and say whether history at the version is still whole. -/
def pinChecked (s : PinState) (version : Nat) : PinState × PinGuard × Bool :=
  let readable := decide (s.horizon ≤ version) &&
    s.inFlight.toList.all fun e => decide (e.2 ≤ version)
  ({ s with
      counts := retain s.counts version
      edgeCounts := retain s.edgeCounts version },
    ⟨version, some version⟩, readable)

def minPinned (s : PinState) : Option Nat := minKey s.counts

/-- Start a merge: the oldest pin of its tier, and the token it registers as. -/
def beginMerge (s : PinState) (edgeTier : Bool) : PinState × Option Nat × Nat :=
  let pins := if edgeTier then s.edgeCounts else s.counts
  let floor := minKey pins
  ({ s with
      nextToken := s.nextToken + 1
      inFlight := s.inFlight.insert s.nextToken (floor.getD u64Max) },
    floor, s.nextToken)

def endMerge (s : PinState) (token mergedThrough : Nat) : PinState :=
  { s with
    inFlight := s.inFlight.erase token
    horizon := max s.horizon mergedThrough }

def dropGuard (s : PinState) (g : PinGuard) : PinState :=
  { s with
    counts := release s.counts g.version
    edgeCounts := match g.edgeVersion with
      | none => s.edgeCounts
      | some edgeVersion => release s.edgeCounts edgeVersion }

end PinState

/-- The registry and the live guards. Each guard comes with whether its pin was
    reported readable, which only `pinChecked` does. -/
structure System where
  state : PinState
  live : List (PinGuard × Bool)

inductive Action
  | pin (version : Nat)
  | pinTransaction (version edgeVersion : Nat)
  | pinChecked (version : Nat)
  | drop (guard : PinGuard × Bool)
  | beginMerge (edgeTier : Bool)
  | endMerge (token mergedThrough : Nat)

def init : System where
  state := PinState.default
  live := []

/-- One call. A guard is dropped once, a merge ends once, and it has merged at
    most up to its bound. -/
def step (s : System) : Action → Option System
  | .pin version =>
    let (state, g) := s.state.pin version
    some { state := state, live := (g, false) :: s.live }
  | .pinTransaction version edgeVersion =>
    let (state, g) := s.state.pinTransaction version edgeVersion
    some { state := state, live := (g, false) :: s.live }
  | .pinChecked version =>
    let (state, g, readable) := s.state.pinChecked version
    some { state := state, live := (g, readable) :: s.live }
  | .drop p =>
    if p ∈ s.live then some { state := s.state.dropGuard p.1, live := s.live.erase p } else none
  | .beginMerge edgeTier => some { s with state := (s.state.beginMerge edgeTier).1 }
  | .endMerge token mergedThrough =>
    match s.state.inFlight.lookup token with
    | none => none
    | some bound =>
      if mergedThrough ≤ bound then some { s with state := s.state.endMerge token mergedThrough }
      else none

/-- The map holds how often each version is in the list. -/
def Counts (counts : AssocMap Nat Nat) (pins : List Nat) : Prop :=
  ∀ v, counts.lookup v = if pins.count v = 0 then none else some (pins.count v)

namespace Counts

variable {counts : AssocMap Nat Nat} {pins : List Nat} (h : Counts counts pins)

include h

theorem retain (version : Nat) :
    Counts (PinnedVersions.retain counts version) (version :: pins) := by
  intro v
  rw [PinnedVersions.retain, lookup_insert_eq]
  by_cases heq : v = version
  · subst heq
    rw [if_pos rfl, count_cons_self, if_neg (Nat.succ_ne_zero _), h v]
    by_cases hzero : pins.count v = 0
    · rw [if_pos hzero, hzero, Option.getD_none]
    · rw [if_neg hzero, Option.getD_some]
  · rw [if_neg heq, count_cons_of_ne (Ne.symm heq)]
    exact h v

theorem release {version : Nat} (hmem : version ∈ pins) :
    Counts (PinnedVersions.release counts version) (pins.erase version) := by
  have hpos := count_pos_iff.mpr hmem
  have hlook : counts.lookup version = some (pins.count version) := by
    rw [h version, if_neg (by omega)]
  intro v
  rw [PinnedVersions.release, hlook]
  by_cases heq : v = version
  · subst heq
    rw [count_erase_self]
    by_cases hlast : pins.count v - 1 = 0
    · simp [if_pos hlast]
    · simp [if_neg hlast]
  · rw [count_erase_of_ne heq, ← h v]
    by_cases hlast : pins.count version - 1 = 0
    · simp [if_pos hlast, if_neg heq]
    · simp [if_neg hlast, if_neg heq]

theorem perm {pins' : List Nat} (hp : pins.Perm pins') : Counts counts pins' := by
  intro v
  rw [h v, hp.count_eq v]

theorem mem_keys {v : Nat} : v ∈ counts.keys ↔ v ∈ pins := by
  rw [← AList.mem_keys, ← AList.lookup_isSome, h v, ← count_pos_iff, Nat.pos_iff_ne_zero]
  split <;> simp_all

/-- A pinned version is at least the floor of a merge that starts now. -/
theorem minKey_le {version : Nat} (hmem : version ∈ pins) :
    (minKey counts).getD u64Max ≤ version := by
  have hkey := h.mem_keys.mpr hmem
  cases hmin : counts.keys.min? with
  | none =>
    rw [min?_eq_none_iff] at hmin
    rw [hmin] at hkey
    cases hkey
  | some =>
    rw [minKey, hmin, Option.getD_some]
    exact (min?_eq_some_iff.mp hmin).2 version hkey

end Counts

/-- The counts agree with the live guards, and what a readable pin was told is still true. -/
structure Readable (s : System) : Prop where
  counts : Counts s.state.counts (s.live.map fun p => p.1.version)
  edgeCounts : Counts s.state.edgeCounts (s.live.filterMap fun p => p.1.edgeVersion)
  /-- Only a pin of both tiers is reported on. -/
  tiers : ∀ p ∈ s.live, p.2 = true → p.1.edgeVersion = some p.1.version
  horizon_le : ∀ p ∈ s.live, p.2 = true → s.state.horizon ≤ p.1.version
  inFlight_le : ∀ p ∈ s.live, p.2 = true → ∀ token bound,
    s.state.inFlight.lookup token = some bound → bound ≤ p.1.version

theorem init_readable : Readable init := by
  constructor
  case counts => intro v; rfl
  case edgeCounts => intro v; rfl
  case tiers => exact nofun
  case horizon_le => exact nofun
  case inFlight_le => exact nofun

namespace Readable

variable {s : System}

/-- A new pin that is not reported on. -/
theorem pin_unchecked (h : Readable s) {state : PinState} {g : PinGuard}
    (hcounts : Counts state.counts (g.version :: s.live.map fun p => p.1.version))
    (hedge : Counts state.edgeCounts
      (((g, false) :: s.live).filterMap fun p => p.1.edgeVersion))
    (hhorizon : state.horizon = s.state.horizon) (hinFlight : state.inFlight = s.state.inFlight) :
    Readable { state := state, live := (g, false) :: s.live } := by
  -- the new guard was not reported readable, so there is nothing to show for it
  have hold : ∀ p ∈ (g, false) :: s.live, p.2 = true → p ∈ s.live := by
    intro p hp hread
    rcases mem_cons.mp hp with rfl | hmem
    · exact absurd hread Bool.false_ne_true
    · exact hmem
  constructor
  case counts => exact hcounts
  case edgeCounts => exact hedge
  case tiers => exact fun p hp hread => h.tiers p (hold p hp hread) hread
  case horizon_le =>
    intro p hp hread
    rw [hhorizon]
    exact h.horizon_le p (hold p hp hread) hread
  case inFlight_le =>
    intro p hp hread
    rw [hinFlight]
    exact h.inFlight_le p (hold p hp hread) hread

theorem pinChecked (h : Readable s) (version : Nat) :
    Readable { state := (s.state.pinChecked version).1,
               live := (s.state.pinChecked version).2 :: s.live } := by
  constructor
  case counts => exact h.counts.retain version
  case edgeCounts => exact h.edgeCounts.retain version
  case tiers =>
    exact forall_mem_cons.mpr ⟨fun _ => rfl, h.tiers⟩
  case horizon_le =>
    intro p hp hread
    rcases mem_cons.mp hp with rfl | hmem
    · simp only [PinState.pinChecked, Bool.and_eq_true, decide_eq_true_eq] at hread
      exact hread.1
    · exact h.horizon_le p hmem hread
  case inFlight_le =>
    intro p hp hread token bound hlook
    rcases mem_cons.mp hp with rfl | hmem
    · simp only [PinState.pinChecked, Bool.and_eq_true, decide_eq_true_eq, all_eq_true]
        at hread
      exact hread.2 (token, bound) (mem_toList.mpr hlook)
    · exact h.inFlight_le p hmem hread token bound hlook

theorem drop (h : Readable s) {p : PinGuard × Bool} (hp : p ∈ s.live) :
    Readable { state := s.state.dropGuard p.1, live := s.live.erase p } := by
  have hperm := perm_cons_erase hp
  constructor
  case counts =>
    have hmap := hperm.map fun q => q.1.version
    rw [map_cons] at hmap
    have hrel := (h.counts.perm hmap).release mem_cons_self
    rwa [erase_cons_head] at hrel
  case edgeCounts =>
    have hmap := hperm.filterMap fun q => q.1.edgeVersion
    have hedge := h.edgeCounts.perm hmap
    simp only [PinState.dropGuard]
    rw [filterMap_cons] at hedge
    cases hversion : p.1.edgeVersion with rw [hversion] at hedge
    | none => exact hedge
    | some =>
      have hrel := hedge.release mem_cons_self
      rwa [erase_cons_head] at hrel
  case tiers => exact fun q hq => h.tiers q (mem_of_mem_erase hq)
  case horizon_le => exact fun q hq => h.horizon_le q (mem_of_mem_erase hq)
  case inFlight_le => exact fun q hq => h.inFlight_le q (mem_of_mem_erase hq)

theorem beginMerge (h : Readable s) (edgeTier : Bool) :
    Readable { s with state := (s.state.beginMerge edgeTier).1 } := by
  refine { h with inFlight_le := ?_ }
  intro p hp hread token bound hlook
  rcases lookup_insert_cases hlook with ⟨-, rfl⟩ | ⟨-, hlook⟩
  · -- the new bound is the oldest pin of the tier, and `p` is a pin of either tier
    cases edgeTier with
    | false => exact h.counts.minKey_le (mem_map_of_mem hp)
    | true =>
      exact h.edgeCounts.minKey_le (mem_filterMap.mpr ⟨p, hp, h.tiers p hp hread⟩)
  · exact h.inFlight_le p hp hread token bound hlook

theorem endMerge (h : Readable s) {token bound mergedThrough : Nat}
    (hlook : s.state.inFlight.lookup token = some bound) (hle : mergedThrough ≤ bound) :
    Readable { s with state := s.state.endMerge token mergedThrough } := by
  refine { h with horizon_le := ?_, inFlight_le := ?_ }
  · intro p hp hread
    have hbound := h.inFlight_le p hp hread token bound hlook
    have hhorizon := h.horizon_le p hp hread
    simp only [PinState.endMerge]
    omega
  · intro p hp hread token' bound' hlook'
    exact h.inFlight_le p hp hread token' bound' (lookup_of_erase hlook').2

end Readable

theorem step_readable (s : System) (a : Action) (s' : System) (h : Readable s)
    (hs : step s a = some s') : Readable s' := by
  cases a with
  | pin version =>
    cases hs
    exact h.pin_unchecked (h.counts.retain version) h.edgeCounts rfl rfl
  | pinTransaction version edgeVersion =>
    cases hs
    exact h.pin_unchecked (h.counts.retain version) (h.edgeCounts.retain edgeVersion) rfl rfl
  | pinChecked version =>
    cases hs
    exact h.pinChecked version
  | drop =>
    rcases Option.ite_none_right_eq_some.mp hs with ⟨hp, hs⟩
    exact Option.some.inj hs ▸ h.drop hp
  | beginMerge edgeTier =>
    cases hs
    exact h.beginMerge edgeTier
  | endMerge =>
    simp only [step] at hs
    split at hs
    · cases hs
    · next bound hlook =>
      rcases Option.ite_none_right_eq_some.mp hs with ⟨hle, hs⟩
      exact Option.some.inj hs ▸ h.endMerge hlook hle

/-- In every state of every interleaving, a live pin that was reported readable
    is below no merge in flight and below no horizon. -/
theorem readable_not_overtaken (acts : List Action) (s : System)
    (hrun : run step init acts = some s) (g : PinGuard) (hlive : (g, true) ∈ s.live) :
    s.state.horizon ≤ g.version ∧
      ∀ token bound, s.state.inFlight.lookup token = some bound → bound ≤ g.version := by
  have h := run_invariant step_readable init_readable hrun
  exact ⟨h.horizon_le (g, true) hlive rfl, h.inFlight_le (g, true) hlive rfl⟩

/-- A merge up to the pin of a transaction, and one more after it, next to a
    pin at the same version that was reported readable. -/
def mergesBesidePins : List Action :=
  [.pinTransaction 7 5, .pinChecked 7, .beginMerge true, .beginMerge false, .endMerge 0 5,
    .drop (⟨7, some 5⟩, false), .beginMerge true]

theorem readable_not_overtaken_mergesBesidePins :
    ∃ s, run step init mergesBesidePins = some s ∧ (⟨7, some 7⟩, true) ∈ s.live ∧
      s.state.horizon = 5 ∧ s.state.inFlight.lookup 2 = some 7 ∧ s.state.horizon ≤ 7 :=
  ⟨_, rfl, mem_cons_self, rfl, rfl,
    (readable_not_overtaken mergesBesidePins _ rfl ⟨7, some 7⟩ mem_cons_self).1⟩

/-- In every run the oldest pin is the oldest version of a live guard. -/
theorem minPinned_iff (acts : List Action) (s : System)
    (hrun : run step init acts = some s) (v : Nat) : s.state.minPinned = some v ↔
      v ∈ s.live.map (·.1.version) ∧ ∀ p ∈ s.live, v ≤ p.1.version := by
  have h := (run_invariant step_readable init_readable hrun).counts
  rw [PinState.minPinned, minKey, min?_eq_some_iff]
  simp only [h.mem_keys, forall_mem_map]

theorem minPinned_iff_merges :
    ∃ s, run step init mergesBesidePins = some s ∧ ∀ p ∈ s.live, 7 ≤ p.1.version :=
  ⟨_, rfl, ((minPinned_iff mergesBesidePins _ rfl 7).mp rfl).2⟩

end PinnedVersions

end UniDb
