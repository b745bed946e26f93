import Mathlib.Logic.Function.Basic
import Mathlib.Tactic.Tauto
import UniDb.Lib.Run

/-!
# The L0 Manager

The buffer that takes commits, the rotated buffers that wait for their flush,
and the snapshots that transactions pin, under every interleaving of the steps
that a lock makes atomic.

Commits, freezes and rotations hold the flush lock, so one of them runs at a
time. Pinning a snapshot does not hold it, and neither does dropping one. It
takes the lock of the current slot and copies the handles of the current buffer
and of the pending ones. So a pin can land between any two steps of a commit or
of a rotation, and two of these places matter. A rotation first replaces the
current buffer and then lists the old one as pending: a pin in between finds it
in neither place. A commit first asks whether the current buffer is pinned, and
copies it aside if it is, and then merges: a pin in between hands out the very
buffer that the merge changes.

Buffers and pin tokens are numbered in the order of their allocation. A buffer
is what was merged into it, with its version counter and its WAL handle. The
reservations of bulk loads are left out, and so is what the stream of a flush
itself writes into the buffer that was rotated: the embeddings that were
deferred and the columns for multi-vectors.

## Main definitions

* `Manager`: The slots, the heap of buffers, and the live snapshots.
* `step`: The atomic steps.
* `Complete`: A snapshot shows every unflushed generation with a commit.
* `Untouched`: No buffer that a snapshot shows has changed since.

## Theorems

* `step_wellFormed`: The slots and the tokens stay apart.
* `step_walHeld`: Where the WAL handle is.
* `complete_iff`: When all snapshots of a run are complete.
* `untouched_iff`: When the buffers of all snapshots of a run stay as they were.
-/

namespace UniDb

open List Option Function

namespace L0Manager

/-- A buffer: the commits merged into it, its version counter, and whether it
    holds the WAL handle. -/
structure Buffer (C : Type) where
  commits : List C
  currentVersion : Nat
  wal : Bool

/-- What `pin_snapshot` returns. -/
structure SnapshotView where
  main : Nat
  extra : List Nat
  pin : Nat
  startedAtVersion : Nat

/-- A live snapshot, with what its layers held when it was taken, and the
    generations that held a commit and were not flushed then. -/
structure Pinned (C : Type) where
  view : SnapshotView
  captured : List (Nat × List C)
  unflushed : List Nat

/-- What the holder of the flush lock is doing. -/
inductive Phase
  | idle
  /-- A commit has asked whether the current buffer is pinned. -/
  | checked (pinned : Bool)
  /-- A commit has copied the current buffer aside. -/
  | frozen
  /-- A rotation has replaced the current buffer. -/
  | rotated (old : Nat)
  /-- A rotation has listed the old buffer as pending. -/
  | listed (old : Nat)
  deriving DecidableEq, Repr

/-- The state of the manager. Everything allocated is below `next`. -/
structure Manager (C : Type) where
  heap : Nat → Buffer C
  next : Nat
  current : Nat
  pending : List Nat
  pin : Nat
  phase : Phase
  pinned : List (Pinned C)
  /-- The generations whose flush has not completed. -/
  generations : List Nat

/-- The steps that a lock makes atomic. -/
inductive Action (C : Type)
  | pin
  | drop (index : Nat)
  | check
  | freeze
  | merge (commit : C) (writes : Nat)
  | rotate
  | list
  | handoff
  | complete (buffer : Nat)

namespace Manager

variable {C : Type}

/-- A manager with an empty buffer that holds the WAL handle. -/
def new (startVersion : Nat) : Manager C where
  heap g := ⟨[], startVersion, g = 0⟩
  next := 1
  current := 0
  pending := []
  pin := 0
  phase := .idle
  pinned := []
  generations := [0]

variable (s : Manager C)

/-- Whether a live snapshot holds the token of the current generation. -/
def isCurrentPinned : Bool :=
  s.pinned.any fun p => p.view.pin = s.pin

def pinSnapshot : SnapshotView where
  main := s.current
  extra := s.pending
  pin := s.pin
  startedAtVersion := (s.heap s.current).currentVersion

/-- Copy the current buffer aside. The copy takes the WAL handle and becomes
    the current buffer, with a new token. -/
def freezeCurrentForSnapshot : Manager C :=
  let frozen := s.heap s.current
  { s with
    heap := update (update s.heap s.current { frozen with wal := false })
      s.next frozen
    next := s.next + 1
    current := s.next
    pin := s.next
    generations := s.generations.map fun g => if g = s.current then s.next else g }

/-- Replace the current buffer by an empty one, with a new token. -/
def rotate (nextVersion : Nat) (newWal : Bool) : Manager C :=
  { s with
    heap := update s.heap s.next
      ⟨[], max nextVersion (s.heap s.current).currentVersion, newWal⟩
    next := s.next + 1
    current := s.next
    pin := s.next
    generations := s.generations ++ [s.next] }

/-- Hand the WAL handle and the version counter of a rotated buffer on. -/
def handoff (old : Nat) : Manager C :=
  let rotated := s.heap old
  let heap := update s.heap old { rotated with wal := false }
  let buffer := heap s.current
  { s with
    heap := update heap s.current
      { buffer with
        wal := rotated.wal
        currentVersion := max buffer.currentVersion rotated.currentVersion } }

/-- Merge a commit into the current buffer. -/
def merge (commit : C) (writes : Nat) : Manager C :=
  let buffer := s.heap s.current
  { s with
    heap := update s.heap s.current
      { buffer with
        commits := buffer.commits ++ [commit]
        currentVersion := buffer.currentVersion + writes } }

def completeFlush (l0 : Nat) : Manager C :=
  { s with
    pending := s.pending.filter (· ≠ l0)
    generations := s.generations.filter (· ≠ l0) }

/-- Take a snapshot and note what there was to see. -/
def takeSnapshot : Manager C :=
  let view := s.pinSnapshot
  let record : Pinned C :=
    { view := view
      captured := (view.main :: view.extra).map fun g => (g, (s.heap g).commits)
      unflushed := s.generations.filter fun g => !(s.heap g).commits.isEmpty }
  { s with pinned := s.pinned ++ [record] }

def step : Action C → Option (Manager C)
  | .pin => some s.takeSnapshot
  | .drop index =>
    if index < s.pinned.length then some { s with pinned := s.pinned.eraseIdx index } else none
  | .check => match s.phase with
    | .idle => some { s with phase := .checked s.isCurrentPinned }
    | _ => none
  | .freeze => match s.phase with
    | .checked true => some { s.freezeCurrentForSnapshot with phase := .frozen }
    | _ => none
  | .merge commit writes => match s.phase with
    | .checked false | .frozen => some { s.merge commit writes with phase := .idle }
    | _ => none
  | .rotate => match s.phase with
    -- the new buffer starts at version 0 at least, and without the WAL
    | .idle => some { s.rotate 0 false with phase := .rotated s.current }
    | _ => none
  | .list => match s.phase with
    | .rotated old => some { s with pending := s.pending ++ [old], phase := .listed old }
    | _ => none
  | .handoff => match s.phase with
    | .listed old => some { s.handoff old with phase := .idle }
    | _ => none
  | .complete l0 => if l0 ∈ s.pending then some (s.completeFlush l0) else none

end Manager

open Manager

variable {C : Type}

/-- The steps that there are, with what enables each. -/
inductive StepCase (s : Manager C) : Action C → Manager C → Prop
  | pin : StepCase s .pin s.takeSnapshot
  | drop (index : Nat) (hlt : index < s.pinned.length) :
      StepCase s (.drop index) { s with pinned := s.pinned.eraseIdx index }
  | check (hphase : s.phase = .idle) :
      StepCase s .check { s with phase := .checked s.isCurrentPinned }
  | freeze (hphase : s.phase = .checked true) :
      StepCase s .freeze { s.freezeCurrentForSnapshot with phase := .frozen }
  | merge (commit : C) (writes : Nat) (hphase : s.phase = .checked false ∨ s.phase = .frozen) :
      StepCase s (.merge commit writes) { s.merge commit writes with phase := .idle }
  | rotate (hphase : s.phase = .idle) :
      StepCase s .rotate { s.rotate 0 false with phase := .rotated s.current }
  | list (old : Nat) (hphase : s.phase = .rotated old) :
      StepCase s .list { s with pending := s.pending ++ [old], phase := .listed old }
  | handoff (old : Nat) (hphase : s.phase = .listed old) :
      StepCase s .handoff { s.handoff old with phase := .idle }
  | complete (l0 : Nat) (hl0 : l0 ∈ s.pending) : StepCase s (.complete l0) (s.completeFlush l0)

theorem stepCase_of_step {s s' : Manager C} {a : Action C} (h : s.step a = some s') :
    StepCase s a s' := by
  revert h
  fun_cases Manager.step s a <;> rintro ⟨⟩
  case case1 => exact .pin
  case case2 index hlt => exact .drop index hlt
  case case4 hphase => exact .check hphase
  case case6 hphase => exact .freeze hphase
  case case8 commit writes hphase => exact .merge commit writes (.inl hphase)
  case case9 commit writes hphase => exact .merge commit writes (.inr hphase)
  case case11 hphase => exact .rotate hphase
  case case13 old hphase => exact .list old hphase
  case case15 old hphase => exact .handoff old hphase
  case case17 l0 hl0 => exact .complete l0 hl0

/-- The slots of the manager hold different buffers, a snapshot has the current token exactly if its
    main layer is the current buffer, and the unflushed generations are the current buffer, the
    pending ones, and the one that a rotation holds in its hands. -/
structure WellFormed (s : Manager C) : Prop where
  current_lt : s.current < s.next
  pin_lt : s.pin < s.next
  pending_lt : ∀ g ∈ s.pending, g < s.next ∧ g ≠ s.current
  rotated : ∀ old, s.phase = .rotated old → old < s.next ∧ old ≠ s.current ∧ old ∉ s.pending
  listed : ∀ old, s.phase = .listed old → old < s.next ∧ old ≠ s.current
  generations : ∀ g, g ∈ s.generations ↔ g = s.current ∨ g ∈ s.pending ∨ s.phase = .rotated g
  main : ∀ p ∈ s.pinned, p.view.pin < s.next ∧ p.view.main < s.next ∧
    (p.view.pin = s.pin ↔ p.view.main = s.current)
  extra : ∀ p ∈ s.pinned, ∀ g ∈ p.view.extra, g < s.next ∧ g ≠ s.current
  captured : ∀ p ∈ s.pinned, p.captured.map Prod.fst = p.view.main :: p.view.extra

theorem new_wellFormed (startVersion : Nat) : WellFormed (Manager.new startVersion : Manager C) :=
    by
  constructor <;> simp [Manager.new]

/-- Steps that leave the slots alone keep the form. -/
theorem WellFormed.congr {s t : Manager C} (h : WellFormed s) (hnext : t.next = s.next)
    (hcurrent : t.current = s.current) (hpending : t.pending = s.pending) (hpin : t.pin = s.pin)
    (hpinned : ∀ p ∈ t.pinned, p ∈ s.pinned) (hgens : t.generations = s.generations)
    (hs : ∀ g, s.phase ≠ .rotated g) (ht : ∀ g, t.phase ≠ .rotated g ∧ t.phase ≠ .listed g) :
    WellFormed t := by
  constructor
  case current_lt => rw [hcurrent, hnext]; exact h.current_lt
  case pin_lt => rw [hpin, hnext]; exact h.pin_lt
  case pending_lt => rw [hpending, hnext, hcurrent]; exact h.pending_lt
  case rotated => exact fun old hold => absurd hold (ht old).1
  case listed => exact fun old hold => absurd hold (ht old).2
  case generations =>
    intro g
    rw [hgens, h.generations, hcurrent, hpending]
    simp [hs g, (ht g).1]
  case main => rw [hnext, hpin, hcurrent]; exact fun p hp => h.main p (hpinned p hp)
  case extra => rw [hnext, hcurrent]; exact fun p hp => h.extra p (hpinned p hp)
  case captured => exact fun p hp => h.captured p (hpinned p hp)

variable {s : Manager C}

theorem takeSnapshot_wellFormed (h : WellFormed s) : WellFormed s.takeSnapshot := by
  constructor
  case current_lt => exact h.current_lt
  case pin_lt => exact h.pin_lt
  case pending_lt => exact h.pending_lt
  case rotated => exact h.rotated
  case listed => exact h.listed
  case generations => exact h.generations
  case main =>
    exact forall_mem_append.mpr ⟨h.main, forall_mem_singleton.mpr
      ⟨h.pin_lt, h.current_lt, by simp [pinSnapshot, takeSnapshot]⟩⟩
  case extra =>
    exact forall_mem_append.mpr ⟨h.extra, forall_mem_singleton.mpr h.pending_lt⟩
  case captured =>
    exact forall_mem_append.mpr ⟨h.captured, forall_mem_singleton.mpr (by simp [comp_def])⟩

/-- A new current buffer with a new token: no snapshot has either. -/
theorem WellFormed.renew {s t : Manager C} (h : WellFormed s) (hnext : t.next = s.next + 1)
    (hcurrent : t.current = s.next) (hpending : t.pending = s.pending) (hpin : t.pin = s.next)
    (hpinned : t.pinned = s.pinned) (hrotated : ∀ old, t.phase = .rotated old → old = s.current)
    (hlisted : ∀ old, t.phase ≠ .listed old)
    (hgens : ∀ g, g ∈ t.generations ↔ g = s.next ∨ g ∈ s.pending ∨ t.phase = .rotated g) :
    WellFormed t := by
  have hcur := h.current_lt
  have hp := h.pin_lt
  constructor
  case current_lt => omega
  case pin_lt => omega
  case pending_lt =>
    rw [hpending]
    intro g hg
    have := (h.pending_lt g hg).1
    omega
  case rotated =>
    intro old hold
    rw [hrotated old hold, hpending]
    refine ⟨by omega, by omega, ?_⟩
    intro hmem
    exact (h.pending_lt _ hmem).2 rfl
  case listed => exact fun old hold => absurd hold (hlisted old)
  case generations =>
    intro g
    rw [hgens, hcurrent, hpending]
  case main =>
    rw [hpinned]
    intro p hp
    rcases h.main p hp with ⟨hpin', hmain, -⟩
    rw [hpin, hcurrent]
    refine ⟨by omega, by omega, ?_⟩
    constructor <;> intro heq <;> omega
  case extra =>
    rw [hpinned]
    intro p hp g hg
    have := (h.extra p hp g hg).1
    omega
  case captured =>
    rw [hpinned]
    exact h.captured

theorem complete_wellFormed (h : WellFormed s) {l0 : Nat} (hl0 : l0 ∈ s.pending) :
    WellFormed (s.completeFlush l0) := by
  constructor
  case current_lt => exact h.current_lt
  case pin_lt => exact h.pin_lt
  case pending_lt => exact fun g hg => h.pending_lt g ((mem_filter.mp hg).1)
  case rotated =>
    intro old hold
    rcases h.rotated old hold with ⟨hlt, hne, hnot⟩
    exact ⟨hlt, hne, fun hmem => hnot ((mem_filter.mp hmem).1)⟩
  case listed => exact h.listed
  case generations =>
    intro g
    -- the completed buffer is neither the current one nor in the hands of a rotation
    have hcur := (h.pending_lt l0 hl0).2
    have hrot : s.phase = .rotated g → g ≠ l0 := by
      rintro hold rfl
      exact (h.rotated g hold).2.2 hl0
    show g ∈ s.generations.filter (· ≠ l0) ↔ g = s.current ∨ g ∈ s.pending.filter (· ≠ l0) ∨ _
    rw [mem_filter, mem_filter, h.generations]
    simp only [decide_eq_true_eq]
    constructor
    · rintro ⟨hg | hg | hg, hne⟩
      · exact .inl hg
      · exact .inr (.inl ⟨hg, hne⟩)
      · exact .inr (.inr hg)
    · rintro (hg | ⟨hg, hne⟩ | hg)
      · exact ⟨.inl hg, fun heq => hcur (heq.symm.trans hg)⟩
      · exact ⟨.inr (.inl hg), hne⟩
      · exact ⟨.inr (.inr hg), hrot hg⟩
  case main => exact h.main
  case extra => exact h.extra
  case captured => exact h.captured

theorem list_wellFormed (h : WellFormed s) {old : Nat} (hphase : s.phase = .rotated old) :
    WellFormed { s with pending := s.pending ++ [old], phase := .listed old } := by
  rcases h.rotated old hphase with ⟨hlt, hne, -⟩
  constructor
  case current_lt => exact h.current_lt
  case pin_lt => exact h.pin_lt
  case pending_lt =>
    exact forall_mem_append.mpr ⟨h.pending_lt, forall_mem_singleton.mpr ⟨hlt, hne⟩⟩
  case rotated => exact fun g hg => absurd hg (by simp)
  case listed =>
    intro g hg
    rw [← Phase.listed.inj hg]
    exact ⟨hlt, hne⟩
  case generations =>
    intro g
    rw [h.generations, hphase]
    simp only [mem_append, mem_singleton, Phase.rotated.injEq, reduceCtorEq, or_false, eq_comm]
  case main => exact h.main
  case extra => exact h.extra
  case captured => exact h.captured

theorem step_wellFormed (s : Manager C) (a : Action C) (s' : Manager C) (h : WellFormed s)
    (hstep : s.step a = some s') : WellFormed s' := by
  cases stepCase_of_step hstep with
  | pin => exact takeSnapshot_wellFormed h
  | drop index =>
    have hsub : ∀ p ∈ s.pinned.eraseIdx index, p ∈ s.pinned :=
      fun p hp => mem_of_mem_eraseIdx hp
    exact ⟨h.current_lt, h.pin_lt, h.pending_lt, h.rotated, h.listed, h.generations,
      fun p hp => h.main p (hsub p hp), fun p hp => h.extra p (hsub p hp),
      fun p hp => h.captured p (hsub p hp)⟩
  | check hphase =>
    exact h.congr rfl rfl rfl rfl (fun _ hp => hp) rfl (by simp [hphase]) (by simp)
  | freeze hphase =>
    refine h.renew rfl rfl rfl rfl rfl (by simp) (by simp) ?_
    intro g
    -- the copy takes the place of the current buffer among the generations
    simp only [freezeCurrentForSnapshot, List.mem_map, h.generations, hphase, reduceCtorEq,
      or_false]
    constructor
    · rintro ⟨g', hg' | hg', rfl⟩
      · exact .inl (if_pos hg')
      · rw [if_neg (h.pending_lt g' hg').2]
        exact .inr hg'
    · rintro (rfl | hg)
      · exact ⟨s.current, .inl rfl, if_pos rfl⟩
      · exact ⟨g, .inr hg, if_neg (h.pending_lt g hg).2⟩
  | merge commit writes hphase =>
    have hs : ∀ g, s.phase ≠ .rotated g := by
      intro g
      rcases hphase with hphase | hphase <;> simp [hphase]
    exact h.congr rfl rfl rfl rfl (fun _ hp => hp) rfl hs (by simp)
  | rotate hphase =>
    refine h.renew rfl rfl rfl rfl rfl ?_ (by simp) ?_
    · intro old hold
      exact (Phase.rotated.inj hold).symm
    · intro g
      simp only [Manager.rotate, mem_append, mem_singleton, h.generations, hphase,
        reduceCtorEq, or_false, Phase.rotated.injEq]
      tauto
  | list old hphase => exact list_wellFormed h hphase
  | handoff old hphase =>
    exact h.congr rfl rfl rfl rfl (fun _ hp => hp) rfl (by simp [hphase]) (by simp)
  | complete l0 hl0 => exact complete_wellFormed h hl0

/-- The buffer that holds the WAL handle: the current one, or, in the middle of
    a rotation, the one that is being rotated out. -/
def walHolder (s : Manager C) : Nat :=
  match s.phase with
  | .rotated old | .listed old => old
  | _ => s.current

/-- Exactly one buffer holds the WAL handle. -/
def WalHeld (s : Manager C) : Prop :=
  ∀ g, (s.heap g).wal = true ↔ g = walHolder s

/-- Passing the handle on: the buffer that held it loses it to another one. -/
theorem wal_moved {heap : Nat → Buffer C} {src dst : Nat} {lost kept : Buffer C}
    (h : ∀ g, (heap g).wal = true ↔ g = src) (hne : dst ≠ src) (hlost : lost.wal = false)
    (hkept : kept.wal = true) (g : Nat) :
    (update (update heap src lost) dst kept g).wal = true ↔ g = dst := by
  by_cases hd : g = dst
  · subst hd
    simp [hkept]
  · rw [update_of_ne hd]
    by_cases hs : g = src
    · subst hs
      simp [hlost, hd]
    · rw [update_of_ne hs, h g]
      exact iff_of_false hs hd

theorem step_walHeld (s : Manager C) (a : Action C) (s' : Manager C) (hwf : WellFormed s)
    (h : WalHeld s) (hstep : s.step a = some s') : WalHeld s' := by
  have hcur := hwf.current_lt
  cases stepCase_of_step hstep with
  | pin | drop => exact h
  | check hphase =>
    intro g
    simpa [walHolder, hphase] using h g
  | freeze hphase =>
    -- the handle moves from the frozen buffer to the copy
    have hheld : ∀ g, (s.heap g).wal = true ↔ g = s.current := by
      simpa [WalHeld, walHolder, hphase] using h
    exact wal_moved hheld (by omega) rfl ((hheld s.current).mpr rfl)
  | merge commit writes hphase =>
    intro g
    have hg : (s.heap g).wal = true ↔ g = s.current := by
      rcases hphase with hphase | hphase <;> simpa [walHolder, hphase] using h g
    simp only [walHolder, Manager.merge]
    by_cases hgc : g = s.current
    · subst hgc
      simpa using hg
    · rw [update_of_ne hgc]
      exact hg
  | rotate hphase =>
    intro g
    have hg := h g
    simp only [walHolder, hphase] at hg
    simp only [walHolder, Manager.rotate]
    by_cases hnext : g = s.next
    · subst hnext
      have hne : s.next ≠ s.current := by omega
      simp [hne]
    · rw [update_of_ne hnext]
      exact hg
  | list old hphase =>
    intro g
    simpa [walHolder, hphase] using h g
  | handoff old hphase =>
    -- the handle moves from the rotated buffer to the current one
    have hheld : ∀ g, (s.heap g).wal = true ↔ g = old := by
      simpa [WalHeld, walHolder, hphase] using h
    have hne := (hwf.listed old hphase).2
    exact wal_moved hheld (fun hc => hne hc.symm) rfl ((hheld old).mpr rfl)
  | complete => exact h

section Completeness

/-- The layers of the snapshot include every generation that held a commit and
    was not flushed when the snapshot was taken. -/
def Complete (p : Pinned C) : Prop :=
  ∀ g ∈ p.unflushed, g = p.view.main ∨ g ∈ p.view.extra

def AllComplete (s : Manager C) : Prop := ∀ p ∈ s.pinned, Complete p

/-- No snapshot is taken while a rotation holds a buffer with a commit that it
    has not listed yet. -/
def PinsListed (s : Manager C) : Action C → Prop
  | .pin => ∀ old, s.phase = .rotated old → (s.heap old).commits = []
  | _ => True

/-- A snapshot taken now is complete exactly if a rotation hides no commit. -/
theorem takeSnapshot_complete_iff (hwf : WellFormed s) (h : AllComplete s) :
    AllComplete s.takeSnapshot ↔ PinsListed s .pin := by
  have hmem : ∀ g, g ∈ s.generations.filter (fun g => !(s.heap g).commits.isEmpty) ↔
      (g = s.current ∨ g ∈ s.pending ∨ s.phase = .rotated g) ∧ (s.heap g).commits ≠ [] := by
    intro g
    rw [mem_filter, hwf.generations]
    simp
  constructor
  · intro hall old hold
    by_contra hne
    have hnew := hall _ (mem_append_right _ (mem_singleton_self _)) old
      ((hmem old).mpr ⟨.inr (.inr hold), hne⟩)
    rcases hwf.rotated old hold with ⟨-, hcurrent, hpending⟩
    rcases hnew with heq | hin
    · exact hcurrent heq
    · exact hpending hin
  · intro hpin
    refine forall_mem_append.mpr ⟨h, forall_mem_singleton.mpr fun g hg => ?_⟩
    rcases (hmem g).mp hg with ⟨hg' | hg' | hg', hne⟩
    · exact .inl hg'
    · exact .inr hg'
    · exact absurd (hpin g hg') hne

theorem step_complete_iff (s : Manager C) (a : Action C) (s' : Manager C) (hwf : WellFormed s)
    (h : AllComplete s) (hstep : s.step a = some s') : AllComplete s' ↔ PinsListed s a := by
  cases stepCase_of_step hstep with
  | pin => exact takeSnapshot_complete_iff hwf h
  | drop =>
    exact iff_of_true (fun p hp => h p (mem_of_mem_eraseIdx hp)) trivial
  | check | freeze | merge | rotate | list | handoff | complete => exact iff_of_true h trivial

/-- In a run of the manager every snapshot is complete exactly if no snapshot is
    taken between the two steps of a rotation that hides a commit. -/
theorem complete_iff (startVersion : Nat) (acts : List (Action C)) (s : Manager C)
    (hrun : run Manager.step (Manager.new startVersion) acts = some s) :
    (∀ pre u, pre <+: acts → run Manager.step (Manager.new startVersion) pre = some u →
        AllComplete u) ↔
      EveryStep Manager.step PinsListed (Manager.new startVersion) acts :=
  forall_prefix_iff_everyStep step_wellFormed step_complete_iff (new_wellFormed startVersion)
    (nofun) hrun

/-- A commit, a rotation and a snapshot after it. -/
theorem complete_iff_after_rotation : let acts : List (Action Nat) :=
      [.check, .merge 1 3, .rotate, .list, .pin, .handoff, .complete 0]
    (∃ s, run Manager.step (Manager.new 0) acts = some s) ∧
      ∀ pre u, pre <+: acts → run Manager.step (Manager.new 0) pre = some u → AllComplete u := by
  intro acts
  refine ⟨⟨_, rfl⟩, ?_⟩
  refine (complete_iff 0 acts _ rfl).mpr ?_
  simp [acts, EveryStep, PinsListed, Manager.step, Manager.new, Manager.merge, Manager.rotate,
    isCurrentPinned]

/-- A snapshot taken between the two steps of a rotation does not show the commit
    in the rotated buffer. -/
theorem snapshot_misses_rotated :
    ∃ s p, run Manager.step (Manager.new 0) [Action.check, .merge 1 3, .rotate, .pin] = some s ∧
      s.pinned = [p] ∧ p.unflushed = [0] ∧ p.view.main = 1 ∧ p.view.extra = [] ∧ ¬ Complete p := by
  refine ⟨_, _, rfl, rfl, rfl, rfl, rfl, ?_⟩
  intro h
  have hlayers := h 0 (by decide)
  exact absurd hlayers (by decide)

end Completeness

section Isolation

/-- No buffer that a live snapshot shows has changed since it was taken. -/
def Untouched (s : Manager C) : Prop :=
  ∀ p ∈ s.pinned, ∀ e ∈ p.captured, (s.heap e.1).commits = e.2

/-- No commit is merged into a buffer that a live snapshot pins. -/
def MergesUnpinned (s : Manager C) : Action C → Prop
  | .merge _ _ => s.isCurrentPinned = false
  | _ => True

theorem WellFormed.captured_lt (h : WellFormed s) {p : Pinned C} (hp : p ∈ s.pinned)
    {e : Nat × List C} (he : e ∈ p.captured) : e.1 < s.next := by
  have hmem : e.1 ∈ p.view.main :: p.view.extra := by
    rw [← h.captured p hp]
    exact mem_map_of_mem he
  rcases mem_cons.mp hmem with heq | hin
  · rw [heq]
    exact (h.main p hp).2.1
  · exact (h.extra p hp e.1 hin).1

/-- A snapshot shows the current buffer exactly if it holds the current token. -/
theorem WellFormed.captured_current_iff (h : WellFormed s) {p : Pinned C} (hp : p ∈ s.pinned) :
    (∃ e ∈ p.captured, e.1 = s.current) ↔ p.view.pin = s.pin := by
  have hmem : (∃ e ∈ p.captured, e.1 = s.current) ↔ s.current ∈ p.view.main :: p.view.extra := by
    rw [← h.captured p hp, List.mem_map]
  rw [hmem, (h.main p hp).2.2, mem_cons]
  constructor
  · rintro (heq | hin)
    · exact heq.symm
    · exact absurd rfl (h.extra p hp s.current hin).2
  · intro heq
    exact .inl heq.symm

/-- A step that leaves the commits of the allocated buffers alone. -/
theorem untouched_of_commits {s s' : Manager C} (hwf : WellFormed s) (h : Untouched s)
    (hpinned : s'.pinned = s.pinned)
    (hcommits : ∀ g, g < s.next → (s'.heap g).commits = (s.heap g).commits) : Untouched s' := by
  intro p hp e he
  rw [hpinned] at hp
  rw [hcommits e.1 (hwf.captured_lt hp he)]
  exact h p hp e he

theorem merge_untouched_iff (hwf : WellFormed s) (h : Untouched s) (commit : C) (writes : Nat) :
    Untouched { s.merge commit writes with phase := .idle } ↔
      s.isCurrentPinned = false := by
  have hpinned : s.isCurrentPinned = false ↔ ∀ p ∈ s.pinned, p.view.pin ≠ s.pin := by
    simp [isCurrentPinned]
  rw [hpinned]
  constructor
  · intro hun p hp heq
    rcases (hwf.captured_current_iff hp).mpr heq with ⟨e, he, hcur⟩
    -- the snapshot saw the commits before the merge
    have hbefore := h p hp e he
    have hafter := hun p hp e he
    simp only [Manager.merge, hcur, update_self] at hafter
    rw [hcur] at hbefore
    rw [hbefore] at hafter
    simp at hafter
  · intro hpin p hp e he
    have hne : e.1 ≠ s.current := by
      intro hcur
      exact hpin p hp ((hwf.captured_current_iff hp).mp ⟨e, he, hcur⟩)
    simp only [Manager.merge, update_of_ne hne]
    exact h p hp e he

theorem step_untouched_iff (s : Manager C) (a : Action C) (s' : Manager C)
    (hJ : WellFormed s ∧ WalHeld s) (h : Untouched s) (hstep : s.step a = some s') :
    Untouched s' ↔ MergesUnpinned s a := by
  rcases hJ with ⟨hwf, -⟩
  cases stepCase_of_step hstep with
  | pin =>
    refine iff_of_true ?_ trivial
    intro p hp e he
    rcases mem_append.mp hp with hp | hp
    · exact h p hp e he
    · rw [mem_singleton.mp hp] at he
      rcases List.mem_map.mp he with ⟨g, -, rfl⟩
      rfl
  | drop =>
    exact iff_of_true (fun p hp => h p (mem_of_mem_eraseIdx hp)) trivial
  | check => exact iff_of_true h trivial
  | freeze =>
    -- the frozen buffer gives up its WAL handle and nothing else
    refine iff_of_true (untouched_of_commits hwf h rfl ?_) trivial
    intro g hg
    have hnext : g ≠ s.next := by omega
    simp only [freezeCurrentForSnapshot, update_of_ne hnext]
    by_cases hgc : g = s.current
    · subst hgc
      simp
    · rw [update_of_ne hgc]
  | merge commit writes => exact merge_untouched_iff hwf h commit writes
  | rotate =>
    refine iff_of_true (untouched_of_commits hwf h rfl ?_) trivial
    intro g hg
    have hnext : g ≠ s.next := by omega
    simp only [Manager.rotate, update_of_ne hnext]
  | list => exact iff_of_true h trivial
  | handoff old hphase =>
    refine iff_of_true (untouched_of_commits hwf h rfl ?_) trivial
    intro g hg
    have hne := (hwf.listed old hphase).2
    simp only [Manager.handoff]
    by_cases hgc : g = s.current
    · subst hgc
      rw [update_self, update_of_ne hne.symm]
    · rw [update_of_ne hgc]
      by_cases hgo : g = old
      · subst hgo
        simp
      · rw [update_of_ne hgo]
  | complete => exact iff_of_true h trivial

/-- In a run of the manager the WAL handle is always with the current buffer, or, within a rotation,
    with the buffer it rotates out, and with no other; and the buffers of all live snapshots stay as
    they were exactly if no commit is merged while a live snapshot pins the current buffer. -/
theorem untouched_iff (startVersion : Nat) (acts : List (Action C)) (s : Manager C)
    (hrun : run Manager.step (Manager.new startVersion) acts = some s) :
    (∀ pre u, pre <+: acts → run Manager.step (Manager.new startVersion) pre = some u →
        WalHeld u) ∧
      ((∀ pre u, pre <+: acts → run Manager.step (Manager.new startVersion) pre = some u →
          Untouched u) ↔
        EveryStep Manager.step MergesUnpinned (Manager.new startVersion) acts) := by
  have hJ : ∀ (s : Manager C) a s', WellFormed s ∧ WalHeld s → s.step a = some s' →
      WellFormed s' ∧ WalHeld s' := by
    rintro s a s' ⟨hwf, hwal⟩ hstep
    exact ⟨step_wellFormed s a s' hwf hstep, step_walHeld s a s' hwf hwal hstep⟩
  have hnew : WellFormed (Manager.new startVersion : Manager C) ∧
      WalHeld (Manager.new startVersion : Manager C) := by
    refine ⟨new_wellFormed startVersion, ?_⟩
    intro g
    simp [Manager.new, walHolder]
  refine ⟨?_, ?_⟩
  · intro pre u _ hu
    exact (run_invariant hJ hnew hu).2
  · exact forall_prefix_iff_everyStep hJ step_untouched_iff hnew
      (nofun) hrun

/-- A snapshot before a commit: the commit finds the buffer pinned and merges into a copy. -/
theorem untouched_iff_after_freeze : let acts : List (Action Nat) :=
      [.check, .merge 1 3, .pin, .check, .freeze, .merge 2 1, .rotate, .list, .handoff]
    (∃ s, run Manager.step (Manager.new 0) acts = some s) ∧
      ∀ pre u, pre <+: acts → run Manager.step (Manager.new 0) pre = some u →
        WalHeld u ∧ Untouched u := by
  intro acts
  refine ⟨⟨_, rfl⟩, ?_⟩
  rcases untouched_iff 0 acts _ rfl with ⟨hwal, hiff⟩
  have huntouched := hiff.mpr (by
    simp [acts, EveryStep, MergesUnpinned, Manager.step, Manager.new, Manager.merge,
      isCurrentPinned, takeSnapshot, pinSnapshot, freezeCurrentForSnapshot])
  intro pre u hpre hu
  exact ⟨hwal pre u hpre hu, huntouched pre u hpre hu⟩

/-- A snapshot taken after a commit asked whether the buffer is pinned sees that commit arrive. -/
theorem snapshot_sees_merge :
    ∃ s p, run Manager.step (Manager.new 0) [Action.check, .pin, .merge 1 3] = some s ∧
      s.pinned = [p] ∧ p.view.main = 0 ∧ p.captured = [(0, [])] ∧ (s.heap 0).commits = [1] ∧
      ¬ Untouched s := by
  refine ⟨_, _, rfl, rfl, rfl, rfl, rfl, ?_⟩
  intro h
  have hsame := h _ (mem_singleton_self _) (0, []) (mem_singleton_self _)
  exact absurd hsame (by decide)

end Isolation

end L0Manager

end UniDb
