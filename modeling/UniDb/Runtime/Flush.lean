import Mathlib.Data.List.Range
import Mathlib.Logic.Function.Basic
import UniDb.Lib.Run

/-!
# Flushes

Flushes of rotated buffers to L1, the manifests they publish, and the truncation
of the write-ahead log behind them.

A commit is durable in the log first. A flush moves a whole generation of
commits to L1, publishes a manifest that says up to which log number recovery
may skip, and then deletes log segments. Flushes stream to L1 side by side and
without a lock, they may fail and leave their generation behind for good, and a
later generation may be finalized before an earlier one. What keeps a commit
from falling between the two is one number per generation: where in the log it
starts. Neither a published mark nor a truncation goes past the start of another
generation that is still pending.

Generations are numbered in rotation order, and the generation that takes
commits has the number `count`. A commit is the number of its log segment and
the version of its rows. A failed write of the log skips a number. L1 holds
rows of all versions, and the snapshot that a manifest names shows those up to
its version mark.

A generation does not move to L1 as a whole. A commit may change the labels of a
vertex without writing the vertex. The stream then writes the row again with the
new labels, and for that it takes the properties from the main table. A vertex
without a row there is skipped. Streams overlap, so the row may be that of an
earlier generation whose stream has not come so far. `skipped` holds the vertices
that a stream left out.

## Main definitions

* `Flusher`: The generations, the log segments, and the published manifest.
* `minPendingWalLsnStart`: The floor of a flush.
* `Generation.overwriteOnly`: The vertices that a generation only relabels.
* `step`: The steps of commits, rotations, streams and finalizations.
* `Durable`: A commit is in the published snapshot or in the log above its mark.
* `Ordered`: The generations follow each other in the log.

## Theorems

* `safeLsn_le`: What the floor is good for.
* `Ordered.sameLog`: Streams and finalizations keep the order.
* `Ordered.extends`: Commits and reservations keep the order.
* `rotate_ordered`: Rotations keep the order.
-/

namespace UniDb

namespace Flush

structure Commit where
  lsn : Nat
  version : Nat
  /-- The vertices it writes or deletes. -/
  rows : List Nat
  /-- The vertices whose labels it sets or removes. -/
  relabels : List Nat
  deriving DecidableEq, Repr

/-- The marks of a snapshot manifest: the version of the rows it shows, and the
    log number up to which recovery does not replay. -/
structure Manifest where
  versionHighWaterMark : Nat
  walHighWaterMark : Nat
  deriving DecidableEq, Repr

/-- Where a generation is: in the current slot or in the hands of a rotation,
    on the pending list, or flushed. -/
inductive Slot
  | held
  | listed
  | completed
  deriving DecidableEq, Repr

/-- A generation of the L0 buffer. -/
structure Generation where
  walLsnAtStart : Nat
  walLsnAtFlush : Nat
  currentVersion : Nat
  commits : List Commit
  slot : Slot
  /-- The manifest that its stream has computed. -/
  manifest : Option Manifest
  /-- The relabels that its stream leaves out, once it has read the main table. -/
  skipped : Option (List Nat)
  /-- Its stream has written its rows to the main table. -/
  written : Bool
  /-- Its stream is done. -/
  inL1 : Bool

namespace Generation

def rows (g : Generation) : List Nat := g.commits.flatMap Commit.rows

/-- The vertices that are relabelled and neither written nor deleted. -/
def overwriteOnly (g : Generation) : List Nat :=
  (g.commits.flatMap Commit.relabels).filter (· ∉ g.rows)

end Generation

/-- What the holder of the flush lock is doing. -/
inductive Phase
  | idle
  | rotating (i : Nat)
  | publishing (i : Nat)
  | completing (i : Nat)
  deriving DecidableEq, Repr

structure Flusher where
  gens : Nat → Generation
  count : Nat
  /-- The highest number that the log has written. -/
  flushedLsn : Nat
  /-- The numbers of the log segments that exist. -/
  segments : List Nat
  published : Manifest
  /-- The generation whose flush published the manifest. -/
  publishedBy : Option Nat
  phase : Phase

/-- The steps. Streams run without the lock. A step that fails without an effect
    is no step: the generation stays on the pending list. -/
inductive Action
  | commit (skipped writes : Nat) (rows relabels : List Nat)
  /-- Versions that a bulk load or a write outside a transaction takes. -/
  | reserve (versions : Nat)
  | flushWal (skipped : Nat)
  | rotate
  | list
  | computeManifest (i : Nat)
  | readMain (i : Nat)
  | writeMain (i : Nat)
  | streamed (i : Nat)
  | publish (i : Nat)
  /-- The finalization fails after the new manifest became visible. -/
  | publishFails
  | completeFlush
  /-- The truncation deletes these of the segments it may delete. -/
  | truncate (deleted : Nat → Bool)

namespace Flusher

/-- An empty database. -/
def new : Flusher where
  gens _ := ⟨0, 0, 0, [], .held, none, none, false, false⟩
  count := 0
  flushedLsn := 0
  segments := []
  published := ⟨0, 0⟩
  publishedBy := none
  phase := .idle

def update (s : Flusher) (i : Nat) (g : Generation) : Flusher :=
  { s with gens := Function.update s.gens i g }

/-- Move a generation, and go on to the next phase. -/
def move (s : Flusher) (i : Nat) (slot : Slot) (phase : Phase) : Flusher :=
  { s.update i { s.gens i with slot := slot } with phase := phase }

/-- The least start among the pending generations other than `except`. -/
def minPendingWalLsnStart (s : Flusher) (except : Nat) : Option Nat :=
  (((List.range s.count).filter fun j => (s.gens j).slot = .listed ∧ j ≠ except).map
    fun j => (s.gens j).walLsnAtStart).min?

/-- How far a flush of the generation may move a mark. -/
def safeLsn (s : Flusher) (i : Nat) : Nat :=
  match s.minPendingWalLsnStart i with
  | none => (s.gens i).walLsnAtFlush
  | some floor => min floor (s.gens i).walLsnAtFlush

/-- The main table has a row of the vertex. -/
def persisted (s : Flusher) (vid : Nat) : Bool :=
  (List.range s.count).any fun j => (s.gens j).written && (s.gens j).rows.contains vid

/-- Write a log segment and merge the commit into the current generation. -/
def commit (s : Flusher) (skipped writes : Nat) (rows relabels : List Nat) : Flusher :=
  let lsn := s.flushedLsn + skipped + 1
  let g := s.gens s.count
  let version := g.currentVersion + writes
  { s.update s.count { g with
      currentVersion := version
      commits := g.commits ++ [⟨lsn, version, rows, relabels⟩] } with
    flushedLsn := lsn
    segments := s.segments ++ [lsn] }

def reserve (s : Flusher) (versions : Nat) : Flusher :=
  let g := s.gens s.count
  s.update s.count { g with currentVersion := g.currentVersion + versions }

/-- Rotate the current generation out. The next one starts where the log is. -/
def rotate (s : Flusher) : Flusher :=
  let old := { s.gens s.count with walLsnAtFlush := s.flushedLsn }
  -- versions go on, so that no two generations share one
  let new : Generation := ⟨s.flushedLsn, 0, old.currentVersion, [], .held, none, none, false, false⟩
  { (s.update s.count old).update (s.count + 1) new with
    count := s.count + 1
    phase := .rotating s.count }

def step (s : Flusher) : Action → Option Flusher
  | .commit skipped writes rows relabels => match s.phase with
    | .idle => some (s.commit skipped writes rows relabels)
    | _ => none
  | .reserve versions => some (s.reserve versions)
  | .flushWal skipped =>
    -- what a failed commit left in the log's buffer, or a seal without a commit
    some { s with
      flushedLsn := s.flushedLsn + skipped + 1
      segments := s.segments ++ [s.flushedLsn + skipped + 1] }
  | .rotate => match s.phase with
    | .idle => some s.rotate
    | _ => none
  | .list => match s.phase with
    | .rotating i => some (s.move i .listed .idle)
    | _ => none
  | .computeManifest i =>
    -- the floor is read here, once, and not when the manifest is published
    if i < s.count ∧ (s.gens i).slot = .listed ∧ (s.gens i).inL1 = false then
      some (s.update i { s.gens i with
        manifest := some ⟨(s.gens i).currentVersion, s.safeLsn i⟩ })
    else none
  | .readMain i =>
    if i < s.count ∧ (s.gens i).slot = .listed ∧ (s.gens i).manifest.isSome then
      some (s.update i { s.gens i with
        skipped := some ((s.gens i).overwriteOnly.filter fun vid => !s.persisted vid) })
    else none
  | .writeMain i =>
    if i < s.count ∧ (s.gens i).slot = .listed ∧ (s.gens i).skipped.isSome then
      some (s.update i { s.gens i with written := true })
    else none
  | .streamed i =>
    if i < s.count ∧ (s.gens i).slot = .listed ∧ (s.gens i).written = true then
      some (s.update i { s.gens i with inL1 := true })
    else none
  | .publish i => match s.phase, (s.gens i).manifest with
    | .idle, some manifest =>
      if i < s.count ∧ (s.gens i).slot = .listed ∧ (s.gens i).inL1 = true then
        some { s with published := manifest, publishedBy := some i, phase := .publishing i }
      else none
    | _, _ => none
  | .publishFails => match s.phase with
    | .publishing _ => some { s with phase := .idle }
    | _ => none
  | .completeFlush => match s.phase with
    -- off the list before the truncation reads the floor
    | .publishing i => some (s.move i .completed (.completing i))
    | _ => none
  | .truncate deleted => match s.phase with
    | .completing i => some { s with
        segments := s.segments.filter fun lsn => s.safeLsn i < lsn ∨ deleted lsn = false
        phase := .idle }
    | _ => none

end Flusher

/-- The commit is in the snapshot that the published manifest names, with its rows
    and with its relabels. -/
def Contained (s : Flusher) (i : Nat) (c : Commit) : Prop :=
  (s.gens i).inL1 = true ∧ c.version ≤ s.published.versionHighWaterMark ∧
    ∀ vid ∈ c.relabels, vid ∉ (s.gens i).skipped.getD []

/-- The commit is in a log segment that recovery would replay. -/
def Recorded (s : Flusher) (c : Commit) : Prop :=
  c.lsn ∈ s.segments ∧ s.published.walHighWaterMark < c.lsn

/-- No acknowledged commit is lost. -/
def Durable (s : Flusher) : Prop :=
  ∀ i ≤ s.count, ∀ c ∈ (s.gens i).commits, Contained s i c ∨ Recorded s c

variable (s : Flusher)

@[simp]
theorem gens_update_self (i : Nat) (g : Generation) : (s.update i g).gens i = g := by
  simp [Flusher.update]

theorem gens_update_of_ne {i j : Nat} (g : Generation) (h : j ≠ i) :
    (s.update i g).gens j = s.gens j := by
  simp [Flusher.update, Function.update_of_ne h]

/-- An update of one generation that keeps some data keeps it for all. -/
theorem proj_update {α : Type} (f : Generation → α) (s : Flusher) (i : Nat) {g : Generation}
    (h : f g = f (s.gens i)) (j : Nat) : f ((s.update i g).gens j) = f (s.gens j) := by
  by_cases hj : j = i
  · rw [hj, gens_update_self, h]
  · rw [gens_update_of_ne s g hj]

/-- A mark within the floor of a flush stays below its own end in the log and
    below the start of every other pending generation. -/
theorem safeLsn_le (i : Nat) : s.safeLsn i ≤ (s.gens i).walLsnAtFlush ∧
      ∀ j < s.count, j ≠ i → (s.gens j).slot = .listed →
        s.safeLsn i ≤ (s.gens j).walLsnAtStart := by
  unfold Flusher.safeLsn
  cases hmin : s.minPendingWalLsnStart i with
  | none =>
    refine ⟨le_rfl, ?_⟩
    intro j hj hne hslot
    -- without a floor there is no other pending generation
    unfold Flusher.minPendingWalLsnStart at hmin
    rw [List.min?_eq_none_iff, List.map_eq_nil_iff, List.filter_eq_nil_iff] at hmin
    exact absurd (decide_eq_true ⟨hslot, hne⟩) (hmin j (List.mem_range.mpr hj))
  | some floor =>
    refine ⟨Nat.min_le_right _ _, ?_⟩
    intro j hj hne hslot
    unfold Flusher.minPendingWalLsnStart at hmin
    rw [List.min?_eq_some_iff] at hmin
    have hle := hmin.2 (s.gens j).walLsnAtStart (by
      refine List.mem_map_of_mem (List.mem_filter.mpr ⟨List.mem_range.mpr hj, ?_⟩)
      exact decide_eq_true ⟨hslot, hne⟩)
    show min floor _ ≤ _
    omega

section Order

/-- The generations follow each other in the log: each ends before the next one
    starts, and its commits are behind its start. -/
structure Ordered (s : Flusher) : Prop where
  start_le : ∀ i < s.count, (s.gens i).walLsnAtStart ≤ (s.gens i).walLsnAtFlush
  current_start : (s.gens s.count).walLsnAtStart ≤ s.flushedLsn
  flush_le_start : ∀ i j, i < j → j ≤ s.count →
    (s.gens i).walLsnAtFlush ≤ (s.gens j).walLsnAtStart
  version_le : ∀ i j, i ≤ j → j ≤ s.count →
    (s.gens i).currentVersion ≤ (s.gens j).currentVersion
  commits : ∀ i ≤ s.count, ∀ c ∈ (s.gens i).commits,
    (s.gens i).walLsnAtStart < c.lsn ∧ c.version ≤ (s.gens i).currentVersion

theorem new_ordered : Ordered Flusher.new := by
  constructor <;> simp [Flusher.new]

theorem Ordered.start_mono {s : Flusher} (h : Ordered s) {i j : Nat} (hij : i ≤ j)
    (hj : j ≤ s.count) : (s.gens i).walLsnAtStart ≤ (s.gens j).walLsnAtStart := by
  rcases Nat.eq_or_lt_of_le hij with rfl | hlt
  · exact le_rfl
  · exact le_trans (h.start_le i (by omega)) (h.flush_le_start i j hlt hj)

/-- What the steps of streams and finalizations leave alone: the place of the
    generations in the log, and their commits. -/
structure SameLog (s t : Flusher) : Prop where
  count : t.count = s.count
  flushedLsn : s.flushedLsn ≤ t.flushedLsn
  start : ∀ i, (t.gens i).walLsnAtStart = (s.gens i).walLsnAtStart
  flush : ∀ i, (t.gens i).walLsnAtFlush = (s.gens i).walLsnAtFlush
  version : ∀ i, (t.gens i).currentVersion = (s.gens i).currentVersion
  commits : ∀ i, (t.gens i).commits = (s.gens i).commits

theorem SameLog.update (i : Nat) {g : Generation}
    (hstart : g.walLsnAtStart = (s.gens i).walLsnAtStart)
    (hflush : g.walLsnAtFlush = (s.gens i).walLsnAtFlush)
    (hversion : g.currentVersion = (s.gens i).currentVersion)
    (hcommits : g.commits = (s.gens i).commits) : SameLog s (s.update i g) where
  count := rfl
  flushedLsn := le_rfl
  start := proj_update Generation.walLsnAtStart s i hstart
  flush := proj_update Generation.walLsnAtFlush s i hflush
  version := proj_update Generation.currentVersion s i hversion
  commits := proj_update Generation.commits s i hcommits

theorem Ordered.sameLog {s t : Flusher} (h : Ordered s) (hst : SameLog s t) : Ordered t := by
  have hcur := h.current_start
  have hlsn := hst.flushedLsn
  constructor
  case start_le => simpa only [hst.count, hst.start, hst.flush] using h.start_le
  case current_start =>
    rw [hst.count, hst.start]
    omega
  case flush_le_start => simpa only [hst.count, hst.start, hst.flush] using h.flush_le_start
  case version_le => simpa only [hst.count, hst.version] using h.version_le
  case commits => simpa only [hst.count, hst.start, hst.version, hst.commits] using h.commits

/-- What commits and reservations do: the current generation moves on. -/
structure Extends (s t : Flusher) : Prop where
  count : t.count = s.count
  flushedLsn : s.flushedLsn ≤ t.flushedLsn
  rotated : ∀ i ≠ s.count, t.gens i = s.gens i
  start : (t.gens s.count).walLsnAtStart = (s.gens s.count).walLsnAtStart
  version : (s.gens s.count).currentVersion ≤ (t.gens s.count).currentVersion
  slot : (t.gens s.count).slot = (s.gens s.count).slot
  manifest : (t.gens s.count).manifest = (s.gens s.count).manifest
  /-- A commit of the current generation was there or is behind the log's end. -/
  commits : ∀ c ∈ (t.gens s.count).commits, c ∈ (s.gens s.count).commits ∨
    s.flushedLsn < c.lsn ∧ c.version ≤ (t.gens s.count).currentVersion

theorem commit_extends (skipped writes : Nat) (rows relabels : List Nat) :
    Extends s (s.commit skipped writes rows relabels) := by
  constructor
  case count => rfl
  case flushedLsn =>
    show s.flushedLsn ≤ s.flushedLsn + skipped + 1
    omega
  case rotated =>
    intro i hi
    exact gens_update_of_ne s _ hi
  case commits =>
    intro c hc
    simp only [Flusher.commit, gens_update_self] at hc ⊢
    rcases List.mem_append.mp hc with hc | hc
    · exact .inl hc
    · rw [List.mem_singleton.mp hc]
      refine .inr ⟨?_, le_rfl⟩
      show s.flushedLsn < s.flushedLsn + skipped + 1
      omega
  all_goals simp [Flusher.commit]

theorem reserve_extends (versions : Nat) : Extends s (s.reserve versions) := by
  constructor
  case count => rfl
  case flushedLsn => exact le_rfl
  case rotated =>
    intro i hi
    exact gens_update_of_ne s _ hi
  case commits =>
    intro c hc
    simp only [Flusher.reserve, gens_update_self] at hc
    exact .inl hc
  all_goals simp [Flusher.reserve]

/-- A commit or a reservation extends the current generation only. -/
theorem Ordered.extends {s t : Flusher} (h : Ordered s) (hst : Extends s t) : Ordered t := by
  have hcur := h.current_start
  have hlsn := hst.flushedLsn
  have hversion := hst.version
  have hcount := hst.count
  constructor
  case start_le =>
    intro i hi
    rw [hst.rotated i (by omega)]
    exact h.start_le i (by omega)
  case current_start =>
    rw [hcount, hst.start]
    omega
  case flush_le_start =>
    intro i j hij hj
    have hle := h.flush_le_start i j hij (by omega)
    rw [hst.rotated i (by omega)]
    by_cases hjc : j = s.count
    · rw [hjc, hst.start, ← hjc]
      exact hle
    · rw [hst.rotated j hjc]
      exact hle
  case version_le =>
    intro i j hij hj
    have hle := h.version_le i j hij (by omega)
    by_cases hic : i = s.count
    · rw [show j = i by omega]
    · -- an older generation: it stays, and the current one only grows
      rw [hst.rotated i hic]
      by_cases hjc : j = s.count
      · rw [hjc] at hle ⊢
        omega
      · rw [hst.rotated j hjc]
        exact hle
  case commits =>
    intro i hi c hc
    by_cases hic : i = s.count
    · rw [hic] at hc ⊢
      rw [hst.start]
      rcases hst.commits c hc with hc | ⟨hlt, hle⟩
      · -- an older commit, under a version that did not go down
        have := h.commits s.count le_rfl c hc
        omega
      · omega
    · rw [hst.rotated i hic] at hc ⊢
      exact h.commits i (by omega) c hc

/-- What a rotation does to the generations. -/
theorem rotate_gens (i : Nat) : s.rotate.gens i =
      if i = s.count + 1 then
        ⟨s.flushedLsn, 0, (s.gens s.count).currentVersion, [], .held, none, none, false, false⟩
      else if i = s.count then { s.gens s.count with walLsnAtFlush := s.flushedLsn }
      else s.gens i := by
  by_cases hnew : i = s.count + 1
  · rw [if_pos hnew, hnew]
    exact gens_update_self _ _ _
  · rw [if_neg hnew]
    have hold : s.rotate.gens i = (s.update s.count { s.gens s.count with
        walLsnAtFlush := s.flushedLsn }).gens i := gens_update_of_ne _ _ hnew
    by_cases hcur : i = s.count
    · rw [if_pos hcur, hold, hcur, gens_update_self]
    · rw [if_neg hcur, hold, gens_update_of_ne _ _ hcur]

theorem rotate_gens_of_lt {i : Nat} (hi : i < s.count) : s.rotate.gens i = s.gens i := by
  rw [rotate_gens, if_neg (by omega), if_neg (by omega)]

theorem rotate_gens_count :
    s.rotate.gens s.count = { s.gens s.count with walLsnAtFlush := s.flushedLsn } := by
  rw [rotate_gens, if_neg (by omega), if_pos rfl]

theorem rotate_gens_new : s.rotate.gens (s.count + 1) =
      ⟨s.flushedLsn, 0, (s.gens s.count).currentVersion, [], .held, none, none, false, false⟩ := by
  rw [rotate_gens, if_pos rfl]

theorem rotate_ordered {s : Flusher} (h : Ordered s) : Ordered s.rotate := by
  have hcur := h.current_start
  have hcount : s.rotate.count = s.count + 1 := rfl
  constructor
  case start_le =>
    intro i hi
    by_cases hic : i = s.count
    · rw [hic, rotate_gens_count]
      exact hcur
    · rw [rotate_gens_of_lt s (by omega)]
      exact h.start_le i (by omega)
  case current_start =>
    rw [hcount, rotate_gens_new]
    exact le_rfl
  case flush_le_start =>
    intro i j hij hj
    by_cases hjn : j = s.count + 1
    · rw [hjn, rotate_gens_new]
      by_cases hic : i = s.count
      · rw [hic, rotate_gens_count]
      · rw [rotate_gens_of_lt s (by omega)]
        exact le_trans (h.flush_le_start i s.count (by omega) le_rfl) hcur
    · have hle := h.flush_le_start i j hij (by omega)
      rw [rotate_gens_of_lt s (by omega)]
      by_cases hjc : j = s.count
      · rw [hjc] at hle ⊢
        rw [rotate_gens_count]
        exact hle
      · rw [rotate_gens_of_lt s (by omega)]
        exact hle
  case version_le =>
    -- the new generation goes on from the old one's version
    have hv : ∀ i ≤ s.count + 1, (s.rotate.gens i).currentVersion =
        (s.gens (min i s.count)).currentVersion := by
      intro i hi
      rw [rotate_gens]
      split
      · rw [show min i s.count = s.count by omega]
      · split
        · rw [show min i s.count = s.count by omega]
        · rw [show min i s.count = i by omega]
    intro i j hij hj
    rw [hv i (by omega), hv j (by omega)]
    exact h.version_le _ _ (by omega) (by omega)
  case commits =>
    intro i hi c hc
    by_cases hin : i = s.count + 1
    · rw [hin, rotate_gens_new] at hc
      exact absurd hc (List.not_mem_nil)
    · by_cases hic : i = s.count
      · rw [hic, rotate_gens_count] at hc ⊢
        exact h.commits s.count le_rfl c hc
      · rw [rotate_gens_of_lt s (by omega)] at hc ⊢
        exact h.commits i (by omega) c hc

end Order

end Flush

end UniDb
