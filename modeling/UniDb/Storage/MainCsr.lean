import Mathlib.Algebra.Ring.Nat
import Mathlib.Data.List.Count
import UniDb.Common.Value
import UniDb.Lib.SortedList

/-!
# The Main CSR

Adjacency lists of all vertices, packed into two vectors.

The entries of all vertices stand in one vector, ordered by vertex, and
`offsets` says where the entries of each vertex begin. `fromEdgeEntries` builds
both in one pass over the sorted rows: a row of a later vertex first writes the
offsets of all vertices it skips. `Build.Packed` is the invariant of that
pass: the offset of a vertex is the number of rows of smaller vertices, and so
reading a vertex returns exactly the rows that were given for it.

## Main definitions

* `MainCsr.fromEdgeEntries`: Pack the rows.
* `MainCsr.getEntries`: The entries of one vertex.
* `MainCsr.vidsWithEntries`: The vertices that have entries.

## Theorems

* `Build.Packed.push`: One round of the pass keeps the invariant.
* `getEntries_fromEdgeEntries`: The rows of a vertex are read back in their order.
* `mem_vidsWithEntries`: The enumeration is the set of vertices that have some.
* `fromEdgeEntries_exact_iff`: Packing loses nothing that can be read.
-/

namespace UniDb

open List

namespace Adjacency

structure CsrEdgeEntry where
  neighborVid : Vid
  eid : Eid
  createdVersion : Nat
  deriving DecidableEq, Repr

/-- An edge as the adjacency of `src` lists it. -/
structure EdgeRow where
  src : Nat
  entry : CsrEdgeEntry
  deriving DecidableEq, Repr

/-- The entries of vertex `i` are those from `offsets[i]` to `offsets[i + 1]`. -/
structure MainCsr where
  offsets : List Nat
  entries : List CsrEdgeEntry
  deriving DecidableEq, Repr

/-- The vectors as far as they are built, and where the pass is. -/
structure Build where
  offsets : List Nat
  entries : List CsrEdgeEntry
  currentOffset : Nat
  lastSrc : Nat

/-- Write a value to the offsets from `lo` on and below `hi`. -/
def fillOffsets (offsets : List Nat) (lo hi value : Nat) : List Nat :=
  offsets.mapIdx fun i o => if lo ≤ i ∧ i < hi then value else o

namespace Build

def push (b : Build) (r : EdgeRow) : Build where
  offsets :=
    if b.lastSrc < r.src then fillOffsets b.offsets (b.lastSrc + 1) (r.src + 1) b.currentOffset
    else b.offsets
  entries := b.entries ++ [r.entry]
  currentOffset := b.currentOffset + 1
  lastSrc := r.src

def start (maxVidOffset : Nat) : Build where
  offsets := replicate (maxVidOffset + 2) 0
  entries := []
  currentOffset := 0
  lastSrc := 0

/-- The offsets after the last row are the end of the entries. -/
def finish (b : Build) : MainCsr where
  offsets := fillOffsets b.offsets (b.lastSrc + 1) b.offsets.length b.currentOffset
  entries := b.entries

end Build

namespace MainCsr

def fromEdgeEntries (maxVidOffset : Nat) (raw : List EdgeRow) : MainCsr :=
  if raw = [] then ⟨[0], []⟩
  else ((raw.insertionSort (·.src ≤ ·.src)).foldl Build.push (Build.start maxVidOffset)).finish

def getEntries (csr : MainCsr) (vid : Nat) : List CsrEdgeEntry :=
  if csr.offsets.length ≤ vid + 1 then []
  else
    let start := csr.offsets.getD vid 0
    let stop := csr.offsets.getD (vid + 1) 0
    if csr.entries.length ≤ start ∨ csr.entries.length < stop then []
    else (csr.entries.drop start).take (stop - start)

/-- The read of a 64-bit id. The bound of the largest one overflows, and a slice that ends before
    it starts panics. -/
def getEntriesChecked (csr : MainCsr) (vid : UInt64) : Option (List CsrEdgeEntry) :=
  if 2 ^ 64 ≤ vid.toNat + 1 then none
  else if csr.offsets.length ≤ vid.toNat + 1 then some []
  else if csr.offsets.getD vid.toNat 0 ≤ csr.offsets.getD (vid.toNat + 1) 0 then
    some (csr.getEntries vid.toNat)
  else none

/-- `fromEdgeEntries` with the panic of an offset vector of more than `isize::MAX` bytes. -/
def fromEdgeEntriesChecked (maxVidOffset : UInt64) (raw : List EdgeRow) : Option MainCsr :=
  if raw ≠ [] ∧ 2 ^ 63 ≤ 4 * (maxVidOffset.toNat + 2) then none
  else some (fromEdgeEntries maxVidOffset.toNat raw)

def readBack (maxVidOffset : UInt64) (raw : List EdgeRow) (vid : UInt64) :
    Option (List CsrEdgeEntry) :=
  (fromEdgeEntriesChecked maxVidOffset raw).bind (getEntriesChecked · vid)

def numVertices (csr : MainCsr) : Nat := csr.offsets.length - 1

def vidsWithEntries (csr : MainCsr) : List Nat :=
  (List.range csr.numVertices).filter fun i =>
    decide (csr.offsets.getD i 0 < csr.offsets.getD (i + 1) 0) &&
      decide (csr.offsets.getD (i + 1) 0 ≤ csr.entries.length)

end MainCsr

theorem fillOffsets_length (offsets : List Nat) (lo hi value : Nat) :
    (fillOffsets offsets lo hi value).length = offsets.length := by
  rw [fillOffsets, length_mapIdx]

theorem fillOffsets_getD {offsets : List Nat} {i : Nat} (hi : i < offsets.length)
    (lo hi' value : Nat) : (fillOffsets offsets lo hi' value).getD i 0 =
      if lo ≤ i ∧ i < hi' then value else offsets.getD i 0 := by
  simp [fillOffsets, getD_eq_getElem?_getD, getElem?_eq_getElem hi]

/-- The number of rows of vertices below `i`. -/
def rowsBelow (rows : List EdgeRow) (i : Nat) : Nat :=
  rows.countP fun r => decide (r.src < i)

theorem rowsBelow_append (rows rest : List EdgeRow) (i : Nat) :
    rowsBelow (rows ++ rest) i = rowsBelow rows i + rowsBelow rest i :=
  countP_append

variable {rows : List EdgeRow}

theorem rowsBelow_of_forall {i : Nat} (h : ∀ r ∈ rows, r.src < i) :
    rowsBelow rows i = rows.length := by
  rw [rowsBelow, countP_eq_length]
  exact fun r hr => decide_eq_true (h r hr)

/-- What the pass has built after the rows `done`, for `size` offsets. -/
structure Build.Packed (size : Nat) (done : List EdgeRow) (b : Build) : Prop where
  length_eq : b.offsets.length = size
  entries_eq : b.entries = done.map EdgeRow.entry
  current_eq : b.currentOffset = done.length
  src_le : ∀ r ∈ done, r.src ≤ b.lastSrc
  offset_eq : ∀ i ≤ b.lastSrc, i < size → b.offsets.getD i 0 = rowsBelow done i

namespace Build.Packed

variable {size : Nat} {done : List EdgeRow} {b : Build}

theorem start (maxVidOffset : Nat) : Packed (maxVidOffset + 2) [] (Build.start maxVidOffset) where
  length_eq := length_replicate
  entries_eq := rfl
  current_eq := rfl
  src_le := nofun
  offset_eq := by
    intro i _ hi
    simp [Build.start, getD_eq_getElem?_getD, hi, rowsBelow]

theorem rowsBelow_eq (h : Packed size done b) {i : Nat} (hi : b.lastSrc < i) :
    rowsBelow done i = done.length :=
  rowsBelow_of_forall fun r hr => lt_of_le_of_lt (h.src_le r hr) hi

/-- One round of the pass. The rows come sorted, so `r` is not before the last row. -/
theorem push (h : Packed size done b) {r : EdgeRow} (hr : b.lastSrc ≤ r.src) :
    Packed size (done ++ [r]) (b.push r) := by
  have hsingle : ∀ i ≤ r.src, rowsBelow [r] i = 0 := by
    intro i hi
    simp only [rowsBelow, countP_singleton, decide_eq_true_eq]
    rw [if_neg (by omega)]
  constructor
  case length_eq =>
    simp only [Build.push]
    split
    · rw [fillOffsets_length, h.length_eq]
    · exact h.length_eq
  case entries_eq => simp [Build.push, h.entries_eq]
  case current_eq => simp [Build.push, h.current_eq]
  case src_le =>
    intro r' hr'
    rcases mem_append.mp hr' with hold | hnew
    · exact le_trans (h.src_le r' hold) hr
    · exact le_of_eq (congrArg EdgeRow.src (mem_singleton.mp hnew))
  case offset_eq =>
    intro i hi hsize
    have hi' : i ≤ r.src := hi
    rw [rowsBelow_append, hsingle i hi', Nat.add_zero]
    simp only [Build.push]
    by_cases hlast : i ≤ b.lastSrc
    · -- an offset that was written before
      have hold := h.offset_eq i hlast hsize
      split
      · rw [fillOffsets_getD (by rw [h.length_eq]; exact hsize), if_neg (by omega), hold]
      · exact hold
    · -- an offset that this row skips: all rows so far are of smaller vertices
      rw [if_pos (by omega), fillOffsets_getD (by rw [h.length_eq]; exact hsize),
        if_pos (by omega), h.current_eq, h.rowsBelow_eq (by omega)]

theorem foldl (h : Packed size done b)
    (hsorted : rows.Pairwise fun a b => a.src ≤ b.src) (hfrom : ∀ r ∈ rows, b.lastSrc ≤ r.src) :
    Packed size (done ++ rows) (rows.foldl Build.push b) := by
  induction rows generalizing done b with
  | nil =>
    rw [append_nil]
    exact h
  | cons r rows ih =>
    rw [pairwise_cons] at hsorted
    rw [foldl_cons, append_cons]
    exact ih (h.push (hfrom r mem_cons_self)) hsorted.2 hsorted.1

/-- The offset of each vertex is the number of rows of smaller vertices. -/
theorem finish_offset (h : Packed size done b) {i : Nat} (hi : i < size) :
    b.finish.offsets.getD i 0 = rowsBelow done i := by
  have hlen : i < b.offsets.length := by rw [h.length_eq]; exact hi
  rw [Build.finish, fillOffsets_getD hlen]
  by_cases hlast : i ≤ b.lastSrc
  · rw [if_neg (by omega), h.offset_eq i hlast hi]
  · rw [if_pos (by omega), h.current_eq, h.rowsBelow_eq (by omega)]

end Build.Packed

namespace MainCsr

instance : Std.Total fun a b : EdgeRow => a.src ≤ b.src := ⟨fun a b => Nat.le_total a.src b.src⟩

instance : IsTrans EdgeRow fun a b => a.src ≤ b.src := ⟨fun _ _ _ => Nat.le_trans⟩

theorem getEntries_of_packed {size : Nat} {b : Build} (h : b.Packed size rows)
    (hsorted : rows.Pairwise fun a b => a.src ≤ b.src) {vid : Nat} (hvid : vid + 1 < size) :
    b.finish.getEntries vid = (rows.filter fun r => decide (r.src = vid)).map EdgeRow.entry := by
  have hlen : b.finish.offsets.length = size := by
    rw [Build.finish, fillOffsets_length, h.length_eq]
  have hentries : b.finish.entries = rows.map EdgeRow.entry := h.entries_eq
  have hstart := h.finish_offset (i := vid) (by omega)
  have hstop := h.finish_offset hvid
  have hbelow : rowsBelow (rows.filter fun r => decide (r.src < vid + 1)) vid =
      rowsBelow rows vid := by
    rw [rowsBelow, countP_filter]
    refine countP_congr fun r _ => ?_
    simp only [Bool.and_eq_true, decide_eq_true_eq]
    omega
  -- the rows before `vid + 1`, and those of them that are not before `vid`
  have htake : (rows.drop (rowsBelow rows vid)).take
    (rowsBelow rows (vid + 1) - rowsBelow rows vid) =
      rows.filter fun r => decide (r.src = vid) := by
    have hlow : rows.take (rowsBelow rows (vid + 1)) = _ := take_countP_lt hsorted (vid + 1)
    rw [← drop_take, hlow, ← hbelow, rowsBelow, drop_countP_lt (hsorted.filter _), filter_filter]
    refine filter_congr fun r _ => ?_
    rw [Bool.eq_iff_iff]
    simp only [Bool.and_eq_true, decide_eq_true_eq]
    omega
  rw [getEntries, if_neg (by omega)]
  simp only [hstart, hstop, hentries, length_map]
  split
  · rename_i hempty
    have hle : rowsBelow rows (vid + 1) ≤ rows.length := countP_le_length
    have hnone : rows.drop (rowsBelow rows vid) = [] := drop_eq_nil_of_le (by omega)
    rw [← htake, hnone, take_nil, map_nil]
  · rw [← htake, map_take, map_drop]

/-- The sort keeps the order of the rows of one vertex. -/
theorem filter_insertionSort (raw : List EdgeRow) (vid : Nat) :
    (raw.insertionSort (·.src ≤ ·.src)).filter (fun r => decide (r.src = vid)) =
      raw.filter fun r => decide (r.src = vid) := by
  have hsame : (raw.filter fun r => decide (r.src = vid)).Pairwise fun a b => a.src ≤ b.src := by
    refine pairwise_of_forall_mem_list fun a ha b hb => le_of_eq ?_
    rw [of_decide_eq_true (mem_filter.mp ha).2, of_decide_eq_true (mem_filter.mp hb).2]
  have hsub := (sublist_insertionSort hsame filter_sublist).filter fun r => decide (r.src = vid)
  simp only [filter_filter, Bool.and_self] at hsub
  exact (hsub.eq_of_length ((perm_insertionSort _ raw).filter _).length_eq.symm).symm

variable {maxVidOffset : Nat} {raw : List EdgeRow}

theorem fromEdgeEntries_packed (maxVidOffset : Nat) (hraw : raw ≠ []) :
    ∃ b : Build, fromEdgeEntries maxVidOffset raw = b.finish ∧
      b.Packed (maxVidOffset + 2) (raw.insertionSort (·.src ≤ ·.src)) := by
  have hsorted := pairwise_insertionSort (fun a b : EdgeRow => a.src ≤ b.src) raw
  have hpacked := (Build.Packed.start maxVidOffset).foldl hsorted fun r _ => Nat.zero_le r.src
  exact ⟨_, if_neg hraw, hpacked⟩

/-- Reading a vertex returns the rows that were packed for it, in their order. -/
theorem getEntries_fromEdgeEntries (hmax : ∀ r ∈ raw, r.src ≤ maxVidOffset) (vid : Nat) :
    (fromEdgeEntries maxVidOffset raw).getEntries vid =
      (raw.filter fun r => decide (r.src = vid)).map EdgeRow.entry := by
  by_cases hraw : raw = []
  · simp [hraw, fromEdgeEntries, getEntries]
  obtain ⟨b, hb, hpacked⟩ := fromEdgeEntries_packed maxVidOffset hraw
  rw [hb]
  by_cases hvid : vid ≤ maxVidOffset
  · rw [getEntries_of_packed hpacked (pairwise_insertionSort _ raw) (by omega),
      filter_insertionSort]
  · -- no row has a vertex above the maximum, and the offsets end there
    have hlen := hpacked.length_eq
    rw [getEntries, if_pos (by rw [Build.finish, fillOffsets_length, hlen]; omega),
      filter_eq_nil_iff.mpr, map_nil]
    intro r hr
    have hle := hmax r hr
    simp only [decide_eq_true_eq]
    omega

theorem mem_getEntries_fromEdgeEntries (hmax : ∀ r ∈ raw, r.src ≤ maxVidOffset) (vid : Nat)
    (e : CsrEdgeEntry) :
    e ∈ (fromEdgeEntries maxVidOffset raw).getEntries vid ↔ ⟨vid, e⟩ ∈ raw := by
  rw [getEntries_fromEdgeEntries hmax]
  simp only [mem_map, mem_filter, decide_eq_true_eq]
  constructor
  · rintro ⟨r, ⟨hr, rfl⟩, rfl⟩
    exact hr
  · intro he
    exact ⟨⟨vid, e⟩, ⟨he, rfl⟩, rfl⟩

theorem getEntries_of_le {csr : MainCsr} {vid : Nat} (h : csr.numVertices ≤ vid) :
    csr.getEntries vid = [] := by
  rw [numVertices] at h
  rw [getEntries, if_pos (by omega)]

/-- The enumerated vertices are those for which a read returns something. -/
theorem mem_vidsWithEntries (csr : MainCsr) (vid : Nat) :
    vid ∈ csr.vidsWithEntries ↔ csr.getEntries vid ≠ [] := by
  by_cases hvid : csr.offsets.length ≤ vid + 1
  · rw [getEntries, if_pos hvid, vidsWithEntries, numVertices, mem_filter, mem_range]
    simp only [ne_eq, not_true_eq_false, iff_false, not_and]
    omega
  · rw [getEntries, if_neg hvid, vidsWithEntries, numVertices]
    simp only [mem_filter, mem_range, Bool.and_eq_true, decide_eq_true_eq]
    split
    · simp only [ne_eq, not_true_eq_false, iff_false, not_and]
      omega
    · rename_i hbounds
      rw [ne_eq, ← length_eq_zero_iff, length_take, length_drop]
      omega

theorem getEntriesChecked_fromEdgeEntries (vid : UInt64) :
    (fromEdgeEntries maxVidOffset raw).getEntriesChecked vid =
      if 2 ^ 64 ≤ vid.toNat + 1 then none
      else some ((fromEdgeEntries maxVidOffset raw).getEntries vid.toNat) := by
  unfold getEntriesChecked
  split
  · rfl
  · split
    · next hlen => rw [getEntries, if_pos hlen]
    · next hlen =>
      rw [if_pos]
      by_cases hraw : raw = []
      · simp [hraw, fromEdgeEntries] at hlen
      obtain ⟨b, hb, hpacked⟩ := fromEdgeEntries_packed maxVidOffset hraw
      rw [hb, Build.finish, fillOffsets_length, hpacked.length_eq] at hlen
      rw [hb, hpacked.finish_offset (by omega), hpacked.finish_offset (by omega)]
      refine countP_mono_left fun r _ hr => ?_
      rw [decide_eq_true_eq] at hr ⊢
      omega

/-- A read returns the rows of its vertex in their order, and none for a vertex above the maximum,
    exactly if it is not the read of the largest id and the offsets can be allocated; the
    enumeration has the sources that occur. -/
theorem fromEdgeEntries_exact_iff {maxVidOffset : UInt64}
    (hmax : ∀ r ∈ raw, r.src ≤ maxVidOffset.toNat) :
    (∀ vid : UInt64, (readBack maxVidOffset raw vid =
        some ((raw.filter fun r => decide (r.src = vid.toNat)).map EdgeRow.entry) ∧
      (maxVidOffset < vid → readBack maxVidOffset raw vid = some [])) ↔
        vid.toNat ≠ 2 ^ 64 - 1 ∧ (raw = [] ∨ maxVidOffset.toNat < 2 ^ 61 - 2)) ∧
    ∀ csr ∈ fromEdgeEntriesChecked maxVidOffset raw, csr.vidsWithEntries.Pairwise (· < ·) ∧
      ∀ vid, vid ∈ csr.vidsWithEntries ↔ ∃ r ∈ raw, r.src = vid := by
  unfold readBack fromEdgeEntriesChecked
  split
  · next hlarge =>
    -- the offsets cannot be allocated
    refine ⟨fun vid => iff_of_false (fun h => nomatch h.1) fun h => ?_, nofun⟩
    rcases h.2 with hraw | hlt
    · exact hlarge.1 hraw
    · omega
  · next hfits =>
    have hroom : raw = [] ∨ maxVidOffset.toNat < 2 ^ 61 - 2 := by
      rw [Classical.or_iff_not_imp_left]
      intro hraw
      have hsize := mt (And.intro hraw) hfits
      omega
    refine ⟨fun vid => ?_, ?_⟩
    · have hlt := vid.toNat_lt
      rw [Option.bind_some, getEntriesChecked_fromEdgeEntries, getEntries_fromEdgeEntries hmax,
        and_iff_left hroom]
      split
      -- the largest id: its successor overflows
      · simp only [reduceCtorEq, false_and, false_iff]
        omega
      · refine iff_of_true ⟨rfl, fun hvid => ?_⟩ (by omega)
        rw [filter_eq_nil_iff.mpr, map_nil]
        intro r hr
        have hle := hmax r hr
        rw [UInt64.lt_iff_toNat_lt] at hvid
        simp only [decide_eq_true_eq]
        omega
    · rintro csr ⟨⟩
      refine ⟨pairwise_lt_range.filter _, fun vid => ?_⟩
      rw [mem_vidsWithEntries, getEntries_fromEdgeEntries hmax, Ne, map_eq_nil_iff]
      simp

/-- Three rows of two vertices, and none of the vertex between them. -/
theorem fromEdgeEntries_three :
    readBack 2 [⟨2, 0, 7, 1⟩, ⟨0, 2, 8, 1⟩, ⟨2, 2, 9, 1⟩] 2 = some [⟨0, 7, 1⟩, ⟨2, 9, 1⟩] :=
  (((fromEdgeEntries_exact_iff (by decide)).1 2).mpr (by decide)).1

/-- The bounds check of the largest id overflows. -/
theorem readBack_largest : readBack 0 [⟨0, 0, 7, 1⟩] 0xFFFFFFFFFFFFFFFF = none := by decide

end MainCsr

end Adjacency

end UniDb
