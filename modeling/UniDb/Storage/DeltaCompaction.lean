import UniDb.Lib.Run
import UniDb.Storage.DeltaMerge

/-!
# Adjacency Compaction

A compaction of an edge type folds the delta log of one direction (L1) into the
adjacency table of that direction (L2). It scans the log, keeps the deltas at or
below a floor, reads L2, folds the deltas, replaces L2 by the outcome, and last
deletes the folded deltas from the log. The two writes are not one transaction.

A reader has a version ceiling. L2 carries no versions, so whatever is folded is
visible to everyone, and a floor at or below the ceiling of every reader is what
makes this safe.

The pass is modelled step by step, with flushes in between, and it may stop after
any step: a crash, a cancellation and an error leave the tables as they are. There
is one error that does not stop it. Before it reads L2, a pass asks the backend
whether the table is there, and a request that fails counts as a no. The pass then
replaces L2 by the folded deltas alone, and whatever else was in it is lost
(`failed_check_loses_edges`). `Allowed` excludes this.

All that matters for readers of the other passes is that L2 with the folded deltas
still in the log reads like L2 before, and like L2 without them after. Both come from
the two rules for logs of writes: applying a log twice is applying it once, and newer
writes are applied last.

The tables of the two directions are compacted one by one. What readers get from
each only depends on what was flushed to it, so the directions cannot drift apart.

## Main definitions

* `EdgeTables`, `EdgeTables.step`: The tables of one direction, and the steps of a
  pass.
* `EdgeTables.edges`: What a reader gets.
* `Allowed`: Flushes are newer than the log, floors at or below the ceiling, and no
  request for a table that is there fails.

## Theorems

* `edgeSet_step`: Only a flush changes what a reader gets.
* `edgeSet_run`: What a reader gets after any run.
* `compactAdjacency_keeps_edges`: The same for both directions together.
* `failed_check_loses_edges`: A pass whose existence check fails.
-/

namespace UniDb

open List Option

namespace Adjacency

/-! ## The pass -/

/-- The deltas that a pass folds. -/
def retainAtFloor (floor : Option Nat) (deltas : List L1Entry) : List L1Entry :=
  match floor with
  | none => deltas
  | some f => deltas.filter (·.version ≤ f)

/-- The newest version that was folded. -/
def clearHwm (deltas : List L1Entry) : Nat := (deltas.map L1Entry.version).foldr max 0

def deleteUpToVersion (deltas : List L1Entry) (hwm : Nat) : List L1Entry :=
  deltas.filter fun entry => ¬ entry.version ≤ hwm

/-- How far a pass has come. It holds the deltas that it folds. -/
inductive Pass
  | idle
  | scanned (deltas : List L1Entry)
  | built (deltas : List L1Entry) (merged : List AdjacencyRow)
  | replaced (deltas : List L1Entry)

/-- The tables of an edge type in one direction, and the pass over them. -/
structure EdgeTables where
  rows : List AdjacencyRow
  deltas : List L1Entry
  pass : Pass

/-- What can happen to the tables. A pass that is cancelled, fails or crashes stops where it is. -/
inductive TableStep
  | flush (batch : List L1Entry)
  | scan (floor : Option Nat)
  /-- Whether the request for the existence of L2 fails. -/
  | build (checkFails : Bool)
  | replace
  | clear
  | stop

/-- One step of a pass or of a flush. There is one pass at a time. -/
def EdgeTables.step (side : Side) (t : EdgeTables) : TableStep → Option EdgeTables
  | .flush batch => some { t with deltas := t.deltas ++ batch }
  | .scan floor =>
    match t.pass with
    | .idle =>
      -- without deltas to fold the pass returns at once
      if (retainAtFloor floor t.deltas).isEmpty then some t
      else some { t with pass := .scanned (retainAtFloor floor t.deltas) }
    | _ => none
  | .build checkFails =>
    match t.pass with
    | .scanned deltas =>
      -- unwrap_or(false): L2 is not read
      let rows := if checkFails then [] else t.rows
      some { t with pass := .built deltas (mergeAdjacency side rows deltas) }
    | _ => none
  | .replace =>
    match t.pass with
    | .built deltas merged => some { t with rows := merged, pass := .replaced deltas }
    | _ => none
  | .clear =>
    match t.pass with
    | .replaced deltas =>
      some { t with deltas := deleteUpToVersion t.deltas (clearHwm deltas), pass := .idle }
    | _ => none
  | .stop => some { t with pass := .idle }

/-- The tables of both directions. -/
abbrev EdgeTypeTables := Side → EdgeTables

def EdgeTypeTables.step (s : EdgeTypeTables) (a : Side × TableStep) : Option EdgeTypeTables :=
  ((s a.1).step a.1 a.2).map (Function.update s a.1)

/-- The edges that a reader with a ceiling gets. -/
def EdgeTables.edges (side : Side) (ceiling : Nat) (t : EdgeTables) : List ListedEdge :=
  applyVisible side ceiling (storedEdges t.rows) t.deltas

/-! ## The steps -/

def AtOrAbove (floor : Option Nat) (deltas : List L1Entry) (ceiling : Nat) : Prop :=
  match floor with
  | none => ∀ entry ∈ deltas, entry.version ≤ ceiling
  | some f => f ≤ ceiling

/-- Flushes append deltas that are newer than the log, the floor of a pass is not above the
    ceiling, and the existence check fails for an L2 without rows at most. -/
def EdgeTables.Allowed (ends : Eid → EdgeEnds) (ceiling : Nat) (t : EdgeTables) :
    TableStep → Prop
  | .flush batch => (∀ entry ∈ batch, entry.Fits ends) ∧ SingleDeltas batch ∧
      ∀ old ∈ t.deltas, ∀ entry ∈ batch, old.version < entry.version
  | .scan floor => AtOrAbove floor t.deltas ceiling
  | .build checkFails => checkFails = true → t.rows = []
  | _ => True

section Steps

variable {ends : Eid → EdgeEnds} {side : Side} {ceiling : Nat} {log folded batch : List L1Entry}

theorem le_clearHwm {entry : L1Entry} (h : entry ∈ folded) : entry.version ≤ clearHwm folded := by
  unfold clearHwm
  induction folded with
  | nil => cases h
  | cons x folded ih =>
    rw [map_cons, foldr_cons]
    rcases mem_cons.mp h with rfl | hmem
    · exact Nat.le_max_left _ _
    · exact (ih hmem).trans (Nat.le_max_right _ _)

theorem exists_clearHwm (h : folded ≠ []) : ∃ entry ∈ folded, entry.version = clearHwm folded := by
  unfold clearHwm
  induction folded with
  | nil => exact absurd rfl h
  | cons x folded ih =>
    rw [map_cons, foldr_cons]
    rcases Nat.le_total ((folded.map L1Entry.version).foldr max 0) x.version with hle | hle
    · exact ⟨x, mem_cons_self, (Nat.max_eq_left hle).symm⟩
    · rw [Nat.max_eq_right hle]
      by_cases hnil : folded = []
      · subst hnil
        exact ⟨x, mem_cons_self, Nat.le_zero.mp hle⟩
      · rcases ih hnil with ⟨entry, hentry, hversion⟩
        exact ⟨entry, mem_cons_of_mem _ hentry, hversion⟩

/-- The folded deltas are the older part of the log, and all readers in question see them. -/
structure Folds (ceiling : Nat) (log folded : List L1Entry) : Prop where
  ne_nil : folded ≠ []
  mem_iff : ∀ entry, entry ∈ folded ↔ entry ∈ log ∧ entry.version ≤ clearHwm folded
  visible : ∀ entry ∈ folded, entry.version ≤ ceiling
  single : SingleDeltas folded

theorem folds_retainAtFloor {floor : Option Nat} (hsingle : SingleDeltas log)
    (habove : AtOrAbove floor log ceiling) (hne : retainAtFloor floor log ≠ []) :
    Folds ceiling log (retainAtFloor floor log) := by
  cases floor with
  | none =>
    exact ⟨hne, fun entry => ⟨fun h => ⟨h, le_clearHwm h⟩, fun h => h.1⟩, habove, hsingle⟩
  | some f =>
    refine ⟨hne, fun entry => ⟨fun h => ?_, fun h => ?_⟩, fun entry h => ?_, ?_⟩
    · exact ⟨mem_of_mem_filter h, le_clearHwm h⟩
    · -- the newest folded version is below the floor, and so is the entry's
      rcases exists_clearHwm hne with ⟨top, htop, hversion⟩
      have hf : top.version ≤ f := by simpa using (mem_filter.mp htop).2
      exact mem_filter.mpr ⟨h.1, by simpa using h.2.trans (hversion ▸ hf)⟩
    · have hf : entry.version ≤ f := by simpa using (mem_filter.mp h).2
      exact hf.trans habove
    · exact List.Nodup.sublist (filter_sublist.map _) hsingle

/-- A flush is newer than what is folded. -/
theorem Folds.flush (h : Folds ceiling log folded)
    (hnewer : ∀ old ∈ log, ∀ entry ∈ batch, old.version < entry.version) :
    Folds ceiling (log ++ batch) folded := by
  refine ⟨h.ne_nil, fun entry => ?_, h.visible, h.single⟩
  rw [h.mem_iff, mem_append]
  constructor
  · rintro ⟨hmem, hle⟩
    exact ⟨.inl hmem, hle⟩
  · rintro ⟨hmem | hmem, hle⟩
    · exact ⟨hmem, hle⟩
    · rcases exists_clearHwm h.ne_nil with ⟨top, htop, hversion⟩
      have hlt := hnewer top ((h.mem_iff top).mp htop).1 entry hmem
      exact absurd hle (not_le.mpr (hversion ▸ hlt))

/-- A reader applies the folded deltas first, and then the rest of the log. -/
theorem Folds.overlay_eq (h : Folds ceiling log folded) (hsingle : SingleDeltas log)
    (base : Set ListedEdge) : (deltaWrites side).overlay (visibleDeltas ceiling log) base =
      (deltaWrites side).overlay (visibleDeltas ceiling (deleteUpToVersion log (clearHwm folded)))
        ((deltaWrites side).overlay folded base) := by
  have hnewer : ∀ old ∈ folded, ∀ entry ∈
      visibleDeltas ceiling (deleteUpToVersion log (clearHwm folded)),
      old.version < entry.version := by
    intro old hold entry hentry
    have hgt : ¬ entry.version ≤ clearHwm folded := by
      simpa using (mem_filter.mp (mem_of_mem_filter hentry)).2
    exact lt_of_le_of_lt (le_clearHwm hold) (not_le.mp hgt)
  have hparts : (deltaWrites side).Single
      (folded ++ visibleDeltas ceiling (deleteUpToVersion log (clearHwm folded))) := by
    have hrest : (deltaWrites side).Single
        (visibleDeltas ceiling (deleteUpToVersion log (clearHwm folded))) :=
      SingleDeltas.sublist side hsingle (filter_sublist.trans filter_sublist)
    exact WriteLog.Single.append (SingleDeltas.sublist side h.single
      (.refl _)) hrest hnewer
  rw [← WriteLog.overlay_append hnewer]
  refine WriteLog.overlay_congr hparts (SingleDeltas.sublist side hsingle filter_sublist)
    (fun entry => ?_) base
  simp only [visibleDeltas, deleteUpToVersion, mem_append, mem_filter, decide_eq_true_eq, h.mem_iff]
  constructor
  · rintro ⟨hmem, hle⟩
    by_cases hfold : entry.version ≤ clearHwm folded
    · exact .inl ⟨hmem, hfold⟩
    · exact .inr ⟨⟨hmem, hfold⟩, hle⟩
  · rintro (⟨hmem, hfold⟩ | ⟨⟨hmem, -⟩, hle⟩)
    · exact ⟨hmem, h.visible entry ((h.mem_iff entry).mpr ⟨hmem, hfold⟩)⟩
    · exact ⟨hmem, hle⟩

/-- What a pass relies on. After the replacement L2 has the folded deltas in it. -/
def Pass.Ready (side : Side) (ceiling : Nat) (rows : List AdjacencyRow) (log : List L1Entry) :
    Pass → Prop
  | .idle => True
  | .scanned folded => Folds ceiling log folded
  | .built folded merged => Folds ceiling log folded ∧ merged = mergeAdjacency side rows folded
  | .replaced folded => Folds ceiling log folded ∧
      (deltaWrites side).overlay folded {x | x ∈ storedEdges rows} = {x | x ∈ storedEdges rows}

/-- Edges are where they belong, and each edge has one delta per version. -/
structure EdgeTables.Fits (ends : Eid → EdgeEnds) (side : Side) (t : EdgeTables) : Prop where
  rows : RowsFit ends side t.rows
  deltas : ∀ entry ∈ t.deltas, entry.Fits ends
  single : SingleDeltas t.deltas

def EdgeTables.edgeSet (side : Side) (ceiling : Nat) (t : EdgeTables) : Set ListedEdge :=
  {x | x ∈ t.edges side ceiling}

theorem EdgeTables.Fits.edgeSet_eq {t : EdgeTables} (h : t.Fits ends side) :
    t.edgeSet side ceiling =
      (deltaWrites side).overlay (visibleDeltas ceiling t.deltas) {x | x ∈ storedEdges t.rows} :=
  mem_applyVisible h.single

/-- What a flush adds for a reader. -/
def flushInto (side : Side) (ceiling : Nat) (edges : Set ListedEdge) (batch : List L1Entry) :
    Set ListedEdge :=
  (deltaWrites side).overlay (visibleDeltas ceiling batch) edges

def TableStep.flushed : TableStep → Option (List L1Entry)
  | .flush batch => some batch
  | _ => none

/-- What holds of the tables at every step, for readers with the ceiling. -/
structure EdgeTables.Inv (ends : Eid → EdgeEnds) (side : Side) (ceiling : Nat) (t : EdgeTables) :
    Prop where
  fits : t.Fits ends side
  ready : t.pass.Ready side ceiling t.rows t.deltas

/-- The rows of L2 fit after a fold, since they and the deltas did before. -/
theorem rowsFit_mergeAdjacency {rows : List AdjacencyRow} (hrows : RowsFit ends side rows)
    (hdeltas : ∀ entry ∈ folded, entry.Fits ends) (hsingle : SingleDeltas folded) :
    RowsFit ends side (mergeAdjacency side rows folded) := by
  intro x hx
  have hmem : x ∈ (deltaWrites side).overlay folded {x | x ∈ storedEdges rows} := by
    rw [← storedEdges_mergeAdjacency hrows hdeltas hsingle]
    exact hx
  unfold WriteLog.overlay at hmem
  cases hnewest : (deltaWrites side).newest folded x.1 with
  | none =>
    simp only [Set.mem_ofPred_eq, hnewest, elim_none] at hmem
    exact hrows x hmem
  | some entry =>
    simp only [Set.mem_ofPred_eq, hnewest, elim_some] at hmem
    rcases WriteLog.mem_of_newest hnewest with ⟨hentry, heid⟩
    rw [← show entry.eid = x.1 from heid]
    exact (hdeltas entry hentry).listedAt_of_put hmem

section Step

variable {t : EdgeTables} (h : t.Inv ends side ceiling)

include h

theorem EdgeTables.Inv.flush (hallowed : t.Allowed ends ceiling (.flush batch)) :
    EdgeTables.Inv ends side ceiling { t with deltas := t.deltas ++ batch } ∧
      EdgeTables.edgeSet side ceiling { t with deltas := t.deltas ++ batch } =
        flushInto side ceiling (t.edgeSet side ceiling) batch := by
  rcases hallowed with ⟨hbatch, hsingle, hnewer⟩
  have hlog : SingleDeltas (t.deltas ++ batch) :=
    WriteLog.Single.append (SingleDeltas.sublist side h.fits.single (.refl _))
      (SingleDeltas.sublist side hsingle (.refl _)) hnewer
  have hfits : EdgeTables.Fits ends side { t with deltas := t.deltas ++ batch } := by
    exact ⟨h.fits.rows, forall_mem_append.mpr ⟨h.fits.deltas, hbatch⟩, hlog⟩
  refine ⟨⟨hfits, ?_⟩, ?_⟩
  · -- what is folded stays the older part of the log
    have hready := h.ready
    cases hpass : t.pass with
    | idle => trivial
    | scanned =>
      rw [hpass] at hready
      exact Folds.flush hready hnewer
    | built | replaced =>
      rw [hpass] at hready
      exact ⟨hready.1.flush hnewer, hready.2⟩
  · rw [hfits.edgeSet_eq, h.fits.edgeSet_eq]
    rw [visibleDeltas, filter_append]
    refine WriteLog.overlay_append (fun old hold entry hentry => ?_) _
    exact hnewer old (mem_of_mem_filter hold) entry (mem_of_mem_filter hentry)

/-- A step that only moves the pass on changes nothing for a reader. -/
theorem EdgeTables.Inv.pass_only {pass : Pass} (hready : pass.Ready side ceiling t.rows t.deltas) :
    EdgeTables.Inv ends side ceiling { t with pass := pass } ∧
      EdgeTables.edgeSet side ceiling { t with pass := pass } = t.edgeSet side ceiling :=
  ⟨⟨⟨h.fits.rows, h.fits.deltas, h.fits.single⟩, hready⟩, rfl⟩

/-- The folded deltas are still in the log, and they are applied once more. -/
theorem EdgeTables.Inv.replace {merged : List AdjacencyRow}
    (hpass : t.pass = .built folded merged) :
    EdgeTables.Inv ends side ceiling { t with rows := merged, pass := .replaced folded } ∧
      EdgeTables.edgeSet side ceiling { t with rows := merged, pass := .replaced folded } =
        t.edgeSet side ceiling := by
  have hready := h.ready
  rw [hpass] at hready
  rcases hready with ⟨hfolds, rfl⟩
  have hdeltas : ∀ entry ∈ folded, entry.Fits ends :=
    fun entry hentry => h.fits.deltas entry ((hfolds.mem_iff entry).mp hentry).1
  have hstored := storedEdges_mergeAdjacency h.fits.rows hdeltas hfolds.single
  have hfits : EdgeTables.Fits ends side
      { t with rows := mergeAdjacency side t.rows folded, pass := .replaced folded } :=
    ⟨rowsFit_mergeAdjacency h.fits.rows hdeltas hfolds.single, h.fits.deltas, h.fits.single⟩
  refine ⟨⟨hfits, hfolds, ?_⟩, ?_⟩
  · rw [hstored]
    exact WriteLog.overlay_overlay folded _
  · rw [hfits.edgeSet_eq, h.fits.edgeSet_eq]
    rw [hstored, hfolds.overlay_eq h.fits.single, hfolds.overlay_eq h.fits.single,
      WriteLog.overlay_overlay]

/-- The folded deltas are in L2, and the log can do without them. -/
theorem EdgeTables.Inv.clear (hpass : t.pass = .replaced folded) : EdgeTables.Inv ends side ceiling
      { t with deltas := deleteUpToVersion t.deltas (clearHwm folded), pass := .idle } ∧
      EdgeTables.edgeSet side ceiling
        { t with deltas := deleteUpToVersion t.deltas (clearHwm folded), pass := .idle } =
        t.edgeSet side ceiling := by
  have hready := h.ready
  rw [hpass] at hready
  rcases hready with ⟨hfolds, hstored⟩
  have hfits : EdgeTables.Fits ends side
      { t with deltas := deleteUpToVersion t.deltas (clearHwm folded), pass := .idle } :=
    ⟨h.fits.rows, fun entry hentry => h.fits.deltas entry (mem_of_mem_filter hentry),
      List.Nodup.sublist (filter_sublist.map _) h.fits.single⟩
  refine ⟨⟨hfits, trivial⟩, ?_⟩
  rw [hfits.edgeSet_eq, h.fits.edgeSet_eq, hfolds.overlay_eq h.fits.single, hstored]

/-- Only a flush changes what a reader gets. -/
theorem edgeSet_step {t' : EdgeTables} {a : TableStep} (hallowed : t.Allowed ends ceiling a)
    (hstep : t.step side a = some t') : t'.Inv ends side ceiling ∧ t'.edgeSet side ceiling =
      a.flushed.elim (t.edgeSet side ceiling) (flushInto side ceiling (t.edgeSet side ceiling))
        := by
  have hready := h.ready
  revert hstep
  fun_cases EdgeTables.step side t a <;> rintro ⟨⟩
  case case1 => exact h.flush hallowed
  -- nothing to fold: the pass is over before it has begun
  case case2 => exact ⟨h, rfl⟩
  case case3 hne =>
    rw [List.isEmpty_iff] at hne
    exact h.pass_only (folds_retainAtFloor h.fits.single hallowed hne)
  case case5 checkFails folded hpass rows =>
    rw [hpass] at hready
    have hrows : rows = t.rows := by
      by_cases hfails : checkFails = true
      · rw [hallowed hfails]
        exact if_pos hfails
      · exact if_neg hfails
    rw [hrows]
    exact h.pass_only ⟨hready, rfl⟩
  case case7 hpass => exact h.replace hpass
  case case9 hpass => exact h.clear hpass
  case case11 => exact h.pass_only trivial

end Step

end Steps

/-! ## Runs -/

def Allowed (ends : Eid → EdgeEnds) (ceiling : Nat) (s : EdgeTypeTables) (a : Side × TableStep) :
    Prop :=
  (s a.1).Allowed ends ceiling a.2

/-- The batches that a run flushes to one direction. -/
def flushedTo (side : Side) (as : List (Side × TableStep)) : List (List L1Entry) :=
  as.filterMap fun a => if a.1 = side then a.2.flushed else none

theorem flushedTo_cons (side : Side) (a : Side × TableStep) (as : List (Side × TableStep)) :
    flushedTo side (a :: as) =
      (if a.1 = side then a.2.flushed else none).toList ++ flushedTo side as := by
  unfold flushedTo
  rw [filterMap_cons]
  cases (if a.1 = side then a.2.flushed else none) <;> rfl

section Runs

variable {ends : Eid → EdgeEnds} {ceiling : Nat} {s t : EdgeTypeTables}
  {as : List (Side × TableStep)}

/-- What a reader gets after a run is what the flushes have made of it. -/
theorem edgeSet_run (hs : ∀ side, (s side).Inv ends side ceiling)
    (hallowed : EveryStep EdgeTypeTables.step (Allowed ends ceiling) s as)
    (hrun : run EdgeTypeTables.step s as = some t) (side : Side) : (t side).edgeSet side ceiling =
      (flushedTo side as).foldl (flushInto side ceiling) ((s side).edgeSet side ceiling) := by
  induction as generalizing s with
  | nil =>
    simp only [run, some.injEq] at hrun
    rw [← hrun]
    rfl
  | cons a as ih =>
    rcases run_cons hrun with ⟨s', hstep, hrest⟩
    have hallowed' := hallowed.2 s' hstep
    unfold EdgeTypeTables.step at hstep
    rcases map_eq_some_iff.mp hstep with ⟨table, htable, rfl⟩
    rcases edgeSet_step (hs a.1) hallowed.1 htable with ⟨hinv, hedges⟩
    have hs' : ∀ side, (Function.update s a.1 table side).Inv ends side ceiling := by
      intro other
      by_cases hother : other = a.1
      · subst hother
        rw [Function.update_self]
        exact hinv
      · rw [Function.update_of_ne hother]
        exact hs other
    rw [ih hs' hallowed' hrest]
    by_cases hside : side = a.1
    · subst hside
      rw [Function.update_self, hedges, flushedTo_cons, if_pos rfl, foldl_append]
      cases a.2.flushed <;> rfl
    · -- the other direction is not touched
      rw [Function.update_of_ne hside, flushedTo_cons, if_neg fun h => hside h.symm]
      rfl

theorem single_of_mem_flushedTo
    (hallowed : EveryStep EdgeTypeTables.step (Allowed ends ceiling) s as)
    (hrun : run EdgeTypeTables.step s as = some t) {side : Side} {batch : List L1Entry}
    (hbatch : batch ∈ flushedTo side as) : SingleDeltas batch := by
  induction as generalizing s with
  | nil => cases hbatch
  | cons a as ih =>
    rcases run_cons hrun with ⟨s', hstep, hrest⟩
    rcases mem_filterMap.mp hbatch with ⟨b, hb, hflushed⟩
    rcases mem_cons.mp hb with rfl | hmem
    · split at hflushed
      · have hfirst := hallowed.1
        unfold Allowed at hfirst
        cases hcase : b.2 with
        | flush =>
          rw [hcase] at hflushed hfirst
          exact some.inj hflushed ▸ hfirst.2.1
        | scan | build | replace | clear | stop => simp [hcase, TableStep.flushed] at hflushed
      · cases hflushed
    · exact ih (hallowed.2 s' hstep) hrest (mem_filterMap.mpr ⟨b, hmem, hflushed⟩)

/-- Batches applied one after the other, each in the order of its versions. -/
theorem mem_foldl_applyVisible (side : Side) (ceiling : Nat) {batches : List (List L1Entry)}
    (h : ∀ batch ∈ batches, SingleDeltas batch) (edges : List ListedEdge) :
    {x | x ∈ batches.foldl (applyVisible side ceiling) edges} =
      batches.foldl (flushInto side ceiling) {x | x ∈ edges} := by
  induction batches generalizing edges with
  | nil => rfl
  | cons batch batches ih =>
    rw [foldl_cons, foldl_cons, ih fun b hb => h b (mem_cons_of_mem _ hb),
      mem_applyVisible (h batch mem_cons_self)]
    rfl

/-- The two directions have the same edges. -/
def Mirrored (edges edges' : Set ListedEdge) : Prop :=
  ∀ eid u v, (eid, u, v) ∈ edges ↔ (eid, v, u) ∈ edges'

/-- A delta says the same to both directions. -/
theorem Mirrored.flush {edges edges' : Set ListedEdge} (h : Mirrored edges edges')
    {batch batch' : List L1Entry} (hb : SingleDeltas batch) (hb' : SingleDeltas batch')
    (hsame : ∀ entry, entry ∈ batch ↔ entry ∈ batch') :
    Mirrored (flushInto .fwd ceiling edges batch) (flushInto .bwd ceiling edges' batch') := by
  intro eid u v
  have hnewest : (deltaWrites .fwd).newest (visibleDeltas ceiling batch) eid =
      (deltaWrites .bwd).newest (visibleDeltas ceiling batch') eid := by
    refine WriteLog.newest_congr (SingleDeltas.sublist .bwd hb' filter_sublist)
      (SingleDeltas.sublist .bwd hb filter_sublist) (fun entry => ?_) eid
    simp [hsame]
  have hput : ∀ entry : L1Entry, (deltaWrites .fwd).put entry = some (u, v) ↔
      (deltaWrites .bwd).put entry = some (v, u) := by
    intro entry
    unfold deltaWrites
    cases hop : entry.op with
    | insert => simp [hop, L1Entry.endsAt, Side.dir, and_comm]
    | delete => simp [hop]
  show ((deltaWrites .fwd).newest _ eid).elim ((eid, u, v) ∈ edges) _ ↔
    ((deltaWrites .bwd).newest _ eid).elim ((eid, v, u) ∈ edges') _
  rw [hnewest]
  cases (deltaWrites .bwd).newest (visibleDeltas ceiling batch') eid with
  | none => exact h eid u v
  | some entry => exact hput entry

theorem Mirrored.flushes (ceiling : Nat) {edges edges' : Set ListedEdge} (h : Mirrored edges edges')
    {batches batches' : List (List L1Entry)}
    (hsame : List.Forall₂ (fun batch batch' => ∀ entry, entry ∈ batch ↔ entry ∈ batch')
      batches batches')
    (hb : ∀ batch ∈ batches, SingleDeltas batch) (hb' : ∀ batch ∈ batches', SingleDeltas batch) :
    Mirrored (batches.foldl (flushInto .fwd ceiling) edges)
      (batches'.foldl (flushInto .bwd ceiling) edges') := by
  induction hsame generalizing edges edges' with
  | nil => exact h
  | cons hfirst _ ih =>
    exact ih (h.flush (hb _ mem_cons_self) (hb' _ mem_cons_self) hfirst)
      (fun b hmem => hb b (mem_cons_of_mem _ hmem))
      fun b hmem => hb' b (mem_cons_of_mem _ hmem)

/-- Whatever passes run, stop and run again, with whatever floors at or below the ceiling of a
    reader, and whatever is flushed meanwhile: the reader gets from each direction what it got at
    first with the flushes applied, so nothing that a pass does shows. If both directions had the
    same edges and get the same flushes, then they keep having the same edges. -/
theorem compactAdjacency_keeps_edges (ends : Eid → EdgeEnds) (ceiling : Nat) (s t : EdgeTypeTables)
    (as : List (Side × TableStep)) (hs : ∀ side, (s side).Fits ends side ∧ (s side).pass = .idle)
    (hallowed : EveryStep EdgeTypeTables.step (Allowed ends ceiling) s as)
    (hrun : run EdgeTypeTables.step s as = some t) : (∀ side x, x ∈ (t side).edges side ceiling ↔
      x ∈ (flushedTo side as).foldl (applyVisible side ceiling) ((s side).edges side ceiling)) ∧
    ((∀ eid u v, (eid, u, v) ∈ (s .fwd).edges .fwd ceiling ↔
        (eid, v, u) ∈ (s .bwd).edges .bwd ceiling) →
      List.Forall₂ (fun batch batch' => ∀ entry, entry ∈ batch ↔ entry ∈ batch')
        (flushedTo .fwd as) (flushedTo .bwd as) →
      ∀ eid u v, (eid, u, v) ∈ (t .fwd).edges .fwd ceiling ↔
        (eid, v, u) ∈ (t .bwd).edges .bwd ceiling) := by
  have hinv : ∀ side, (s side).Inv ends side ceiling := by
    intro side
    rcases hs side with ⟨hfits, hidle⟩
    exact ⟨hfits, by rw [hidle]; trivial⟩
  have hedges := edgeSet_run hinv hallowed hrun
  have hsingle : ∀ side, ∀ batch ∈ flushedTo side as, SingleDeltas batch :=
    fun side batch hbatch => single_of_mem_flushedTo hallowed hrun hbatch
  refine ⟨fun side x => ?_, fun hmirror hsame => ?_⟩
  · have happly := mem_foldl_applyVisible side ceiling (hsingle side)
      ((s side).edges side ceiling)
    exact Set.ext_iff.mp ((hedges side).trans happly.symm) x
  · have hmirrored : Mirrored ((s .fwd).edgeSet .fwd ceiling) ((s .bwd).edgeSet .bwd ceiling) :=
      hmirror
    have hfolded := hmirrored.flushes ceiling hsame (hsingle .fwd) (hsingle .bwd)
    rw [← hedges .fwd, ← hedges .bwd] at hfolded
    exact hfolded

end Runs

/-- Edges from vertex 1, each to the vertex with its number. -/
def starEnds (eid : Eid) : EdgeEnds := ⟨1, eid, 0⟩

def starDelta (eid : Eid) (op : Op) (version : Nat) : L1Entry := ⟨1, eid, eid, op, version⟩

/-- L2 has the edge 7. The log deletes it and inserts the edge 8. -/
def starTables : EdgeTypeTables
  | .fwd => ⟨[⟨1, [(7, 7)]⟩], [starDelta 7 .delete 3, starDelta 8 .insert 2], .idle⟩
  | .bwd => ⟨[⟨7, [(1, 7)]⟩], [starDelta 7 .delete 3, starDelta 8 .insert 2], .idle⟩

/-- A pass over one direction that crashes between its two writes, with a flush in between, and a
    second pass that finishes. The other direction only gets the flush. -/
def starRun : List (Side × TableStep) :=
  [(.fwd, .scan (some 2)), (.fwd, .build false), (.fwd, .replace),
    (.fwd, .flush [starDelta 9 .insert 5]), (.fwd, .stop), (.bwd, .flush [starDelta 9 .insert 5]),
    (.fwd, .scan (some 3)), (.fwd, .build false), (.fwd, .replace), (.fwd, .clear)]

theorem compactAdjacency_keeps_edges_star :
    EveryStep EdgeTypeTables.step (Allowed starEnds 4) starTables starRun ∧
    ∃ t, run EdgeTypeTables.step starTables starRun = some t ∧
      (∀ x, x ∈ (t .fwd).edges .fwd 4 ↔ x = (8, 1, 8)) ∧
      ∀ eid u v, (eid, u, v) ∈ (t .fwd).edges .fwd 4 ↔ (eid, v, u) ∈ (t .bwd).edges .bwd 4 := by
  have hfits : ∀ side, (starTables side).Fits starEnds side ∧ (starTables side).pass = .idle := by
    intro side
    cases side with
    | fwd | bwd =>
      exact ⟨⟨by unfold RowsFit; decide, by unfold L1Entry.Fits; decide, by decide⟩, rfl⟩
  have hflush : ∀ t : EdgeTables, (∀ old ∈ t.deltas, old.version < 5) →
      t.Allowed starEnds 4 (.flush [starDelta 9 .insert 5]) := by
    intro t hold
    refine ⟨by unfold L1Entry.Fits; decide, by decide, fun old hmem entry hentry => ?_⟩
    rw [mem_singleton.mp hentry]
    exact hold old hmem
  have hallowed : EveryStep EdgeTypeTables.step (Allowed starEnds 4) starTables starRun := by
    refine everyStep_cons (show 2 ≤ 4 by decide) rfl (everyStep_cons (by rintro ⟨⟩) rfl
      (everyStep_cons trivial rfl (everyStep_cons (hflush _ (by decide)) rfl
        (everyStep_cons trivial rfl (everyStep_cons (hflush _ (by decide)) rfl
          (everyStep_cons (show 3 ≤ 4 by decide) rfl (everyStep_cons (by rintro ⟨⟩) rfl
            (everyStep_cons trivial rfl (everyStep_cons trivial rfl trivial)))))))))
  refine ⟨hallowed, _, rfl, ?_⟩
  have hkeeps := compactAdjacency_keeps_edges starEnds 4 starTables _ starRun hfits hallowed rfl
  refine ⟨fun x => (hkeeps.1 .fwd x).trans ?_, hkeeps.2 (fun eid u v => ?_) ?_⟩
  · have hread : (flushedTo .fwd starRun).foldl (applyVisible .fwd 4)
        ((starTables .fwd).edges .fwd 4) = [(8, 1, 8)] := by decide
    rw [hread, mem_singleton]
  · have hfwd : (starTables .fwd).edges .fwd 4 = [(8, 1, 8)] := by decide
    have hbwd : (starTables .bwd).edges .bwd 4 = [(8, 8, 1)] := by decide
    rw [hfwd, hbwd, mem_singleton, mem_singleton, Prod.mk.injEq, Prod.mk.injEq,
      Prod.mk.injEq, Prod.mk.injEq, and_comm (a := u = 1)]
  · exact List.Forall₂.cons (fun _ => Iff.rfl) List.Forall₂.nil

/-- L2 has the edge 7, and the log inserts the edge 8. -/
def uncheckedTables : EdgeTypeTables
  | .fwd => ⟨[⟨1, [(7, 7)]⟩], [starDelta 8 .insert 2], .idle⟩
  | .bwd => ⟨[⟨7, [(1, 7)]⟩], [starDelta 8 .insert 2], .idle⟩

/-- No write fails, and yet the edge 7 is gone from one direction. -/
theorem failed_check_loses_edges : ∃ t, run EdgeTypeTables.step uncheckedTables
      [(.fwd, .scan none), (.fwd, .build true), (.fwd, .replace), (.fwd, .clear)] = some t ∧
    (uncheckedTables .fwd).edges .fwd 4 = [(8, 1, 8), (7, 1, 7)] ∧
    (t .fwd).edges .fwd 4 = [(8, 1, 8)] ∧ (t .bwd).edges .bwd 4 = [(8, 8, 1), (7, 7, 1)] :=
  ⟨_, rfl, by decide, by decide, by decide⟩

end Adjacency

end UniDb
