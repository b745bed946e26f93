import Mathlib.Algebra.Group.Nat.Defs
import UniDb.Storage.Adjacency
import UniDb.Storage.PinnedVersions

/-!
# The Gate in Front of Bulk Loads

While a bulk load is published its version is hidden from readers. Every holder
of a version counts, and the version is shown when the last hold is released. A
hold that is dropped without a release keeps its version hidden.

Whoever builds a cache under one state of the gate remembers the epoch, and
installs the cache only if the epoch is still the same. The epoch counts the
changes in a word of 64 bits and wraps around, so it tells two states apart only
within that many changes (`epoch_returns`).

Readers see a row if they admit its version, and give the storage a filter that
says the same. The filters here are those that a visibility is made of; other
forms, and floats, are left out.

## Main definitions

* `GateState`, `Gate.step`: The gate and its holds.
* `installIfCurrent`: What the epoch guards.
* `FilterExpr.eval`: Filters in three-valued logic.
* `RowVisibility.filter`: The filter of a visibility.

## Theorems

* `Gate.run_inv`: A version is hidden while it has a hold.
* `Gate.epoch_run`: The epoch counts the changes.
* `eval_filter`: The filter admits what the visibility admits.
* `gate_hides_held_versions`: The gate, its epoch and its filter.
-/

namespace UniDb

open List PinnedVersions Adjacency

/-- A literal of a filter. -/
inductive Scalar
  | null
  | bool (b : Bool)
  | int (i : Int)
  | uInt (n : Nat)
  | str (s : String)

/-- A value of a row. -/
inductive Cell
  | null
  | bool (b : Bool)
  | int (i : Int)
  | uInt (n : Nat)
  | str (s : String)

inductive CmpOp
  | eq | notEq | lt | ltEq | gt | gtEq

def CmpOp.accepts : CmpOp → Ordering → Bool
  | .eq, o => o = .eq
  | .notEq, o => o ≠ .eq
  | .lt, o => o = .lt
  | .ltEq, o => o ≠ .gt
  | .gt, o => o = .gt
  | .gtEq, o => o ≠ .lt

inductive EvalError
  | unknownColumn (column : String)
  | unsupported (cell : Cell) (value : Scalar)

inductive FilterExpr
  | literal (b : Bool)
  | and (parts : List FilterExpr)
  | not (inner : FilterExpr)
  | compare (column : String) (op : CmpOp) (value : Scalar)
  | isIn (column : String) (values : List Scalar)

/-- The columns of a row. -/
abbrev RowAccessor := String → Except EvalError Cell

namespace FilterExpr

/-- Integers compare by value, whatever their kind. -/
def order : Cell → Scalar → Except EvalError Ordering
  | .bool a, .bool b => .ok (Ord.compare a b)
  | .str a, .str b => .ok (Ord.compare a b)
  | .int a, .int b => .ok (Ord.compare a b)
  | .uInt a, .uInt b => .ok (Ord.compare a b)
  | .int a, .uInt b => .ok (Ord.compare a b)
  | .uInt a, .int b => .ok (Ord.compare (a : Int) b)
  | cell, value => .error (.unsupported cell value)

/-- Whether a cell compares to a literal; `none` is unknown. -/
def compareCell (cell : Cell) (op : CmpOp) (value : Scalar) : Except EvalError (Option Bool) :=
  match cell, value with
  | .null, _ | _, .null => .ok none
  | cell, value => do return some (op.accepts (← order cell value))

/-- A hit wins over an unknown. -/
def isInCell (cell : Cell) (unknown : Bool) : List Scalar → Except EvalError (Option Bool)
  | [] => .ok (if unknown then none else some false)
  | v :: vs => do match ← compareCell cell .eq v with
    | some true => return some true
    | some false => isInCell cell unknown vs
    | none => isInCell cell true vs

mutual

def eval (row : RowAccessor) : FilterExpr → Except EvalError (Option Bool)
  | .literal b => .ok (some b)
  | .and parts => evalAnd row false parts
  | .not inner => do return (← inner.eval row).map (!·)
  | .compare column op value => do compareCell (← row column) op value
  | .isIn column values => do isInCell (← row column) false values

/-- A false part wins over an unknown one. -/
def evalAnd (row : RowAccessor) (unknown : Bool) :
    List FilterExpr → Except EvalError (Option Bool)
  | [] => .ok (if unknown then none else some true)
  | p :: ps => do match ← p.eval row with
    | some false => return some false
    | some true => evalAnd row unknown ps
    | none => evalAnd row true ps

end

def versionAtMost (v : Nat) : FilterExpr := .compare "_version" .ltEq (.uInt v)

/-- Conjoin, without the parts that are plainly true. -/
def all (parts : List FilterExpr) : FilterExpr :=
  match parts.filter fun | .literal true => false | _ => true with
  | [] => .literal true
  | [p] => p
  | kept => .and kept

end FilterExpr

/-- The filter of a visibility, or `none` if every row is visible. -/
def Adjacency.RowVisibility.filter (vis : RowVisibility) : Option FilterExpr :=
  let hide := if vis.hidden.isEmpty then none
    else some (.not (.isIn "_version" (vis.hidden.map .uInt)))
  match vis.hwm.map FilterExpr.versionAtMost, hide with
  | some a, some b => some (.all [a, b])
  | some a, none => some a
  | none, some b => some b
  | none, none => none

section Filter

open FilterExpr

variable {version : Nat}

theorem isInCell_uInt (hidden : List Nat) :
    isInCell (.uInt version) false (hidden.map .uInt) = .ok (some (hidden.contains version)) := by
  induction hidden with
  | nil => rfl
  | cons v vs ih =>
    have hcmp : compareCell (.uInt version) .eq (.uInt v) = .ok (some (version == v)) := by
      show Except.ok (some (decide (Ord.compare version v = .eq))) = _
      rw [decide_eq_decide.mpr Nat.compare_eq_eq]
      rfl
    rw [map_cons, isInCell, hcmp, contains_cons]
    cases version == v with
    | true => rfl
    | false => exact ih

variable {row : RowAccessor}

theorem evalAnd_pair {p q : FilterExpr} {a b : Bool} (hp : p.eval row = .ok (some a))
    (hq : q.eval row = .ok (some b)) : evalAnd row false [p, q] = .ok (some (a && b)) := by
  rw [evalAnd, hp]
  cases a with
  | false => rfl
  | true =>
    show evalAnd row false [q] = _
    rw [evalAnd, hq]
    cases b <;> rfl

variable (hrow : row "_version" = .ok (.uInt version))

include hrow

theorem eval_versionAtMost (v : Nat) :
    (versionAtMost v).eval row = .ok (some (decide (version ≤ v))) := by
  rw [versionAtMost, eval, hrow]
  show Except.ok (some (decide (Ord.compare version v ≠ .gt))) = _
  rw [decide_eq_decide.mpr Nat.compare_ne_gt]

theorem eval_not_isIn (hidden : List Nat) :
    (not (.isIn "_version" (hidden.map .uInt))).eval row =
      .ok (some (!hidden.contains version)) := by
  rw [eval, eval, hrow]
  show (do return (← isInCell (.uInt version) false (hidden.map .uInt)).map (!·)) = _
  rw [isInCell_uInt]
  rfl

/-- On a row with a version the filter is never unknown. -/
theorem eval_filter (vis : RowVisibility) :
    vis.filter.elim (.ok (some true)) (FilterExpr.eval row) = .ok (some (vis.admits version)) := by
  rcases vis with ⟨hwm, hidden⟩
  have hnot := eval_not_isIn hrow hidden
  cases hwm with
  | none =>
    cases hidden with
    | nil => rfl
    | cons => exact hnot
  | some hwm =>
    have hmax := eval_versionAtMost hrow hwm
    cases hidden with
    | nil => exact hmax.trans (by rw [← RowVisibility.admits_atMost_some]; rfl)
    -- neither part is a literal, so both are kept
    | cons => exact evalAnd_pair hmax hnot

end Filter

/-- The state behind the lock of the gate. -/
structure GateState where
  /-- How many holds hide a version. -/
  hidden : AssocMap Nat Nat
  snapshot : List Nat
  epoch : Nat

namespace GateState

def changed (s : GateState) : GateState :=
  { s with snapshot := s.hidden.keys, epoch := (s.epoch + 1) % 2 ^ 64 }

def hide (s : GateState) (version : Nat) : GateState :=
  changed { s with hidden := retain s.hidden version }

def unhide (s : GateState) (version : Nat) : GateState :=
  changed { s with hidden := release s.hidden version }

/-- Install what was built at an epoch, if that is still the epoch. -/
def installIfCurrent {R : Type} (s : GateState) (epoch : Nat) (install : R) : Option R :=
  if s.epoch = epoch then some install else none

end GateState

/-- The gate, and the versions of the holds that are not released. -/
structure Gate where
  state : GateState
  holds : List Nat

inductive GateAction
  | hide (version : Nat)
  | release (version : Nat)

namespace Gate

def new : Gate := ⟨⟨∅, [], 0⟩, []⟩

def step (g : Gate) : GateAction → Option Gate
  | .hide version => some ⟨g.state.hide version, version :: g.holds⟩
  | .release version =>
    if version ∈ g.holds then some ⟨g.state.unhide version, g.holds.erase version⟩ else none

structure Inv (g : Gate) : Prop where
  counts : Counts g.state.hidden g.holds
  snapshot : g.state.snapshot = g.state.hidden.keys
  epoch : g.state.epoch < 2 ^ 64

variable {g g' : Gate} {acts : List GateAction}

theorem step_inv {a : GateAction} (h : Inv g) (hstep : g.step a = some g') :
    Inv g' ∧ g'.state.epoch = (g.state.epoch + 1) % 2 ^ 64 := by
  revert hstep
  fun_cases step g a <;> rintro ⟨⟩
  case case1 version =>
    exact ⟨⟨h.counts.retain version, rfl, Nat.mod_lt _ (by decide)⟩, rfl⟩
  case case2 hmem => exact ⟨⟨h.counts.release hmem, rfl, Nat.mod_lt _ (by decide)⟩, rfl⟩

theorem inv_new : Inv new := ⟨fun _ => rfl, rfl, by decide⟩

theorem run_inv (h : Inv g) (hrun : run step g acts = some g') : Inv g' :=
  run_invariant (fun _ _ _ hI hstep => (step_inv hI hstep).1) h hrun

theorem epoch_run (h : Inv g) (hrun : run step g acts = some g') :
    g'.state.epoch = (g.state.epoch + acts.length) % 2 ^ 64 := by
  induction acts generalizing g with
  | nil =>
    cases hrun
    exact (Nat.mod_eq_of_lt h.epoch).symm
  | cons a acts ih =>
    rcases run_cons hrun with ⟨g₁, hstep, hrun⟩
    rcases step_inv h hstep with ⟨h₁, hepoch⟩
    rw [ih h₁ hrun, hepoch, Nat.mod_add_mod, length_cons, Nat.add_assoc, Nat.add_comm 1]

theorem mem_snapshot_iff (h : Inv g) (version : Nat) :
    version ∈ g.state.snapshot ↔ version ∈ g.holds := by
  rw [h.snapshot, ← AList.mem_keys, AssocMap.mem_iff_lookup, h.counts version]
  by_cases hmem : version ∈ g.holds <;> simp [count_eq_zero, hmem]

theorem epoch_eq_iff (h : Inv g) (hrun : run step g acts = some g') :
    g'.state.epoch = g.state.epoch ↔ 2 ^ 64 ∣ acts.length := by
  -- below the modulus, adding a number gives the same one only if it wraps around
  have hlt := h.epoch
  rw [epoch_run h hrun, Nat.dvd_iff_mod_eq_zero]
  omega

/-- Hiding a version and showing it again changes the gate, however often. -/
theorem exists_run (g : Gate) (version n : Nat) :
    ∃ acts g', acts.length = 2 * n ∧ run step g acts = some g' ∧ g'.holds = g.holds := by
  induction n generalizing g with
  | zero => exact ⟨[], g, rfl, rfl, rfl⟩
  | succ n ih =>
    rcases ih ⟨(g.state.hide version).unhide version, g.holds⟩ with ⟨acts, g', hlen, hrun, hholds⟩
    refine ⟨.hide version :: .release version :: acts, g', ?_, ?_, hholds⟩
    · rw [length_cons, length_cons, hlen, Nat.mul_succ]
    · simpa [run, step] using hrun

end Gate

/-- A version is hidden exactly while a hold on it is not released. What was built at some state is
    installed later exactly if a multiple of `2 ^ 64` changes came in between, and so, within that
    many changes, only if there were none. The filter of a visibility accepts a row exactly if it
    admits the row's version. -/
theorem gate_hides_held_versions (before after : List GateAction) {s t : Gate}
    (hs : run Gate.step .new before = some s) (ht : run Gate.step s after = some t) :
    (∀ version, version ∈ t.state.snapshot ↔ version ∈ t.holds) ∧
      (∀ {R : Type} (install : R),
        (t.state.installIfCurrent s.state.epoch install).isSome ↔ 2 ^ 64 ∣ after.length) ∧
      (∀ {R : Type} (install : R), after.length < 2 ^ 64 →
        (t.state.installIfCurrent s.state.epoch install).isSome → t = s) ∧
      ∀ (vis : RowVisibility) (row : RowAccessor) (version : Nat),
        row "_version" = .ok (.uInt version) →
        vis.filter.elim (.ok (some true)) (FilterExpr.eval row) =
          .ok (some (vis.admits version)) := by
  have hI := Gate.run_inv Gate.inv_new hs
  have hinstall : ∀ {R : Type} (install : R),
      (t.state.installIfCurrent s.state.epoch install).isSome ↔ 2 ^ 64 ∣ after.length := by
    intro R install
    rw [← Gate.epoch_eq_iff hI ht, GateState.installIfCurrent]
    split <;> simp_all
  refine ⟨Gate.mem_snapshot_iff (Gate.run_inv hI ht), hinstall, fun install hlt h => ?_,
    fun vis row version hrow => eval_filter hrow vis⟩
  have hnil := Nat.eq_zero_of_dvd_of_lt ((hinstall install).mp h) hlt
  rw [length_eq_zero_iff.mp hnil] at ht
  exact (Option.some.inj ht).symm

theorem gate_hides_held_versions_twice :
    ∃ t, run Gate.step .new [.hide 5, .hide 5, .release 5] = some t ∧ 5 ∈ t.state.snapshot := by
  have h := gate_hides_held_versions [.hide 5, .hide 5] [.release 5] rfl rfl
  exact ⟨_, rfl, (h.1 5).mpr (by decide)⟩

/-- After `2 ^ 64` changes the epoch is the old one, and another version is hidden. -/
theorem epoch_returns : ∃ after t, run Gate.step .new after = some t ∧
    t.state.installIfCurrent Gate.new.state.epoch () = some () ∧ 5 ∈ t.state.snapshot ∧
    5 ∉ Gate.new.state.snapshot := by
  -- one change before and one after these rounds make up for the missing two
  rcases Gate.exists_run ⟨Gate.new.state.hide 5, [5]⟩ 7 (2 ^ 63 - 1) with
    ⟨acts, g, hlen, hcycles, -⟩
  have hrun : run Gate.step .new (.hide 5 :: (acts ++ [.hide 5])) =
      some ⟨g.state.hide 5, 5 :: g.holds⟩ := run_append hcycles
  have hdvd : 2 ^ 64 ∣ (GateAction.hide 5 :: (acts ++ [.hide 5])).length := by
    rw [length_cons, length_append, hlen, length_singleton]
    omega
  have hepoch := (Gate.epoch_eq_iff Gate.inv_new hrun).mpr hdvd
  refine ⟨_, _, hrun, if_pos hepoch, ?_, not_mem_nil⟩
  exact (Gate.mem_snapshot_iff (Gate.run_inv Gate.inv_new hrun) 5).mpr mem_cons_self

end UniDb
