import Mathlib.Data.List.MinMax
import Mathlib.Data.List.Nodup
import Mathlib.Data.List.Sort
import UniDb.Lib.KeyedFold

/-!
# Logs of Versioned Writes

A log of writes over a base. Each write puts a value at its key or deletes the
key, and it has a version. What the log makes of the base is decided key by key:
the newest write wins, and a key without a write keeps what the base has.

Folding a part of the log into the base is safe at any point. The part is
replayed on top of itself until it is removed from the log, and that changes
nothing: applying a log twice is applying it once (`overlay_overlay`). A log that
ends with newer writes is applied in two steps (`overlay_append`). Nothing else is
needed to cut a log in two, fold the older half into the base, and drop it.

The base is a set of keys with values, so a key of the base may have several.

## Main definitions

* `WriteLog`: How the rows of a log are read as writes.
* `WriteLog.newest`: The newest write of a key.
* `WriteLog.overlay`: What a log makes of a base.
* `WriteLog.inOrder`: The log in the order of its versions.

## Theorems

* `WriteLog.overlay_append`, `WriteLog.overlay_overlay`: Applying a log in parts,
  and twice.
* `WriteLog.overlay_congr`: The order of the rows does not matter.
* `WriteLog.view_foldl_inOrder`: A loop over the log in the order of its versions.
-/

namespace UniDb

open List

section Newest

variable {R : Type} (version : R → Nat) {rows : List R}

theorem argmax_eq_some_iff_newest (hd : (rows.map version).Nodup) {n : R} :
    rows.argmax version = some n ↔ n ∈ rows ∧ ∀ r ∈ rows, version r ≤ version n := by
  constructor
  · intro h
    exact ⟨argmax_mem h, fun r hr => le_of_mem_argmax hr h⟩
  · rintro ⟨hn, hall⟩
    rcases hmax : rows.argmax version with _ | m
    · rw [argmax_eq_none] at hmax
      exact absurd hn (hmax ▸ not_mem_nil)
    · have hm : m ∈ rows := argmax_mem hmax
      have heq : version m = version n :=
        le_antisymm (hall m hm) (le_of_mem_argmax hn hmax)
      rw [inj_on_of_nodup_map hd hm hn heq]

theorem argmax_congr {rows' : List R} (hd : (rows.map version).Nodup)
    (hd' : (rows'.map version).Nodup) (h : ∀ r, r ∈ rows' ↔ r ∈ rows) :
    rows'.argmax version = rows.argmax version := by
  refine Option.ext fun n => ?_
  simp only [argmax_eq_some_iff_newest version hd, argmax_eq_some_iff_newest version hd', h]

/-- The newest row of two lots, the second newer than the first. -/
theorem argmax_append {old new : List R} (hnewer : ∀ r ∈ old, ∀ r' ∈ new, version r < version r') :
    (old ++ new).argmax version = (new.argmax version).or (old.argmax version) := by
  induction new using reverseRecOn with
  | nil => simp
  | append_singleton new r ih =>
    have hih := ih fun x hx y hy => hnewer x hx y (mem_append_left _ hy)
    rw [← append_assoc, argmax_concat, argmax_concat, hih]
    cases hnew : new.argmax version with
    | some => simp only [Option.some_or]; split <;> rfl
    | none =>
      simp only [Option.none_or]
      cases hold : old.argmax version with
      | none => rfl
      | some m =>
        have hlt := hnewer m (argmax_mem hold) r
          (mem_append_right _ mem_cons_self)
        simp only [if_pos hlt]
        rfl

end Newest

/-- How the rows of a log are read. A write without a value deletes its key. -/
structure WriteLog (R κ V : Type) where
  key : R → κ
  version : R → Nat
  put : R → Option V

namespace WriteLog

variable {R κ V : Type} [DecidableEq κ] (L : WriteLog R κ V)

/-- The newest write of a key. -/
def newest (log : List R) (k : κ) : Option R := (log.filter (L.key · = k)).argmax L.version

omit [DecidableEq κ] in
/-- No key has two writes with one version. -/
def Single (log : List R) : Prop := (log.map fun r => (L.key r, L.version r)).Nodup

/-- What a log makes of a base. -/
def overlay (log : List R) (base : Set (κ × V)) : Set (κ × V) :=
  {x | (L.newest log x.1).elim (x ∈ base) fun r => L.put r = some x.2}

def inOrder (log : List R) : List R := log.insertionSort fun a b => L.version a ≤ L.version b

variable {L} {log log' old new : List R}

omit [DecidableEq κ] in
theorem Single.sublist (h : L.Single log) (hsub : log'.Sublist log) : L.Single log' :=
  List.Nodup.sublist (hsub.map _) h

omit [DecidableEq κ] in
theorem Single.append (hold : L.Single old) (hnew : L.Single new)
    (hnewer : ∀ r ∈ old, ∀ r' ∈ new, L.version r < L.version r') : L.Single (old ++ new) := by
  unfold Single at hold hnew ⊢
  rw [map_append, nodup_append]
  refine ⟨hold, hnew, fun a ha b hb heq => ?_⟩
  rcases mem_map.mp ha with ⟨r, hr, rfl⟩
  rcases mem_map.mp hb with ⟨r', hr', rfl⟩
  exact ne_of_lt (hnewer r hr r' hr') (congrArg Prod.snd heq)

theorem Single.nodup_key (h : L.Single log) (k : κ) :
    ((log.filter (L.key · = k)).map L.version).Nodup := by
  have hpair := h.sublist (filter_sublist (p := (L.key · = k)))
  unfold Single at hpair
  rw [nodup_map_iff_inj_on hpair.of_map]
  intro a ha b hb hversion
  have hkey : L.key a = L.key b := by
    rw [of_decide_eq_true (mem_filter.mp ha).2, of_decide_eq_true (mem_filter.mp hb).2]
  exact inj_on_of_nodup_map hpair ha hb (Prod.ext hkey hversion)

theorem newest_congr (h : L.Single log) (h' : L.Single log') (hmem : ∀ r, r ∈ log' ↔ r ∈ log)
    (k : κ) : L.newest log' k = L.newest log k := by
  refine argmax_congr L.version (h.nodup_key k) (h'.nodup_key k) fun r => ?_
  simp [hmem]

theorem newest_eq_none_iff {k : κ} : L.newest log k = none ↔ ∀ r ∈ log, L.key r ≠ k := by
  unfold newest
  rw [argmax_eq_none, filter_eq_nil_iff]
  simp

theorem mem_of_newest {k : κ} {r : R} (h : L.newest log k = some r) : r ∈ log ∧ L.key r = k := by
  simpa using mem_filter.mp (argmax_mem h)

theorem newest_append (hnewer : ∀ r ∈ old, ∀ r' ∈ new, L.version r < L.version r') (k : κ) :
    L.newest (old ++ new) k = (L.newest new k).or (L.newest old k) := by
  unfold newest
  rw [filter_append]
  exact argmax_append L.version fun r hr r' hr' =>
    hnewer r (mem_of_mem_filter hr) r' (mem_of_mem_filter hr')

/-- Newer writes are applied to what the older ones made. -/
theorem overlay_append (hnewer : ∀ r ∈ old, ∀ r' ∈ new, L.version r < L.version r')
    (base : Set (κ × V)) : L.overlay (old ++ new) base = L.overlay new (L.overlay old base) := by
  ext x
  simp only [overlay, Set.mem_ofPred_eq, newest_append hnewer]
  cases L.newest new x.1 <;> rfl

/-- A log that is applied again changes nothing. -/
theorem overlay_overlay (log : List R) (base : Set (κ × V)) :
    L.overlay log (L.overlay log base) = L.overlay log base := by
  ext x
  simp only [overlay, Set.mem_ofPred_eq]
  cases L.newest log x.1 <;> rfl

theorem overlay_congr (h : L.Single log) (h' : L.Single log') (hmem : ∀ r, r ∈ log' ↔ r ∈ log)
    (base : Set (κ × V)) : L.overlay log' base = L.overlay log base := by
  ext x
  simp [overlay, newest_congr h h' hmem]

omit [DecidableEq κ] in
theorem Single.inOrder (h : L.Single log) : L.Single (L.inOrder log) :=
  ((perm_insertionSort _ log).map _).nodup_iff.mpr h

theorem getLast?_inOrder (h : L.Single log) (k : κ) :
    ((L.inOrder log).filter (L.key · = k)).getLast? = L.newest log k := by
  have hsorted : ((L.inOrder log).filter (L.key · = k)).Pairwise
      fun a b => L.version a ≤ L.version b :=
    (pairwise_insertionSort _ log).filter _
  rw [← newest_congr h h.inOrder (fun _ => mem_insertionSort _) k]
  cases hlast : ((L.inOrder log).filter (L.key · = k)).getLast? with
  | none =>
    rw [getLast?_eq_none_iff] at hlast
    unfold newest
    rw [hlast]
    rfl
  | some r =>
    refine ((argmax_eq_some_iff_newest L.version (h.inOrder.nodup_key k)).mpr ?_).symm
    rcases getLast?_eq_some_iff.mp hlast with ⟨front, heq⟩
    rw [heq] at hsorted ⊢
    refine ⟨mem_append_right _ mem_cons_self, fun x hx => ?_⟩
    rcases mem_append.mp hx with hx | hx
    · exact (pairwise_append.mp hsorted).2.2 x hx r mem_cons_self
    · rw [mem_singleton.mp hx]

/-- A loop that makes the writes in the order of their versions leaves the newest
    one at each key. -/
theorem view_foldl_inOrder {σ W : Type} {view : σ → κ → W} {op : σ → R → σ} {g : R → W}
    (hacts : ActsAt view L.key op fun r _ => g r) (h : L.Single log) (s : σ) (k : κ) :
    view ((L.inOrder log).foldl op s) k = (L.newest log k).elim (view s k) g := by
  rw [hacts.foldl_last, getLast?_inOrder h]

end WriteLog

end UniDb
