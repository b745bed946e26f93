import Mathlib.Algebra.Group.Nat.Defs
import Mathlib.Data.Finset.Card
import Mathlib.Order.Fin.Basic
import UniDb.Lib.SortedList

/-!
# Sets of Base Variables

The random variables that a derivation rests on, as 64 bits from a base on or as a sorted list.

The iterator adds every position of the window to the base before it looks at the bit. The base is
the first id put into the set, so the addition overflows when that id is among the last 63.

## Main definitions

* `BaseRvSet`: The two forms, with the operations; `none` where an addition overflows.
* `Build`: Sets built by the operations, with the ids put into them.
* `Agrees`: The operations on a set agree with a set of ids.

## Theorems

* `insert_low`, `union_low`: What the operations do to sets whose windows do not wrap.
* `low_or_high`: A set on the way whose window wraps stays one, or the addition overflows.
* `correct_iff_low`: When the operations agree with the ids.
-/

namespace UniDb.Locy

open List

abbrev BaseRv := Fin (2 ^ 32)

/-- The window that starts at the id does not wrap. -/
abbrev Fits (rv : BaseRv) : Prop := rv.val + 63 < 2 ^ 32

inductive BaseRvSet
  | inline (bits : BitVec 64) (base : BaseRv)
  | vec (ids : List BaseRv)

namespace BaseRvSet

def empty : BaseRvSet := inline 0 0

def single (rv : BaseRv) : BaseRvSet := inline 1 rv

def isEmpty : BaseRvSet → Bool
  | inline bits _ => bits = 0
  | vec ids => ids.isEmpty

def len : BaseRvSet → ℕ
  | inline bits _ => (range 64).countP bits.getLsbD
  | vec ids => ids.length

def contains : BaseRvSet → BaseRv → Bool
  -- the subtraction of `Fin` wraps
  | inline bits base, rv => (rv - base).val < 64 && bits.getLsbD (rv - base).val
  | vec ids, rv => rv ∈ ids

/-- What the iterator yields in turn, `none` where its addition overflows. -/
def iter : BaseRvSet → List (Option BaseRv)
  | inline bits base => (range 64).filterMap fun i =>
    if h : base.val + i < 2 ^ 32 then if bits.getLsbD i then some (some ⟨_, h⟩) else none
    else some none
  | vec ids => ids.map some

def collect (s : BaseRvSet) : Option (List BaseRv) := s.iter.mapM id

def insert (s : BaseRvSet) (rv : BaseRv) : Option BaseRvSet :=
  if s.contains rv then some s else
  match s with
  | inline bits base =>
    if bits = 0 then some (inline 1 rv)
    else if base ≤ rv ∧ rv.val - base.val < 64 then
      some (inline (bits ||| .twoPow 64 (rv.val - base.val)) base)
    else (inline bits base).collect.map fun all => vec (sortDedup (· ≤ ·) (all ++ [rv]))
  | vec ids => some (vec (ids.orderedInsert (· ≤ ·) rv))

def union (a b : BaseRvSet) : Option BaseRvSet :=
  b.collect.bind fun ids => ids.foldlM insert a

def intersectAny (a b : BaseRvSet) : Option Bool :=
  match a, b with
  | inline ba ea, inline bb eb =>
    if ea = eb then some (ba &&& bb ≠ 0) else a.iter.anyM fun rv => rv.map b.contains
  | _, _ => a.iter.anyM fun rv => rv.map b.contains

def isSubsetOf (a b : BaseRvSet) : Option Bool := a.iter.allM fun rv => rv.map b.contains

/-- The window does not wrap and starts at a member. A list has the first member of the window that
it was before. -/
def Low : BaseRvSet → Prop
  | inline bits base => Fits base ∧ (bits ≠ 0 → bits.getLsbD 0)
  | vec ids => ids.Pairwise (· < ·) ∧ ∃ rv ∈ ids, Fits rv

def High : BaseRvSet → Prop
  | inline bits base => bits ≠ 0 ∧ 2 ^ 32 ≤ base.val + 63
  | vec _ => False

variable {bits : BitVec 64} {base rv x : BaseRv} {s t : BaseRvSet}

theorem contains_inline (h : Fits base) :
    (inline bits base).contains rv ↔ ∃ i < 64, bits.getLsbD i ∧ rv.val = base.val + i := by
  simp only [contains, Bool.and_eq_true, decide_eq_true_eq, Fin.sub_def]
  constructor
  · rintro ⟨hlt, hbit⟩
    exact ⟨_, hlt, hbit, by omega⟩
  · rintro ⟨i, hi, hbit, hrv⟩
    have hoff : (2 ^ 32 - base.val + rv.val) % 2 ^ 32 = i := by omega
    rw [hoff]
    exact ⟨hi, hbit⟩

theorem contains_single (h : Fits rv) : (inline 1 rv).contains x ↔ x = rv := by
  rw [contains_inline h, Fin.ext_iff]
  simp

theorem Low.iter (h : s.Low) : ∃ l : List BaseRv, s.iter = l.map some ∧
    l.Pairwise (· < ·) ∧ (∀ rv, rv ∈ l ↔ s.contains rv) ∧ l.length = s.len := by
  cases s with
  | vec ids => exact ⟨ids, rfl, h.1, by simp [contains], rfl⟩
  | inline bits base =>
    have hlt : ∀ i ∈ range 64, base.val + i < 2 ^ 32 := by
      intro i hi
      have := h.1
      have := mem_range.mp hi
      omega
    refine ⟨(range 64).filterMap fun i =>
      if h : base.val + i < 2 ^ 32 then if bits.getLsbD i then some ⟨_, h⟩ else none else none,
      ?_, ?_, ?_, ?_⟩
    · rw [map_filterMap]
      refine filterMap_congr fun i hi => ?_
      rw [dif_pos (hlt i hi), dif_pos (hlt i hi)]
      split <;> rfl
    · refine pairwise_filterMap.mpr (pairwise_lt_range.imp fun hij => ?_)
      grind
    · intro rv
      rw [contains_inline h.1, mem_filterMap]
      grind
    · rw [length_filterMap_eq_countP]
      refine countP_congr fun i hi => ?_
      rw [dif_pos (hlt i hi)]
      split <;> simp_all

theorem Low.exists_mem (h : s.Low) (he : s.isEmpty = false) : ∃ rv, s.contains rv ∧ Fits rv := by
  cases s with
  | vec => simpa [contains] using h.2
  | inline bits base =>
    have hbit := h.2 (by simpa [isEmpty] using he)
    exact ⟨base, (contains_inline h.1).mpr ⟨0, by omega, hbit, rfl⟩, h.1⟩

theorem Low.isEmpty (h : s.Low) : s.isEmpty ↔ ∀ rv, ¬ s.contains rv := by
  constructor
  · intro he rv
    cases s <;> simp_all [BaseRvSet.isEmpty, contains]
  · intro hn
    by_contra he
    obtain ⟨rv, hrv, -⟩ := h.exists_mem (by simpa using he)
    exact hn rv hrv

variable {l : List BaseRv}

theorem collect_eq_some (h : s.iter = l.map some) : s.collect = some l := by
  rw [collect, h, mapM_map]
  exact mapM_pure.trans (by simp)

/-- A set whose window does not wrap gains the id, unless the id is the first and wraps itself. -/
theorem insert_low (h : s.Low) (hrv : s.isEmpty → Fits rv) :
    ∃ t, s.insert rv = some t ∧ t.Low ∧ ∀ x, t.contains x ↔ x = rv ∨ s.contains x := by
  obtain ⟨l, hiter, hsort, hmem, -⟩ := h.iter
  by_cases hc : s.contains rv
  · exact ⟨s, if_pos hc, h, by grind⟩
  rw [insert.eq_def, if_neg hc]
  cases s with
  | vec ids =>
    obtain ⟨hlt, low, hlow, hval⟩ := h
    refine ⟨_, rfl, ⟨?_, low, by simp [hlow], hval⟩, by simp [contains]⟩
    have hnodup : (rv :: ids).Nodup :=
      nodup_cons.mpr ⟨by simpa [contains] using hc, hlt.imp ne_of_lt⟩
    refine (((hlt.imp le_of_lt).orderedInsert rv).and
      ((perm_orderedInsert (· ≤ ·) rv ids).nodup_iff.mpr hnodup)).imp ?_
    exact fun hab => lt_of_le_of_ne hab.1 hab.2
  | inline bits base =>
    by_cases h0 : bits = 0
    · have hlow := hrv (by simpa [BaseRvSet.isEmpty] using h0)
      refine ⟨inline 1 rv, if_pos h0, ⟨hlow, fun _ => rfl⟩, fun x => ?_⟩
      rw [contains_single hlow, h0]
      simp [contains]
    simp only [if_neg h0]
    by_cases hwin : base ≤ rv ∧ rv.val - base.val < 64
    · have hle : base.val ≤ rv.val := hwin.1
      refine ⟨_, if_pos hwin, ⟨h.1, fun _ => by simp [h.2 h0]⟩, fun x => ?_⟩
      rw [contains_inline h.1, contains_inline h.1]
      simp only [BitVec.getLsbD_or, BitVec.getLsbD_twoPow, Bool.or_eq_true, Bool.and_eq_true,
        decide_eq_true_eq]
      constructor
      · rintro ⟨i, hi, hbit | hbit, hx⟩
        · exact .inr ⟨i, hi, hbit, hx⟩
        · exact .inl (Fin.ext (by omega))
      · rintro (rfl | ⟨i, hi, hbit, hx⟩)
        · exact ⟨_, hwin.2, .inr ⟨hwin.2, rfl⟩, by omega⟩
        · exact ⟨i, hi, .inl hbit, hx⟩
    · -- the window is written out as a list
      rw [if_neg hwin, collect_eq_some hiter]
      refine ⟨_, rfl, ⟨(sortDedup_pairwise (· ≤ ·) _).imp fun hab => lt_of_le_of_ne hab.1 hab.2,
        base, ?_, h.1⟩, fun x => ?_⟩
      · rw [mem_sortDedup, mem_append, hmem, contains_inline h.1]
        exact .inl ⟨0, by omega, h.2 h0, rfl⟩
      · simp [contains.eq_2, hmem, or_comm]

/-- The ids of a sorted list one after the other. -/
theorem foldlM_insert (hl : l.Pairwise (· < ·)) (h : s.Low)
    (hhead : s.isEmpty → ∀ rv ∈ l.head?, Fits rv) :
    ∃ t, l.foldlM insert s = some t ∧ t.Low ∧ ∀ x, t.contains x ↔ x ∈ l ∨ s.contains x := by
  induction l generalizing s with
  | nil => exact ⟨s, rfl, h, by simp⟩
  | cons rv l ih =>
    obtain ⟨t, ht, hlow, hmem⟩ := insert_low h fun he => hhead he rv rfl
    have hne : ¬ t.isEmpty := fun he => hlow.isEmpty.mp he rv ((hmem rv).mpr (.inl rfl))
    obtain ⟨u, hu, hulow, humem⟩ := ih hl.of_cons hlow fun he => absurd he hne
    refine ⟨u, ?_, hulow, fun x => ?_⟩
    · simpa [ht] using hu
    · rw [humem, hmem, mem_cons]
      tauto

theorem union_low {a b : BaseRvSet} (ha : a.Low) (hb : b.Low) :
    ∃ t, a.union b = some t ∧ t.Low ∧ ∀ x, t.contains x ↔ b.contains x ∨ a.contains x := by
  obtain ⟨l, hiter, hsort, hmem, -⟩ := hb.iter
  rw [union, collect_eq_some hiter]
  simp only [← hmem]
  refine foldlM_insert hsort ha fun _ rv hrv => ?_
  -- the first id is not above the one that does not wrap
  obtain ⟨l, rfl⟩ : ∃ l', l = rv :: l' := by
    cases l <;> simp_all
  have hne : b.isEmpty = false := by
    have := mt hb.isEmpty.mp fun hn => hn rv ((hmem rv).mp mem_cons_self)
    simpa using this
  obtain ⟨low, hlow, hval⟩ := hb.exists_mem hne
  rcases mem_cons.mp ((hmem low).mpr hlow) with rfl | hin
  · exact hval
  · have hlt : rv.val < low.val := rel_of_pairwise_cons hsort hin
    omega

theorem none_mem_iter (h : s.High) : none ∈ s.iter := by
  cases s with
  | vec => exact h.elim
  | inline =>
    refine mem_filterMap.mpr ⟨63, by simp, dif_neg ?_⟩
    have := h.2
    omega

theorem collect_eq_none (h : s.High) : s.collect = none := by
  have hnone := none_mem_iter h
  rw [collect]
  generalize s.iter = l at hnone
  induction l with
  | nil => simp at hnone
  | cons a l ih =>
    rcases mem_cons.mp hnone with rfl | hnone
    · rfl
    · simp [ih hnone]

theorem insert_high (h : s.High) (ht : s.insert rv = some t) : t.High := by
  cases s with
  | vec => exact h.elim
  | inline =>
    simp only [insert, if_neg h.1, collect_eq_none h] at ht
    split_ifs at ht with hc hwin
    · exact Option.some.inj ht ▸ h
    · obtain rfl := Option.some.inj ht
      exact ⟨fun h0 => h.1 (BitVec.or_eq_zero_iff.mp h0).1, h.2⟩
    · simp at ht

theorem insert_first (hs : s.Low) (he : ∀ x, ¬ s.contains x) (hrv : ¬ Fits rv)
    (ht : s.insert rv = some t) : t.High := by
  have h0 := hs.isEmpty.mpr he
  rw [insert.eq_def, if_neg (he rv)] at ht
  cases s with
  | vec => simp_all [Low, BaseRvSet.isEmpty]
  | inline =>
    simp only [if_pos (of_decide_eq_true h0)] at ht
    obtain rfl := Option.some.inj ht
    exact ⟨by decide, by omega⟩

theorem foldlM_high (h : s.High) (ht : l.foldlM insert s = some t) : t.High := by
  induction l generalizing s with
  | nil => exact Option.some.inj ht ▸ h
  | cons rv l ih =>
    obtain ⟨u, hu, ht⟩ := Option.bind_eq_some_iff.mp (foldlM_cons.symm.trans ht)
    exact ih (insert_high h hu) ht

/-- The operations on one set agree with a set of ids. -/
structure Agrees (s : BaseRvSet) (ids : Finset BaseRv) : Prop where
  contains : ∀ rv, s.contains rv ↔ rv ∈ ids
  iter : ∃ l : List BaseRv, s.iter = l.map some ∧ l.Pairwise (· < ·) ∧ ∀ rv, rv ∈ l ↔ rv ∈ ids
  len : s.len = ids.card
  isEmpty : s.isEmpty ↔ ids = ∅

theorem Agrees.not_high {ids : Finset BaseRv} (h : s.Agrees ids) : ¬ s.High := by
  intro hhigh
  obtain ⟨l, hl, -⟩ := h.iter
  simpa [hl] using none_mem_iter hhigh

section Low

variable {a b : Finset BaseRv} (hs : s.Low) (ht : t.Low)
  (ha : ∀ rv, s.contains rv ↔ rv ∈ a) (hb : ∀ rv, t.contains rv ↔ rv ∈ b)
include hs ha

theorem Low.agrees : s.Agrees a := by
  obtain ⟨l, hiter, hsort, hmem, hlen⟩ := hs.iter
  have hl : ∀ rv, rv ∈ l ↔ rv ∈ a := fun rv => (hmem rv).trans (ha rv)
  refine ⟨ha, ⟨l, hiter, hsort, hl⟩, ?_, ?_⟩
  · have hids : l.toFinset = a := Finset.ext (by simpa using hl)
    rw [← hlen, ← hids, toFinset_card_of_nodup (hsort.imp ne_of_lt)]
  · simp only [hs.isEmpty, ha, Finset.eq_empty_iff_forall_notMem]

include hb

theorem Low.isSubsetOf : s.isSubsetOf t = some (decide (a ⊆ b)) := by
  obtain ⟨l, hiter, -, hmem, -⟩ := hs.iter
  have hall : ∀ l : List BaseRv, (l.map some).allM (fun rv => rv.map t.contains) =
      some (l.all t.contains) := by
    intro l
    induction l with
    | nil => rfl
    | cons rv l ih => cases h : t.contains rv <;> simp [h, ih]
  rw [BaseRvSet.isSubsetOf, hiter, hall, Option.some_inj, Bool.eq_iff_iff]
  simp [Finset.subset_iff, hmem, ha, hb]

include ht

theorem Low.intersectAny : s.intersectAny t = some (decide (¬ Disjoint a b)) := by
  obtain ⟨l, hiter, -, hmem, -⟩ := hs.iter
  have hany : ∀ l : List BaseRv, (l.map some).anyM (fun rv => rv.map t.contains) =
      some (l.any t.contains) := by
    intro l
    induction l with
    | nil => rfl
    | cons rv l ih => cases h : t.contains rv <;> simp [h, ih]
  have hscan : s.iter.anyM (fun rv => rv.map t.contains) = some (decide (¬ Disjoint a b)) := by
    rw [hiter, hany, Option.some_inj, Bool.eq_iff_iff]
    simp [Finset.not_disjoint_iff, hmem, ha, hb]
  rw [BaseRvSet.intersectAny.eq_def]
  split
  · next ba ea bb eb =>
    split_ifs with heq
    · subst heq
      simp only [Finset.not_disjoint_iff, ← ha, ← hb, contains_inline hs.1, Option.some_inj,
        decide_eq_decide]
      constructor
      · intro hne
        by_contra hn
        refine hne (BitVec.eq_of_getLsbD_eq fun i hi => ?_)
        have hsum := hs.1
        have := fun h h' => hn ⟨⟨ea.val + i, by omega⟩, ⟨i, hi, h, rfl⟩, i, hi, h', rfl⟩
        grind
      · rintro ⟨rv, ⟨i, hi, hbit, hrv⟩, j, hj, hbit', hrv'⟩ h0
        obtain rfl : i = j := by omega
        simpa [hbit, hbit'] using congrArg (·.getLsbD i) h0
    · exact hscan
  · exact hscan

end Low

end BaseRvSet

/-- A set built by the operations. -/
inductive Build
  | empty
  | single (rv : BaseRv)
  | insert (e : Build) (rv : BaseRv)
  | union (a b : Build)

namespace Build

open BaseRvSet

def eval : Build → Option BaseRvSet
  | empty => some .empty
  | single rv => some (.single rv)
  | insert e rv => e.eval.bind (·.insert rv)
  | union a b => a.eval.bind fun s => b.eval.bind s.union

def ids : Build → Finset BaseRv
  | empty => ∅
  | single rv => {rv}
  | insert e rv => Insert.insert rv e.ids
  | union a b => a.ids ∪ b.ids

/-- No set on the way has one of the last 63 ids as its first. -/
def Low : Build → Prop
  | empty => True
  | single rv => Fits rv
  | insert e rv => e.Low ∧ (e.ids = ∅ → Fits rv)
  | union a b => a.Low ∧ b.Low

theorem eval_low {e : Build} (h : e.Low) :
    ∃ s, e.eval = some s ∧ s.Low ∧ ∀ x, s.contains x ↔ x ∈ e.ids := by
  induction e with
  | empty =>
    exact ⟨_, rfl, ⟨by decide, by simp⟩, by simp [BaseRvSet.empty, BaseRvSet.contains, ids]⟩
  | single =>
    refine ⟨_, rfl, ⟨h, fun _ => rfl⟩, fun x => ?_⟩
    rw [ids, BaseRvSet.single, contains_single h, Finset.mem_singleton]
  | insert e rv ih =>
    obtain ⟨s, hs, hlow, hmem⟩ := ih h.1
    have hfirst : s.isEmpty → Fits rv := fun he =>
      h.2 (Finset.eq_empty_of_forall_notMem fun x hx => hlow.isEmpty.mp he x ((hmem x).mpr hx))
    obtain ⟨t, ht, htlow, htmem⟩ := insert_low hlow hfirst
    exact ⟨t, by simp [eval, hs, ht], htlow, by simp [htmem, hmem, ids]⟩
  | union a b iha ihb =>
    obtain ⟨s, hs, hlow, hmem⟩ := iha h.1
    obtain ⟨t, ht, htlow, htmem⟩ := ihb h.2
    obtain ⟨u, hu, hulow, humem⟩ := union_low hlow htlow
    exact ⟨u, by simp [eval, hs, ht, hu], hulow, by simp [humem, htmem, hmem, ids, or_comm]⟩

theorem low_or_high {e : Build} {s : BaseRvSet} (hs : e.eval = some s) : e.Low ∨ s.High := by
  induction e generalizing s with
  | empty => exact .inl trivial
  | single rv =>
    obtain rfl := Option.some.inj hs
    rcases lt_or_ge (rv.val + 63) (2 ^ 32) with hlt | hge
    · exact .inl hlt
    · exact .inr ⟨by decide, hge⟩
  | insert e rv ih =>
    obtain ⟨t, ht, hins⟩ := Option.bind_eq_some_iff.mp hs
    rcases ih ht with hlow | hhigh
    · by_cases hrv : e.ids = ∅ → Fits rv
      · exact .inl ⟨hlow, hrv⟩
      · -- the id starts a window that wraps
        obtain ⟨hids, hge⟩ := Classical.not_imp.mp hrv
        obtain ⟨u, hu, hulow, hmem⟩ := eval_low hlow
        obtain rfl := Option.some.inj (hu.symm.trans ht)
        exact .inr (insert_first hulow (by simpa [hids] using hmem) hge hins)
    · exact .inr (insert_high hhigh hins)
  | union a b iha ihb =>
    obtain ⟨t, ht, hs⟩ := Option.bind_eq_some_iff.mp hs
    obtain ⟨u, hu, hs⟩ := Option.bind_eq_some_iff.mp hs
    rcases iha ht with ha | ha
    · rcases ihb hu with hb | hb
      · exact .inl ⟨ha, hb⟩
      · simp [BaseRvSet.union, collect_eq_none hb] at hs
    · obtain ⟨l, -, hs⟩ := Option.bind_eq_some_iff.mp hs
      exact .inr (foldlM_high ha hs)

/-- The operations on two sets return and agree with the ids put into them exactly if no set on the
way has one of the last 63 ids as its first. -/
theorem correct_iff_low (a b : Build) :
    (∃ s t, a.eval = some s ∧ b.eval = some t ∧ s.Agrees a.ids ∧ t.Agrees b.ids ∧
      s.intersectAny t = some (decide (¬ Disjoint a.ids b.ids)) ∧
      s.isSubsetOf t = some (decide (a.ids ⊆ b.ids))) ↔ a.Low ∧ b.Low := by
  constructor
  · rintro ⟨s, t, hs, ht, hsa, hta, -⟩
    exact ⟨(low_or_high hs).resolve_right hsa.not_high, (low_or_high ht).resolve_right hta.not_high⟩
  · rintro ⟨ha, hb⟩
    obtain ⟨s, hs, hlow, hmem⟩ := eval_low ha
    obtain ⟨t, ht, htlow, htmem⟩ := eval_low hb
    exact ⟨s, t, hs, ht, hlow.agrees hmem, htlow.agrees htmem,
      hlow.intersectAny htlow hmem htmem, hlow.isSubsetOf hmem htmem⟩

theorem single_max_overflows : ∃ s, (single 4294967295).eval = some s ∧ none ∈ s.iter :=
  ⟨_, rfl, none_mem_iter ⟨by decide, by decide⟩⟩

end Build

end UniDb.Locy
