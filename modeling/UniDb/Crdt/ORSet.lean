import Mathlib.Data.Finset.Basic
import UniDb.Crdt.Types

/-!
# The Observed-Remove Set

A set with adds and removes that keeps no tombstones.

Each add makes a dot, the actor with its next counter, and the version vector records the
highest counter that was seen of each actor. A dot is therefore in one of three situations
at a replica: not seen, seen and held, or seen and no longer held. The merge takes the later
of the two situations, which is why it is a join: `holds_merge` is the whole argument, and
each law is read off it.

A well formed set holds only dots that it has seen. Its keys all have dots.

## Main definitions

* `ORSet`: The set, with its updates and its merge.
* `ORSet.Holds`, `ORSet.Seen`: The situation of a dot at a replica.
* `ORSet.WellFormed`: What every reachable set satisfies.
* `ORSetWire`, `ORSet.ofWire`: Decoding, with the upgrade of the first format.

## Theorems

* `ORSet.holds_merge`, `ORSet.seen_merge`: The merge, dot by dot.
* `ORSet.dots_same`: Sets without empty entries are equal if they hold the same dots.
* `ORSet.merge_comm`, `ORSet.merge_assoc`, `ORSet.merge_idem`: The laws of the merge.
-/

namespace UniDb.Crdts

open Finset AssocMap Counters

/-- An actor and a counter of that actor. -/
abbrev Dot := String × Nat

structure ORSet (T : Type) where
  dots : AssocMap T (Finset Dot)
  vv : Counters
  actor : String

namespace ORSet

variable {T : Type} [DecidableEq T]

/-- The new set of an actor, whose id is drawn fresh. -/
def new (actor : String) : ORSet T := { dots := ∅, vv := ∅, actor := actor }

/-- A copy under a new actor. -/
def fork (self : ORSet T) (actor : String) : ORSet T := { self with actor := actor }

/-- The new dot takes the place of the dots that the element had. -/
def add (self : ORSet T) (element : T) : Option (ORSet T) :=
  (self.vv.bump self.actor 1).map fun vv =>
    { self with vv := vv, dots := self.dots.insert element {(self.actor, vv.count self.actor)} }

def remove (self : ORSet T) (element : T) : ORSet T :=
  { self with dots := self.dots.erase element }

def contains (self : ORSet T) (element : T) : Bool :=
  ((self.dots.lookup element).map fun dots => decide dots.Nonempty).getD false

/-- The dots of one element that survive a merge. -/
def surviving (vv otherVv : Counters) (sd od : Finset Dot) : Finset Dot :=
  sd ∩ od ∪ (sd \ od).filter (fun d => otherVv.count d.1 < d.2) ∪
    (od \ sd).filter fun d => vv.count d.1 < d.2

/-- The round of the merge loop for one element. -/
def mergeKey (vv : Counters) (other : ORSet T) (dots : AssocMap T (Finset Dot)) (key : T) :
    AssocMap T (Finset Dot) :=
  let kept := surviving vv other.vv ((dots.lookup key).getD ∅) ((other.dots.lookup key).getD ∅)
  if kept = ∅ then dots.erase key else dots.insert key kept

def merge (self other : ORSet T) : ORSet T :=
  let keys := AssocSet.ofList (self.dots.keys ++ other.dots.keys)
  { self with
    dots := keys.keys.foldl (mergeKey self.vv other) self.dots
    vv := self.vv.join other.vv }

/-- Equality of sets does not look at the actors. -/
def Same (a b : ORSet T) : Prop := a.dots.Same b.dots ∧ a.vv.Same b.vv

instance (a b : ORSet T) : Decidable (a.Same b) := inferInstanceAs (Decidable (_ ∧ _))

/-! ### Decoding -/

end ORSet

/-- What a payload may carry: the fields of the present format and those of the first one,
    whose tags are opaque. A set is written as a sequence. -/
structure ORSetWire (T : Type) where
  dots : Option (AssocMap T (List Dot))
  vv : Option Counters
  elements : Option (AssocMap T (List Uuid))
  tombstones : Option (List Uuid)

namespace ORSet

variable {T : Type} [DecidableEq T]

def decodeDots (dots : AssocMap T (List Dot)) : AssocMap T (Finset Dot) :=
  dots.filterMapVal fun _ tags => some tags.toFinset

/-- The highest counters of the dots, for a payload without a version vector. -/
def deriveVv (dots : AssocMap T (List Dot)) : Counters :=
  dots.toList.foldl
    (fun vv e => e.2.foldl (fun vv d => vv.insert d.1 (max (vv.count d.1) d.2)) vv) ∅

/-- The elements of the first format that have a tag without a tombstone, in iteration order. -/
def liveElements (elements : AssocMap T (List Uuid)) (tombstones : List Uuid) : List T :=
  (elements.toList.filter fun e => e.2.any fun tag => tag ∉ tombstones).map Prod.fst

/-- A set with the dots of one actor, who counted up to `counter`. -/
def counted (actor : String) (dots : AssocMap T (Finset Dot)) (counter : Nat) : ORSet T :=
  { dots := dots
    vv := if 0 < counter then (∅ : Counters).insert actor counter else ∅
    actor := actor }

/-- The round of the upgrade loop for one live element. -/
def upgradeElement (actor : String) (st : AssocMap T (Finset Dot) × Nat) (elem : T) :
    AssocMap T (Finset Dot) × Nat :=
  (st.1.insert elem {(actor, st.2 + 1)}, st.2 + 1)

/-- One dot for each live element, under the actor of the decoded set. -/
def upgrade (actor : String) (live : List T) : ORSet T :=
  let out := live.foldl (upgradeElement actor) (∅, 0)
  counted actor out.1 out.2

/-- Decodes a payload under a fresh actor. -/
def ofWire (wire : ORSetWire T) (actor : String) : ORSet T :=
  match wire.dots, wire.vv with
  | some dots, some vv => { dots := decodeDots dots, vv := vv, actor := actor }
  | some dots, none => { dots := decodeDots dots, vv := deriveVv dots, actor := actor }
  | none, some vv => { dots := ∅, vv := vv, actor := actor }
  | none, none =>
    upgrade actor (liveElements (wire.elements.getD ∅) (wire.tombstones.getD []))

/-- A payload that a set writes. The iteration order of its maps and sets is not determined. -/
def Writes (self : ORSet T) (wire : ORSetWire T) : Prop :=
  match wire.dots, wire.vv, wire.elements, wire.tombstones with
  | some dots, some vv, none, none => (decodeDots dots).Same self.dots ∧ vv.Same self.vv
  | _, _, _, _ => False

instance (self : ORSet T) (wire : ORSetWire T) : Decidable (self.Writes wire) := by
  unfold Writes
  split <;> infer_instance

/-- A set that was written decodes to itself, under another actor. -/
theorem ofWire_same {self : ORSet T} {wire : ORSetWire T} (h : self.Writes wire)
    (actor : String) : (ofWire wire actor).Same self := by
  unfold Writes at h
  split at h
  · rename_i dots vv hdots hvv _ _
    rw [ofWire, hdots, hvv]
    exact h
  · exact h.elim

/-! ### The situation of a dot -/

/-- The dot keeps the element in the set. -/
def Holds (s : ORSet T) (e : T) (d : Dot) : Prop := d ∈ (s.dots.lookup e).getD ∅

/-- The dot is within the version vector. -/
def Seen (s : ORSet T) (d : Dot) : Prop := d.2 ≤ s.vv.count d.1

variable {a b : ORSet T}

theorem holds_congr (h : a.Same b) (e : T) (d : Dot) : a.Holds e d ↔ b.Holds e d := by
  unfold Holds
  rw [h.1 e]

theorem seen_congr (h : a.Same b) (d : Dot) : a.Seen d ↔ b.Seen d := by
  unfold Seen Counters.count
  rw [h.2 d.1]

theorem contains_iff (s : ORSet T) (e : T) : s.contains e = true ↔ ∃ d, s.Holds e d := by
  unfold contains Holds
  cases s.dots.lookup e with
  | none => simp
  | some => exact decide_eq_true_iff

/-- A set of dots as the value of a key, which has no entry if it is empty. -/
def entry (ds : Finset Dot) : Option (Finset Dot) := if ds = ∅ then none else some ds

theorem mem_entry (ds : Finset Dot) (d : Dot) : d ∈ (entry ds).getD ∅ ↔ d ∈ ds := by
  unfold entry
  split
  · rename_i hds
    rw [hds]
    rfl
  · rfl

theorem lookup_put_entry (dots : AssocMap T (Finset Dot)) (k a : T) (kept : Finset Dot) :
    (if kept = ∅ then dots.erase k else dots.insert k kept).lookup a =
      if a = k then entry kept else dots.lookup a := by
  unfold entry
  by_cases hk : kept = ∅
  · rw [if_pos hk, if_pos hk, lookup_erase_eq]
  · rw [if_neg hk, if_neg hk, lookup_insert_eq]

theorem mergeKey_actsAt (vv : Counters) (other : ORSet T) :
    ActsAt (fun (dots : AssocMap T (Finset Dot)) k => dots.lookup k) id (mergeKey vv other)
      fun k sd => entry (surviving vv other.vv (sd.getD ∅) ((other.dots.lookup k).getD ∅)) := by
  intro dots k a
  refine (lookup_put_entry dots k a _).trans ?_
  by_cases ha : a = k
  · subst ha
    rfl
  · rw [if_neg ha, id, if_neg ha]

theorem lookup_merge (a b : ORSet T) (k : T) : (a.merge b).dots.lookup k =
    entry (surviving a.vv b.vv ((a.dots.lookup k).getD ∅) ((b.dots.lookup k).getD ∅)) := by
  refine ((mergeKey_actsAt a.vv b).foldl_keys _ a.dots k).trans ?_
  split
  · rfl
  · -- a key of neither set has no entry before the loop and none after it
    rename_i hk
    rw [AssocSet.mem_ofList, List.mem_append, not_or] at hk
    rw [AList.lookup_eq_none.mpr hk.1, AList.lookup_eq_none.mpr hk.2]
    rfl

/-- A dot survives if both sets hold it, or if one holds it and the other has not seen it. -/
theorem holds_merge (a b : ORSet T) (e : T) (d : Dot) : (a.merge b).Holds e d ↔
    (a.Holds e d ∧ b.Holds e d) ∨ (a.Holds e d ∧ ¬ b.Holds e d ∧ ¬ b.Seen d) ∨
      (b.Holds e d ∧ ¬ a.Holds e d ∧ ¬ a.Seen d) := by
  rw [Holds, lookup_merge, mem_entry]
  simp only [surviving, mem_union, mem_inter, mem_filter, mem_sdiff, ← not_le, and_assoc, or_assoc]
  rfl

theorem seen_merge (a b : ORSet T) (d : Dot) : (a.merge b).Seen d ↔ a.Seen d ∨ b.Seen d := by
  show d.2 ≤ (a.vv.join b.vv).count d.1 ↔ _
  rw [count_join, le_max_iff]
  rfl

/-- The dot that the next add makes. -/
def nextDot (s : ORSet T) : Dot := (s.actor, s.vv.count s.actor + 1)

/-- The set after an add whose counter does not overflow. -/
def addDot (s : ORSet T) (e : T) : ORSet T :=
  { s with
    vv := s.vv.insert s.actor (s.vv.count s.actor + 1)
    dots := s.dots.insert e {s.nextDot} }

variable {s : ORSet T}

theorem add_ok {s' : ORSet T} {e : T} (h : s.add e = some s') :
    s.vv.bump s.actor 1 = some s'.vv ∧ s' = s.addDot e := by
  rcases Option.map_eq_some_iff.mp h with ⟨vv, hvv, rfl⟩
  refine ⟨hvv, ?_⟩
  rw [count_bump hvv, if_pos rfl, (bump_ok hvv).2]
  rfl

theorem holds_addDot (s : ORSet T) (e f : T) (d : Dot) :
    (s.addDot e).Holds f d ↔ if f = e then d = s.nextDot else s.Holds f d := by
  rw [Holds, addDot, lookup_insert_eq]
  split
  · exact mem_singleton
  · rfl

theorem seen_addDot (s : ORSet T) (e : T) (d : Dot) :
    (s.addDot e).Seen d ↔ s.Seen d ∨ d = s.nextDot := by
  rcases d with ⟨a, c⟩
  show c ≤ Counters.count (s.vv.insert s.actor (s.vv.count s.actor + 1)) a ↔
    c ≤ s.vv.count a ∨ (a, c) = (s.actor, s.vv.count s.actor + 1)
  rw [count_insert, Prod.mk.injEq]
  by_cases ha : a = s.actor
  · rw [if_pos ha, ha, and_iff_right rfl]
    omega
  · rw [if_neg ha]
    exact ⟨.inl, fun hc => hc.resolve_right fun hp => ha hp.1⟩

omit [DecidableEq T] in
/-- The next dot was not seen yet. -/
theorem not_seen_nextDot (s : ORSet T) : ¬ s.Seen s.nextDot := by
  show ¬ s.vv.count s.actor + 1 ≤ s.vv.count s.actor
  omega

theorem holds_remove (s : ORSet T) (e f : T) (d : Dot) :
    (s.remove e).Holds f d ↔ f ≠ e ∧ s.Holds f d := by
  rw [Holds, remove, lookup_erase_eq]
  split
  · rename_i hf
    exact ⟨fun hd => absurd hd (notMem_empty d), fun hd => absurd hf hd.1⟩
  · rename_i hf
    exact ⟨fun hd => ⟨hf, hd⟩, fun hd => hd.2⟩

/-! ### The laws of the merge -/

/-- A set holds only what it has seen, and its keys all have dots. -/
structure WellFormed (s : ORSet T) : Prop where
  seen : ∀ {e d}, s.Holds e d → s.Seen d
  nonempty : ∀ e, s.dots.lookup e ≠ some ∅

theorem entry_ne_empty (ds : Finset Dot) : entry ds ≠ some ∅ := by
  unfold entry
  split
  · exact nofun
  · rename_i hds
    exact fun h => hds (Option.some.inj h)

theorem merge_nonempty (a b : ORSet T) (e : T) : (a.merge b).dots.lookup e ≠ some ∅ := by
  rw [lookup_merge]
  exact entry_ne_empty _

variable (actor : String)

theorem WellFormed.new : (ORSet.new actor : ORSet T).WellFormed where
  seen h := absurd h (notMem_empty _)
  nonempty _ h := by cases h

theorem WellFormed.fork (h : s.WellFormed) (actor : String) : (s.fork actor).WellFormed :=
  ⟨h.seen, h.nonempty⟩

theorem WellFormed.addDot (h : s.WellFormed) (e : T) : (s.addDot e).WellFormed := by
  constructor
  · intro f d hd
    rw [seen_addDot]
    rw [holds_addDot] at hd
    split at hd
    · exact .inr hd
    · exact .inl (h.seen hd)
  · intro f hf
    rw [ORSet.addDot, lookup_insert_eq] at hf
    split at hf
    · exact singleton_ne_empty _ (Option.some.inj hf)
    · exact h.nonempty f hf

theorem WellFormed.remove (h : s.WellFormed) (e : T) : (s.remove e).WellFormed := by
  constructor
  · intro f d hd
    exact h.seen ((holds_remove s e f d).mp hd).2
  · intro f hf
    rw [ORSet.remove, lookup_erase_eq] at hf
    split at hf
    · cases hf
    · exact h.nonempty f hf

theorem WellFormed.congr (h : a.WellFormed) (hsame : b.Same a) : b.WellFormed := by
  constructor
  · intro e d hd
    rw [seen_congr hsame]
    exact h.seen ((holds_congr hsame e d).mp hd)
  · intro e
    rw [hsame.1 e]
    exact h.nonempty e

theorem addDot_counted (dots : AssocMap T (Finset Dot)) (c : Nat) (e : T) :
    (counted actor dots c).addDot e = counted actor (dots.insert e {(actor, c + 1)}) (c + 1) := by
  have hcount : Counters.count (counted actor dots c).vv actor = c := by
    unfold counted
    split
    · rw [count_insert, if_pos rfl]
    · rename_i hc
      rw [Nat.eq_zero_of_not_pos hc]
      rfl
  have hvv : (counted actor dots c).vv.insert actor (c + 1) =
      (∅ : Counters).insert actor (c + 1) := by
    unfold counted
    split
    · rw [AList.insert_insert]
    · rfl
  have hactor : (counted actor dots c).actor = actor := rfl
  rw [addDot, nextDot, hactor, hcount, hvv]
  rw [counted, counted, if_pos (Nat.succ_pos c)]

/-- Upgrading a payload of the first format adds its live elements to a new set. -/
theorem upgrade_eq (live : List T) : upgrade actor live = live.foldl addDot (new actor) := by
  have hfold : ∀ (live : List T) (st : AssocMap T (Finset Dot) × Nat),
      live.foldl addDot (counted actor st.1 st.2) =
        counted actor (live.foldl (upgradeElement actor) st).1
          (live.foldl (upgradeElement actor) st).2 := by
    intro live
    induction live with
    | nil => exact fun st => rfl
    | cons e live ih =>
      intro st
      rw [List.foldl_cons, addDot_counted, List.foldl_cons]
      exact ih (upgradeElement actor st e)
  exact (hfold live (∅, 0)).symm

theorem WellFormed.upgrade (live : List T) : (ORSet.upgrade actor live).WellFormed := by
  rw [upgrade_eq]
  have hfold : ∀ (live : List T) (s : ORSet T), s.WellFormed →
      (live.foldl ORSet.addDot s).WellFormed := by
    intro live
    induction live with
    | nil => exact fun s h => h
    | cons e live ih => exact fun s h => ih (s.addDot e) (h.addDot e)
  exact hfold live _ (WellFormed.new actor)

theorem WellFormed.merge (ha : a.WellFormed) (hb : b.WellFormed) : (a.merge b).WellFormed := by
  refine ⟨?_, merge_nonempty a b⟩
  intro e d hd
  rw [seen_merge]
  rcases (holds_merge a b e d).mp hd with h | h | h
  · exact .inl (ha.seen h.1)
  · exact .inl (ha.seen h.1)
  · exact .inr (hb.seen h.1)

/-- Sets without empty entries are compared by the dots that they hold. -/
theorem dots_same (ha : ∀ e, a.dots.lookup e ≠ some ∅) (hb : ∀ e, b.dots.lookup e ≠ some ∅)
    (h : ∀ e d, a.Holds e d ↔ b.Holds e d) : a.dots.Same b.dots := by
  intro e
  have hentry : ∀ {s : ORSet T}, s.dots.lookup e ≠ some ∅ →
      s.dots.lookup e = entry ((s.dots.lookup e).getD ∅) := by
    intro s hs
    cases hl : s.dots.lookup e with
    | none => rfl
    | some =>
      rw [hl] at hs
      rw [Option.getD_some, entry, if_neg fun hds => hs (congrArg some hds)]
  have heq : (a.dots.lookup e).getD ∅ = (b.dots.lookup e).getD ∅ := ext (h e)
  rw [hentry (ha e), hentry (hb e), heq]

theorem merge_comm (a b : ORSet T) : (a.merge b).Same (b.merge a) := by
  refine ⟨dots_same (merge_nonempty a b) (merge_nonempty b a) ?_, join_comm a.vv b.vv⟩
  intro e d
  rw [holds_merge, holds_merge]
  tauto

instance (s : ORSet T) (e : T) (d : Dot) : Decidable (s.Holds e d) :=
  inferInstanceAs (Decidable (d ∈ _))

instance (s : ORSet T) (d : Dot) : Decidable (s.Seen d) := inferInstanceAs (Decidable (_ ≤ _))

/-- The situation of a dot as a number: not seen, held, dropped. -/
def stage (s : ORSet T) (e : T) (d : Dot) : Nat :=
  if s.Holds e d then 1 else if s.Seen d then 2 else 0

theorem holds_iff_stage (s : ORSet T) (e : T) (d : Dot) : s.Holds e d ↔ s.stage e d = 1 := by
  unfold stage
  split
  · simp_all
  · split <;> simp_all

/-- The merge takes the later situation. -/
theorem stage_merge (ha : a.WellFormed) (hb : b.WellFormed) (e : T) (d : Dot) :
    (a.merge b).stage e d = max (a.stage e d) (b.stage e d) := by
  have hsa : a.Holds e d → a.Seen d := ha.seen
  have hsb : b.Holds e d → b.Seen d := hb.seen
  simp only [stage, holds_merge, seen_merge]
  by_cases h₁ : a.Holds e d <;> by_cases h₂ : b.Holds e d
  · simp [h₁, h₂]
  · by_cases h₃ : b.Seen d <;> simp [h₁, h₂, h₃, hsa h₁]
  · by_cases h₃ : a.Seen d <;> simp [h₁, h₂, h₃, hsb h₂]
  · by_cases h₃ : a.Seen d <;> by_cases h₄ : b.Seen d <;> simp [h₁, h₂, h₃, h₄]

theorem merge_assoc {c : ORSet T} (ha : a.WellFormed) (hb : b.WellFormed) (hc : c.WellFormed) :
    ((a.merge b).merge c).Same (a.merge (b.merge c)) := by
  refine ⟨dots_same (merge_nonempty _ c) (merge_nonempty a _) ?_, join_assoc a.vv b.vv c.vv⟩
  intro e d
  rw [holds_iff_stage, holds_iff_stage, stage_merge (ha.merge hb) hc, stage_merge ha hb,
    stage_merge ha (hb.merge hc), stage_merge hb hc, max_assoc]

theorem merge_idem (ha : a.WellFormed) : (a.merge a).Same a := by
  refine ⟨dots_same (merge_nonempty a a) ha.nonempty ?_, join_idem a.vv⟩
  intro e d
  rw [holds_merge]
  tauto

end ORSet

end UniDb.Crdts
