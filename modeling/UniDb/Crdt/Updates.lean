import UniDb.Crdt.Merge

/-!
# Local Updates

What an older copy of a value does to an update of it.

An update is inflationary if merging the value from before it changes nothing, in either
direction: otherwise a copy that has not seen the update takes it back. Every update is,
except that a register accepts a write with the timestamp it has, while its merge settles
equal timestamps by the serialized values. Such a write is taken back unless the new value
has the larger serialized form.

## Main definitions

* `Update`, `Crdt.update`: The local updates.
* `Crdt.Reachable`: The values that updates, merges, copies and decoding lead to.
* `Crdt.LosesTie`: A write that the tie-break decides against.

## Theorems

* `update_absorbs_iff`: An update is inflationary exactly if it loses no tie.
* `equal_timestamp_undone`: A write that an older copy takes back.
-/

namespace UniDb.Crdts

open Counters AssocMap VCRegister VectorClock Option Serialize

inductive Update (V : Type)
  | increment (actor : String) (value : Nat)
  | gsetAdd (element : String)
  | orsetAdd (element : String)
  | orsetRemove (element : String)
  | registerSet (value : V) (timestamp : Int)
  | mapPut (key : String) (value : V) (timestamp : Int)
  | mapRemove (key : String) (timestamp : Int)
  | rgaInsert (id : Uuid) (prevId : Option Uuid) (elem : String) (timestamp : Int)
  | rgaDelete (id : Uuid)
  | clockIncrement (actor : String)
  | vcSet (value : V) (actor : String)

namespace Crdt

variable {V : Type}

/-- The value after an update. There is none for an update of another kind, for a counter
    that overflows and for an id that is not fresh. -/
def update : Crdt V → Update V → Option (Crdt V)
  | .gCounter c, .increment actor value => (c.increment actor value).map .gCounter
  | .gSet s, .gsetAdd element => some (.gSet (s.add element))
  | .orSet s, .orsetAdd element => (s.add element).map .orSet
  | .orSet s, .orsetRemove element => some (.orSet (s.remove element))
  | .lwwRegister r, .registerSet value timestamp => some (.lwwRegister (r.set value timestamp))
  | .lwwMap m, .mapPut key value timestamp => some (.lwwMap (m.put key value timestamp))
  | .lwwMap m, .mapRemove key timestamp => some (.lwwMap (m.remove key timestamp))
  | .rga r, .rgaInsert id prevId elem timestamp =>
    if id ∈ r.nodes then none else some (.rga (r.insert id prevId elem timestamp))
  | .rga r, .rgaDelete id => some (.rga (r.delete id))
  | .vectorClock c, .clockIncrement actor => (c.increment actor).map .vectorClock
  | .vcRegister r, .vcSet value actor => (r.set value actor).map .vcRegister
  | _, _ => none

/-- The values that a program gets to hold. -/
inductive Reachable [Serialize V] : Crdt V → Prop
  | gCounter : Reachable (.gCounter .new)
  | gSet : Reachable (.gSet .new)
  | orSet (actor : String) : Reachable (.orSet (.new actor))
  | lwwRegister (value : V) (timestamp : Int) : Reachable (.lwwRegister ⟨value, timestamp⟩)
  | lwwMap : Reachable (.lwwMap .new)
  | rga : Reachable (.rga .new)
  | vectorClock : Reachable (.vectorClock .new)
  | vcRegister {value : V} {actor : String} {r : VCRegister V} :
      new value actor = some r → Reachable (.vcRegister r)
  | update {s s' : Crdt V} {u : Update V} : Reachable s → s.update u = some s' → Reachable s'
  | merge {s t : Crdt V} : Reachable s → Reachable t → Reachable (s.tryMerge t).1
  | fork {s : ORSet String} : Reachable (.orSet s) → ∀ actor, Reachable (.orSet (s.fork actor))
  | decode {s : ORSet String} {wire : ORSetWire String} : Reachable (.orSet s) → s.Writes wire →
      ∀ actor, Reachable (.orSet (.ofWire wire actor))
  | upgrade (actor : String) (live : List String) : Reachable (.orSet (.upgrade actor live))

/-- Merging the value from before an update into the one after it, and the other way round,
    gives the value after it. -/
def Absorbs [Serialize V] (s s' : Crdt V) : Prop :=
  (∃ m, s'.tryMerge s = (m, .ok ()) ∧ m.Same s') ∧ ∃ m, s.tryMerge s' = (m, .ok ()) ∧ m.Same s'

end Crdt

/-- A write with the timestamp of the register whose value has no larger serialized form. -/
def LWWRegister.LosesTie {T : Type} [Serialize T] (r : LWWRegister T) (value : T)
    (timestamp : Int) : Prop :=
  timestamp = r.timestamp ∧ value ≠ r.value ∧ ¬ key r.value < key value

def Crdt.LosesTie {V : Type} [Serialize V] : Crdt V → Update V → Prop
  | .lwwRegister r, .registerSet value timestamp => r.LosesTie value timestamp
  | .lwwMap m, .mapPut key value timestamp =>
    ∃ r, m.map.lookup key = some r ∧ r.LosesTie (some value) timestamp
  | .lwwMap m, .mapRemove key timestamp =>
    ∃ r, m.map.lookup key = some r ∧ r.LosesTie none timestamp
  | _, _ => False

section

variable {V : Type} [Serialize V]

theorem LWWRegister.set_absorbs_iff (r : LWWRegister V) (value : V) (timestamp : Int) :
    ((r.set value timestamp).merge r = r.set value timestamp ∧
      r.merge (r.set value timestamp) = r.set value timestamp) ↔ ¬ r.LosesTie value timestamp := by
  rcases lt_trichotomy timestamp r.timestamp with ht | ht | ht
  · -- the write is refused
    rw [LWWRegister.set, if_neg ht.not_ge, merge_idem]
    exact iff_of_true ⟨rfl, rfl⟩ fun h => ht.ne h.1
  · subst ht
    rw [LWWRegister.set, if_pos le_rfl]
    by_cases hv : value = r.value
    · subst hv
      rw [merge_idem]
      exact iff_of_true ⟨rfl, rfl⟩ fun h => h.2.1 rfl
    · have hne : r ≠ ⟨value, r.timestamp⟩ := fun h => hv (congrArg LWWRegister.value h).symm
      have hlt : r.rank < (LWWRegister.mk value r.timestamp).rank ↔ key r.value < key value := by
        rw [rank_lt_iff]
        exact ⟨fun h => (h.resolve_left (lt_irrefl _)).2, fun h => .inr ⟨rfl, h⟩⟩
      rw [merge_eq, merge_eq]
      by_cases hk : key r.value < key value
      · rw [if_neg (hlt.mpr hk).not_gt, if_pos (hlt.mpr hk)]
        exact iff_of_true ⟨rfl, rfl⟩ fun h => h.2.2 hk
      · rw [if_neg (fun h => hk (hlt.mp h))]
        exact iff_of_false (fun h => hne h.2) fun h => h ⟨rfl, hv, hk⟩
  · have hlt : r.rank < (LWWRegister.mk value timestamp).rank := (rank_lt_iff _ _).mpr (.inl ht)
    rw [LWWRegister.set, if_pos ht.le, merge_eq, merge_eq, if_neg hlt.not_gt, if_pos hlt]
    exact iff_of_true ⟨rfl, rfl⟩ fun h => ht.ne' h.1

omit [Serialize V] in
theorem LWWMap.write_eq (m : LWWMap String V) (k : String) (value : Option V) (timestamp : Int) :
    (m.write k value timestamp).map = m.map.insert k
      ((m.map.lookup k).elim ⟨value, timestamp⟩ fun r => r.set value timestamp) := by
  unfold LWWMap.write
  cases m.map.lookup k <;> rfl

theorem LWWMap.write_absorbs_iff (m : LWWMap String V) (k : String) (value : Option V)
    (timestamp : Int) :
    (((m.write k value timestamp).merge m).map.Same (m.write k value timestamp).map ∧
      (m.merge (m.write k value timestamp)).map.Same (m.write k value timestamp).map) ↔
      ¬ ∃ r, m.map.lookup k = some r ∧ r.LosesTie value timestamp := by
  simp only [LWWMap.merge, LWWMap.write_eq,
    joinWith_insert_iff LWWRegister.merge_idem, not_exists, not_and]
  refine forall_congr' fun r => forall_congr' fun hr => ?_
  rw [hr]
  exact r.set_absorbs_iff value timestamp

end

/-! ### The other kinds -/

variable {actor : String}

section

variable {T : Type}

theorem Rga.delete_absorbs (r : Rga T) (id : Uuid) :
    ((r.delete id).merge r).nodes.Same (r.delete id).nodes ∧
      (r.merge (r.delete id)).nodes.Same (r.delete id).nodes := by
  unfold Rga.delete
  cases hl : r.nodes.lookup id with
  | none =>
    have hidem := joinWith_idem RgaNode.merge_idem r.nodes
    exact ⟨hidem, hidem⟩
  | some node =>
    refine (joinWith_insert_iff RgaNode.merge_idem r.nodes id _).mpr ?_
    intro n hn
    rw [hl, some.injEq] at hn
    subst hn
    rcases node with ⟨_, _, _, s, _⟩
    cases s <;> exact ⟨rfl, rfl⟩

theorem bump_absorbs {m m' : Counters} {a : String} {v : Nat} (h : m.bump a v = some m') :
    (m'.join m).Same m' ∧ (m.join m').Same m' :=
  ⟨join_of_le (le_bump h), (join_comm m m').trans (join_of_le (le_bump h))⟩

theorem GCounter.increment_absorbs {c c' : GCounter} {value : Nat}
    (h : c.increment actor value = some c') :
    (c'.merge c).counts.Same c'.counts ∧ (c.merge c').counts.Same c'.counts := by
  unfold GCounter.increment at h
  split at h
  · cases h
    exact ⟨join_idem _, join_idem _⟩
  · rcases map_eq_some_iff.mp h with ⟨m, hm, rfl⟩
    exact bump_absorbs hm

variable [DecidableEq T]

/-- The older copy holds dots that the add replaced. The newer one has seen them all. -/
theorem ORSet.add_absorbs {s s' : ORSet T} {e : T} (hs : s.WellFormed) (h : s.add e = some s') :
    (s'.merge s).Same s' ∧ (s.merge s').Same s' := by
  rcases add_ok h with ⟨hvv, rfl⟩
  have hdots : ((s.addDot e).merge s).dots.Same (s.addDot e).dots := by
    refine dots_same (merge_nonempty _ s) (hs.addDot e).nonempty ?_
    intro f d
    have hseen : s.Holds f d → s.Seen d := hs.seen
    rw [holds_merge, holds_addDot, seen_addDot]
    by_cases hf : f = e
    · rw [if_pos hf]
      constructor
      · rintro (hd | hd | hd)
        · exact hd.1
        · exact hd.1
        · exact absurd (.inl (hseen hd.1)) hd.2.2
      · intro hd
        have hnot : ¬ s.Seen d := by
          rw [hd]
          exact s.not_seen_nextDot
        exact .inr (.inl ⟨hd, fun hh => hnot (hseen hh), hnot⟩)
    · rw [if_neg hf]
      tauto
  have hjoin := bump_absorbs hvv
  have hcomm := merge_comm s (s.addDot e)
  exact ⟨⟨hdots, hjoin.1⟩, hcomm.1.trans hdots, hjoin.2⟩

theorem ORSet.remove_absorbs {s : ORSet T} (hs : s.WellFormed) (e : T) :
    ((s.remove e).merge s).Same (s.remove e) ∧ (s.merge (s.remove e)).Same (s.remove e) := by
  have hdots : ((s.remove e).merge s).dots.Same (s.remove e).dots := by
    refine dots_same (merge_nonempty _ s) (hs.remove e).nonempty ?_
    intro f d
    have hseen : s.Holds f d → (s.remove e).Seen d := hs.seen
    rw [holds_merge, holds_remove]
    tauto
  have hjoin : (s.vv.join s.vv).Same s.vv := join_idem s.vv
  have hcomm := merge_comm s (s.remove e)
  exact ⟨⟨hdots, hjoin⟩, hcomm.1.trans hdots, hjoin⟩

end

section

variable {V : Type} [Serialize V]

theorem VectorClock.happenedBefore_increment {c c' : VectorClock}
    (h : c.increment actor = some c') :
    c.happenedBefore c' = true ∧ c'.happenedBefore c = false ∧ ¬ c.clocks.Same c'.clocks := by
  rcases map_eq_some_iff.mp h with ⟨m, hm, rfl⟩
  have hcount := count_bump hm
  have hactor : c.get actor < get ⟨m⟩ actor := by
    show c.clocks.count actor < m.count actor
    rw [hcount, if_pos rfl]
    exact Nat.lt_succ_self _
  refine ⟨(happenedBefore_iff _ _).mpr ⟨?_, actor, hactor⟩, ?_, ?_⟩
  · intro x
    show c.clocks.count x ≤ m.count x
    rw [hcount]
    split
    · rename_i hx
      rw [hx]
      exact Nat.le_succ _
    · exact le_rfl
  · rw [Bool.eq_false_iff]
    intro hb
    exact (((happenedBefore_iff _ _).mp hb).1 actor).not_gt hactor
  · intro hsame
    have heq : c.get actor = VectorClock.get ⟨m⟩ actor := by
      unfold VectorClock.get Counters.count
      rw [hsame actor]
    exact hactor.ne heq

theorem VCRegister.set_absorbs {r r' : VCRegister V} {value : V} (h : r.set value actor = some r') :
    ((r'.merge r).value = r'.value ∧ (r'.merge r).clock.clocks.Same r'.clock.clocks) ∧
      (r.merge r').value = r'.value ∧ (r.merge r').clock.clocks.Same r'.clock.clocks := by
  rcases map_eq_some_iff.mp h with ⟨clock, hclock, rfl⟩
  rcases happenedBefore_increment hclock with ⟨hlt, hgt, hne⟩
  have hless : r.clock.causalCmp clock = some .lt := by
    rw [causalCmp, if_neg hne, if_pos hlt]
  have hgreater : clock.causalCmp r.clock = some .gt := by
    rw [causalCmp, if_neg fun hsame => hne hsame.symm, if_neg (by rw [hgt]; decide), if_pos hlt]
  rcases map_eq_some_iff.mp hclock with ⟨m, hm, rfl⟩
  have hjoin := bump_absorbs hm
  unfold VCRegister.merge VCRegister.mergeRegister
  simp only [hless, hgreater]
  exact ⟨⟨trivial, hjoin.1⟩, trivial, hjoin.2⟩

end

/-! ### All kinds -/

section

variable {V : Type} [Serialize V]

theorem Crdt.Absorbs.intro {S : Type} (mk : S → Crdt V) (merge : S → S → S)
    (hmerge : ∀ a b, (mk a).tryMerge (mk b) = (mk (merge a b), .ok ())) {s s' : S} :
    (mk s).Absorbs (mk s') ↔ (mk (merge s' s)).Same (mk s') ∧ (mk (merge s s')).Same (mk s') := by
  simp [Crdt.Absorbs, hmerge]

omit [Serialize V] in
theorem Crdt.WellFormed.update {s s' : Crdt V} {u : Update V} (hs : s.WellFormed)
    (h : s.update u = some s') : s'.WellFormed := by
  unfold Crdt.update at h
  split at h
  case h_3 s e =>
    rcases map_eq_some_iff.mp h with ⟨t, ht, rfl⟩
    rw [(ORSet.add_ok ht).2]
    exact ORSet.WellFormed.addDot hs e
  case h_4 s e =>
    cases h
    exact ORSet.WellFormed.remove hs e
  case h_8 =>
    split at h <;> cases h
    trivial
  case h_12 => cases h
  all_goals first
    | (cases h; trivial)
    | (rcases map_eq_some_iff.mp h with ⟨t, -, rfl⟩; trivial)

theorem Crdt.WellFormed.tryMerge {s t : Crdt V} (hs : s.WellFormed) (ht : t.WellFormed) :
    (s.tryMerge t).1.WellFormed := by
  unfold Crdt.tryMerge
  split
  case h_3 => exact ORSet.WellFormed.merge hs ht
  case h_9 => exact hs
  all_goals trivial

theorem Crdt.Reachable.wellFormed {s : Crdt V} (h : s.Reachable) : s.WellFormed := by
  induction h with
  | orSet actor => exact ORSet.WellFormed.new actor
  | update _ hu ih => exact ih.update hu
  | merge _ _ ihs iht => exact ihs.tryMerge iht
  | fork _ actor ih => exact ORSet.WellFormed.fork ih actor
  | decode _ hw actor ih => exact ORSet.WellFormed.congr ih (ORSet.ofWire_same hw actor)
  | upgrade actor live => exact ORSet.WellFormed.upgrade ..
  | _ => trivial

/-- The value from before an update and the value after it absorb each other, unless the
    update is a write with the timestamp of the register and its value loses the tie. -/
theorem update_absorbs_iff {s s' : Crdt V} {u : Update V} (hs : s.Reachable)
    (hu : s.update u = some s') : s.Absorbs s' ↔ ¬ s.LosesTie u := by
  have hwf := hs.wellFormed
  clear hs
  unfold Crdt.update at hu
  -- in all cases but the writes with a timestamp both sides hold
  split at hu
  case h_1 c actor value =>
    rcases map_eq_some_iff.mp hu with ⟨c', hc, rfl⟩
    rw [Crdt.Absorbs.intro .gCounter GCounter.merge fun _ _ => rfl]
    exact iff_of_true (GCounter.increment_absorbs hc) fun h => h
  case h_2 s e =>
    cases hu
    rw [Crdt.Absorbs.intro .gSet GSet.merge fun _ _ => rfl]
    refine iff_of_true ⟨?_, ?_⟩ fun h => h
    · exact Finset.union_eq_left.mpr (Finset.subset_insert _ _)
    · exact Finset.union_eq_right.mpr (Finset.subset_insert _ _)
  case h_3 s e =>
    rcases map_eq_some_iff.mp hu with ⟨t, ht, rfl⟩
    rw [Crdt.Absorbs.intro .orSet ORSet.merge fun _ _ => rfl]
    exact iff_of_true (ORSet.add_absorbs hwf ht) fun h => h
  case h_4 s e =>
    cases hu
    rw [Crdt.Absorbs.intro .orSet ORSet.merge fun _ _ => rfl]
    exact iff_of_true (ORSet.remove_absorbs hwf e) fun h => h
  case h_5 r value timestamp =>
    cases hu
    rw [Crdt.Absorbs.intro .lwwRegister LWWRegister.merge fun _ _ => rfl]
    exact r.set_absorbs_iff ..
  case h_6 m k value timestamp =>
    cases hu
    rw [Crdt.Absorbs.intro .lwwMap LWWMap.merge fun _ _ => rfl]
    exact m.write_absorbs_iff k (some value) timestamp
  case h_7 m k timestamp =>
    cases hu
    rw [Crdt.Absorbs.intro .lwwMap LWWMap.merge fun _ _ => rfl]
    exact m.write_absorbs_iff ..
  case h_8 r id prevId elem timestamp =>
    split at hu <;> cases hu
    rename_i hid
    rw [Crdt.Absorbs.intro .rga Rga.merge fun _ _ => rfl]
    refine iff_of_true ?_ fun h => h
    -- an insert needs a new id, so there is no node to merge with
    refine (joinWith_insert_iff RgaNode.merge_idem r.nodes id _).mpr ?_
    intro n hn
    exact absurd (mem_of_lookup hn) hid
  case h_9 r id =>
    cases hu
    rw [Crdt.Absorbs.intro .rga Rga.merge fun _ _ => rfl]
    exact iff_of_true (Rga.delete_absorbs r id) fun h => h
  case h_10 c actor =>
    rcases map_eq_some_iff.mp hu with ⟨c', hc, rfl⟩
    rcases map_eq_some_iff.mp hc with ⟨m, hm, rfl⟩
    rw [Crdt.Absorbs.intro .vectorClock mergeClock fun _ _ => rfl]
    exact iff_of_true (bump_absorbs hm) fun h => h
  case h_11 r value actor =>
    rcases map_eq_some_iff.mp hu with ⟨r', hr, rfl⟩
    rw [Crdt.Absorbs.intro .vcRegister merge fun _ _ => rfl]
    exact iff_of_true (set_absorbs hr) fun h => h
  case h_12 => cases hu

end

/-- A write at a later timestamp, and a put over a removal with the same timestamp whose value
    is written as a larger text than `null`. -/
theorem update_absorbs_later :
    ((Crdt.lwwRegister ⟨[98], 100⟩ : Crdt Bytes).Absorbs (.lwwRegister ⟨[97], 110⟩)) ∧
      (Crdt.lwwMap (LWWMap.new.remove "k" 5) : Crdt Bytes).Absorbs
        (.lwwMap ((LWWMap.new.remove "k" 5).put "k" [116] 5)) := by
  refine ⟨(update_absorbs_iff (u := .registerSet [97] 110) (.lwwRegister [98] 100) rfl).mpr ?_,
    (update_absorbs_iff (u := .mapPut "k" [116] 5)
      (.update (u := .mapRemove "k" 5) .lwwMap rfl) rfl).mpr ?_⟩
  · exact fun h => absurd h.1 (by decide)
  · rintro ⟨r, hr, h⟩
    cases hr
    exact h.2.2 (by decide)

/-- The register accepts the text `a` over the text `b` with the timestamp it has. The copy
    from before the write takes it back, and does not take it over. -/
theorem equal_timestamp_undone :
    let before : Crdt Bytes := .lwwRegister ⟨[98], 100⟩
    let after : Crdt Bytes := .lwwRegister ⟨[97], 100⟩
    before.Reachable ∧ before.update (.registerSet [97] 100) = some after ∧
      after.tryMerge before = (before, .ok ()) ∧ before.tryMerge after = (before, .ok ()) ∧
      ¬ before.Same after :=
  ⟨.lwwRegister [98] 100, rfl, rfl, rfl, fun h => absurd (congrArg LWWRegister.value h) (by decide)⟩

end UniDb.Crdts
