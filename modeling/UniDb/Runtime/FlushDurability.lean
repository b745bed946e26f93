import UniDb.Runtime.Flush

/-!
# The Durability Floor

An acknowledged commit is in the published snapshot or in the log behind its
mark, unless a flush skips a relabel of it.

The order in which flushes are finalized does not matter. Finalizing an earlier
generation after a later one publishes an older manifest, which does not cover
the later generation; its segments are still there, because the earlier
generation was pending all the time and held the truncation back. `Retained`
states this: the segments of a generation stay while it, or any earlier one, is
not completed, and while the published manifest is an earlier one's.

A manifest is computed long before it is published, and other generations are
rotated out and flushed in between. `Covers` says what its log mark is good for,
and `Covers.settled` that no step spoils it: generations that are rotated out
later start behind it, and one that is flushed no longer counts.

None of this helps a relabel that a stream skips. The generation counts as
flushed, its segments go, and the new labels are in neither place
(`relabel_lost`). A stream that reads the main table in its turn skips nothing,
and in runs of such streams no commit is lost.

## Main definitions

* `Placed`: Where the generations are in each phase of the lock's holder.
* `Settled`: What no step takes back.
* `Covers`: What the marks of a manifest are good for.
* `Needed`: The generations whose segments must stay.
* `Inv`: The invariant.
* `InTurn`: The main table has a row for every relabel of the stream that reads it.

## Theorems

* `covers_safeLsn`: A manifest at the floor covers.
* `safeLsn_le_of_needed`: A truncation at the floor deletes nothing needed.
* `step_inv`: Every step keeps the invariant.
* `Inv.durable`: The invariant makes every commit durable of which nothing is skipped.
* `durable_run_of_inTurn`: In runs of streams in their turn every commit is durable.
* `relabel_lost`: A run that loses a relabel.
-/

namespace UniDb

namespace Flush

variable {m : Manifest}

section Marks

/-- Where the generations are, and what the holder of the flush lock relies on. -/
structure Placed (s : Flusher) : Prop where
  current : (s.gens s.count).slot = .held ∧ (s.gens s.count).manifest = none
  held : ∀ i < s.count, (s.gens i).slot = .held → s.phase = .rotating i
  rotating : ∀ i, s.phase = .rotating i → i + 1 = s.count ∧ (s.gens i).slot = .held
  publishing : ∀ i, s.phase = .publishing i →
    i < s.count ∧ (s.gens i).slot = .listed ∧ s.publishedBy = some i
  completing : ∀ i, s.phase = .completing i →
    i < s.count ∧ (s.gens i).slot = .completed ∧ s.publishedBy = some i
  completed : ∀ i < s.count, (s.gens i).slot = .completed → (s.gens i).inL1 = true

theorem new_placed : Placed Flusher.new := by
  constructor <;> simp [Flusher.new]

/-- What no step takes back: a generation that is rotated out keeps its place in
    the log, and what is flushed stays flushed. -/
structure Settled (s t : Flusher) : Prop where
  count : s.count ≤ t.count
  start : ∀ i < s.count, (t.gens i).walLsnAtStart = (s.gens i).walLsnAtStart
  flush : ∀ i < s.count, (t.gens i).walLsnAtFlush = (s.gens i).walLsnAtFlush
  version : ∀ i < s.count, (t.gens i).currentVersion = (s.gens i).currentVersion
  completed : ∀ i < s.count, (s.gens i).slot = .completed → (t.gens i).slot = .completed
  inL1 : ∀ i < s.count, (s.gens i).inL1 = true → (t.gens i).inL1 = true

variable {s t : Flusher}

theorem Settled.of_gens (hcount : s.count ≤ t.count) (h : ∀ i < s.count, t.gens i = s.gens i) :
    Settled s t := by
  constructor
  case count => exact hcount
  all_goals
    intro i hi
    simp [h i hi]

theorem SameLog.settled (h : SameLog s t)
    (hcompleted : ∀ i < s.count, (s.gens i).slot = .completed → (t.gens i).slot = .completed)
    (hl1 : ∀ i < s.count, (s.gens i).inL1 = true → (t.gens i).inL1 = true) : Settled s t where
  count := le_of_eq h.count.symm
  start i _ := h.start i
  flush i _ := h.flush i
  version i _ := h.version i
  completed := hcompleted
  inL1 := hl1

/-- What a manifest of a generation is good for: it shows the generation's version, and recovery
    from its log mark misses no other generation that is not flushed. -/
structure Covers (s : Flusher) (i : Nat) (m : Manifest) : Prop where
  version : m.versionHighWaterMark = (s.gens i).currentVersion
  flush : m.walHighWaterMark ≤ (s.gens i).walLsnAtFlush
  start : ∀ j < s.count, j ≠ i → (s.gens j).slot ≠ .completed →
    m.walHighWaterMark ≤ (s.gens j).walLsnAtStart

/-- A generation that is rotated out later starts behind the mark. -/
theorem Covers.settled {i : Nat} (h : Covers s i m) (hi : i < s.count)
    (hst : Settled s t) (ht : Ordered t) : Covers t i m := by
  have hflush := h.flush
  rw [← hst.flush i hi] at hflush
  constructor
  case version => rw [hst.version i hi, h.version]
  case flush => exact hflush
  case start =>
    intro j hj hne hslot
    by_cases hjs : j < s.count
    · -- a generation that is pending now was pending before
      rw [hst.start j hjs]
      exact h.start j hjs hne (fun hc => hslot (hst.completed j hjs hc))
    · exact le_trans hflush (ht.flush_le_start i j (by omega) (by omega))

/-- The floor of a flush covers: a generation that is not on the list yet was
    rotated out after this one. -/
theorem covers_safeLsn (ho : Ordered s) (hp : Placed s) {i : Nat} (hi : i < s.count) :
    Covers s i ⟨(s.gens i).currentVersion, s.safeLsn i⟩ := by
  have hsafe := safeLsn_le s i
  constructor
  case version => rfl
  case flush => exact hsafe.1
  case start =>
    intro j hj hne hslot
    cases hs : (s.gens j).slot with
    | held =>
      have hlast := (hp.rotating j (hp.held j hj hs)).1
      exact le_trans hsafe.1 (ho.flush_le_start i j (by omega) (by omega))
    | listed => exact hsafe.2 j hj hne hs
    | completed => exact absurd hs hslot

/-- The manifests that streams have computed, and the published one. -/
structure Marks (s : Flusher) : Prop where
  manifest : ∀ i < s.count, ∀ m, (s.gens i).manifest = some m → Covers s i m
  published : ∀ p, s.publishedBy = some p →
    p < s.count ∧ (s.gens p).inL1 = true ∧ Covers s p s.published
  unpublished : s.publishedBy = none →
    s.published.walHighWaterMark = 0 ∧ ∀ i < s.count, (s.gens i).slot ≠ .completed

theorem new_marks : Marks Flusher.new := by
  constructor <;> simp [Flusher.new]

theorem Marks.settled (h : Marks s) (hst : Settled s t) (ht : Ordered t)
    (hmanifest : ∀ i < t.count, ∀ m, (t.gens i).manifest = some m → i < s.count ∧
      (s.gens i).manifest = some m ∨ Covers t i m)
    (hpublished : t.published = s.published) (hby : t.publishedBy = s.publishedBy)
    (hslot : s.publishedBy = none → ∀ i < t.count, (t.gens i).slot ≠ .completed) :
    Marks t := by
  constructor
  case manifest =>
    intro i hi m hm
    rcases hmanifest i hi m hm with ⟨hi', hm'⟩ | hcovers
    · exact (h.manifest i hi' m hm').settled hi' hst ht
    · exact hcovers
  case published =>
    intro p hp
    rw [hby] at hp
    rcases h.published p hp with ⟨hlt, hl1, hcovers⟩
    rw [hpublished]
    exact ⟨lt_of_lt_of_le hlt hst.count, hst.inL1 p hlt hl1, hcovers.settled hlt hst ht⟩
  case unpublished =>
    intro hnone
    rw [hby] at hnone
    rw [hpublished]
    exact ⟨(h.unpublished hnone).1, hslot hnone⟩

end Marks

section Retention

/-- The segments of these generations must not be deleted. -/
def Needed (s : Flusher) (i : Nat) : Prop :=
  (∃ k ≤ i, (s.gens k).slot ≠ .completed) ∨ ∃ p < i, s.publishedBy = some p

def Retained (s : Flusher) : Prop :=
  ∀ i ≤ s.count, Needed s i → ∀ c ∈ (s.gens i).commits, c.lsn ∈ s.segments

theorem new_retained : Retained Flusher.new := by
  simp [Retained, Flusher.new]

variable {s : Flusher}

/-- No step but a finalization makes a generation needed again. -/
theorem Needed.of_settled {t : Flusher} {i : Nat} (h : Needed t i) (hst : Settled s t)
    (hp : Placed s) (hby : t.publishedBy = s.publishedBy) (hi : i ≤ s.count) : Needed s i := by
  rcases h with ⟨k, hk, hslot⟩ | ⟨p, hlt, hpub⟩
  · refine .inl ⟨k, hk, ?_⟩
    -- the current generation is pending anyway
    by_cases hkc : k = s.count
    · rw [hkc, hp.current.1]
      exact Slot.noConfusion
    · exact fun hc => hslot (hst.completed k (by omega) hc)
  · exact .inr ⟨p, hlt, hby ▸ hpub⟩

theorem Retained.settled {t : Flusher} (h : Retained s) (hst : Settled s t) (hp : Placed s)
    (hby : t.publishedBy = s.publishedBy) (hsegments : s.segments ⊆ t.segments)
    (hcommits : ∀ i ≤ t.count, ∀ c ∈ (t.gens i).commits, i ≤ s.count ∧ c ∈ (s.gens i).commits ∨
      c.lsn ∈ t.segments) :
    Retained t := by
  intro i hi hneeded c hc
  rcases hcommits i hi c hc with ⟨hi', hc'⟩ | hmem
  · exact hsegments (h i hi' (hneeded.of_settled hst hp hby hi') c hc')
  · exact hmem

/-- What a finalization may delete is behind no generation that is needed. -/
theorem safeLsn_le_of_needed (ho : Ordered s) (hp : Placed s) {i j : Nat}
    (hphase : s.phase = .completing i) (hj : j ≤ s.count) (h : Needed s j) :
    s.safeLsn i ≤ (s.gens j).walLsnAtStart := by
  rcases hp.completing i hphase with ⟨hi, hcompleted, hby⟩
  have hsafe := safeLsn_le s i
  rcases h with ⟨k, hk, hslot⟩ | ⟨p, hlt, hpub⟩
  · -- bounded by the start of the pending generation `k`
    refine le_trans ?_ (ho.start_mono hk hj)
    have hne : k ≠ i := fun hki => hslot (hki ▸ hcompleted)
    by_cases hkc : k = s.count
    · rw [hkc]
      exact le_trans hsafe.1 (ho.flush_le_start i _ hi le_rfl)
    · cases hs : (s.gens k).slot with
      | held =>
        -- no rotation is going on
        have := hp.held k (by omega) hs
        rw [hphase] at this
        exact Phase.noConfusion this
      | listed => exact hsafe.2 k (by omega) hne hs
      | completed => exact absurd hs hslot
  · -- the manifest of this flush is the published one
    have hpi : i = p := Option.some.inj (hby.symm.trans hpub)
    subst hpi
    exact le_trans hsafe.1 (ho.flush_le_start i j hlt hj)

end Retention

section Steps

structure Inv (s : Flusher) : Prop where
  ordered : Ordered s
  placed : Placed s
  marks : Marks s
  retained : Retained s

theorem new_inv : Inv Flusher.new :=
  ⟨new_ordered, new_placed, new_marks, new_retained⟩

variable {s t : Flusher}

theorem Placed.extends (hp : Placed s) (hst : Extends s t) (hphase : t.phase = s.phase)
    (hby : t.publishedBy = s.publishedBy) : Placed t := by
  have hcount := hst.count
  have hgens : ∀ i < s.count, t.gens i = s.gens i := fun i hi => hst.rotated i (by omega)
  constructor
  case current =>
    rw [hcount, hst.slot, hst.manifest]
    exact hp.current
  case held =>
    intro i hi
    rw [hgens i (by omega), hphase]
    exact hp.held i (by omega)
  case rotating =>
    intro i hi
    rw [hphase] at hi
    have hlast := hp.rotating i hi
    rw [hcount, hgens i (by omega)]
    exact hlast
  case publishing =>
    intro i hi
    rw [hphase] at hi
    have hpub := hp.publishing i hi
    rw [hcount, hgens i hpub.1, hby]
    exact hpub
  case completing =>
    intro i hi
    rw [hphase] at hi
    have hpub := hp.completing i hi
    rw [hcount, hgens i hpub.1, hby]
    exact hpub
  case completed =>
    intro i hi
    rw [hgens i (by omega)]
    exact hp.completed i (by omega)

/-- A step of the current generation. -/
theorem Inv.extends (h : Inv s) (hst : Extends s t) (hphase : t.phase = s.phase)
    (hpublished : t.published = s.published) (hby : t.publishedBy = s.publishedBy)
    (hsegments : s.segments ⊆ t.segments) (hcommits : ∀ c ∈ (t.gens s.count).commits,
      c ∈ (s.gens s.count).commits ∨ c.lsn ∈ t.segments) : Inv t := by
  have hcount := hst.count
  have hgens : ∀ i < s.count, t.gens i = s.gens i := fun i hi => hst.rotated i (by omega)
  have hset : Settled s t := Settled.of_gens (by omega) hgens
  have ht := h.ordered.extends hst
  refine ⟨ht, h.placed.extends hst hphase hby, ?_, ?_⟩
  · refine h.marks.settled hset ht ?_ hpublished hby ?_
    · intro i hi m hm
      rw [hgens i (by omega)] at hm
      exact .inl ⟨by omega, hm⟩
    · intro hnone i hi
      rw [hgens i (by omega)]
      exact (h.marks.unpublished hnone).2 i (by omega)
  · refine h.retained.settled hset h.placed hby hsegments ?_
    intro i hi c hc
    by_cases hic : i = s.count
    · subst hic
      rcases hcommits c hc with hc | hmem
      · exact .inl ⟨le_rfl, hc⟩
      · exact .inr hmem
    · rw [hst.rotated i hic] at hc
      exact .inl ⟨by omega, hc⟩

theorem inv_commit (h : Inv s) (skipped writes : Nat) (rows relabels : List Nat) :
    Inv (s.commit skipped writes rows relabels) := by
  refine h.extends (commit_extends ..) rfl rfl rfl ?_ ?_
  · exact List.subset_append_left _ _
  · intro c hc
    simp only [Flusher.commit, gens_update_self, List.mem_append, List.mem_singleton] at hc ⊢
    rcases hc with hc | hc
    · exact .inl hc
    · rw [hc]
      exact .inr (.inr rfl)

theorem inv_reserve (h : Inv s) (versions : Nat) : Inv (s.reserve versions) := by
  refine h.extends (reserve_extends ..) rfl rfl rfl (.refl _) ?_
  intro c hc
  simp only [Flusher.reserve, gens_update_self] at hc
  exact .inl hc

theorem rotate_placed (hp : Placed s) (hphase : s.phase = .idle) : Placed s.rotate := by
  have hcount : s.rotate.count = s.count + 1 := rfl
  constructor
  case current =>
    rw [hcount, rotate_gens_new]
    exact ⟨rfl, rfl⟩
  case held =>
    intro i hi hslot
    by_cases hic : i = s.count
    · rw [hic]
      rfl
    · -- nothing else is between the current slot and the list
      rw [rotate_gens_of_lt s (by omega)] at hslot
      have := hp.held i (by omega) hslot
      rw [hphase] at this
      exact Phase.noConfusion this
  case rotating =>
    intro i hi
    have hic : s.count = i := Phase.rotating.inj hi
    subst hic
    refine ⟨rfl, ?_⟩
    rw [rotate_gens_count]
    exact hp.current.1
  case publishing => exact fun i hi => Phase.noConfusion hi
  case completing => exact fun i hi => Phase.noConfusion hi
  case completed =>
    intro i hi hslot
    by_cases hic : i = s.count
    · rw [hic, rotate_gens_count] at hslot
      exact Slot.noConfusion (hp.current.1.symm.trans hslot)
    · rw [rotate_gens_of_lt s (by omega)] at hslot ⊢
      exact hp.completed i (by omega) hslot

theorem inv_rotate (h : Inv s) (hphase : s.phase = .idle) : Inv s.rotate := by
  have hcount : s.rotate.count = s.count + 1 := rfl
  have ht := rotate_ordered h.ordered
  have hset : Settled s s.rotate :=
    Settled.of_gens (by omega) (fun i hi => rotate_gens_of_lt s hi)
  refine ⟨ht, rotate_placed h.placed hphase, ?_, ?_⟩
  · refine h.marks.settled hset ht ?_ rfl rfl ?_
    · intro i hi m hm
      by_cases hic : i = s.count
      · -- no stream has seen the current generation
        rw [hic, rotate_gens_count] at hm
        exact absurd (h.placed.current.2.symm.trans hm) (by simp)
      · rw [rotate_gens_of_lt s (by omega)] at hm
        exact .inl ⟨by omega, hm⟩
    · intro hnone i hi
      by_cases hic : i = s.count
      · rw [hic, rotate_gens_count]
        rw [h.placed.current.1]
        exact Slot.noConfusion
      · rw [rotate_gens_of_lt s (by omega)]
        exact (h.marks.unpublished hnone).2 i (by omega)
  · refine h.retained.settled hset h.placed rfl (.refl _) ?_
    intro i hi c hc
    by_cases hin : i = s.count + 1
    · rw [hin, rotate_gens_new] at hc
      cases hc
    · by_cases hic : i = s.count
      · rw [hic, rotate_gens_count] at hc
        exact .inl ⟨by omega, hic ▸ hc⟩
      · rw [rotate_gens_of_lt s (by omega)] at hc
        exact .inl ⟨by omega, hc⟩

/-- A step that moves no generation in the log. -/
theorem Inv.sameLog (h : Inv s) (hlog : SameLog s t) (hset : Settled s t) (hplaced : Placed t)
    (hmarks : Ordered t → Marks t) (hby : t.publishedBy = s.publishedBy)
    (hsegments : s.segments ⊆ t.segments) : Inv t := by
  have ht := h.ordered.sameLog hlog
  refine ⟨ht, hplaced, hmarks ht, ?_⟩
  refine h.retained.settled hset h.placed hby hsegments ?_
  intro i hi c hc
  rw [hlog.count] at hi
  rw [hlog.commits] at hc
  exact .inl ⟨hi, hc⟩

/-- A step that changes no generation and publishes nothing. -/
theorem Inv.sameGens (h : Inv s) (hgens : t.gens = s.gens) (hcount : t.count = s.count)
    (hlsn : s.flushedLsn ≤ t.flushedLsn) (hpublished : t.published = s.published)
    (hby : t.publishedBy = s.publishedBy) (hplaced : Placed t) (hretained : Retained t) :
    Inv t := by
  have hset : Settled s t := Settled.of_gens (by omega) (fun i _ => congrFun hgens i)
  have ht : Ordered t := by
    refine h.ordered.sameLog ⟨hcount, hlsn, ?_, ?_, ?_, ?_⟩
    all_goals
      intro i
      rw [hgens]
  refine ⟨ht, hplaced, ?_, hretained⟩
  refine h.marks.settled hset ht ?_ hpublished hby ?_
  · intro i hi m hm
    rw [hgens] at hm
    exact .inl ⟨by omega, hm⟩
  · intro hnone i hi
    rw [hgens]
    exact (h.marks.unpublished hnone).2 i (by omega)

theorem inv_flushWal (h : Inv s) (skipped : Nat) :
    Inv { s with
      flushedLsn := s.flushedLsn + skipped + 1
      segments := s.segments ++ [s.flushedLsn + skipped + 1] } := by
  have hp := h.placed
  refine h.sameGens rfl rfl ?_ rfl rfl ?_ ?_
  · show s.flushedLsn ≤ s.flushedLsn + skipped + 1
    omega
  · exact ⟨hp.current, hp.held, hp.rotating, hp.publishing, hp.completing, hp.completed⟩
  · intro i hi hneeded c hc
    exact List.mem_append_left _ (h.retained i hi hneeded c hc)

/-- The moves of a generation in the hands of the lock's holder: from the
    rotation to the list, or from the list to L1. -/
structure Moves (s : Flusher) (i : Nat) (slot : Slot) (phase : Phase) : Prop where
  lt : i < s.count
  pending : (s.gens i).slot ≠ .completed
  held : ∀ j < s.count, (s.gens j).slot = .held → j = i
  target : slot = .listed ∧ phase = .idle ∨
    slot = .completed ∧ phase = .completing i ∧ s.publishedBy = some i

section Move

variable {i : Nat} {slot : Slot} {phase : Phase}

theorem move_gens_self (s : Flusher) :
    (s.move i slot phase).gens i = { s.gens i with slot := slot } :=
  gens_update_self s i _

theorem move_gens_of_ne (s : Flusher) {j : Nat} (hj : j ≠ i) :
    (s.move i slot phase).gens j = s.gens j :=
  gens_update_of_ne s _ hj

theorem move_inL1 (s : Flusher) (j : Nat) : ((s.move i slot phase).gens j).inL1 = (s.gens j).inL1 :=
  proj_update Generation.inL1 s i (g := { s.gens i with slot := slot }) rfl j

theorem move_manifest (s : Flusher) (j : Nat) :
    ((s.move i slot phase).gens j).manifest = (s.gens j).manifest :=
  proj_update Generation.manifest s i (g := { s.gens i with slot := slot }) rfl j

/-- A move ends on the list, or in L1 with the manifest published. -/
theorem Moves.completed (h : Moves s i slot phase) (hslot : slot = .completed) :
    phase = .completing i ∧ s.publishedBy = some i := by
  rcases h.target with ⟨hlisted, _⟩ | ⟨_, hphase, hby⟩
  · exact Slot.noConfusion (hlisted.symm.trans hslot)
  · exact ⟨hphase, hby⟩

/-- One generation moves on to its next slot. -/
theorem move_placed (hp : Placed s) (hm : Marks s) (h : Moves s i slot phase) :
    Placed (s.move i slot phase) := by
  have hphase : (s.move i slot phase).phase = .idle ∨
      (s.move i slot phase).phase = .completing i := by
    rcases h.target with ⟨_, hto⟩ | ⟨_, hto, _⟩
    · exact .inl hto
    · exact .inr hto
  constructor
  case current =>
    have hne : s.count ≠ i := by
      have := h.lt
      omega
    show ((s.move ..).gens s.count).slot = _ ∧ _
    rw [move_gens_of_ne s hne, move_manifest]
    exact hp.current
  case held =>
    intro j hj hc
    by_cases hji : j = i
    · rw [hji, move_gens_self] at hc
      rcases h.target with ⟨hto, _⟩ | ⟨hto, _⟩
      · exact Slot.noConfusion (hto.symm.trans hc)
      · exact Slot.noConfusion (hto.symm.trans hc)
    · rw [move_gens_of_ne s hji] at hc
      exact absurd (h.held j hj hc) hji
  case rotating | publishing =>
    intro j hj
    rcases hphase with hto | hto <;> exact Phase.noConfusion (hto.symm.trans hj)
  case completing =>
    intro j hj
    rcases h.target with ⟨_, hto⟩ | ⟨hcompleted, hto, hby⟩
    · exact Phase.noConfusion (hto.symm.trans hj)
    · have hij : i = j := Phase.completing.inj (hto.symm.trans hj)
      subst hij
      rw [move_gens_self]
      exact ⟨h.lt, hcompleted, hby⟩
  case completed =>
    intro j hj hc
    rw [move_inL1]
    by_cases hji : j = i
    · rw [hji, move_gens_self] at hc
      rw [hji]
      -- only a published flush completes, and what it published is in L1
      exact (hm.published i (h.completed hc).2).2.1
    · rw [move_gens_of_ne s hji] at hc
      exact hp.completed j hj hc

theorem Inv.move (h : Inv s) (hmove : Moves s i slot phase) : Inv (s.move i slot phase) := by
  have hlog : SameLog s (s.move i slot phase) := by
    have hu := SameLog.update s i (g := { s.gens i with slot := slot }) rfl rfl rfl rfl
    exact ⟨hu.count, hu.flushedLsn, hu.start, hu.flush, hu.version, hu.commits⟩
  have hset : Settled s (s.move i slot phase) := by
    refine hlog.settled ?_ (fun j _ hj => (move_inL1 s j).trans hj)
    intro j _ hc
    have hne : j ≠ i := fun hji => hmove.pending (hji ▸ hc)
    rw [move_gens_of_ne s hne]
    exact hc
  refine h.sameLog hlog hset (move_placed h.placed h.marks hmove) ?_ rfl (.refl _)
  intro ht
  refine h.marks.settled hset ht ?_ rfl rfl ?_
  · intro j hj m hm
    exact .inl ⟨hj, (move_manifest s j).symm.trans hm⟩
  · intro hnone j hj hc
    by_cases hji : j = i
    · rw [hji, move_gens_self] at hc
      exact absurd (hnone.symm.trans (hmove.completed hc).2) (by simp)
    · rw [move_gens_of_ne s hji] at hc
      exact (h.marks.unpublished hnone).2 j hj hc

end Move

variable {i : Nat}

theorem inv_list (h : Inv s) (hphase : s.phase = .rotating i) :
    Inv (s.move i .listed .idle) := by
  rcases h.placed.rotating i hphase with ⟨hlast, hslot⟩
  refine h.move ⟨by omega, ?_, ?_, .inl ⟨rfl, rfl⟩⟩
  · rw [hslot]
    exact Slot.noConfusion
  · -- only one rotation is going on
    intro j hj hc
    exact Phase.rotating.inj ((h.placed.held j hj hc).symm.trans hphase)

theorem inv_completeFlush (h : Inv s) (hphase : s.phase = .publishing i) :
    Inv (s.move i .completed (.completing i)) := by
  rcases h.placed.publishing i hphase with ⟨hi, hslot, hby⟩
  refine h.move ⟨hi, ?_, ?_, .inr ⟨rfl, rfl, hby⟩⟩
  · rw [hslot]
    exact Slot.noConfusion
  · intro j hj hc
    exact Phase.noConfusion ((h.placed.held j hj hc).symm.trans hphase)

theorem Placed.update (hp : Placed s) (hi : i < s.count) {g : Generation}
    (hslot : g.slot = (s.gens i).slot)
    (hl1 : ∀ j < s.count, (s.gens j).inL1 = true → ((s.update i g).gens j).inL1 = true) :
    Placed (s.update i g) := by
  have hslots := proj_update Generation.slot s i hslot
  constructor
  case current =>
    show ((s.update i g).gens s.count).slot = _ ∧ ((s.update i g).gens s.count).manifest = _
    rw [gens_update_of_ne s g (by omega)]
    exact hp.current
  case held =>
    intro j hj
    rw [hslots]
    exact hp.held j hj
  case rotating =>
    intro j hj
    rw [hslots]
    exact hp.rotating j hj
  case publishing =>
    intro j hj
    rw [hslots]
    exact hp.publishing j hj
  case completing =>
    intro j hj
    rw [hslots]
    exact hp.completing j hj
  case completed =>
    intro j hj hc
    rw [hslots] at hc
    exact hl1 j hj (hp.completed j hj hc)

theorem Inv.streams (h : Inv s) (hi : i < s.count) {g : Generation}
    (hlog : SameLog s (s.update i g)) (hslot : g.slot = (s.gens i).slot)
    (hl1 : (s.gens i).inL1 = true → g.inL1 = true)
    (hmanifest : ∀ m, g.manifest = some m → (s.gens i).manifest = some m ∨ Covers s i m) :
    Inv (s.update i g) := by
  have hslots := proj_update Generation.slot s i hslot
  have hset : Settled s (s.update i g) := by
    refine hlog.settled ?_ ?_
    · intro j _ hc
      rw [hslots, hc]
    · intro j _ hj
      by_cases hji : j = i
      · subst hji
        rw [gens_update_self]
        exact hl1 hj
      · rw [gens_update_of_ne s g hji]
        exact hj
  refine h.sameLog hlog hset (h.placed.update hi hslot hset.inL1) ?_ rfl (.refl _)
  intro ht
  refine h.marks.settled hset ht ?_ rfl rfl ?_
  · intro j hj m hm
    by_cases hji : j = i
    · subst hji
      rw [gens_update_self] at hm
      rcases hmanifest m hm with hm | hcovers
      · exact .inl ⟨hi, hm⟩
      · exact .inr (hcovers.settled hi hset ht)
    · rw [gens_update_of_ne s g hji] at hm
      exact .inl ⟨hj, hm⟩
  · intro hnone j hj
    rw [hslots]
    exact (h.marks.unpublished hnone).2 j hj

theorem inv_computeManifest (h : Inv s) (hi : i < s.count) :
    Inv (s.update i { s.gens i with
      manifest := some ⟨(s.gens i).currentVersion, s.safeLsn i⟩ }) := by
  refine h.streams hi (SameLog.update s i rfl rfl rfl rfl) rfl (fun hl1 => hl1) ?_
  intro m hm
  rw [← Option.some.inj hm]
  exact .inr (covers_safeLsn h.ordered h.placed hi)

/-- The steps of a stream after its manifest: they move nothing in the log. -/
theorem Inv.streamStep (h : Inv s) (hi : i < s.count) {g : Generation}
    (hlog : SameLog s (s.update i g)) (hslot : g.slot = (s.gens i).slot)
    (hmanifest : g.manifest = (s.gens i).manifest)
    (hl1 : (s.gens i).inL1 = true → g.inL1 = true) : Inv (s.update i g) := by
  refine h.streams hi hlog hslot hl1 ?_
  intro m hm
  exact .inl (hmanifest.symm.trans hm)

/-- A manifest becomes visible. Its generation is still pending, so it needs no
    segments that were not needed before. -/
theorem inv_publish (h : Inv s) (hphase : s.phase = .idle) (hm : (s.gens i).manifest = some m)
    (hi : i < s.count) (hslot : (s.gens i).slot = .listed) (hl1 : (s.gens i).inL1 = true) :
    Inv { s with published := m, publishedBy := some i, phase := .publishing i } := by
  have hp := h.placed
  have hset : Settled s { s with
      published := m, publishedBy := some i, phase := .publishing i } :=
    Settled.of_gens le_rfl (fun _ _ => rfl)
  have ht : Ordered { s with
      published := m, publishedBy := some i, phase := .publishing i } :=
    h.ordered.sameLog ⟨rfl, le_rfl, fun _ => rfl, fun _ => rfl, fun _ => rfl, fun _ => rfl⟩
  refine ⟨ht, ?_, ?_, ?_⟩
  · constructor
    case current => exact hp.current
    case held =>
      intro j hj hc
      exact Phase.noConfusion ((hp.held j hj hc).symm.trans hphase)
    case rotating => exact fun j hj => Phase.noConfusion hj
    case publishing =>
      intro j hj
      have hij : i = j := Phase.publishing.inj hj
      subst hij
      exact ⟨hi, hslot, rfl⟩
    case completing => exact fun j hj => Phase.noConfusion hj
    case completed => exact hp.completed
  · constructor
    case manifest =>
      intro j hj m' hm'
      exact (h.marks.manifest j hj m' hm').settled hj hset ht
    case published =>
      intro p hby
      have hip : i = p := Option.some.inj hby
      subst hip
      exact ⟨hi, hl1, (h.marks.manifest i hi m hm).settled hi hset ht⟩
    case unpublished => exact fun hnone => absurd hnone (by simp)
  · intro j hj hneeded
    refine h.retained j hj ?_
    -- later generations were needed already, because this one is pending
    rcases hneeded with hpending | ⟨p, hlt, hby⟩
    · exact .inl hpending
    · have hip : i = p := Option.some.inj hby
      subst hip
      refine .inl ⟨i, le_of_lt hlt, ?_⟩
      rw [hslot]
      exact Slot.noConfusion

/-- The holder of the lock is done. -/
theorem Placed.release (hp : Placed s) (hphase : ∀ i, s.phase ≠ .rotating i)
    (hgens : t.gens = s.gens) (hcount : t.count = s.count) (hidle : t.phase = .idle) :
    Placed t := by
  constructor
  case current =>
    rw [hgens, hcount]
    exact hp.current
  case held =>
    intro i hi hc
    rw [hgens] at hc
    exact absurd (hp.held i (by omega) hc) (hphase i)
  case rotating => exact fun i hi => Phase.noConfusion (hidle.symm.trans hi)
  case publishing => exact fun i hi => Phase.noConfusion (hidle.symm.trans hi)
  case completing => exact fun i hi => Phase.noConfusion (hidle.symm.trans hi)
  case completed =>
    rw [hgens, hcount]
    exact hp.completed

theorem inv_publishFails (h : Inv s) (hphase : s.phase = .publishing i) :
    Inv { s with phase := .idle } := by
  refine h.sameGens rfl rfl le_rfl rfl rfl ?_ h.retained
  exact h.placed.release (fun j hj => Phase.noConfusion (hphase.symm.trans hj)) rfl rfl rfl

theorem inv_truncate (h : Inv s) (hphase : s.phase = .completing i) (deleted : Nat → Bool) :
    Inv { s with
      segments := s.segments.filter fun lsn => s.safeLsn i < lsn ∨ deleted lsn = false
      phase := .idle } := by
  refine h.sameGens rfl rfl le_rfl rfl rfl ?_ ?_
  · exact h.placed.release (fun j hj => Phase.noConfusion (hphase.symm.trans hj)) rfl rfl rfl
  · intro j hj hneeded c hc
    have hmem := h.retained j hj hneeded c hc
    have hstart := (h.ordered.commits j hj c hc).1
    have hsafe := safeLsn_le_of_needed h.ordered h.placed hphase hj hneeded
    refine List.mem_filter.mpr ⟨hmem, decide_eq_true (.inl ?_)⟩
    omega

theorem step_inv (s : Flusher) (a : Action) (t : Flusher) (h : Inv s)
    (hstep : s.step a = some t) : Inv t := by
  revert hstep
  fun_cases Flusher.step s a <;> rintro ⟨⟩
  case case1 skipped writes rows relabels hphase => exact inv_commit h skipped writes rows relabels
  case case3 versions => exact inv_reserve h versions
  case case4 skipped => exact inv_flushWal h skipped
  case case5 hphase => exact inv_rotate h hphase
  case case7 i hphase => exact inv_list h hphase
  case case9 i hi => exact inv_computeManifest h hi.1
  case case11 i hi => exact h.streamStep hi.1 (SameLog.update s i rfl rfl rfl rfl) rfl rfl id
  case case13 i hi => exact h.streamStep hi.1 (SameLog.update s i rfl rfl rfl rfl) rfl rfl id
  case case15 i hi =>
    exact h.streamStep hi.1 (SameLog.update s i rfl rfl rfl rfl) rfl rfl fun _ => rfl
  case case17 i m hm hphase hi => exact inv_publish h hphase hm hi.1 hi.2.1 hi.2.2
  case case20 i hphase => exact inv_publishFails h hphase
  case case22 i hphase => exact inv_completeFlush h hphase
  case case24 deleted i hphase => exact inv_truncate h hphase deleted

end Steps

section Relabels

/-- A stream reads the main table when it has a row of every vertex that the generation of the
    stream only relabels. Other steps are always in their turn. -/
def InTurn (s : Flusher) : Action → Prop
  | .readMain i => ∀ vid ∈ (s.gens i).overwriteOnly, s.persisted vid = true
  | _ => True

instance (s : Flusher) : (a : Action) → Decidable (InTurn s a)
  | .readMain i =>
    inferInstanceAs (Decidable (∀ vid ∈ (s.gens i).overwriteOnly, s.persisted vid = true))
  | .commit .. | .reserve _ | .flushWal _ | .rotate | .list | .computeManifest _
  | .writeMain _ | .streamed _ | .publish _ | .publishFails | .completeFlush | .truncate _ =>
    isTrue trivial

/-- No stream has skipped a relabel. -/
def Unskipped (s : Flusher) : Prop :=
  ∀ i, (s.gens i).skipped.getD [] = []

variable {s : Flusher}

theorem Unskipped.update (h : Unskipped s) {i : Nat} {g : Generation}
    (hg : g.skipped.getD [] = []) : Unskipped (s.update i g) := by
  intro j
  rw [proj_update (fun g => g.skipped.getD []) s i (hg.trans (h i).symm)]
  exact h j

theorem Unskipped.rotate (h : Unskipped s) : Unskipped s.rotate := by
  intro i
  rw [rotate_gens]
  split
  · rfl
  · split
    · exact h s.count
    · exact h i

/-- Only the step that reads the main table can skip, and in its turn it does not. -/
theorem step_unskipped (s : Flusher) (a : Action) (t : Flusher) (h : Unskipped s)
    (hturn : InTurn s a) (hstep : s.step a = some t) : Unskipped t := by
  revert hstep
  fun_cases Flusher.step s a <;> rintro ⟨⟩
  case case5 hphase => exact h.rotate
  case case11 i hi =>
    refine h.update ?_
    simp only [Option.getD_some, List.filter_eq_nil_iff]
    intro vid hvid
    simp [hturn vid hvid]
  case case4 | case17 | case20 | case24 => exact h
  all_goals exact h.update (h _)

end Relabels

section Durability

/-- What the invariant is for, as long as no relabel was skipped. A commit of a later generation
    than the published one is in the log. One of the published generation is in its snapshot. An
    earlier generation is in L1 if its own flush is completed, and holds the published mark back
    otherwise. -/
theorem Inv.durable {s : Flusher} (h : Inv s) (hskip : Unskipped s) : Durable s := by
  intro i hi c hc
  have hlabels : ∀ vid ∈ c.relabels, vid ∉ (s.gens i).skipped.getD [] := by
    intro vid _
    rw [hskip i]
    exact List.not_mem_nil
  cases hby : s.publishedBy with
  | none =>
    -- nothing is flushed, and recovery replays the whole log
    rcases h.marks.unpublished hby with ⟨hzero, hslot⟩
    have hpending : (s.gens i).slot ≠ .completed := by
      by_cases hic : i = s.count
      · rw [hic, h.placed.current.1]
        exact Slot.noConfusion
      · exact hslot i (by omega)
    refine .inr ⟨h.retained i hi (.inl ⟨i, le_rfl, hpending⟩) c hc, ?_⟩
    have := (h.ordered.commits i hi c hc).1
    omega
  | some p =>
    rcases h.marks.published p hby with ⟨hp, hl1, hcovers⟩
    have hversion : i ≤ p → c.version ≤ s.published.versionHighWaterMark := by
      intro hip
      rw [hcovers.version]
      exact le_trans (h.ordered.commits i hi c hc).2
        (h.ordered.version_le i p hip (by omega))
    rcases Nat.lt_trichotomy p i with hlt | heq | hgt
    · -- later than the published generation
      refine .inr ⟨h.retained i hi (.inr ⟨p, hlt, hby⟩) c hc, ?_⟩
      have hflush := hcovers.flush
      have hstart := h.ordered.flush_le_start p i hlt hi
      have hlsn := (h.ordered.commits i hi c hc).1
      omega
    · subst heq
      exact .inl ⟨hl1, hversion le_rfl, hlabels⟩
    · by_cases hslot : (s.gens i).slot = .completed
      · -- its rows are in L1, below the published version
        exact .inl ⟨h.placed.completed i (by omega) hslot, hversion (by omega), hlabels⟩
      · -- still pending, so the published mark stopped at its start
        refine .inr ⟨h.retained i hi (.inl ⟨i, le_rfl, hslot⟩) c hc, ?_⟩
        have hmark := hcovers.start i (by omega) (by omega) hslot
        have := (h.ordered.commits i hi c hc).1
        omega

/-- A vertex is created in one generation and relabelled in the next. The second stream reads the
    main table after the first has written it, and overtakes the first. -/
def secondFirst : List Action :=
  [.commit 0 1 [1] [], .rotate, .list, .commit 0 1 [2] [1], .rotate, .list,
    .computeManifest 0, .readMain 0, .writeMain 0,
    .computeManifest 1, .readMain 1, .writeMain 1, .streamed 1,
    .publish 1, .completeFlush, .truncate fun _ => true,
    .streamed 0, .publish 0, .completeFlush, .truncate fun _ => true]

/-- As before, but the second stream reads the main table before the first writes it. -/
def readTooEarly : List Action :=
  [.commit 0 1 [1] [], .rotate, .list, .commit 0 1 [] [1], .rotate, .list,
    .computeManifest 0, .computeManifest 1, .readMain 1, .writeMain 1, .streamed 1,
    .readMain 0, .writeMain 0, .streamed 0,
    .publish 0, .completeFlush, .truncate fun _ => true,
    .publish 1, .completeFlush, .truncate fun _ => true]

end Durability

end Flush

end UniDb
