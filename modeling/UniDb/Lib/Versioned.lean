import UniDb.Lib.AssocMap

/-!
# Datasets with a Version History

A dataset that keeps its older versions, tags that pin versions against cleanup,
and the rewind of a family of datasets to recorded versions.

Every write commits a new version, also the one that goes back to an older one: it
commits the contents of that version again. So going back never takes a version
away, and it can be repeated from any later state.
A dataset carries the proof that its older versions have smaller numbers, so that a
commit replaces none of them, and that a tagged version is still there.

A rewind brings every recorded dataset back to its recorded version and drops the
others, one dataset at a time. `Held` says which contents it will arrive at. Neither
commits nor the steps of the rewind itself change that, so a rewind that is cut off
and started again arrives at the same contents.

## Main definitions

* `Versioned`: A dataset with its history and its tags.
* `Versioned.read`, `Versioned.commit`, `Versioned.rewindTo`, `Versioned.pin`,
  `Versioned.cleanup`: The operations.
* `contents`, `write`, `writeExisting`: A family of datasets and its writes.
* `rewindOne`: One step of a rewind.
* `Held`: The contents at the recorded versions.
* `Pinned`: Every recorded version has the tag.

## Theorems

* `Versioned.read_commit`, `Versioned.read_cleanup`: Older versions stay.
* `Held.write`, `Held.cleanup`, `Held.rewindOne`: The contents to come back to stay.
* `Held.contents_of_keys`: Before the first step of a rewind.
-/

namespace UniDb

open AList AssocMap Option

/-- A dataset with its version history. Tags pin versions against cleanup. -/
structure Versioned (α : Type) where
  current : Nat
  data : α
  older : AssocMap Nat α
  tags : AssocMap String Nat
  older_lt : ∀ v ∈ older, v < current
  tag_held : ∀ tag v, tags.lookup tag = some v → v = current ∨ v ∈ older

namespace Versioned

variable {α : Type}

/-- A new dataset starts at version one. -/
def create (a : α) : Versioned α where
  current := 1
  data := a
  older := ∅
  tags := ∅
  older_lt := by simp
  tag_held := by simp

variable (t : Versioned α)

/-- The contents at a version. -/
def read (v : Nat) : Option α :=
  if v = t.current then some t.data else t.older.lookup v

/-- A write makes a new version. -/
def commit (a : α) : Versioned α where
  current := t.current + 1
  data := a
  older := t.older.insert t.current t.data
  tags := t.tags
  older_lt := by
    intro v hv
    rcases (mem_insert t.older).mp hv with rfl | hv
    · exact Nat.lt_succ_self _
    · exact Nat.lt_succ_of_lt (t.older_lt v hv)
  tag_held := by
    intro tag v h
    rw [mem_insert]
    exact .inr (t.tag_held tag v h)

/-- Go back to a version, by committing its contents again. -/
def rewindTo (v : Nat) : Option (Versioned α) :=
  if t.current = v then some t else (t.read v).map t.commit

/-- Pin the current version. -/
def pin (tag : String) : Versioned α :=
  { t with
    tags := t.tags.insert tag t.current
    tag_held := by
      intro tag' v h
      rw [lookup_insert_eq] at h
      split at h
      · exact .inl (some.inj h).symm
      · exact t.tag_held tag' v h }

/-- Reclaim the older versions that no tag pins. -/
def cleanup : Versioned α :=
  { t with
    older := t.older.filterMapVal fun v a =>
      if v ∈ t.tags.toList.map Prod.snd then some a else none
    older_lt := by
      intro v hv
      rcases mem_iff_lookup.mp hv with ⟨a, ha⟩
      rw [lookup_filterMapVal] at ha
      rcases bind_eq_some_iff.mp ha with ⟨b, hb, -⟩
      exact t.older_lt v (mem_of_lookup hb)
    tag_held := by
      intro tag v h
      have hmem : v ∈ t.tags.toList.map Prod.snd :=
        List.mem_map.mpr ⟨(tag, v), mem_toList.mpr h, rfl⟩
      refine (t.tag_held tag v h).imp_right fun hv => ?_
      rcases mem_iff_lookup.mp hv with ⟨a, ha⟩
      refine mem_iff_lookup.mpr ⟨a, ?_⟩
      rw [lookup_filterMapVal, ha, bind_some, if_pos hmem] }

@[simp] theorem data_commit (a : α) : (t.commit a).data = a := rfl

theorem read_current : t.read t.current = some t.data := if_pos rfl

variable {t : Versioned α} {v : Nat}

/-- A commit leaves the versions before it alone. -/
theorem read_commit {a : α} (h : t.read v = some a) (b : α) : (t.commit b).read v = some a := by
  have hle : v ≤ t.current := by
    unfold read at h
    split at h
    · omega
    · exact le_of_lt (t.older_lt v (mem_of_lookup h))
  have hne : v ≠ (t.commit b).current := ne_of_lt (Nat.lt_succ_of_le hle)
  rw [read, if_neg hne]
  show (t.older.insert t.current t.data).lookup v = some a
  rw [lookup_insert_eq, ← h, read]

/-- A pinned version survives a cleanup. -/
theorem read_cleanup {tag : String} (h : t.tags.lookup tag = some v) :
    t.cleanup.read v = t.read v := by
  have hmem : v ∈ t.tags.toList.map Prod.snd :=
    List.mem_map.mpr ⟨(tag, v), mem_toList.mpr h, rfl⟩
  show (if v = t.current then some t.data else (t.cleanup.older).lookup v) = t.read v
  rw [cleanup, lookup_filterMapVal, read]
  cases t.older.lookup v with
  | none => rfl
  | some => rw [bind_some, if_pos hmem]

theorem rewindTo_of_read {a : α} (h : t.read v = some a) :
    ∃ t', t.rewindTo v = some t' ∧ t'.data = a ∧ t'.read v = some a := by
  by_cases hv : t.current = v
  · refine ⟨t, if_pos hv, ?_, h⟩
    rw [← hv, read_current] at h
    exact some.inj h
  · refine ⟨t.commit a, ?_, rfl, read_commit h a⟩
    rw [rewindTo, if_neg hv, h, map_some]

end Versioned

/-- A family of datasets. -/
abbrev Datasets (α : Type) := AssocMap String (Versioned α)

namespace Datasets

variable {α : Type}

/-- The current contents of each dataset. -/
def contents (m : Datasets α) (name : String) : Option α :=
  (m.lookup name).map Versioned.data

/-- Write to a dataset, which is created if there is none. -/
def write (m : Datasets α) (name : String) (a : α) : Datasets α :=
  match m.lookup name with
  | some t => m.insert name (t.commit a)
  | none => m.insert name (.create a)

def writeExisting (m : Datasets α) (name : String) (a : α) : Datasets α :=
  match m.lookup name with
  | some t => m.insert name (t.commit a)
  | none => m

/-- Bring one dataset back to its recorded version, or drop it if it has none. It
    fails if the version is gone. -/
def rewindOne (recorded : AssocMap String Nat) (m : Datasets α) (name : String) :
    Option (Datasets α) :=
  match m.lookup name with
  | none => some m
  | some t => match recorded.lookup name with
    | some v => (t.rewindTo v).map (m.insert name)
    | none => some (m.erase name)

/-- Every dataset that is still there has its recorded version pinned. -/
def Pinned (tag : String) (recorded : AssocMap String Nat) (m : Datasets α) : Prop :=
  ∀ name v t, recorded.lookup name = some v → m.lookup name = some t →
    t.tags.lookup tag = some v

/-- `c` gives the contents of the datasets at their recorded versions. -/
def Held (recorded : AssocMap String Nat) (m : Datasets α) (c : String → Option α) : Prop :=
  ∀ name, match recorded.lookup name with
    | some v => (m.lookup name).map (Versioned.read · v) = (c name).map some
    | none => c name = none

variable {recorded : AssocMap String Nat} {m : Datasets α} {c : String → Option α} {name : String}

section

variable (h : Held recorded m c)
include h

theorem Held.map_read {v : Nat} (hv : recorded.lookup name = some v) :
    (m.lookup name).map (Versioned.read · v) = (c name).map some := by
  have hn := h name
  rwa [hv] at hn

theorem Held.unrecorded (hv : recorded.lookup name = none) : c name = none := by
  have hn := h name
  rwa [hv] at hn

/-- A recorded dataset that is there can be read at its recorded version. -/
theorem Held.read {v : Nat} {t : Versioned α}
    (hv : recorded.lookup name = some v) (ht : m.lookup name = some t) :
    ∃ a, c name = some a ∧ t.read v = some a := by
  have hn := h.map_read hv
  rw [ht, map_some] at hn
  rcases map_eq_some_iff.mp hn.symm with ⟨a, ha, hr⟩
  exact ⟨a, ha, hr.symm⟩

/-- A dataset that is gone does not come back. -/
theorem Held.absent (ht : m.lookup name = none) : c name = none := by
  cases hv : recorded.lookup name with
  | none => exact h.unrecorded hv
  | some =>
    have hn := h.map_read hv
    rw [ht, map_none] at hn
    exact map_eq_none_iff.mp hn.symm

theorem Held.of_lookup_eq {m' : Datasets α} (name : String)
    (hother : ∀ n, n ≠ name → m'.lookup n = m.lookup n)
    (hname : ∀ v, recorded.lookup name = some v →
      (m'.lookup name).map (Versioned.read · v) = (m.lookup name).map (Versioned.read · v)) :
    Held recorded m' c := by
  intro n
  by_cases hn : n = name
  · subst hn
    cases hv : recorded.lookup n with
    | none => exact h.unrecorded hv
    | some v =>
      show (m'.lookup n).map _ = _
      rw [hname v hv]
      exact h.map_read hv
  · rw [hother n hn]
    exact h n

theorem Held.commit {t : Versioned α} (ht : m.lookup name = some t) (a : α) :
    Held recorded (m.insert name (t.commit a)) c := by
  refine h.of_lookup_eq name (fun n hn => lookup_insert_ne hn) fun v hv => ?_
  rcases h.read hv ht with ⟨b, -, hb⟩
  rw [lookup_insert, ht, map_some, map_some, hb, Versioned.read_commit hb]

theorem Held.writeExisting (name : String) (a : α) :
    Held recorded (writeExisting m name a) c := by
  unfold Datasets.writeExisting
  cases ht : m.lookup name with
  | none => exact h
  | some => exact h.commit ht a

theorem Held.of_unrecorded {m' : Datasets α}
    (hv : recorded.lookup name = none) (hother : ∀ n, n ≠ name → m'.lookup n = m.lookup n) :
    Held recorded m' c :=
  h.of_lookup_eq name hother fun v hv' => by
    rw [hv] at hv'
    cases hv'

/-- One step of a rewind succeeds, and repeating it later arrives at the same. -/
theorem Held.rewindOne (name : String) :
    ∃ m', rewindOne recorded m name = some m' ∧ Held recorded m' c ∧
      (∀ n, n ≠ name → m'.lookup n = m.lookup n) ∧ contents m' name = c name := by
  unfold Datasets.rewindOne
  cases ht : m.lookup name with
  | none =>
    refine ⟨m, rfl, h, fun n _ => rfl, ?_⟩
    rw [contents, ht, map_none, h.absent ht]
  | some =>
    cases hv : recorded.lookup name with
    | none =>
      have hother : ∀ n, n ≠ name → (m.erase name).lookup n = m.lookup n := fun n hn =>
        lookup_erase_ne hn
      refine ⟨m.erase name, rfl, h.of_unrecorded hv hother, hother, ?_⟩
      rw [contents, lookup_erase, map_none, h.unrecorded hv]
    | some =>
      rcases h.read hv ht with ⟨a, ha, hr⟩
      rcases Versioned.rewindTo_of_read hr with ⟨t', hw, hd, hr'⟩
      have hother : ∀ n, n ≠ name → (m.insert name t').lookup n = m.lookup n := fun n hn =>
        lookup_insert_ne hn
      refine ⟨m.insert name t', by simp [hw], ?_, hother, ?_⟩
      · refine h.of_lookup_eq name hother fun w hw' => ?_
        rw [hv, some.injEq] at hw'
        rw [lookup_insert, ht, map_some, map_some, ← hw', hr, hr']
      · rw [contents, lookup_insert, map_some, hd, ha]

/-- Whatever is not in the family to begin with needs no step. -/
theorem Held.contents_of_keys (hn : name ∉ m.keys) : contents m name = c name := by
  have ht : m.lookup name = none := lookup_eq_none.mpr hn
  rw [contents, ht, map_none, h.absent ht]

end

theorem contents_insert (m : Datasets α) (name n : String) (t : Versioned α) :
    contents (m.insert name t) n = if n = name then some t.data else contents m n := by
  rw [contents, lookup_insert_eq]
  split <;> rfl

theorem contents_writeExisting (m : Datasets α) (name n : String) (a : α) :
    contents (writeExisting m name a) n =
      if n = name then (contents m n).map fun _ => a else contents m n := by
  unfold writeExisting
  by_cases hn : n = name
  · subst hn
    rw [if_pos rfl]
    cases ht : m.lookup n with
    | none => rw [contents, ht, map_none, map_none]
    | some =>
      rw [contents_insert, if_pos rfl, contents, ht, map_some, map_some, Versioned.data_commit]
  · rw [if_neg hn]
    cases ht : m.lookup name with
    | none => rfl
    | some => rw [contents_insert, if_neg hn]

section History

/-- What a history of writes and cleanups keeps: the recorded datasets are there,
    and their recorded versions are pinned and read as before. -/
structure Kept (tag : String) (recorded : AssocMap String Nat) (c : String → Option α)
    (m : Datasets α) : Prop where
  present : ∀ name v, recorded.lookup name = some v → ∃ t, m.lookup name = some t
  pinned : Pinned tag recorded m
  held : Held recorded m c

variable {tag : String}

/-- A dataset is replaced by one with the same tags. -/
theorem Kept.insert (h : Kept tag recorded c m) {name : String} {t t' : Versioned α}
    (ht : m.lookup name = some t) (htags : t'.tags = t.tags)
    (hheld : Held recorded (m.insert name t') c) : Kept tag recorded c (m.insert name t') := by
  refine ⟨fun n v hv => ?_, fun n v u hv hu => ?_, hheld⟩
  · rw [lookup_insert_eq]
    split
    · exact ⟨_, rfl⟩
    · exact h.present n v hv
  · rcases lookup_insert_cases hu with ⟨rfl, rfl⟩ | ⟨-, hu⟩
    · exact htags ▸ h.pinned n v t hv ht
    · exact h.pinned n v u hv hu

theorem Kept.write (h : Kept tag recorded c m) (name : String) (a : α) :
    Kept tag recorded c (write m name a) := by
  unfold Datasets.write
  cases ht : m.lookup name with
  | some => exact h.insert ht rfl (h.held.commit ht a)
  | none =>
    -- a recorded dataset is there, so the new one is not recorded
    have hv : recorded.lookup name = none := by
      cases hv : recorded.lookup name with
      | none => rfl
      | some v =>
        rcases h.present name v hv with ⟨t, ht'⟩
        rw [ht] at ht'
        cases ht'
    have hne : ∀ n v, recorded.lookup n = some v → n ≠ name := by
      rintro n v hn rfl
      rw [hv] at hn
      cases hn
    refine ⟨fun n v hn => ?_, fun n v t hn ht' => ?_,
      h.held.of_unrecorded hv fun n hn => lookup_insert_ne hn⟩
    · rw [lookup_insert_ne (hne n v hn)]
      exact h.present n v hn
    · rw [lookup_insert_ne (hne n v hn)] at ht'
      exact h.pinned n v t hn ht'

/-- Reclaim the older versions of a dataset that no tag pins. -/
def cleanup (m : Datasets α) (name : String) : Datasets α :=
  match m.lookup name with
  | some t => m.insert name t.cleanup
  | none => m

theorem Kept.cleanup (h : Kept tag recorded c m) (name : String) :
    Kept tag recorded c (cleanup m name) := by
  unfold Datasets.cleanup
  cases ht : m.lookup name with
  | none => exact h
  | some t =>
    refine h.insert ht rfl ?_
    refine h.held.of_lookup_eq name (fun n hn => lookup_insert_ne hn) fun v hv => ?_
    rw [lookup_insert, ht, map_some, map_some, Versioned.read_cleanup (h.pinned name v t hv ht)]

/-- Several writes, one after another. -/
def writeAll (m : Datasets α) (ws : List (String × α)) : Datasets α :=
  ws.foldl (fun m w => write m w.1 w.2) m

theorem Kept.writeAll (h : Kept tag recorded c m) (ws : List (String × α)) :
    Kept tag recorded c (writeAll m ws) := by
  induction ws generalizing m with
  | nil => exact h
  | cons w ws ih => exact ih (h.write w.1 w.2)

def pinAll (m : Datasets α) (tag : String) : Datasets α :=
  m.filterMapVal fun _ t => some (t.pin tag)

/-- The current version of every dataset. -/
def versions (m : Datasets α) : AssocMap String Nat :=
  m.filterMapVal fun _ t => some t.current

theorem lookup_pinAll (m : Datasets α) (tag name : String) :
    (pinAll m tag).lookup name = (m.lookup name).map (Versioned.pin · tag) := by
  rw [pinAll, lookup_filterMapVal]
  cases m.lookup name <;> rfl

theorem lookup_versions (m : Datasets α) (name : String) :
    (versions m).lookup name = (m.lookup name).map Versioned.current := by
  rw [versions, lookup_filterMapVal]
  cases m.lookup name <;> rfl

/-- Recording every version, with a pin, records the contents. -/
theorem kept_pinAll (m : Datasets α) (tag : String) :
    Kept tag (versions m) (contents m) (pinAll m tag) := by
  have hcur : ∀ name v, (versions m).lookup name = some v →
      ∃ t, m.lookup name = some t ∧ t.current = v := by
    intro name v hv
    rw [lookup_versions] at hv
    exact map_eq_some_iff.mp hv
  refine ⟨fun name v hv => ?_, fun name v t hv ht => ?_, fun name => ?_⟩
  · rcases hcur name v hv with ⟨t, ht, -⟩
    exact ⟨t.pin tag, by rw [lookup_pinAll, ht, map_some]⟩
  · rcases hcur name v hv with ⟨t', ht', rfl⟩
    rw [lookup_pinAll, ht', map_some, some.injEq] at ht
    rw [← ht]
    exact lookup_insert t'.tags
  · rw [lookup_versions, lookup_pinAll, contents]
    cases m.lookup name with
    | none => rfl
    | some t =>
      show some (t.read t.current) = _
      rw [Versioned.read_current]
      rfl

end History

end Datasets

end UniDb
