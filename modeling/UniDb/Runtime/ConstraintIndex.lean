import Mathlib.Data.List.Sort
import UniDb.Lib.KeyTable
import UniDb.Runtime.MergeView
import UniDb.Runtime.Transaction

/-!
# The Index of Unique Keys

What the index of unique keys of a buffer says, and what a merge makes of it.

The index maps a key to the vertex that owns it, and the buffer records for
every vertex which keys it holds. Both are one `KeyTable`: claiming a key and
deleting a vertex are its two operations, and a merge first releases the deleted
vertices and then claims the keys of the merged buffer, in the order in which
its hash map happens to list them.

The two maps are not exact inverses. A vertex whose key was claimed by another
vertex keeps the record of it, which is harmless because a record is only acted
on while the index agrees. So what holds is that indexed keys are recorded, that
a vertex holds one key per constraint, and that a recorded key which is not
indexed to its vertex was claimed by another one. That is enough for the outcome
of a merge to be independent of the order (`constraintIndex_mergeValidated`).

## Main definitions

* `serializeConstraintKey`: The key of a constraint.
* `L0Buffer.keyTable`: The index with the recorded keys.
* `KeyOp`: Writes and merges.
* `KeyOp.Claims`: The keys an operation claims.

## Theorems

* `constraintKeyShape_serialize`: A key's shape is its label and property names.
* `keyTable_insertConstraintKey`, `keyTable_deleteVertexImpl`: The two operations.
* `keyTable_mergeValidated`: A merge releases, then claims.
* `constraintIndex_mergeValidated`: The index after a merge.
* `constraintIndex_coherent`: The index after any sequence of operations.
* `keysByVid_not_reverse`: A record that the index does not agree with.
-/

namespace UniDb

open AssocMap L0Buffer List KeyTable

variable {V : Type}

/-! ## Keys and their shapes -/

/-- The bytes of a text. -/
def utf8 (text : String) : Key := text.toUTF8.toList

/-- The key of a constraint: the label, then each property with its value, in the
    order of the property names. Every part ends with a zero byte. -/
def serializeConstraintKey (toVec : V → Key) (label : String) (keyValues : List (String × V)) :
    Key :=
  let sorted := keyValues.insertionSort fun a b => a.1 ≤ b.1
  sorted.foldl (fun buf kv => buf ++ utf8 kv.1 ++ [0] ++ toVec kv.2 ++ [0]) (utf8 label ++ [0])

/-- The names and the values, in turn. -/
def keyParts (toVec : V → Key) (kvs : List (String × V)) : List Key :=
  kvs.flatMap fun kv => [utf8 kv.1, toVec kv.2]

variable (toVec : V → Key)

theorem foldl_key_eq_intercalate (front : Key) (kvs : List (String × V)) :
    kvs.foldl (fun buf kv => buf ++ utf8 kv.1 ++ [0] ++ toVec kv.2 ++ [0]) (front ++ [0]) =
      [0].intercalate (front :: (keyParts toVec kvs ++ [[]])) := by
  induction kvs generalizing front with
  | nil => simp [keyParts, intercalate]
  | cons kv kvs ih =>
    have hstep := ih (front ++ [0] ++ utf8 kv.1 ++ [0] ++ toVec kv.2)
    rw [foldl_cons]
    refine hstep.trans ?_
    have hparts : keyParts toVec (kv :: kvs) = utf8 kv.1 :: toVec kv.2 :: keyParts toVec kvs := rfl
    rw [hparts]
    cases hrest : keyParts toVec kvs ++ [[]] with
    | nil => simp at hrest
    | cons => simp [intercalate, hrest]

/-- The names are at the odd positions. -/
theorem flatMap_filter_keyParts (kvs : List (String × V)) (n : Nat) (hn : n % 2 = 1) :
    (((keyParts toVec kvs ++ [[]]).zipIdx n).filter
        fun p : Key × Nat => p.2 == 0 || p.2 % 2 == 1).flatMap (fun p : Key × Nat => p.1 ++ [0]) =
      (kvs.flatMap fun kv : String × V => utf8 kv.1 ++ [0]) ++ [0] := by
  induction kvs generalizing n with
  | nil => simp [keyParts, hn]
  | cons kv kvs ih =>
    have hparts : keyParts toVec (kv :: kvs) = utf8 kv.1 :: toVec kv.2 :: keyParts toVec kvs := rfl
    have hvalue : ¬ (n + 1 = 0 ∨ (n + 1) % 2 = 1) := by omega
    have hrest := ih (n + 1 + 1) (by omega)
    simp only [hparts, cons_append, zipIdx_cons, filter_cons, Bool.or_eq_true,
      beq_iff_eq, hn, or_true, if_true, hvalue, if_false, flatMap_cons, hrest,
      append_assoc]

/-- The shape of a key is its label and its property names, if no part has a zero byte in it. -/
theorem constraintKeyShape_serialize (label : String) (keyValues : List (String × V))
    (hlabel : 0 ∉ utf8 label) (hparts : ∀ kv ∈ keyValues, 0 ∉ utf8 kv.1 ∧ 0 ∉ toVec kv.2) :
    constraintKeyShape (serializeConstraintKey toVec label keyValues) =
      utf8 label ++ [0] ++
        ((keyValues.insertionSort fun a b => a.1 ≤ b.1).flatMap fun kv => utf8 kv.1 ++ [0]) ++
        [0] := by
  have hzero : ∀ part ∈ utf8 label :: (keyParts toVec
      (keyValues.insertionSort fun a b => a.1 ≤ b.1) ++ [[]]), (0 : UInt8) ∉ part := by
    simp only [mem_cons, mem_append, keyParts, mem_flatMap, mem_insertionSort,
      not_mem_nil, or_false]
    rintro part (rfl | ⟨kv, hkv, rfl | rfl⟩ | rfl)
    · exact hlabel
    · exact (hparts kv hkv).1
    · exact (hparts kv hkv).2
    · exact not_mem_nil
  rw [serializeConstraintKey, foldl_key_eq_intercalate, constraintKeyShape,
    splitOn_intercalate 0 hzero (cons_ne_nil _ _), zipIdx_cons, filter_cons]
  simp only [beq_self_eq_true, Bool.true_or, if_true, flatMap_cons]
  rw [flatMap_filter_keyParts toVec _ _ (by decide)]
  simp

/-- The properties `n` and `k` of a key come in the order of their names, without their values. -/
theorem constraintKeyShape_serialize_unsorted : constraintKeyShape
    (serializeConstraintKey (fun v : UInt8 => [v, 255]) "A" [("n", 7), ("k", 3)]) =
      [65, 0, 107, 0, 110, 0, 0] := by
  rw [constraintKeyShape_serialize] <;> decide +kernel

namespace L0Buffer

variable (b : L0Buffer V)

/-- The keys a vertex has recorded. -/
def keysOf (vid : Vid) : List Key := (b.constraintKeysByVid.lookup vid).getD []

/-- The index of unique keys, with the recorded keys. -/
def keyTable : KeyTable Key Vid where
  owner key := b.constraintIndex.lookup key
  held := b.keysOf

/-- A vertex has at most one indexed key of each constraint. -/
def OneKeyPerConstraint : Prop :=
  ∀ key key' vid, b.constraintIndex.lookup key = some vid →
    b.constraintIndex.lookup key' = some vid →
    constraintKeyShape key = constraintKeyShape key' → key = key'

theorem oneKeyPerConstraint_of_coherent {b : L0Buffer V}
    (h : b.keyTable.Coherent constraintKeyShape) : b.OneKeyPerConstraint := by
  intro key key' vid hkey hkey' hshape
  exact h.one_per_shape vid key (h.held_of_owner key vid hkey) key'
    (h.held_of_owner key' vid hkey') hshape

theorem lookup_retireKeys (index : AssocMap Key Nat) (owner : Nat) (keys : List Key) (key : Key) :
    (retireKeys index owner keys).lookup key =
      if key ∈ keys ∧ index.lookup key = some owner then none else index.lookup key := by
  induction keys generalizing index with
  | nil => simp [retireKeys]
  | cons k keys ih =>
    -- the first key only matters if it is the one looked up
    have hfirst : (if index.lookup k = some owner then index.erase k else index).lookup key =
        if key = k ∧ index.lookup key = some owner then none else index.lookup key := by
      by_cases hkey : key = k
      · subst hkey
        by_cases howner : index.lookup key = some owner <;> simp [howner]
      · by_cases howner : index.lookup k = some owner <;> simp [hkey, howner]
    have hcons : retireKeys index owner (k :: keys) =
        retireKeys (if index.lookup k = some owner then index.erase k else index) owner keys := rfl
    rw [hcons, ih, hfirst]
    by_cases hkey : key = k
    · subst hkey
      by_cases howner : index.lookup key = some owner <;> simp [howner]
    · simp [hkey]

theorem keyTable_insertConstraintKey (key : Key) (vid : Vid) :
    (b.insertConstraintKey key vid).keyTable = b.keyTable.claim constraintKeyShape (key, vid) := by
  refine KeyTable.ext ?_ ?_
  · funext k
    simp only [keyTable, insertConstraintKey, KeyTable.claim, lookup_insert_eq,
      lookup_retireKeys, mem_filter, decide_eq_true_eq]
    by_cases hk : k = key
    · simp [hk]
    · simp only [hk, if_false, ne_eq, not_false_eq_true, true_and, and_assoc]
      by_cases hstale : k ∈ b.keysOf vid ∧ constraintKeyShape k = constraintKeyShape key ∧
          b.constraintIndex.lookup k = some vid
      · exact (if_pos hstale).trans (if_pos hstale).symm
      · exact (if_neg hstale).trans (if_neg hstale).symm
  · funext v
    simp only [keyTable, keysOf, insertConstraintKey, claim, lookup_insert_eq]
    by_cases hv : v = vid
    · subst hv
      simp only [if_true, Option.getD_some]
      by_cases hkept : key ∈ (b.keysOf v).filter fun k =>
          ¬ (k ≠ key ∧ constraintKeyShape k = constraintKeyShape key)
      · exact (if_pos hkept).trans (if_pos hkept).symm
      · exact (if_neg hkept).trans (if_neg hkept).symm
    · simp [hv]

theorem keyTable_retireVertexKeys (vid : Vid) :
    (b.retireVertexKeys vid).keyTable = b.keyTable.release vid := by
  refine KeyTable.ext ?_ ?_
  · funext k
    simp only [keyTable, retireVertexKeys, KeyTable.release, lookup_retireKeys]
    by_cases howned : k ∈ b.keysOf vid ∧ b.constraintIndex.lookup k = some vid
    · exact (if_pos howned).trans (if_pos howned).symm
    · exact (if_neg howned).trans (if_neg howned).symm
  · funext v
    simp only [keyTable, keysOf, retireVertexKeys, release, lookup_erase_eq]
    by_cases hv : v = vid <;> simp [hv]

/-! ## What the other operations leave alone -/

theorem keyTable_relabelVertex (vid : Vid) (previous labels : List String) :
    (b.relabelVertex vid previous labels).keyTable = b.keyTable := by
  simp only [relabelVertex, setVertexLabels, removeVidFromLabelIndex_eq]
  rfl

theorem keyTable_adoptLabels (vl : Vid × List String) :
    (b.adoptLabels vl).keyTable = b.keyTable := by
  unfold adoptLabels
  split <;> rfl

theorem keyTable_overwriteLabels (other b : L0Buffer V) (vid : Vid) :
    (overwriteLabels other b vid).keyTable = b.keyTable := by
  unfold overwriteLabels
  split
  · rfl
  · simp only [removeVidFromLabelIndex_eq]
    rfl

theorem keyTable_mergeTombstone (other b : L0Buffer V) (clock : Clock)
    (e : Eid × TombstoneEntry) : (mergeTombstone other clock b e).keyTable = b.keyTable := by
  unfold mergeTombstone
  split <;> rfl

section Writes

variable [PropertyValue V]

theorem keyTable_insertVertexWithLabelsImpl (b : L0Buffer V) (vid : Vid)
    (properties : Properties V) (labels : List String) (now : Int) :
    (b.insertVertexWithLabelsImpl vid properties labels now).keyTable = b.keyTable := by
  simp only [insertVertexWithLabelsImpl, applyVertexWrite]
  rw [writeProperties_eq]
  rfl

variable {b : L0Buffer V}

theorem keyTable_insertEdgeImpl {b' : L0Buffer V} {src dst : Vid} {edgeType : Nat} {eid : Eid}
    {properties : Properties V} {name : Option String} {now : Int}
    (h : b.insertEdgeImpl src dst edgeType eid properties name now = .ok b') :
    b'.keyTable = b.keyTable := by
  rw [(insertEdgeImpl_ok h).2.2]
  cases name <;> rfl

theorem keyTable_deleteVertexImpl (b : L0Buffer V) (vid : Vid) :
    (b.deleteVertexImpl vid).1.keyTable = b.keyTable.release vid := by
  obtain ⟨c, hbury, hc⟩ := applyVertexDeletion_bury b.bumpVersion vid keyTable
    fun version acc eid => by
      unfold cascadeEdge
      cases acc.1.edgeEndpoints.lookup eid <;> rfl
  rw [deleteVertexImpl, hbury]
  simp only [buryVertex, removeVidFromLabelIndex_eq]
  rw [dropExtid_eq, keyTable_retireVertexKeys]
  exact congrArg (release · vid) hc

/-! ## Merges -/

/-- The vertex phase of a merge releases the keys of the deleted vertices. -/
theorem keyTable_mergeVertices (b other : L0Buffer V) (vertexProps : AssocMap Vid (Properties V))
    (clock : Clock) : (b.mergeVertices other vertexProps clock).1.keyTable =
      other.vertexTombstones.keys.foldl release b.keyTable := by
  have hdelete : (b.mergeDeletions other).1.keyTable =
      other.vertexTombstones.keys.foldl release b.keyTable :=
    foldl_comm_of_forall (fun acc : L0Buffer V × List TombstoneEntry => acc.1.keyTable)
      (fun acc vid => show (mergeDeletion acc vid).1.keyTable = _ from
        keyTable_deleteVertexImpl acc.1 vid) other.vertexTombstones.keys (b, [])
  have hinsert := foldl_eq_of_forall keyTable
    (fun c (e : Vid × Properties V) => keyTable_insertVertexWithLabelsImpl c e.1 e.2
      (other.labelsOf e.1) (clock.vertex e.1)) vertexProps.toList (b.mergeDeletions other).1
  have hadopt := foldl_eq_of_forall keyTable keyTable_adoptLabels other.vertexLabels.toList
    ((b.mergeDeletions other).1.mergeInsertions other vertexProps clock)
  have hover := foldl_eq_of_forall keyTable (keyTable_overwriteLabels other)
    other.vertexLabelOverwrites.keys
  exact (hover _).trans (hadopt.trans (hinsert.trans hdelete))

variable {other : L0Buffer V} {edgeProps : AssocMap Eid (Properties V)} {clock : Clock}

theorem keyTable_mergeEdge {b' : L0Buffer V} {e : Eid × Vid × Vid × Nat}
    (h : mergeEdge other edgeProps clock b e = .ok b') : b'.keyTable = b.keyTable := by
  simp only [mergeEdge] at h
  split at h
  · rw [← Except.ok.inj h]
    rfl
  · exact keyTable_insertEdgeImpl h

omit [PropertyValue V] in
theorem keyTable_mergeIndexes (b other : L0Buffer V) : (b.mergeIndexes other).keyTable =
      other.constraintIndex.toList.foldl (claim constraintKeyShape) b.keyTable := by
  have hclaims := foldl_comm_of_forall keyTable
    (fun c e => keyTable_insertConstraintKey c e.1 e.2) other.constraintIndex.toList b
  have hguards := foldl_eq_of_forall keyTable
    (fun (c : L0Buffer V) (e : Key × Vid) =>
      show (c.insertMergeGuardKey e.1 e.2).keyTable = c.keyTable from rfl)
    other.mergeGuardIndex.toList
  have hedges := foldl_eq_of_forall keyTable
    (fun (c : L0Buffer V) (e : Key × Eid) =>
      show (c.insertEdgeConstraintKey e.1 e.2).keyTable = c.keyTable from rfl)
    other.edgeConstraintIndex.toList
  exact (hedges _).trans ((hguards _).trans hclaims)

variable {vertexProps : AssocMap Vid (Properties V)} {r : L0Buffer V × List TombstoneEntry}

/-- A merge releases the keys of the deleted vertices and then claims the keys of
    the merged buffer. -/
theorem keyTable_mergeValidated (h : b.mergeValidated other vertexProps edgeProps clock = .ok r) :
    r.1.keyTable = other.constraintIndex.toList.foldl (claim constraintKeyShape)
      (other.vertexTombstones.keys.foldl release b.keyTable) := by
  unfold mergeValidated at h
  cases hedges : other.edgeEndpoints.toList.foldlM (mergeEdge other edgeProps clock)
      (b.mergeVertices other vertexProps clock).1 with
  | error =>
    simp only [hedges] at h
    cases h
  | ok c =>
    simp only [hedges] at h
    rw [← Except.ok.inj h]
    have htombs := foldl_eq_of_forall keyTable
      (fun c e => keyTable_mergeTombstone other c clock e) other.tombstones.toList c
    rw [keyTable_mergeIndexes]
    refine congrArg (List.foldl (claim constraintKeyShape) · _) ?_
    refine (?_ : _ = _).trans ((foldlM_eq_of_forall keyTable
      (fun c e c' he => keyTable_mergeEdge he) hedges).trans
        (keyTable_mergeVertices b other vertexProps clock))
    exact htombs

theorem keyTable_merge (h : b.merge other clock = .ok r) :
    r.1.keyTable = other.constraintIndex.toList.foldl (claim constraintKeyShape)
      (other.vertexTombstones.keys.foldl release b.keyTable) := by
  unfold merge at h
  cases hvalid : b.validateMergeEdgeEndpoints other with rw [hvalid] at h
  | error => cases h
  | ok => exact keyTable_mergeValidated h

theorem keyTable_mergeTake {r : L0Buffer V × L0Buffer V × List TombstoneEntry}
    (h : b.mergeTake other clock = .ok r) :
    r.1.keyTable = other.constraintIndex.toList.foldl (claim constraintKeyShape)
      (other.vertexTombstones.keys.foldl release b.keyTable) := by
  unfold mergeTake at h
  cases hvalid : b.validateMergeEdgeEndpoints other with rw [hvalid] at h
  | error => cases h
  | ok =>
    -- the drained buffer keeps its tombstones and its index
    cases hmerged : b.mergeValidated { other with vertexProperties := ∅, edgeProperties := ∅ }
        other.vertexProperties other.edgeProperties clock with
    | error =>
      simp only [hmerged] at h
      cases h
    | ok =>
      simp only [hmerged] at h
      rw [← Except.ok.inj h]
      exact keyTable_mergeValidated hmerged

/-- The index after a merge: a key of the merged buffer belongs to its vertex
    there, and another key stays with its owner unless the merged buffer deletes
    the owner or gives it another key of the same constraint. -/
theorem constraintIndex_mergeValidated (hb : b.keyTable.Coherent constraintKeyShape)
    (hother : other.OneKeyPerConstraint)
    (h : b.mergeValidated other vertexProps edgeProps clock = .ok r) (key : Key) (vid : Vid) :
    r.1.constraintIndex.lookup key = some vid ↔
      other.constraintIndex.lookup key = some vid ∨
        (other.constraintIndex.lookup key = none ∧ b.constraintIndex.lookup key = some vid ∧
          vid ∉ other.vertexTombstones ∧
          ∀ key', other.constraintIndex.lookup key' = some vid →
            constraintKeyShape key' ≠ constraintKeyShape key) := by
  have hreleased := hb.foldl_release other.vertexTombstones.keys
  have hshapes : ∀ c ∈ other.constraintIndex.toList, ∀ c' ∈ other.constraintIndex.toList,
      c.2 = c'.2 → constraintKeyShape c.1 = constraintKeyShape c'.1 → c.1 = c'.1 := by
    rintro ⟨k, v⟩ hc ⟨k', v'⟩ hc' hv hshape
    obtain rfl : v = v' := hv
    exact hother k k' v (mem_toList.mp hc) (mem_toList.mp hc')
      hshape
  have howner : r.1.constraintIndex.lookup key = r.1.keyTable.owner key := rfl
  rw [howner, keyTable_mergeValidated h,
    hreleased.owner_foldl_claim (toList_keys_nodup _) hshapes, hb.owner_foldl_release]
  simp only [mem_toList, and_assoc]
  have hnone : (∀ v, ¬ other.constraintIndex.lookup key = some v) ↔
      other.constraintIndex.lookup key = none :=
    Option.eq_none_iff_forall_ne_some.symm
  rw [hnone]
  rfl

end Writes

end L0Buffer

/-! ## Sequences of operations -/

/-- A write, or a merge of a buffer whose index is coherent. -/
inductive KeyOp (V : Type)
  | write (op : TxOp V)
  | merge (other : { c : L0Buffer V // c.keyTable.Coherent constraintKeyShape }) (clock : Clock)
  | mergeTake (other : { c : L0Buffer V // c.keyTable.Coherent constraintKeyShape })
      (clock : Clock)

namespace KeyOp

/-- The operation gives the key to the vertex. -/
def Claims (key : Key) (vid : Vid) : KeyOp V → Prop
  | .write (.claimKey key' vid') => key = key' ∧ vid = vid'
  | .write _ => False
  | .merge other _ | .mergeTake other _ => other.val.constraintIndex.lookup key = some vid

variable [PropertyValue V]

/-- The effect of an operation. A merge that is refused leaves the buffer as it is. -/
def apply (b : L0Buffer V) : KeyOp V → L0Buffer V
  | .write op => op.apply b
  | .merge other clock =>
    match b.merge other.val clock with
    | .ok r => r.1
    | .error _ => b
  | .mergeTake other clock =>
    match b.mergeTake other.val clock with
    | .ok r => r.1
    | .error _ => b

/-- Every operation releases the keys of some vertices and then claims some. -/
theorem keyTable_apply (b : L0Buffer V) (op : KeyOp V) :
    ∃ (vids : List Vid) (claims : List (Key × Vid)),
      (op.apply b).keyTable = claims.foldl (claim constraintKeyShape)
        (vids.foldl release b.keyTable) ∧ ∀ c ∈ claims, op.Claims c.1 c.2 := by
  -- most operations leave the keys alone
  have hframe : (op.apply b).keyTable = b.keyTable →
      ∃ (vids : List Vid) (claims : List (Key × Vid)),
        (op.apply b).keyTable = claims.foldl (claim constraintKeyShape)
          (vids.foldl release b.keyTable) ∧
        ∀ c ∈ claims, op.Claims c.1 c.2 :=
    fun heq => ⟨[], [], heq, nofun⟩
  cases op with
  | write op =>
    cases op with
    | insertVertex vid properties labels now | updateVertex vid properties labels now =>
      exact hframe (keyTable_insertVertexWithLabelsImpl b vid properties labels now)
    | deleteVertex vid backfill =>
      have hback : (b.backfillLabels vid backfill).keyTable = b.keyTable := by
        unfold backfillLabels
        split
        · rfl
        · cases backfill <;> rfl
      refine ⟨[vid], [], ?_, nofun⟩
      exact (keyTable_deleteVertexImpl _ vid).trans
        (congrArg (release · vid) hback)
    | relabelVertex vid previous labels =>
      exact hframe (keyTable_relabelVertex b vid previous labels)
    | insertEdge src dst etype eid properties name now
    | updateEdge src dst etype eid properties name now =>
      refine hframe ?_
      show (b.orBumped (b.insertEdgeImpl src dst etype eid properties name now)).keyTable = _
      cases h : b.insertEdgeImpl src dst etype eid properties name now with
      | error => rfl
      | ok => exact keyTable_insertEdgeImpl h
    | deleteEdge => exact hframe rfl
    | claimKey key vid =>
      refine ⟨[], [(key, vid)], keyTable_insertConstraintKey b key vid, ?_⟩
      intro c hc
      rw [mem_singleton.mp hc]
      exact ⟨rfl, rfl⟩
    | claimEdgeKey | claimMergeKey => exact hframe rfl
  | merge other clock =>
    cases hmerge : b.merge other.val clock with
    | error => exact hframe (by rw [apply, hmerge])
    -- a merge releases the vertices the other buffer deletes and claims its keys
    | ok =>
      refine ⟨_, _, (congrArg keyTable ?_).trans (keyTable_merge hmerge),
        fun c hc => mem_toList.mp hc⟩
      rw [apply, hmerge]
  | mergeTake other clock =>
    cases hmerge : b.mergeTake other.val clock with
    | error => exact hframe (by rw [apply, hmerge])
    | ok =>
      refine ⟨_, _, (congrArg keyTable ?_).trans (keyTable_mergeTake hmerge),
        fun c hc => mem_toList.mp hc⟩
      rw [apply, hmerge]

variable {b : L0Buffer V}

/-- Every operation keeps the index coherent. -/
theorem coherent_apply (h : b.keyTable.Coherent constraintKeyShape) (op : KeyOp V) :
    (op.apply b).keyTable.Coherent constraintKeyShape := by
  rcases keyTable_apply b op with ⟨vids, claims, heq, _⟩
  rw [heq]
  exact (h.foldl_release vids).foldl_claim claims

variable {T : Key → Vid → Prop}

theorem recorded_apply (h : b.keyTable.Recorded T) (op : KeyOp V) :
    (op.apply b).keyTable.Recorded fun key vid => T key vid ∨ ∃ w, w ≠ vid ∧ op.Claims key w := by
  rcases keyTable_apply b op with ⟨vids, claims, heq, hclaims⟩
  rw [heq]
  refine ((h.foldl_release vids).foldl_claim claims).mono ?_
  rintro key vid (htaken | ⟨c, hc, rfl, hne⟩)
  · exact .inl htaken
  · exact .inr ⟨c.2, hne.symm, hclaims c hc⟩

theorem coherent_foldl (h : b.keyTable.Coherent constraintKeyShape) (ops : List (KeyOp V)) :
    (ops.foldl apply b).keyTable.Coherent constraintKeyShape := by
  induction ops generalizing b with
  | nil => exact h
  | cons op ops ih => exact ih (coherent_apply h op)

theorem recorded_foldl (h : b.keyTable.Recorded T) (ops : List (KeyOp V)) :
    (ops.foldl apply b).keyTable.Recorded fun key vid =>
      T key vid ∨ ∃ op ∈ ops, ∃ w, w ≠ vid ∧ op.Claims key w :=
  .foldl keyTable (fun op h => recorded_apply h op) h ops

/-- The buffer that a sequence of operations makes of an empty one. -/
def after (startVersion : Nat) (ops : List (KeyOp V)) : L0Buffer V :=
  ops.foldl apply (L0Buffer.new startVersion)

end KeyOp

theorem new_coherent (startVersion : Nat) :
    (L0Buffer.new startVersion : L0Buffer V).keyTable.Coherent constraintKeyShape := by
  constructor
  · exact nofun
  · exact nofun

/-- The index of unique keys after any sequence of operations on an empty buffer: indexed keys are
    recorded, a recorded key that is not indexed to its vertex was claimed by another vertex, a
    vertex has one indexed key per constraint, and the index that a merge produces does not depend
    on the order in which the hash maps of the merged buffer are listed. -/
theorem constraintIndex_coherent [PropertyValue V] (startVersion : Nat) (ops : List (KeyOp V)) :
    let b := KeyOp.after startVersion ops
    (∀ key vid, b.constraintIndex.lookup key = some vid → key ∈ b.keysOf vid) ∧
    (∀ key vid, key ∈ b.keysOf vid → b.constraintIndex.lookup key = some vid ∨
      ∃ op ∈ ops, ∃ w, w ≠ vid ∧ op.Claims key w) ∧
    b.OneKeyPerConstraint ∧
    ∀ (other other' : L0Buffer V) (vertexProps vertexProps' : AssocMap Vid (Properties V))
      (edgeProps edgeProps' : AssocMap Eid (Properties V)) (clock clock' : Clock)
      (r r' : L0Buffer V × List TombstoneEntry),
      other.keyTable.Coherent constraintKeyShape →
      (∀ vid, vid ∈ other'.vertexTombstones ↔ vid ∈ other.vertexTombstones) →
      (∀ key, other'.constraintIndex.lookup key = other.constraintIndex.lookup key) →
      b.mergeValidated other vertexProps edgeProps clock = .ok r →
      b.mergeValidated other' vertexProps' edgeProps' clock' = .ok r' →
      ∀ key, r'.1.constraintIndex.lookup key = r.1.constraintIndex.lookup key := by
  intro b
  have hcoherent : b.keyTable.Coherent constraintKeyShape :=
    KeyOp.coherent_foldl (new_coherent startVersion) ops
  refine ⟨hcoherent.held_of_owner, ?_, oneKeyPerConstraint_of_coherent hcoherent, ?_⟩
  · intro key vid hkey
    have hnew : (L0Buffer.new startVersion : L0Buffer V).keyTable.Recorded fun _ _ => False :=
      nofun
    exact (KeyOp.recorded_foldl hnew ops vid key hkey).imp_right fun htaken =>
      htaken.resolve_left id
  · intro other other' vertexProps vertexProps' edgeProps edgeProps' clock clock' r r' hother
      htombs hindex hr hr' key
    have hone := oneKeyPerConstraint_of_coherent hother
    have hone' : other'.OneKeyPerConstraint := by
      intro key key' vid hkey hkey' hshape
      rw [hindex] at hkey hkey'
      exact hone key key' vid hkey hkey' hshape
    refine Option.ext fun vid => ?_
    rw [constraintIndex_mergeValidated hcoherent hone' hr',
      constraintIndex_mergeValidated hcoherent hone hr]
    simp only [hindex, htombs]

/-- The key of the label `A`, the property `a` and a value. -/
def demoKey (value : UInt8) : Key := [65, 0, 97, 0, value, 0]

def demoClaim (value : UInt8) (vid : Vid) : KeyOp DemoValue :=
    .write (.claimKey (demoKey value) vid)

/-- Two vertices exchange their values, in either order of the merged index. -/
theorem constraintIndex_coherent_swap :
    ∃ r r', (KeyOp.after 0 [demoClaim 1 1, demoClaim 2 2]).mergeValidated
        (KeyOp.after 0 [demoClaim 2 1, demoClaim 1 2]) ∅ ∅ ⟨fun _ => 0, fun _ => 0⟩ = .ok r ∧
      (KeyOp.after 0 [demoClaim 1 1, demoClaim 2 2]).mergeValidated
        (KeyOp.after 0 [demoClaim 1 2, demoClaim 2 1]) ∅ ∅ ⟨fun _ => 0, fun _ => 0⟩ = .ok r' ∧
      r.1.constraintIndex.lookup (demoKey 1) = some 2 ∧
      r.1.constraintIndex.lookup (demoKey 2) = some 1 ∧
      ∀ key, r'.1.constraintIndex.lookup key = r.1.constraintIndex.lookup key := by
  have hlisted : ∀ key, (KeyOp.after 0 [demoClaim 1 2, demoClaim 2 1]).constraintIndex.lookup key =
      (KeyOp.after 0 [demoClaim 2 1, demoClaim 1 2]).constraintIndex.lookup key := by
    intro key
    by_cases h1 : key = demoKey 1
    · subst h1
      decide
    · by_cases h2 : key = demoKey 2
      · subst h2
        decide
      · simp [KeyOp.after, demoClaim, KeyOp.apply, TxOp.apply, insertConstraintKey,
          lookup_retireKeys, L0Buffer.new, h1, h2]
  refine ⟨_, _, rfl, rfl, by decide, by decide, ?_⟩
  exact (constraintIndex_coherent 0 [demoClaim 1 1, demoClaim 2 2]).2.2.2
    (KeyOp.after 0 [demoClaim 2 1, demoClaim 1 2]) (KeyOp.after 0 [demoClaim 1 2, demoClaim 2 1])
    ∅ ∅ ∅ ∅ _ _ _ _ (KeyOp.coherent_foldl (new_coherent 0) _) (fun _ => Iff.rfl) hlisted rfl rfl

/-- A vertex keeps the record of a key that another vertex has claimed. -/
theorem keysByVid_not_reverse :
    demoKey 1 ∈ (KeyOp.after 0 [demoClaim 1 1, demoClaim 1 2]).keysOf 1 ∧
      (KeyOp.after 0 [demoClaim 1 1, demoClaim 1 2]).constraintIndex.lookup (demoKey 1) =
        some 2 := by
  decide

end UniDb
