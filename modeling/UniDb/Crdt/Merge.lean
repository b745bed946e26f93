import UniDb.Crdt.ORSet

/-!
# Merging Values of Any Kind

The tagged union of the data types, and the laws of its merge.

Two values merge if they are of one kind. The laws hold for every kind but the register
with a vector clock. They need the sets to be well formed, nodes of a sequence with one id
to agree on what does not change, and registers whose values have one serialized form to
have one value.

The last condition is not idle for maps: the register of a removed key has no value and is
written as `null`, as is a register whose value is written so. A removal and such a write
with equal timestamps do not commute (`put_null_remove`).

## Main definitions

* `Crdt`, `Crdt.tryMerge`: The union and its merge.
* `Crdt.Same`: Equality of values.
* `Crdt.WellFormed`, `Crdt.Compatible`: What the laws assume.

## Theorems

* `try_merge_laws`: The merge is commutative, associative and idempotent on each kind, and
  refuses two kinds.
-/

namespace UniDb.Crdts

open LWWRegister AssocMap LWWMap Serialize

inductive Kind
  | gCounter
  | gSet
  | orSet
  | lwwRegister
  | lwwMap
  | rga
  | vectorClock
  | vcRegister
  deriving DecidableEq

inductive CrdtError
  | typeMismatch (left right : String)
  | serialization (message : String)
  deriving DecidableEq

inductive Crdt (V : Type)
  | gCounter (c : GCounter)
  | gSet (s : GSet String)
  | orSet (s : ORSet String)
  | lwwRegister (r : LWWRegister V)
  | lwwMap (m : LWWMap String V)
  | rga (r : Rga String)
  | vectorClock (c : VectorClock)
  | vcRegister (r : VCRegister V)

namespace Crdt

variable {V : Type}

def kind : Crdt V → Kind
  | .gCounter _ => .gCounter
  | .gSet _ => .gSet
  | .orSet _ => .orSet
  | .lwwRegister _ => .lwwRegister
  | .lwwMap _ => .lwwMap
  | .rga _ => .rga
  | .vectorClock _ => .vectorClock
  | .vcRegister _ => .vcRegister

def typeName : Crdt V → String
  | .gCounter _ => "GCounter"
  | .gSet _ => "GSet"
  | .orSet _ => "ORSet"
  | .lwwRegister _ => "LWWRegister"
  | .lwwMap _ => "LWWMap"
  | .rga _ => "Rga"
  | .vectorClock _ => "VectorClock"
  | .vcRegister _ => "VCRegister"

/-- Merges `other` into `self`: the value afterwards, and what is returned. -/
def tryMerge [Serialize V] (self other : Crdt V) : Crdt V × Except CrdtError Unit :=
  match self, other with
  | .gCounter a, .gCounter b => (.gCounter (a.merge b), .ok ())
  | .gSet a, .gSet b => (.gSet (a.merge b), .ok ())
  | .orSet a, .orSet b => (.orSet (a.merge b), .ok ())
  | .lwwRegister a, .lwwRegister b => (.lwwRegister (a.merge b), .ok ())
  | .lwwMap a, .lwwMap b => (.lwwMap (a.merge b), .ok ())
  | .rga a, .rga b => (.rga (a.merge b), .ok ())
  | .vectorClock a, .vectorClock b => (.vectorClock (a.mergeClock b), .ok ())
  | .vcRegister a, .vcRegister b => (.vcRegister (a.merge b), .ok ())
  | a, b => (a, .error (.typeMismatch a.typeName b.typeName))

/-- Equality of values, which for sets of dots leaves the actors out. -/
def Same : Crdt V → Crdt V → Prop
  | .gCounter a, .gCounter b => a.counts.Same b.counts
  | .gSet a, .gSet b => a.elements = b.elements
  | .orSet a, .orSet b => a.Same b
  | .lwwRegister a, .lwwRegister b => a = b
  | .lwwMap a, .lwwMap b => a.map.Same b.map
  | .rga a, .rga b => a.nodes.Same b.nodes
  | .vectorClock a, .vectorClock b => a.clocks.Same b.clocks
  | .vcRegister a, .vcRegister b => a.value = b.value ∧ a.clock.clocks.Same b.clock.clocks
  | _, _ => False

def WellFormed : Crdt V → Prop
  | .orSet s => s.WellFormed
  | _ => True

/-- Values with one serialized form are one value, and nodes with one id are one node. -/
def Compatible [Serialize V] : Crdt V → Crdt V → Prop
  | .lwwRegister a, .lwwRegister b => toVec a.value = toVec b.value → a.value = b.value
  | .lwwMap a, .lwwMap b => ∀ k r r', a.map.lookup k = some r → b.map.lookup k = some r' →
      toVec r.value = toVec r'.value → r.value = r'.value
  | .rga a, .rga b => ∀ id n n', a.nodes.lookup id = some n → b.nodes.lookup id = some n' →
      n.Immutable n'
  | _, _ => True

theorem tryMerge_mismatch [Serialize V] {a b : Crdt V} (h : a.kind ≠ b.kind) :
    a.tryMerge b = (a, .error (.typeMismatch a.typeName b.typeName)) := by
  cases a <;> cases b <;> first | rfl | exact absurd rfl h

/-- What the laws say of three values. -/
structure Laws [Serialize V] (a b c : Crdt V) : Prop where
  comm : ∃ m n, a.tryMerge b = (m, .ok ()) ∧ b.tryMerge a = (n, .ok ()) ∧ m.Same n
  assoc : ∃ m n l r, a.tryMerge b = (m, .ok ()) ∧ b.tryMerge c = (n, .ok ()) ∧
    m.tryMerge c = (l, .ok ()) ∧ a.tryMerge n = (r, .ok ()) ∧ l.Same r
  idem : ∃ m, a.tryMerge a = (m, .ok ()) ∧ m.Same a

/-- The laws of a kind whose values merge by `merge`. -/
theorem Laws.intro [Serialize V] {S : Type} (mk : S → Crdt V) (merge : S → S → S)
    (hmerge : ∀ a b, (mk a).tryMerge (mk b) = (mk (merge a b), .ok ())) {a b c : S}
    (comm : (mk (merge a b)).Same (mk (merge b a)))
    (assoc : (mk (merge (merge a b) c)).Same (mk (merge a (merge b c))))
    (idem : (mk (merge a a)).Same (mk a)) : Laws (mk a) (mk b) (mk c) where
  comm := ⟨_, _, hmerge a b, hmerge b a, comm⟩
  assoc := ⟨_, _, _, _, hmerge a b, hmerge b c, hmerge _ c, hmerge a _, assoc⟩
  idem := ⟨_, hmerge a a, idem⟩

end Crdt

section

variable {V : Type} [Serialize V]

theorem LWWMap.merge_comm {a b : LWWMap String V} (h : (Crdt.lwwMap a).Compatible (.lwwMap b)) :
    (a.merge b).map.Same (b.merge a).map :=
  joinWith_comm fun k r r' hr hr' => LWWRegister.merge_comm (h k r r' hr hr')

theorem LWWMap.merge_assoc (a b c : LWWMap String V) :
    ((a.merge b).merge c).map.Same (a.merge (b.merge c)).map :=
  joinWith_assoc fun _ r r' r'' _ _ _ => LWWRegister.merge_assoc r r' r''

theorem Rga.merge_comm {a b : Rga String}
    (h : (Crdt.rga a : Crdt V).Compatible (.rga b)) : (a.merge b).nodes.Same (b.merge a).nodes :=
  joinWith_comm fun id n n' hn hn' => RgaNode.merge_comm (h id n n' hn hn')

/-- On each kind but the register with a vector clock the merge is commutative, associative
    and idempotent. Values of two kinds are not merged. -/
theorem try_merge_laws :
    (∀ a b c : Crdt V, b.kind = a.kind → c.kind = a.kind → a.kind ≠ .vcRegister →
      a.WellFormed → b.WellFormed → c.WellFormed → a.Compatible b → b.Compatible c →
      a.Compatible c → a.Laws b c) ∧
    ∀ a b : Crdt V, a.kind ≠ b.kind →
      a.tryMerge b = (a, .error (.typeMismatch a.typeName b.typeName)) := by
  refine ⟨?_, fun a b => Crdt.tryMerge_mismatch⟩
  rintro (a | a | a | a | a | a | a | a) (b | b | b | b | b | b | b | b) c hkb hkc <;> cases hkb <;>
    rcases c with c | c | c | c | c | c | c | c <;> cases hkc <;> intro hkind ha hb hc hab _ _
  · exact .intro .gCounter GCounter.merge (fun _ _ => rfl) (Counters.join_comm _ _)
      (Counters.join_assoc _ _ _) (Counters.join_idem _)
  · exact .intro .gSet GSet.merge (fun _ _ => rfl) (Finset.union_comm _ _)
      (Finset.union_assoc _ _ _) (Finset.union_self _)
  · exact .intro .orSet ORSet.merge (fun _ _ => rfl) (ORSet.merge_comm a b)
      (ORSet.merge_assoc ha hb hc) (ORSet.merge_idem ha)
  · exact .intro .lwwRegister LWWRegister.merge (fun _ _ => rfl) (LWWRegister.merge_comm hab)
      (LWWRegister.merge_assoc a b c) (LWWRegister.merge_idem a)
  · exact .intro .lwwMap merge (fun _ _ => rfl) (merge_comm hab)
      (merge_assoc a b c) (joinWith_idem LWWRegister.merge_idem a.map)
  · exact .intro .rga Rga.merge (fun _ _ => rfl) (Rga.merge_comm hab)
      (joinWith_assoc fun _ n n' n'' _ _ _ => RgaNode.merge_assoc n n' n'')
      (joinWith_idem RgaNode.merge_idem a.nodes)
  · exact .intro .vectorClock VectorClock.mergeClock (fun _ _ => rfl) (Counters.join_comm _ _)
      (Counters.join_assoc _ _ _) (Counters.join_idem _)
  · exact absurd rfl hkind

/-- A write of a value that is written as `null` and a removal with the same timestamp keep
    what they find, so the replicas stay different. -/
theorem put_null_remove {v : V} (hv : toVec v = some null) (k : String) (t : Int) :
    (((new.put k v t).merge (new.remove k t)).map.lookup k,
      ((new.remove k t).merge (new.put k v t)).map.lookup k) =
      (some { value := some v, timestamp := t }, some { value := none, timestamp := t }) := by
  have hrank : (mk (some v) t).rank = (mk none t).rank :=
    (rank_eq_iff _ _).mpr ⟨rfl, hv⟩
  have hput : (new.put k v t).map.lookup k = some (mk (some v) t) :=
    AList.lookup_insert _
  have hremove : (new.remove k t : LWWMap String V).map.lookup k =
      some (mk none t) := AList.lookup_insert _
  simp only [LWWMap.merge, lookup_joinWith, hput, hremove, Option.merge, merge_eq]
  rw [if_neg hrank.not_lt, if_neg hrank.not_gt]

end

/-- A value given by its serialized form. -/
instance : Serialize Bytes where
  toVec := some

/-- A set, a copy that removed an element, and the set after it added the element again. -/
theorem try_merge_laws_fork : ∃ base added : ORSet String,
    (ORSet.new "a").add "x" = some base ∧ base.add "x" = some added ∧
      (added.merge ((base.fork "b").remove "x")).contains "x" = true ∧
      (Crdt.orSet base : Crdt Bytes).Laws (.orSet ((base.fork "b").remove "x")) (.orSet added) ∧
      (Crdt.orSet base : Crdt Bytes).tryMerge (.gSet .new) =
        (.orSet base, .error (.typeMismatch "ORSet" "GSet")) := by
  refine ⟨_, _, rfl, rfl, by decide +kernel, ?_, try_merge_laws.2 _ _ (by decide)⟩
  have hbase := (ORSet.WellFormed.new (T := String) "a").addDot "x"
  exact try_merge_laws.1 _ _ _ rfl rfl (by decide) hbase ((hbase.fork "b").remove "x")
    (hbase.addDot "x") trivial trivial trivial

end UniDb.Crdts
