import UniDb.Lib.KeyedFold
import UniDb.Runtime.L0

/-!
# Reads Through a Chain of Buffers

A query reads the buffer of its transaction, the main buffer and the buffers that are being
flushed, from the newest to the oldest. One property is read from the newest buffer that has it;
all properties of a vertex are collected from the oldest buffer to the newest.

Both agree on every property. Neither looks at the tombstones, so a vertex that is deleted in a
newer buffer still has the properties of an older one until the caller asks whether it is deleted.

## Main definitions

* `QueryContext`: The buffers of a query.
* `isVertexDeleted`, `lookupVertexProp`, `accumulateVertexProps`: The reads.
* `QueryContext.layers`: The buffers from the oldest to the newest.

## Theorems

* `collectProps_lookup`: One layer on top of what is collected.
* `findInL0Buffers_eq`, `accumulateVertexProps_eq`: The reads over the layers.
* `lookupVertexProp_accumulate`: Both reads agree, and when a vertex has nothing to read.
-/

namespace UniDb

open List AssocMap

variable {V : Type}

structure QueryContext (V : Type) where
  l0 : L0Buffer V
  transactionL0 : Option (L0Buffer V)
  /-- From the oldest to the newest. -/
  pendingFlushL0s : List (L0Buffer V)

/-- Whether the visitor answers `true` at some buffer. -/
def visitL0Buffers (ctx : Option (QueryContext V)) (visitor : L0Buffer V → Bool) : Bool :=
  match ctx with
  | none => false
  | some ctx =>
    ctx.transactionL0.any visitor || visitor ctx.l0 || ctx.pendingFlushL0s.reverse.any visitor

/-- The first answer of the visitor. -/
def findInL0Buffers {T : Type} (ctx : QueryContext V) (visitor : L0Buffer V → Option T) :
    Option T :=
  (ctx.transactionL0.bind visitor).or
    ((visitor ctx.l0).or (ctx.pendingFlushL0s.reverse.findSome? visitor))

def isVertexDeleted (vid : Vid) (ctx : Option (QueryContext V)) : Bool :=
  visitL0Buffers ctx fun buf => vid ∈ buf.vertexTombstones

/-- What a buffer has for a property. -/
def L0Buffer.vertexProp (buf : L0Buffer V) (vid : Vid) (prop : String) : Option V :=
  (buf.vertexProperties.lookup vid).bind (·.lookup prop)

def lookupVertexProp (vid : Vid) (prop : String) (ctx : Option (QueryContext V)) : Option V :=
  ctx.bind fun ctx => findInL0Buffers ctx (·.vertexProp vid prop)

/-- Overwrite what is collected with the properties in a newer buffer. -/
def collectProps (vid : Vid) (result : Option (Properties V)) (buf : L0Buffer V) :
    Option (Properties V) :=
  match buf.vertexProperties.lookup vid with
  | none => result
  | some props => some (props.toList.foldl (fun m e => m.insert e.1 e.2) (result.getD ∅))

def accumulateVertexProps (vid : Vid) (ctx : Option (QueryContext V)) : Option (Properties V) :=
  ctx.bind fun ctx =>
    let result := ctx.pendingFlushL0s.foldl (collectProps vid) none
    let result := collectProps vid result ctx.l0
    match ctx.transactionL0 with
    | none => result
    | some txL0 => collectProps vid result txL0

namespace QueryContext

/-- The buffers from the oldest to the newest. -/
def layers (ctx : QueryContext V) : List (L0Buffer V) :=
  ctx.pendingFlushL0s ++ ctx.l0 :: ctx.transactionL0.toList

variable (ctx : QueryContext V)

theorem findInL0Buffers_eq {T : Type} (visitor : L0Buffer V → Option T) :
    findInL0Buffers ctx visitor = ctx.layers.reverse.findSome? visitor := by
  obtain ⟨l0, _ | txL0, pending⟩ := ctx
  · cases hl0 : visitor l0 <;> simp [findInL0Buffers, layers, hl0]
  · cases htx : visitor txL0 <;> cases hl0 : visitor l0 <;>
      simp [findInL0Buffers, layers, htx, hl0]

theorem accumulateVertexProps_eq (vid : Vid) :
    accumulateVertexProps vid (some ctx) = ctx.layers.foldl (collectProps vid) none := by
  obtain ⟨l0, _ | txL0, pending⟩ := ctx
  · simp [accumulateVertexProps, layers]
  · simp [accumulateVertexProps, layers]

theorem isVertexDeleted_iff (vid : Vid) :
    isVertexDeleted vid (some ctx) = true ↔ ∃ buf ∈ ctx.layers, vid ∈ buf.vertexTombstones := by
  have hany : isVertexDeleted vid (some ctx) =
      ctx.layers.reverse.any (vid ∈ ·.vertexTombstones) := by
    obtain ⟨l0, _ | txL0, pending⟩ := ctx
    · simp [isVertexDeleted, visitL0Buffers, layers]
    · simp [isVertexDeleted, visitL0Buffers, layers, Bool.or_assoc]
  simp [hany]

end QueryContext

variable (vid : Vid)

/-- A buffer on top of what is collected has its properties, and no others change. -/
theorem collectProps_lookup (result : Option (Properties V)) (buf : L0Buffer V)
    (prop : String) : (collectProps vid result buf).bind (·.lookup prop) =
      (buf.vertexProp vid prop).or (result.bind (·.lookup prop)) := by
  unfold collectProps L0Buffer.vertexProp
  cases buf.vertexProperties.lookup vid with
  | none => rfl
  | some =>
    simp only [Option.bind_some, lookup_foldl_insert]
    cases result with
    | none => simp
    | some => rfl

theorem collectProps_eq_none_iff {vid : Vid} {result : Option (Properties V)} {buf : L0Buffer V} :
    collectProps vid result buf = none ↔
      result = none ∧ buf.vertexProperties.lookup vid = none := by
  unfold collectProps
  cases buf.vertexProperties.lookup vid <;> simp

/-- The collected properties are those of the newest layer that has them. -/
theorem foldl_collectProps_lookup (layers : List (L0Buffer V)) (prop : String) :
    (layers.foldl (collectProps vid) none).bind (·.lookup prop) =
      layers.reverse.findSome? (·.vertexProp vid prop) := by
  induction layers using reverseRecOn with
  | nil => rfl
  | append_singleton layers buf ih =>
    rw [foldl_concat, collectProps_lookup, ih, reverse_concat, findSome?_cons]
    cases buf.vertexProp vid prop <;> rfl

theorem foldl_collectProps_eq_none_iff (layers : List (L0Buffer V)) :
    layers.foldl (collectProps vid) none = none ↔
      ∀ buf ∈ layers, buf.vertexProperties.lookup vid = none := by
  induction layers using reverseRecOn with
  | nil => simp
  | append_singleton layers buf ih =>
    rw [foldl_concat, collectProps_eq_none_iff, ih]
    simp [or_imp, forall_and]

/-- A property read alone is the one read with all others. A vertex has nothing to read exactly
    if no layer has properties of it, and no property exactly if no layer has that one, whether
    or not a layer has a tombstone for it. -/
theorem lookupVertexProp_accumulate (vid : Vid) (prop : String) (ctx : QueryContext V) :
    lookupVertexProp vid prop (some ctx) =
        (accumulateVertexProps vid (some ctx)).bind (·.lookup prop) ∧
      (accumulateVertexProps vid (some ctx) = none ↔
        ∀ buf ∈ ctx.layers, buf.vertexProperties.lookup vid = none) ∧
      (lookupVertexProp vid prop (some ctx) = none ↔
        ∀ buf ∈ ctx.layers, buf.vertexProp vid prop = none) ∧
      (isVertexDeleted vid (some ctx) = true ↔
        ∃ buf ∈ ctx.layers, vid ∈ buf.vertexTombstones) := by
  have hfind : lookupVertexProp vid prop (some ctx) =
      ctx.layers.reverse.findSome? (·.vertexProp vid prop) := ctx.findInL0Buffers_eq _
  rw [ctx.accumulateVertexProps_eq, foldl_collectProps_lookup, hfind]
  refine ⟨rfl, foldl_collectProps_eq_none_iff vid _, ?_, ctx.isVertexDeleted_iff vid⟩
  simp

/-- A vertex that was flushed and then deleted in a transaction is still read. -/
theorem deleted_vertex_read :
    let age : Properties DemoValue := AList.singleton "age" (.str "30")
    let ctx : QueryContext DemoValue :=
      ⟨.new 0, some ((L0Buffer.new 0).deleteVertexImpl 7).1,
        [(L0Buffer.new 0).insertVertexWithLabelsImpl 7 age ["P"] 0]⟩
    isVertexDeleted 7 (some ctx) = true ∧ lookupVertexProp 7 "age" (some ctx) = some (.str "30") ∧
      (accumulateVertexProps 7 (some ctx)).isSome := by
  decide

end UniDb
