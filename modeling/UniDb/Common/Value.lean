import Mathlib.Data.Int.Basic
import UniDb.Lib.AssocMap

/-!
# Identifiers and Property Values

Vertex and edge ids, serialized keys and property maps, as the storage layer
sees them.

The storage layer reads a property value in two ways only: it asks whether the
value encodes a CRDT, and it reads the string under the property `ext_id`. The
class `PropertyValue` names these readings, so that the model does not depend
on the value type or on the set of CRDT kinds, and everything proved about it
holds for all of them. `DemoValue` is a small instance to run the model with.

## Main definitions

* `Vid`, `Eid`, `Key`: Ids and serialized constraint keys.
* `PropertyValue`: What the storage layer reads off a property value.
* `PropertyValue.tryAsCrdt`: The CRDT that a value encodes.
* `Properties`: The property map of a vertex or an edge.
* `DemoValue`: Scalars, grow-only counters and grow-only sets.
-/

namespace UniDb

abbrev Vid := Nat

abbrev Eid := Nat

/-- A serialized constraint or MERGE key. -/
abbrev Key := List UInt8

/-- What the storage layer reads off a property value. `merge` is handed the new value first and the
    existing one second; it fails on two kinds that do not match and on a provider that fails. -/
class PropertyValue (V : Type) where
  Crdt : Type
  isMap : V → Bool
  decode : V → Option Crdt
  encode : Crdt → Option V
  typeName : Crdt → String
  merge : Crdt → Crdt → Option Crdt
  asStr : V → Option String

namespace PropertyValue

variable {V : Type} [PropertyValue V]

/-- The CRDT a value encodes. Only a map is probed, which spares the decoder
    the large values that cannot be one. -/
def tryAsCrdt (v : V) : Option (Crdt V) :=
  if isMap v then decode v else none

end PropertyValue

abbrev Properties (V : Type) := AssocMap String V

/-- Two CRDT kinds of the source: per-actor counts, and a set of elements. -/
inductive DemoCrdt
  | gCounter (counts : List (String × Nat))
  | gSet (elements : List String)
  deriving DecidableEq, Repr

/-- A value that is a scalar or the encoding of a CRDT. -/
inductive DemoValue
  | null
  | int (n : Int)
  | str (s : String)
  | crdt (c : DemoCrdt)
  deriving DecidableEq, Repr

/-- The count of an actor, zero if it never counted. -/
def actorCount (counts : List (String × Nat)) (actor : String) : Nat :=
  (counts.lookup actor).getD 0

/-- Merging counters takes the larger count of each actor, merging sets takes
    the union, and a counter does not merge with a set. -/
def DemoCrdt.merge : DemoCrdt → DemoCrdt → Option DemoCrdt
  | .gCounter a, .gCounter b =>
    let actors := (a.map Prod.fst ++ b.map Prod.fst).dedup
    some (.gCounter (actors.map fun x => (x, max (actorCount a x) (actorCount b x))))
  | .gSet a, .gSet b => some (.gSet (a ++ b).dedup)
  | _, _ => none

instance : PropertyValue DemoValue where
  Crdt := DemoCrdt
  isMap
    | .crdt _ => true
    | _ => false
  decode
    | .crdt c => some c
    | _ => none
  encode c := some (.crdt c)
  typeName
    | .gCounter _ => "GCounter"
    | .gSet _ => "GSet"
  merge := DemoCrdt.merge
  asStr
    | .str s => some s
    | _ => none

end UniDb
