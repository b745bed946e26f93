import UniDb.Cypher.Ast
import UniDb.Lib.AssocMap

/-!
# Compiled Rules

The clauses of a rule as the compiler leaves them, and the columns an IS reference binds.

The variables of an IS reference take the columns of the rule it names from the front: the KEY
columns in the order in which they are yielded, then the others.

## Main definitions

* `RuleCondition`: A condition of a clause: an IS reference, a generator or a filter.
* `CompiledClause`, `CompiledRule`: The rules.
* `bindingSequence`, `boundColumns`: The columns an IS reference binds.
-/

namespace UniDb.Locy

open Cypher

/-- An IS reference; the name of the rule is its dotted form. -/
structure IsReference where
  subjects : List String
  ruleName : String
  target : Option String
  negated : Bool
  deriving DecidableEq

/-- The variables of an IS reference: its subjects, then its target. -/
def IsReference.variables (isRef : IsReference) : List String :=
  isRef.subjects ++ isRef.target.toList

structure GeneratorRef where
  name : String
  args : List Expr
  outputs : List String

inductive RuleCondition where
  | isReference (isRef : IsReference)
  | expression (expr : Expr)
  | generator (generator : GeneratorRef)

inductive LocyBinaryOp where
  | add
  | sub
  | mul
  | div
  | mod
  | pow
  | and
  | or
  | xor
  deriving DecidableEq

/-- An expression of ALONG: a Cypher expression that may read the previous hop. -/
inductive LocyExpr where
  | prevRef (field : String)
  | cypher (expr : Expr)
  | binaryOp (left : LocyExpr) (op : LocyBinaryOp) (right : LocyExpr)
  | unaryOp (op : UnaryOp) (inner : LocyExpr)

structure AlongBinding where
  name : String
  expr : LocyExpr

structure FoldBinding where
  name : String
  aggregate : Expr

structure BestByItem where
  expr : Expr
  ascending : Bool

structure LocyYieldItem where
  isKey : Bool
  isProb : Bool
  expr : Expr
  aliasName : Option String

inductive RuleOutput where
  | yield (items : List LocyYieldItem)
  | derive

def RuleOutput.items : RuleOutput → List LocyYieldItem
  | .yield items => items
  | .derive => []

structure CompiledClause where
  matchPattern : Pattern
  whereConditions : List RuleCondition
  along : List AlongBinding
  fold : List FoldBinding
  require : List Expr
  having : List Expr
  bestBy : Option (List BestByItem)
  output : RuleOutput
  modelInvocations : List String

structure YieldColumn where
  name : String
  isKey : Bool
  isProb : Bool
  deriving DecidableEq

structure CompiledRule where
  name : String
  clauses : List CompiledClause
  yieldSchema : List YieldColumn

/-- The columns of a rule in the order an IS reference binds them. -/
def bindingSequence (yieldSchema : List YieldColumn) : List YieldColumn :=
  yieldSchema.filter (·.isKey) ++ yieldSchema.filter (!·.isKey)

/-- The columns bound by some subjects and an optional target, if the rule has that many. -/
def boundColumns (yieldSchema : List YieldColumn) (subjects : Nat) (hasTarget : Bool) :
    Option (List YieldColumn) :=
  let count := subjects + hasTarget.toNat
  let sequence := bindingSequence yieldSchema
  if count ≤ sequence.length then some (sequence.take count) else none

theorem length_boundColumns {schema columns : List YieldColumn} {isRef : IsReference}
    (h : boundColumns schema isRef.subjects.length isRef.target.isSome = some columns) :
    columns.length = isRef.variables.length := by
  unfold boundColumns at h
  simp only [Option.ite_none_right_eq_some, Option.some.injEq] at h
  obtain ⟨hle, rfl⟩ := h
  rw [List.length_take, Nat.min_eq_left hle, IsReference.variables, List.length_append]
  cases isRef.target <;> rfl

end UniDb.Locy
