import Mathlib.Data.List.Basic

/-!
# Abstract Syntax

The expressions and patterns of a query, as the analyses of a rule walk them.

A walk visits an expression before its children, in the order in which they are written. It
does not enter a subquery, which has a scope of its own, and a walk over the enclosing scope
also leaves out what a comprehension, a quantifier or a fold binds its own variable in. No
walk enters the pattern of a pattern comprehension or the window of a function call, so both
are left out.

## Main definitions

* `Expr`: The expressions.
* `Expr.walk`: An expression and everything under it.
* `Expr.freeVariables`: The variables an expression reads from its scope.
* `Pattern`, `PathPattern`, `PatternElement`: The patterns.
-/

namespace UniDb.Cypher

inductive CypherLiteral where
  | null
  | bool (value : Bool)
  | integer (value : Int)
  | float (bits : UInt64)
  | string (value : String)
  | bytes (value : List UInt8)
  deriving DecidableEq

inductive Quantifier where
  | all
  | any
  | single
  | none
  deriving DecidableEq

inductive BinaryOp where
  | add
  | sub
  | mul
  | div
  | mod
  | pow
  | eq
  | notEq
  | lt
  | ltEq
  | gt
  | gtEq
  | and
  | or
  | xor
  | regex
  | contains
  | startsWith
  | endsWith
  | approxEq
  deriving DecidableEq

inductive UnaryOp where
  | not
  | neg
  deriving DecidableEq

mutual

inductive Expr where
  | literal (value : CypherLiteral)
  | parameter (name : String)
  | var (name : String)
  | wildcard
  | property (base : Expr) (key : String)
  | list (items : List Expr)
  | map (entries : List (String × Expr))
  | functionCall (name : String) (args : List Expr) (distinct : Bool)
  | binaryOp (left : Expr) (op : BinaryOp) (right : Expr)
  | unaryOp (op : UnaryOp) (expr : Expr)
  | case (expr : Option Expr) (whenThen : List (Expr × Expr)) (elseExpr : Option Expr)
  | existsSubquery
  | countSubquery
  | collectSubquery
  | isNull (expr : Expr)
  | isNotNull (expr : Expr)
  | isUnique (expr : Expr)
  | inList (expr list : Expr)
  | arrayIndex (array index : Expr)
  | arraySlice (array : Expr) (start stop : Option Expr)
  | quantifier (quantifier : Quantifier) (var : String) (list predicate : Expr)
  | reduce (accumulator : String) (init : Expr) (var : String) (list expr : Expr)
  | listComprehension (var : String) (list : Expr) (whereClause : Option Expr)
      (mapExpr : Expr)
  | patternComprehension (whereClause : Option Expr) (mapExpr : Expr)
  | validAt (entity timestamp : Expr) (startProp endProp : Option String)
  | mapProjection (base : Expr) (items : List MapProjectionItem)
  | labelCheck (expr : Expr) (labels : List String)

inductive MapProjectionItem where
  | property (key : String)
  | allProperties
  | literalEntry (key : String) (expr : Expr)
  | var (name : String)

end

mutual

/-- Everything under an expression. -/
def Expr.under (inScope : Bool) : Expr → List Expr
  | .literal _ | .parameter _ | .var _ | .wildcard => []
  | .existsSubquery | .countSubquery | .collectSubquery => []
  | .property base _ => base :: base.under inScope
  | .list items => underList inScope items
  | .map entries => underEntries inScope entries
  | .functionCall _ args _ => underList inScope args
  | .binaryOp left _ right => left :: left.under inScope ++ right :: right.under inScope
  | .unaryOp _ expr => expr :: expr.under inScope
  | .case expr whenThen elseExpr =>
    underOption inScope expr ++ underPairs inScope whenThen ++ underOption inScope elseExpr
  | .isNull expr | .isNotNull expr | .isUnique expr => expr :: expr.under inScope
  | .inList expr list => expr :: expr.under inScope ++ list :: list.under inScope
  | .arrayIndex array index => array :: array.under inScope ++ index :: index.under inScope
  | .arraySlice array start stop =>
    array :: array.under inScope ++ underOption inScope start ++ underOption inScope stop
  | .quantifier _ _ list predicate =>
    list :: list.under inScope ++
      if inScope then [] else predicate :: predicate.under inScope
  | .reduce _ init _ list expr =>
    init :: init.under inScope ++ list :: list.under inScope ++
      if inScope then [] else expr :: expr.under inScope
  | .listComprehension _ list whereClause mapExpr =>
    list :: list.under inScope ++
      if inScope then [] else underOption inScope whereClause ++ mapExpr :: mapExpr.under inScope
  | .patternComprehension whereClause mapExpr =>
    if inScope then [] else underOption inScope whereClause ++ mapExpr :: mapExpr.under inScope
  | .validAt entity timestamp _ _ =>
    entity :: entity.under inScope ++ timestamp :: timestamp.under inScope
  | .mapProjection base items => base :: base.under inScope ++ underItems inScope items
  | .labelCheck expr _ => expr :: expr.under inScope

def underList (inScope : Bool) : List Expr → List Expr
  | [] => []
  | expr :: exprs => expr :: expr.under inScope ++ underList inScope exprs

def underEntries (inScope : Bool) : List (String × Expr) → List Expr
  | [] => []
  | (_, expr) :: entries => expr :: expr.under inScope ++ underEntries inScope entries

def underPairs (inScope : Bool) : List (Expr × Expr) → List Expr
  | [] => []
  | (w, t) :: pairs =>
    w :: w.under inScope ++ t :: t.under inScope ++ underPairs inScope pairs

def underOption (inScope : Bool) : Option Expr → List Expr
  | none => []
  | some expr => expr :: expr.under inScope

def underItems (inScope : Bool) : List MapProjectionItem → List Expr
  | [] => []
  | .literalEntry _ expr :: items => expr :: expr.under inScope ++ underItems inScope items
  | .property _ :: items | .allProperties :: items | .var _ :: items => underItems inScope items

end

/-- An expression and everything under it, within its scope or all of it. -/
def Expr.walk (inScope : Bool) (expr : Expr) : List Expr := expr :: expr.under inScope

/-- The name of a bare variable. -/
def Expr.varName : Expr → Option String
  | .var name => some name
  | _ => none

/-- The variables an expression reads from its enclosing scope. -/
def Expr.freeVariables (expr : Expr) : List String := (expr.walk true).filterMap Expr.varName

example : (Expr.listComprehension "x" (.property (.var "a") "xs") none
    (.binaryOp (.var "x") .add (.var "b"))).freeVariables = ["a"] := by decide

/-- A boolean expression over node labels or relationship types; a conjunction or disjunction
    has at least one name. -/
inductive LabelExpr where
  | empty
  | conjunction (first : String) (others : List String)
  | disjunction (first : String) (others : List String)
  deriving DecidableEq

structure NodePattern where
  var : Option String
  labels : LabelExpr
  properties : Option Expr
  whereClause : Option Expr

inductive Direction where
  | outgoing
  | incoming
  | both
  deriving DecidableEq

structure Range where
  min : Option Nat
  max : Option Nat
  deriving DecidableEq

structure RelationshipPattern where
  var : Option String
  types : LabelExpr
  direction : Direction
  range : Option Range
  properties : Option Expr
  whereClause : Option Expr

inductive ShortestPathMode where
  | shortest
  | allShortest
  deriving DecidableEq

/-- A parenthesized element holds the variable and the elements of its path. -/
inductive PatternElement where
  | node (pattern : NodePattern)
  | relationship (pattern : RelationshipPattern)
  | parenthesized (var : Option String) (elements : List PatternElement) (range : Option Range)

structure PathPattern where
  var : Option String
  elements : List PatternElement
  shortestPathMode : Option ShortestPathMode

structure Pattern where
  paths : List PathPattern

end UniDb.Cypher
