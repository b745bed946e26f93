import Mathlib.Data.Finset.Lattice.Basic
import Mathlib.Data.List.Lex
import Mathlib.Data.List.MinMax
import Mathlib.Data.Prod.Lex
import Mathlib.Data.String.Basic
import UniDb.Locy.Program

/-!
# Binding Plans

The order in which the conditions of a clause are evaluated, and which occurrence of a variable
binds it.

The MATCH pattern binds its variables first. A greedy loop then schedules the positive
references and the generators: a reference with a bound KEY before a generator that is ready,
and that before any other reference. The first occurrence of a variable to be scheduled binds
it, the later ones test it. A filter follows the step that makes its last name available. What
the loop cannot schedule comes after it, and the negated references come last.

A step names its condition by index: the index of a reference in the plan, the index of a
generator or a filter among the conditions. An index out of range would panic; the scheduler
only uses indices it has itself handed out, so the model leaves the state alone there.

## Main definitions

* `ClauseBindingPlan`: The plan of a clause.
* `Scheduler`: The state of the scheduler.
* `Scheduler.scheduleRef`, `Scheduler.scheduleGenerator`: One step of the plan.
* `BodyState.step`, `BodyState.run`: The loop over references and generators.
* `Scheduler.scheduleNegations`: The anti-joins.
* `chooseAnchor`: The reference the pattern is walked from.
* `compute`: The plan of a clause.
-/

namespace UniDb.Locy

open Cypher

/-- The kind of value a variable or a column holds. -/
inductive ColumnKind where
  | node
  | edge
  | scalar
  deriving DecidableEq

/-- What a clause does with the variable at one position of an IS reference. -/
inductive PositionAction where
  | bindNode
  | bindScalar
  | testNode
  | testScalar
  | existential
  deriving DecidableEq

structure PositionBinding where
  var : String
  column : String
  physical : String
  isKey : Bool
  kind : ColumnKind
  action : PositionAction
  deriving DecidableEq

structure IsRefBinding where
  conditionIndex : Nat
  rule : String
  negated : Bool
  columnPrefix : String
  positions : List PositionBinding
  deriving DecidableEq

structure GeneratorOutput where
  var : String
  physical : String
  binds : Bool
  deriving DecidableEq

structure GeneratorBinding where
  conditionIndex : Nat
  outputs : List GeneratorOutput
  deriving DecidableEq

inductive BindingStep where
  | ref (r : Nat)
  | generator (cond : Nat)
  | filter (cond : Nat)
  | antiJoin (r : Nat)
  deriving DecidableEq

/-- Where a variable of a clause gets its value. -/
inductive VarSource where
  | ofMatch (kind : ColumnKind)
  | refPosition (r pos : Nat)
  | generator (cond : Nat) (physical : String)
  | yieldAlias (source : String)
  deriving DecidableEq

/-- How a bare name reaches a value column of a referenced rule. -/
inductive Exposure where
  | unique (r : Nat) (physical : String)
  | ambiguous (owners : List Nat)
  deriving DecidableEq

inductive AnchorSource where
  | recursive
  | lowerStratum
  deriving DecidableEq

structure Anchor where
  r : Nat
  pos : Nat
  source : AnchorSource
  deriving DecidableEq

/-- The compile errors a plan reports. -/
inductive BindingDiagnostic where
  | isNotSubjectNotANode (rule var : String)
  | isRefKindMismatch (rule target var column : String) (expected found : ColumnKind)
  | generatorCycle (rule : String) (generators : List String)
  | isNotBindsValueColumn (rule target var column : String)
  | isNotKeyUnbound (rule target var : String)
  | ambiguousRuleColumn (rule column slot : String) (refs : List String)
  | ambiguousPrevRef (rule field : String)
  deriving DecidableEq

structure ClauseBindingPlan where
  steps : List BindingStep
  refs : List IsRefBinding
  generators : List GeneratorBinding
  scope : AssocMap String VarSource
  exposure : AssocMap String Exposure
  immediateFilters : List Nat
  prevRef : Option Nat
  anchor : Option Anchor
  diagnostics : List BindingDiagnostic

/-- The kind of every column of every rule of a catalog. -/
abbrev ColumnKinds := AssocMap String (AssocMap String ColumnKind)

/-! ## The variables of a pattern -/

/-- Meet of two kinds, where `none` is unknown. -/
def meet : Option ColumnKind → Option ColumnKind → Option ColumnKind
  | none, other => other
  | other, none => other
  | some x, some y => if x = y then some x else some .scalar

def addKind (kinds : AssocMap String ColumnKind) (var : Option String) (kind : ColumnKind) :
    AssocMap String ColumnKind :=
  match var with
  | none => kinds
  | some v => kinds.insert v <| match kinds.lookup v with
      | none => kind
      | some k => (meet (some k) (some kind)).getD .scalar

mutual

def elementKinds (quantified : Bool) (kinds : AssocMap String ColumnKind) :
    PatternElement → AssocMap String ColumnKind
  | .node n => addKind kinds n.var (if quantified then .scalar else .node)
  | .relationship r => addKind kinds r.var (if quantified || r.range.isSome then .scalar else .edge)
  -- a quantified group binds each inner variable to a list
  | .parenthesized var elements range =>
    elementsKinds (quantified || range.isSome) (addKind kinds var .scalar) elements

def elementsKinds (quantified : Bool) (kinds : AssocMap String ColumnKind) :
    List PatternElement → AssocMap String ColumnKind
  | [] => kinds
  | element :: elements =>
    elementsKinds quantified (elementKinds quantified kinds element) elements

end

def matchVarKinds (pattern : Pattern) : AssocMap String ColumnKind :=
  pattern.paths.foldl
    (fun kinds path => elementsKinds false (addKind kinds path.var .scalar) path.elements) ∅

mutual

def quantifiedVariables : PatternElement → List String
  | .node n => n.var.toList
  | .relationship _ => []
  | .parenthesized _ elements _ => quantifiedVariablesAll elements

def quantifiedVariablesAll : List PatternElement → List String
  | [] => []
  | element :: elements => quantifiedVariables element ++ quantifiedVariablesAll elements

end

/-- The nodes of a path that a walk may start from, if it may start from the path at all. -/
def plainNodes (path : PathPattern) : List String :=
  path.elements.flatMap fun
    | .node n => n.var.toList.filter (!·.isEmpty)
    | _ => []

def groupedNodes (path : PathPattern) : List String :=
  path.elements.flatMap fun
    | .parenthesized _ elements _ => quantifiedVariablesAll elements
    | _ => []

/-- The node variables a walk may start from: plain nodes of a path that is neither a
    `shortestPath` nor bound to a variable, and of no quantified group. -/
def walkableNodeVariables (pattern : Pattern) : List String :=
  let walkFrom (path : PathPattern) := path.shortestPathMode.isNone && path.var.isNone
  let plain := (pattern.paths.filter walkFrom).flatMap plainNodes
  let excluded :=
    (pattern.paths.filter (!walkFrom ·)).flatMap plainNodes ++ pattern.paths.flatMap groupedNodes
  plain.filter (· ∉ excluded)

/-! ## The scheduler -/

def pushUnique (diagnostics : List BindingDiagnostic) (diagnostic : BindingDiagnostic) :
    List BindingDiagnostic :=
  if diagnostic ∈ diagnostics then diagnostics else diagnostics ++ [diagnostic]

def namesRead (exprs : List Expr) : List String := exprs.flatMap Expr.freeVariables

structure Scheduler where
  plan : ClauseBindingPlan
  varKinds : AssocMap String ColumnKind
  available : Finset String
  pendingFilters : List (Nat × List String)
  scheduledRefs : Finset Nat

def testAction (kind : ColumnKind) : PositionAction :=
  if kind = .node then .testNode else .testScalar

def bindAction (kind : ColumnKind) : PositionAction :=
  if kind = .node then .bindNode else .bindScalar

def kindMismatch (rule : String) (binding : IsRefBinding) (position : PositionBinding)
    (found : ColumnKind) : BindingDiagnostic :=
  if binding.negated ∧ position.kind = .node then .isNotSubjectNotANode rule position.var
  else .isRefKindMismatch rule binding.rule position.var position.column position.kind found

namespace Scheduler

variable (s : Scheduler)

def diagnose (diagnostic : BindingDiagnostic) : Scheduler :=
  { s with plan := { s.plan with diagnostics := pushUnique s.plan.diagnostics diagnostic } }

def push (step : BindingStep) : Scheduler :=
  { s with plan := { s.plan with steps := s.plan.steps ++ [step] } }

/-- Bind a variable that is not yet bound. -/
def bindVar (var : String) (source : VarSource) (kind : ColumnKind) : Scheduler :=
  { s with
    plan := { s.plan with scope := s.plan.scope.insert var source }
    varKinds := s.varKinds.insert var kind
    available := insert var s.available }

/-- Place every pending filter whose names are all available. -/
def placeFilters : Scheduler :=
  let ready := s.pendingFilters.filter fun f => f.2.all (· ∈ s.available)
  let waiting := s.pendingFilters.filter fun f => !f.2.all (· ∈ s.available)
  { s with
    plan := { s.plan with steps := s.plan.steps ++ ready.map (.filter ·.1) }
    pendingFilters := waiting }

section Rule

variable (rule : String)

/-- The action at one position of a positive reference: an unbound variable is bound, a bound
    one is tested. -/
def bindPosition (s : Scheduler) (binding : IsRefBinding) (r pos : Nat)
    (position : PositionBinding) : PositionAction × Scheduler :=
  if position.var ∈ s.plan.scope then
    let found := (s.varKinds.lookup position.var).getD .scalar
    (testAction position.kind,
      if found ≠ position.kind then s.diagnose (kindMismatch rule binding position found) else s)
  else
    (bindAction position.kind, s.bindVar position.var (.refPosition r pos) position.kind)

def bindPositions (binding : IsRefBinding) (r : Nat) :
    Nat → Scheduler → List PositionBinding → List PositionBinding × Scheduler
  | _, s, [] => ([], s)
  | pos, s, position :: positions =>
    let (action, s) := s.bindPosition rule binding r pos position
    let (rest, s) := bindPositions binding r (pos + 1) s positions
    ({ position with action } :: rest, s)

/-- Whether scheduling a reference makes an exposed column available. -/
def exposes (scheduledRefs : Finset Nat) (r : Nat) : Exposure → Bool
  | .unique owner _ => owner = r
  | .ambiguous owners => r ∈ owners && owners.all (· ∈ scheduledRefs)

def exposedBy (s : Scheduler) (r : Nat) : List String :=
  (s.plan.exposure.toList.filter fun e => exposes s.scheduledRefs r e.2).map Prod.fst

/-- Schedule a positive reference. -/
def scheduleRef (s : Scheduler) (r : Nat) : Scheduler :=
  match s.plan.refs[r]? with
  | none => s
  | some binding =>
    let s := { s.push (.ref r) with scheduledRefs := insert r s.scheduledRefs }
    let (positions, s) := bindPositions rule binding r 0 s binding.positions
    let s := { s with
      plan := { s.plan with refs := s.plan.refs.set r { binding with positions } } }
    let s := { s with available := s.available ∪ (s.exposedBy r).toFinset }
    s.placeFilters

end Rule

/-- One output of a generator. A bound output is compared under a name of its own. -/
def bindOutput (s : Scheduler) (cond : Nat) (output : GeneratorOutput) :
    GeneratorOutput × Scheduler :=
  if output.var ∈ s.plan.scope then
    ({ var := output.var, physical := s!"__gen{cond}_{output.var}", binds := false }, s)
  else
    ({ var := output.var, physical := output.var, binds := true },
      s.bindVar output.var (.generator cond output.var) .scalar)

def bindOutputs (cond : Nat) :
    Scheduler → List GeneratorOutput → List GeneratorOutput × Scheduler
  | s, [] => ([], s)
  | s, output :: outputs =>
    let (output, s) := s.bindOutput cond output
    let (rest, s) := bindOutputs cond s outputs
    (output :: rest, s)

def scheduleGenerator (s : Scheduler) (g : Nat) : Scheduler :=
  match s.plan.generators[g]? with
  | none => s
  | some generator =>
    let s := s.push (.generator generator.conditionIndex)
    let (outputs, s) := bindOutputs generator.conditionIndex s generator.outputs
    let s := { s with
      plan := { s.plan with generators := s.plan.generators.set g { generator with outputs } } }
    s.placeFilters

/-- How many KEY positions of a reference are bound, and how many positions. -/
def score (s : Scheduler) (r : Nat) : Nat × Nat :=
  match s.plan.refs[r]? with
  | none => (0, 0)
  | some binding =>
    (binding.positions.countP fun p => p.isKey && p.var ∈ s.plan.scope,
      binding.positions.countP fun p => p.var ∈ s.plan.scope)

end Scheduler

section Clause

variable (rule : String) (clause : CompiledClause)

/-- The generator among the conditions of a clause. -/
def generatorAt (cond : Nat) : Option GeneratorRef :=
  match clause.whereConditions[cond]? with
  | some (.generator ref) => some ref
  | _ => none

namespace Scheduler

def generatorRef (s : Scheduler) (g : Nat) : Option GeneratorRef :=
  (s.plan.generators[g]?).bind fun generator => generatorAt clause generator.conditionIndex

/-- The names the arguments of a generator read. -/
def generatorArgs (s : Scheduler) (g : Nat) : List String :=
  (s.generatorRef clause g).elim [] fun ref => namesRead ref.args

/-- A generator is ready if its arguments are available, unless a reference still to come
    binds one of its outputs. -/
def generatorReady (s : Scheduler) (refsLeft : List Nat) (g : Nat) : Bool :=
  (s.generatorArgs clause g).all (· ∈ s.available) &&
    match s.plan.generators[g]? with
    | none => true
    | some generator => generator.outputs.all fun o =>
      !refsLeft.any fun r => match s.plan.refs[r]? with
        | none => false
        | some binding => binding.positions.any (·.var = o.var)

end Scheduler

/-- The state of the loop over references and generators. -/
structure BodyState where
  refsLeft : List Nat
  gensLeft : List Nat
  scheduler : Scheduler

namespace BodyState

variable (b : BodyState)

/-- The reference with most bound KEY positions, then most bound positions, with its index. -/
def anchored : Option (Nat × Nat) :=
  (b.refsLeft.zipIdx.filter fun e => 0 < (b.scheduler.score e.1).1).argmax
    fun e => toLex (b.scheduler.score e.1)

def readyGenerator : Option (Nat × Nat) :=
  b.gensLeft.zipIdx.find? fun e => b.scheduler.generatorReady clause b.refsLeft e.1

def unanchored : Option (Nat × Nat) :=
  b.refsLeft.zipIdx.argmax fun e => (b.scheduler.score e.1).2

def takeRef (e : Nat × Nat) : BodyState :=
  { b with refsLeft := b.refsLeft.eraseIdx e.2, scheduler := b.scheduler.scheduleRef rule e.1 }

def takeGenerator (e : Nat × Nat) : BodyState :=
  { b with gensLeft := b.gensLeft.eraseIdx e.2, scheduler := b.scheduler.scheduleGenerator e.1 }

/-- One round of the loop. -/
def step : Option BodyState :=
  match b.anchored with
  | some e => some (b.takeRef rule e)
  | none => match b.readyGenerator clause with
      | some e => some (b.takeGenerator e)
      | none => b.unanchored.map (b.takeRef rule)

def run : Nat → BodyState → BodyState
  | 0, b => b
  | fuel + 1, b => match b.step rule clause with
      | none => b
      | some b' => run fuel b'

end BodyState

namespace Scheduler

variable (s : Scheduler)

/-- The generators that wait for an output of a generator that is left over. -/
def cyclicGenerators (gensLeft : List Nat) : List String :=
  let outputs := gensLeft.flatMap fun g => match s.plan.generators[g]? with
    | none => []
    | some generator => generator.outputs.map (·.var)
  let cyclic := gensLeft.filter fun g =>
    (s.generatorArgs clause g).any fun n => n ∉ s.available && n ∈ outputs
  cyclic.filterMap fun g => (s.generatorRef clause g).map (·.name)

def scheduleLeftoverGenerators (gensLeft : List Nat) : Scheduler :=
  let cyclic := s.cyclicGenerators clause gensLeft
  let s := if cyclic = [] then s else s.diagnose (.generatorCycle rule cyclic)
  gensLeft.foldl scheduleGenerator s

def placeLeftoverFilters : Scheduler :=
  { s with
    plan := { s.plan with steps := s.plan.steps ++ s.pendingFilters.map (.filter ·.1) }
    pendingFilters := [] }

/-- Every positive reference and generator, then the leftovers. -/
def scheduleBody (positive : List Nat) : Scheduler :=
  let gens := List.range s.plan.generators.length
  let b := BodyState.run rule clause (positive.length + gens.length)
    { refsLeft := positive, gensLeft := gens, scheduler := s }
  (b.scheduler.scheduleLeftoverGenerators rule clause b.gensLeft).placeLeftoverFilters

/-- The YIELD items that rename a variable; the last item of a name counts. -/
def yieldAliases : AssocMap String String :=
  clause.output.items.foldl (fun aliases item => match item.aliasName, item.expr with
    | some a, .var v => aliases.insert a v
    | _, _ => aliases) ∅

/-- A YIELD alias of a bound node denotes that node. -/
def bindAlias (var : String) : Scheduler :=
  if var ∈ s.plan.scope then s
  else match (yieldAliases clause).lookup var with
    | none => s
    | some source =>
      if s.varKinds.lookup source = some .node then
        { s with
          plan := { s.plan with scope := s.plan.scope.insert var (.yieldAlias source) }
          varKinds := s.varKinds.insert var .node }
      else s

/-- The action at one position of a negated reference. -/
def negatePosition (binding : IsRefBinding) (position : PositionBinding) :
    PositionAction × Scheduler :=
  if !position.isKey then
    -- a fact is identified by its KEY: negation compares no value, and ignores an unbound one
    if position.var ∈ s.plan.scope then
      (testAction position.kind, s.diagnose
        (.isNotBindsValueColumn rule binding.rule position.var position.column))
    else (.existential, s)
  else
    let s := s.bindAlias clause position.var
    match s.varKinds.lookup position.var with
    | some found =>
      (testAction position.kind,
        if found ≠ position.kind then s.diagnose (kindMismatch rule binding position found)
        else s)
    | none =>
      (.existential, s.diagnose <|
        if position.kind = .node then .isNotSubjectNotANode rule position.var
        else .isNotKeyUnbound rule binding.rule position.var)

def negatePositions (binding : IsRefBinding) :
    Scheduler → List PositionBinding → List PositionBinding × Scheduler
  | s, [] => ([], s)
  | s, position :: positions =>
    let (action, s) := s.negatePosition rule clause binding position
    let (rest, s) := negatePositions binding s positions
    ({ position with action } :: rest, s)

def scheduleNegation (r : Nat) : Scheduler :=
  match s.plan.refs[r]? with
  | none => s
  | some binding =>
    let (positions, s) :=
      negatePositions rule clause binding (s.push (.antiJoin r)) binding.positions
    { s with plan := { s.plan with refs := s.plan.refs.set r { binding with positions } } }

def scheduleNegations (negated : List Nat) : Scheduler :=
  negated.foldl (scheduleNegation rule clause) s

end Scheduler

/-! ## Reads of ambiguous columns -/

def alongCypherParts : LocyExpr → List Expr
  | .prevRef _ => []
  | .cypher e => [e]
  | .binaryOp left _ right => alongCypherParts left ++ alongCypherParts right
  | .unaryOp _ inner => alongCypherParts inner

def collectPrevRefs : LocyExpr → List String
  | .prevRef field => [field]
  | .cypher _ => []
  | .binaryOp left _ right => collectPrevRefs left ++ collectPrevRefs right
  | .unaryOp _ inner => collectPrevRefs inner

def whereExprs : List Expr :=
  clause.whereConditions.filterMap fun
    | .expression e => some e
    | _ => none

def generatorArgExprs : List Expr :=
  clause.whereConditions.flatMap fun
    | .generator ref => ref.args
    | _ => []

/-- The slots of a clause that read names, with the names that shadow an exposed column there. -/
def readSlots : List (String × List String × List String) :=
  let along := clause.along.map (·.name)
  let folds := clause.fold.map (·.name)
  let yieldAliases := clause.output.items.filterMap fun item =>
    if item.aliasName = item.expr.varName then none else item.aliasName
  let preFoldYield := (clause.output.items.map (·.expr)).filter
    fun e => !e.freeVariables.any (· ∈ folds)
  [("WHERE", namesRead (whereExprs clause), []),
    ("generator arguments", namesRead (generatorArgExprs clause), []),
    ("ALONG", namesRead (clause.along.flatMap fun a => alongCypherParts a.expr), along),
    ("FOLD", namesRead (clause.fold.map (·.aggregate)), along),
    ("YIELD", namesRead preFoldYield, along),
    ("BEST BY", namesRead ((clause.bestBy.getD []).map (·.expr)), along ++ folds ++ yieldAliases)]

/-- Report a read of an ambiguous column, unless it is shadowed or already reported. -/
def reportRead (slot : String) (shadow : List String) (acc : ClauseBindingPlan × List String)
    (name : String) : ClauseBindingPlan × List String :=
  let (plan, reported) := acc
  if name ∈ shadow ∨ name ∈ reported then acc
  else match plan.exposure.lookup name with
    | some (.ambiguous owners) =>
      let refs := owners.filterMap fun o => (plan.refs[o]?).map (·.rule)
      ({ plan with diagnostics :=
          plan.diagnostics ++ [.ambiguousRuleColumn rule name slot refs] }, name :: reported)
    | _ => acc

def checkAmbiguousReads (plan : ClauseBindingPlan) : ClauseBindingPlan :=
  ((readSlots clause).foldl (fun acc slot => slot.2.1.foldl (reportRead rule slot.1 slot.2.2) acc)
    (plan, [])).1

/-! ## The anchor -/

def conjuncts : Expr → List Expr
  | .binaryOp left .and right => conjuncts left ++ conjuncts right
  | other => [other]

/-- The variable of a property that is compared with an expression of no variable. -/
def equatedSide (property other : Expr) : Option String :=
  match property with
  | .property (.var v) _ => if other.freeVariables = [] then some v else none
  | _ => none

def equatedNode : Expr → Option String
  | .binaryOp left .eq right => (equatedSide left right).or (equatedSide right left)
  | _ => none

/-- The nodes that carry an inline property map. -/
def mappedNodes (pattern : Pattern) : List String :=
  pattern.paths.flatMap fun path => path.elements.flatMap fun
    | .node n => if n.properties.isSome then n.var.toList else []
    | _ => []

/-- The MATCH nodes an equality could start the walk from. -/
def equalityAnchoredNodes (plan : ClauseBindingPlan) : List String :=
  mappedNodes clause.matchPattern ++ plan.immediateFilters.flatMap fun (index : Nat) =>
    match clause.whereConditions[index]? with
    | some (.expression expr) => (conjuncts expr).filterMap equatedNode
    | _ => []

variable (sameScc : String → Bool) (plan : ClauseBindingPlan)

/-- The KEY position of a reference that the walk can start from. -/
def anchorPosition (eligible : String → Bool)
    (binding : IsRefBinding) : Option Nat :=
  binding.positions.findIdx? fun p =>
    p.isKey && p.action = .testNode &&
      plan.scope.lookup p.var = some (.ofMatch .node) &&
      p.var ∈ walkableNodeVariables clause.matchPattern && eligible p.var

def anchorCandidates (positive : List Nat) (source : AnchorSource)
    (eligible : String → Bool) : List Anchor :=
  positive.filterMap fun r => do
    let binding ← plan.refs[r]?
    if sameScc binding.rule = decide (source = .recursive) then
      let pos ← anchorPosition clause plan eligible binding
      some { r, pos, source }
    else none

def anchorRank (anchor : Anchor) : String ×ₗ List String :=
  match plan.refs[anchor.r]? with
  | none => toLex ("", [])
  | some binding => toLex (binding.rule, binding.positions.map (·.var))

/-- A reference into the clause's own recursive group, else one to a lower stratum whose node
    is the only one an equality could start from; the smallest rule and variables win. -/
def chooseAnchor (positive : List Nat) : Option Anchor :=
  let equalities := equalityAnchoredNodes clause plan
  ((anchorCandidates clause sameScc plan positive .recursive fun _ => true).argmin
      (anchorRank plan)).or
    ((anchorCandidates clause sameScc plan positive .lowerStratum
      fun v => equalities.all (· = v)).argmin (anchorRank plan))

/-! ## The plan of a clause -/

variable (catalog : AssocMap String CompiledRule) (kinds : ColumnKinds)

/-- The conditions of a clause, sorted by what they are. -/
structure Intake where
  refs : List IsRefBinding
  generators : List GeneratorBinding
  positive : List Nat
  negated : List Nat
  filters : List (Nat × List String)

def Intake.empty : Intake := ⟨[], [], [], [], []⟩

/-- The positions of a reference, before they are scheduled. -/
def refPositions (isRef : IsReference) (columnPrefix : String) (columns : List YieldColumn) :
    List PositionBinding :=
  List.zipWith (fun var (col : YieldColumn) =>
    { var, column := col.name, physical := columnPrefix ++ col.name, isKey := col.isKey,
      kind := (kinds.lookup₂ isRef.ruleName col.name).getD .node, action := .existential })
    isRef.variables columns

variable (n : Intake)

/-- The next reference of its kind, in the order of the conditions. -/
def Intake.nextPrefix (negated : Bool) : String :=
  if negated then s!"__isnot{n.negated.length}_" else s!"__isref{n.positive.length}_"

def refBinding (index : Nat) (isRef : IsReference) (columnPrefix : String)
    (columns : List YieldColumn) : IsRefBinding :=
  { conditionIndex := index, rule := isRef.ruleName, negated := isRef.negated, columnPrefix,
    positions := refPositions kinds isRef columnPrefix columns }

def Intake.addReference (index : Nat) (isRef : IsReference) : Option Intake := do
  let targetRule ← catalog.lookup isRef.ruleName
  let columns ← boundColumns targetRule.yieldSchema isRef.subjects.length isRef.target.isSome
  let binding := refBinding kinds index isRef (n.nextPrefix isRef.negated) columns
  some <|
    if isRef.negated then
      { n with refs := n.refs ++ [binding], negated := n.negated ++ [n.refs.length] }
    else { n with refs := n.refs ++ [binding], positive := n.positive ++ [n.refs.length] }

def Intake.add (entry : RuleCondition × Nat) : Option Intake :=
  match entry.1 with
  | .isReference isRef => n.addReference catalog kinds entry.2 isRef
  | .generator ref =>
    some { n with generators := n.generators ++
      [{ conditionIndex := entry.2,
         outputs := ref.outputs.map fun o => { var := o, physical := o, binds := true } }] }
  | .expression expr => some { n with filters := n.filters ++ [(entry.2, expr.freeVariables)] }

def intake (conditions : List RuleCondition) : Option Intake :=
  conditions.zipIdx.foldlM (Intake.add catalog kinds) Intake.empty

def Intake.bodyVariables (patternVars : List String) : List String :=
  patternVars ++
    (n.positive.flatMap fun r => ((n.refs[r]?).elim [] fun b => b.positions.map (·.var))) ++
    n.generators.flatMap fun g => g.outputs.map (·.var)

variable (real : List String)

/-- The value columns of a reference that no position binds and no variable shadows. -/
def exposedColumns (binding : IsRefBinding) : List String :=
  let schema := (catalog.lookup binding.rule).elim [] (·.yieldSchema)
  (((bindingSequence schema).drop binding.positions.length).filter
    fun c => !c.isKey && c.name ∉ real).map (·.name)

/-- Every exposed column: its name, the reference and its name in the batch. -/
def Intake.exposedEntries : List (String × Nat × String) :=
  n.positive.flatMap fun r => (n.refs[r]?).elim [] fun binding =>
    (exposedColumns catalog real binding).map fun name => (name, r, binding.columnPrefix ++ name)

def exposureOf : List (Nat × String) → Exposure
  | [(r, physical)] => .unique r physical
  | owners => .ambiguous (owners.map Prod.fst)

def Intake.exposure : AssocMap String Exposure :=
  ((n.exposedEntries catalog real).foldl
    (fun (m : AssocMap String (List (Nat × String))) e =>
      m.insert e.1 ((m.lookup e.1).getD [] ++ [e.2])) ∅).filterMapVal
    fun _ owners => some (exposureOf owners)

/-- The one positive reference into the clause's recursive group. -/
def Intake.recursiveRefs : List Nat :=
  n.positive.filter fun r => (n.refs[r]?).elim false fun b => sameScc b.rule

def prevDiagnostics (recursive : List Nat) : List BindingDiagnostic :=
  match recursive with
  | [] | [_] => []
  | _ => ((clause.along.flatMap fun a => collectPrevRefs a.expr).head?.map
      (.ambiguousPrevRef rule)).toList

/-- The state in which the scheduler starts. -/
def initialScheduler : Scheduler :=
  let patternKinds := matchVarKinds clause.matchPattern
  let patternVars := patternKinds.keys
  let recursive := n.recursiveRefs sameScc
  { plan :=
      { steps := []
        refs := n.refs
        generators := n.generators
        scope := patternKinds.filterMapVal fun _ kind => some (.ofMatch kind)
        exposure := n.exposure catalog (n.bodyVariables patternVars)
        immediateFilters := (n.filters.filter fun f => f.2.all (· ∈ patternVars)).map Prod.fst
        prevRef := match recursive with
          | [only] => some only
          | _ => none
        anchor := none
        diagnostics := prevDiagnostics rule clause recursive }
    varKinds := patternKinds
    available := patternVars.toFinset
    pendingFilters := n.filters.filter fun f => !f.2.all (· ∈ patternVars)
    scheduledRefs := ∅ }

/-- The plan of a clause; none if it references a rule the catalog lacks, or binds more
    positions than the rule has columns. -/
def compute : Option ClauseBindingPlan := do
  let n ← intake catalog kinds clause.whereConditions
  let s := initialScheduler rule clause sameScc catalog n
  let s := (s.scheduleBody rule clause n.positive).scheduleNegations rule clause n.negated
  let plan := checkAmbiguousReads rule clause s.plan
  some { plan with anchor := chooseAnchor clause sameScc plan n.positive }

end Clause

end UniDb.Locy
