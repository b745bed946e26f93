import Mathlib.Data.Finset.Lattice.Lemmas
import UniDb.Lib.Dataflow
import UniDb.Locy.BindingPlan

/-!
# Scheduling Steps

What scheduling a reference or a generator does to a plan.

A step of a plan binds or tests variables, its *occurrences*. The occurrences of a variable are
in the order of evaluation, so that a variable is bound before it is tested says that its first
occurrence binds it. One round of the scheduler appends one step and the filters that have
become ready; `Scheduled` says what else it changes, and everything about the loop is derived
from it.

## Main definitions

* `ClauseBindingPlan.occurrencesOf`: What a step does with variables.
* `ClauseBindingPlan.Provided`: A name that earlier steps bind or expose.
* `Binds`: The effect of binding or testing variables.
* `Scheduled`: The effect of scheduling a reference or a generator.

## Theorems

* `bindPositions_spec`, `bindOutputs_spec`: The variables of a reference and of a generator.
* `scheduled_ref`, `scheduled_generator`: The two kinds of rounds.
-/

namespace UniDb.Locy

open Scheduler IsRefBinding AssocMap Cypher List

/-! ## Occurrences -/

/-- A position whose variable is existential neither binds nor tests it. -/
def PositionAction.role : PositionAction → Role
  | .bindNode | .bindScalar => .binds
  | .testNode | .testScalar => .tests
  | .existential => .ignores

@[simp] theorem role_bindAction (kind : ColumnKind) : (bindAction kind).role = .binds := by
  unfold bindAction
  split <;> rfl

@[simp] theorem role_testAction (kind : ColumnKind) : (testAction kind).role = .tests := by
  unfold testAction
  split <;> rfl

/-- The positions of a reference, from position `pos` on. -/
def positionOccurrences (r : Nat) : Nat → List PositionBinding → List (Occurrence String VarSource)
  | _, [] => []
  | pos, p :: ps => ⟨p.var, .refPosition r pos, p.action.role⟩ :: positionOccurrences r (pos + 1) ps

def outputOccurrence (cond : Nat) (o : GeneratorOutput) : Occurrence String VarSource :=
  ⟨o.var, .generator cond o.physical, if o.binds then .binds else .tests⟩

/-- The pattern is evaluated before the steps and binds all of its variables. -/
def patternOccurrences (pattern : Pattern) : List (Occurrence String VarSource) :=
  (matchVarKinds pattern).toList.map fun e => ⟨e.1, .ofMatch e.2, .binds⟩

namespace ClauseBindingPlan

variable (plan : ClauseBindingPlan)

/-- What a step does with variables, in order. -/
def occurrencesOf : BindingStep → List (Occurrence String VarSource)
  | .ref r | .antiJoin r => (plan.refs[r]?).elim [] fun b => positionOccurrences r 0 b.positions
  | .generator cond => (plan.generators.find? (·.conditionIndex = cond)).elim [] fun g =>
    g.outputs.map (outputOccurrence cond)
  | .filter _ => []

/-- Every occurrence of a variable in a clause, in the order of evaluation. -/
def occurrences (pattern : Pattern) : List (Occurrence String VarSource) :=
  patternOccurrences pattern ++ plan.steps.flatMap plan.occurrencesOf

/-- A step binds a name or exposes it. -/
def provides (step : BindingStep) (name : String) : Prop :=
  (∃ o ∈ plan.occurrencesOf step, o.name = name ∧ o.role = .binds) ∨
    ∃ r physical, step = .ref r ∧ plan.exposure.lookup name = some (.unique r physical)

/-- A name that the pattern binds, or that one of some steps binds or exposes. -/
def Provided (pattern : Pattern) (before : List BindingStep) (name : String) : Prop :=
  name ∈ matchVarKinds pattern ∨ ∃ step ∈ before, plan.provides step name

end ClauseBindingPlan

/-- What has to be available before a condition can be evaluated. A reference waits for nothing: it
    binds what it does not find. -/
def conditionReads (clause : CompiledClause) (cond : Nat) : List String :=
  match clause.whereConditions[cond]? with
  | some (.expression e) => e.freeVariables
  | some (.generator ref) => namesRead ref.args
  | _ => []

def readsOf (clause : CompiledClause) : BindingStep → List String
  | .filter cond | .generator cond => conditionReads clause cond
  | _ => []

variable {ps : List PositionBinding}

/-- An occurrence in a reference is that of one of its positions. -/
theorem mem_positionOccurrences {r pos : Nat} {o : Occurrence String VarSource}
    (ho : o ∈ positionOccurrences r pos ps) :
    ∃ p ∈ ps, ∃ i, o = ⟨p.var, .refPosition r i, p.action.role⟩ := by
  induction ps generalizing pos with
  | nil => cases ho
  | cons p ps ih =>
    rcases mem_cons.mp ho with rfl | ho
    · exact ⟨p, mem_cons_self, pos, rfl⟩
    · obtain ⟨q, hq, i, rfl⟩ := ih ho
      exact ⟨q, mem_cons_of_mem p hq, i, rfl⟩

theorem exists_positionOccurrence (r pos : Nat) {p : PositionBinding} (hp : p ∈ ps) :
    ∃ i, ⟨p.var, .refPosition r i, p.action.role⟩ ∈ positionOccurrences r pos ps := by
  induction ps generalizing pos with
  | nil => cases hp
  | cons q ps ih =>
    rcases mem_cons.mp hp with rfl | hp
    · exact ⟨pos, mem_cons_self⟩
    · obtain ⟨i, hi⟩ := ih (pos + 1) hp
      exact ⟨i, mem_cons_of_mem _ hi⟩

theorem occurrencesOf_ref (plan : ClauseBindingPlan) {r : Nat} {b : IsRefBinding}
    (hb : plan.refs[r]? = some b) :
    plan.occurrencesOf (.ref r) = positionOccurrences r 0 b.positions := by
  unfold ClauseBindingPlan.occurrencesOf
  simp [hb]

/-! ## Binding variables -/

/-- Scheduling sets the action of a position and nothing else of it. -/
def PositionBinding.erase (p : PositionBinding) : PositionBinding :=
  { p with action := .existential }

/-- A reference as it is before it is scheduled. -/
def IsRefBinding.erase (b : IsRefBinding) : IsRefBinding :=
  { b with positions := b.positions.map PositionBinding.erase }

/-- Scheduling may rename an output, if its variable has a value already. -/
def GeneratorOutput.erase (o : GeneratorOutput) : GeneratorOutput :=
  { var := o.var, physical := o.var, binds := true }

/-- A generator as it is before it is scheduled. -/
def GeneratorBinding.erase (g : GeneratorBinding) : GeneratorBinding :=
  { g with outputs := g.outputs.map GeneratorOutput.erase }

/-- Whether the variable at a position of a positive reference was bound or tested. -/
def PositionBinding.Scheduled (p : PositionBinding) : Prop :=
  p.action = bindAction p.kind ∨ p.action = testAction p.kind

/-- Variables were bound or tested at some occurrences, and nothing else changed but the
    diagnostics. -/
structure Binds (s s' : Scheduler) (occs : List (Occurrence String VarSource)) : Prop where
  first : ∀ prev, FirstBinds s.plan.scope.lookup prev →
    FirstBinds s'.plan.scope.lookup (prev ++ occs)
  mono : ∀ v source, s.plan.scope.lookup v = some source → s'.plan.scope.lookup v = some source
  fresh : ∀ v source, s'.plan.scope.lookup v = some source → s.plan.scope.lookup v = some source ∨
    ⟨v, source, .binds⟩ ∈ occs
  available : ∀ v, v ∈ s'.available ↔ v ∈ s.available ∨ v ∈ s'.plan.scope ∧ v ∉ s.plan.scope
  kinds : (∀ v ∈ s.plan.scope, v ∈ s.varKinds) → ∀ v ∈ s'.plan.scope, v ∈ s'.varKinds
  steps : s'.plan.steps = s.plan.steps
  refs : s'.plan.refs = s.plan.refs
  generators : s'.plan.generators = s.plan.generators
  exposure : s'.plan.exposure = s.plan.exposure
  immediateFilters : s'.plan.immediateFilters = s.plan.immediateFilters
  pendingFilters : s'.pendingFilters = s.pendingFilters
  scheduledRefs : s'.scheduledRefs = s.scheduledRefs

namespace Binds

variable {s s₁ s₂ : Scheduler} {occs occs₁ occs₂ : List (Occurrence String VarSource)}

theorem refl (s : Scheduler) : Binds s s [] where
  first prev h := by rwa [append_nil]
  mono _ _ h := h
  fresh _ _ h := .inl h
  available v := by tauto
  kinds h := h
  steps := rfl
  refs := rfl
  generators := rfl
  exposure := rfl
  immediateFilters := rfl
  pendingFilters := rfl
  scheduledRefs := rfl

variable {v : String}

/-- The scope only grows. -/
theorem mem_mono (h : Binds s s₁ occs) (hv : v ∈ s.plan.scope) : v ∈ s₁.plan.scope := by
  obtain ⟨source, hs⟩ := mem_iff_lookup.mp hv
  exact mem_of_lookup (h.mono v source hs)

theorem trans (h₁ : Binds s s₁ occs₁) (h₂ : Binds s₁ s₂ occs₂) : Binds s s₂ (occs₁ ++ occs₂) where
  first prev h := by
    rw [← append_assoc]
    exact h₂.first _ (h₁.first prev h)
  mono v source h := h₂.mono v source (h₁.mono v source h)
  fresh v source h := by
    rcases h₂.fresh v source h with h | h
    · rcases h₁.fresh v source h with h | h
      · exact .inl h
      · exact .inr (mem_append_left _ h)
    · exact .inr (mem_append_right _ h)
  available v := by
    -- a variable that is new over both is new over one of them, as the scope only grows
    have hm₁ := h₁.mem_mono (v := v)
    have hm₂ := h₂.mem_mono (v := v)
    rw [h₂.available, h₁.available]
    tauto
  kinds h := h₂.kinds (h₁.kinds h)
  steps := h₂.steps.trans h₁.steps
  refs := h₂.refs.trans h₁.refs
  generators := h₂.generators.trans h₁.generators
  exposure := h₂.exposure.trans h₁.exposure
  immediateFilters := h₂.immediateFilters.trans h₁.immediateFilters
  pendingFilters := h₂.pendingFilters.trans h₁.pendingFilters
  scheduledRefs := h₂.scheduledRefs.trans h₁.scheduledRefs

/-- A diagnostic changes nothing. -/
theorem diagnose (s : Scheduler) (diagnostic : BindingDiagnostic) :
    Binds s (s.diagnose diagnostic) [] :=
  { refl s with }

/-- A variable in scope was bound before, so this occurrence of it may test. -/
theorem test (hv : v ∈ s.plan.scope) (site : VarSource) (h : Binds s s₁ []) :
    Binds s s₁ [⟨v, site, .tests⟩] :=
  { h with
    first := fun prev hprev => by
      obtain ⟨source, hs⟩ := mem_iff_lookup.mp hv
      have hfirst := h.first prev hprev
      rw [append_nil] at hfirst
      exact hfirst.test (h.mono v source hs)
    fresh := fun v source hs => (h.fresh v source hs).imp_right (by simp) }

/-- A variable out of scope has no occurrence yet, so this one is its first. -/
theorem bindVar (hv : v ∉ s.plan.scope) (site : VarSource) (kind : ColumnKind) :
    Binds s (s.bindVar v site kind) [⟨v, site, .binds⟩] where
  first prev h := h.bind (notMem_iff_lookup.mp hv)
    fun a => lookup_insert_eq _ v a site
  mono a source h := by
    rw [Scheduler.bindVar, lookup_insert_eq, if_neg, h]
    rintro rfl
    exact hv (mem_of_lookup h)
  fresh a source h := by
    rcases lookup_insert_cases h with ⟨rfl, rfl⟩ | ⟨-, h⟩
    · exact .inr mem_cons_self
    · exact .inl h
  available a := by
    simp only [Scheduler.bindVar, Finset.mem_insert, AList.mem_insert]
    constructor
    · rintro (rfl | h)
      · exact .inr ⟨.inl rfl, hv⟩
      · exact .inl h
    · rintro (h | ⟨rfl | h, hn⟩)
      · exact .inr h
      · exact .inl rfl
      · exact absurd h hn
  kinds h a ha := by
    simp only [Scheduler.bindVar, AList.mem_insert] at ha ⊢
    exact ha.imp_right (h a)
  steps := rfl
  refs := rfl
  generators := rfl
  exposure := rfl
  immediateFilters := rfl
  pendingFilters := rfl
  scheduledRefs := rfl

end Binds

section Rule

variable (rule : String)

/-- The action follows the scope: a variable in scope is tested, another one is bound here. -/
theorem bindPosition_spec (s : Scheduler) (binding : IsRefBinding) (r pos : Nat)
    (p : PositionBinding) :
    ∃ action s', s.bindPosition rule binding r pos p = (action, s') ∧
      (action = bindAction p.kind ∨ action = testAction p.kind) ∧
      Binds s s' [⟨p.var, .refPosition r pos, action.role⟩] := by
  unfold bindPosition
  by_cases hv : p.var ∈ s.plan.scope
  · rw [if_pos hv]
    refine ⟨_, _, rfl, .inr rfl, ?_⟩
    rw [role_testAction]
    -- a kind other than the one the variable was bound with is reported
    split
    · exact Binds.test hv _ (Binds.diagnose s _)
    · exact Binds.test hv _ (Binds.refl s)
  · rw [if_neg hv]
    refine ⟨_, _, rfl, .inl rfl, ?_⟩
    rw [role_bindAction]
    exact Binds.bindVar hv _ _

/-- Every position of a positive reference is bound or tested, in order. -/
theorem bindPositions_spec (binding : IsRefBinding) (r pos : Nat) (s : Scheduler)
    (ps : List PositionBinding) :
    ∃ ps' s', bindPositions rule binding r pos s ps = (ps', s') ∧
      ps'.map PositionBinding.erase = ps.map PositionBinding.erase ∧
      (∀ p ∈ ps', p.Scheduled) ∧ Binds s s' (positionOccurrences r pos ps') := by
  induction ps generalizing pos s with
  | nil => exact ⟨[], s, rfl, rfl, by simp, Binds.refl s⟩
  | cons p ps ih =>
    obtain ⟨action, s₁, h₁, haction, hbinds₁⟩ := bindPosition_spec rule s binding r pos p
    -- later positions see the variables that this one has bound
    obtain ⟨ps', s₂, h₂, herase, hactions, hbinds₂⟩ := ih (pos + 1) s₁
    refine ⟨{ p with action } :: ps', s₂, ?_, ?_, ?_, hbinds₁.trans hbinds₂⟩
    · simp only [bindPositions, h₁, h₂]
    · rw [map_cons, map_cons, herase]
      rfl
    · rw [forall_mem_cons]
      exact ⟨haction, hactions⟩

end Rule

/-- An output whose variable is in scope is tested under a name of its own. -/
theorem bindOutput_spec (s : Scheduler) (cond : Nat) (o : GeneratorOutput) :
    ∃ o' s', s.bindOutput cond o = (o', s') ∧ o'.erase = o.erase ∧
      Binds s s' [outputOccurrence cond o'] := by
  unfold bindOutput
  by_cases hv : o.var ∈ s.plan.scope
  · rw [if_pos hv]
    exact ⟨_, _, rfl, rfl, Binds.test hv _ (Binds.refl s)⟩
  · rw [if_neg hv]
    exact ⟨_, _, rfl, rfl, Binds.bindVar hv _ _⟩

/-- The outputs of a generator, one after the other. -/
theorem bindOutputs_spec (cond : Nat) (s : Scheduler) (os : List GeneratorOutput) :
    ∃ os' s', bindOutputs cond s os = (os', s') ∧
      os'.map GeneratorOutput.erase = os.map GeneratorOutput.erase ∧
      Binds s s' (os'.map (outputOccurrence cond)) := by
  induction os generalizing s with
  | nil => exact ⟨[], s, rfl, rfl, Binds.refl s⟩
  | cons o os ih =>
    obtain ⟨o', s₁, h₁, herase₁, hbinds₁⟩ := bindOutput_spec s cond o
    obtain ⟨os', s₂, h₂, herase₂, hbinds₂⟩ := ih s₁
    refine ⟨o' :: os', s₂, ?_, ?_, hbinds₁.trans hbinds₂⟩
    · simp only [bindOutputs, h₁, h₂]
    · rw [map_cons, map_cons, herase₁, herase₂]

/-! ## One round -/

/-- A search does not see the change of an element it does not look for. -/
theorem find?_set_of_neg {α : Type} {p : α → Bool} {l : List α} {i : Nat} {x y : α}
    (hy : l[i]? = some y) (hpy : p y = false) (hpx : p x = false) :
    (l.set i x).find? p = l.find? p := by
  induction l generalizing i with
  | nil => rfl
  | cons a l ih =>
    cases i with
    | zero =>
      cases hy
      rw [set_cons_zero, find?_cons_of_neg (by simp [hpx]), find?_cons_of_neg (by simp [hpy])]
    | succ =>
      rw [set_cons_succ, find?_cons, find?_cons, ih hy]

/-- A search by a key that no two elements share finds the element. -/
theorem find?_of_nodup_map {α κ : Type} [DecidableEq κ] {f : α → κ} {l : List α}
    (h : (l.map f).Nodup) {x : α} (hx : x ∈ l) : l.find? (f · = f x) = some x := by
  induction l with
  | nil => cases hx
  | cons a l ih =>
    rw [map_cons, nodup_cons] at h
    rcases mem_cons.mp hx with rfl | hx
    · exact find?_cons_of_pos (by simp)
    · rw [find?_cons_of_neg, ih h.2 hx]
      simpa using fun heq : f a = f x => h.1 (heq ▸ mem_map_of_mem hx)

/-- A generator is found by its condition, which no other generator has. -/
theorem occurrencesOf_generator (plan : ClauseBindingPlan) {g : GeneratorBinding}
    (hnodup : (plan.generators.map (·.conditionIndex)).Nodup) (hg : g ∈ plan.generators) :
    plan.occurrencesOf (.generator g.conditionIndex) =
      g.outputs.map (outputOccurrence g.conditionIndex) := by
  have hfind := find?_of_nodup_map hnodup hg
  unfold ClauseBindingPlan.occurrencesOf
  simp [hfind]

/-- A reference or a generator was scheduled, and with it the filters that became ready. -/
structure Scheduled (s s' : Scheduler) (step : BindingStep) (placed : List (Nat × List String))
    (exposed : List String) : Prop where
  steps : s'.plan.steps = s.plan.steps ++ step :: placed.map fun f => .filter f.1
  pending : s.pendingFilters.Perm (placed ++ s'.pendingFilters)
  ready : ∀ f ∈ placed, f ∈ s.pendingFilters ∧ ∀ n ∈ f.2, n ∈ s'.available
  waiting : ∀ f ∈ s'.pendingFilters, ∃ n ∈ f.2, n ∉ s'.available
  first : ∀ prev, FirstBinds s.plan.scope.lookup prev →
    FirstBinds s'.plan.scope.lookup (prev ++ s'.plan.occurrencesOf step)
  old : ∀ st, st ≠ step → (∀ r, st ≠ .antiJoin r) →
    s'.plan.occurrencesOf st = s.plan.occurrencesOf st
  mono : ∀ v source, s.plan.scope.lookup v = some source → s'.plan.scope.lookup v = some source
  fresh : ∀ v source, s'.plan.scope.lookup v = some source → s.plan.scope.lookup v = some source ∨
    ⟨v, source, .binds⟩ ∈ s'.plan.occurrencesOf step
  available : ∀ v, v ∈ s'.available ↔
    v ∈ s.available ∨ (v ∈ s'.plan.scope ∧ v ∉ s.plan.scope) ∨ v ∈ exposed
  kinds : (∀ v ∈ s.plan.scope, v ∈ s.varKinds) → ∀ v ∈ s'.plan.scope, v ∈ s'.varKinds
  refs : s'.plan.refs.map erase = s.plan.refs.map erase
  positions : ∀ r b, s'.plan.refs[r]? = some b →
    (∀ p ∈ b.positions, p.Scheduled) ∨ step ≠ .ref r ∧ s.plan.refs[r]? = some b
  generators :
    s'.plan.generators.map GeneratorBinding.erase = s.plan.generators.map GeneratorBinding.erase
  exposure : s'.plan.exposure = s.plan.exposure
  immediateFilters : s'.plan.immediateFilters = s.plan.immediateFilters
  scheduledRefs : ∀ r, r ∈ s'.scheduledRefs ↔ step = .ref r ∨ r ∈ s.scheduledRefs

theorem map_set_of_eq {α β : Type} {f : α → β} {l : List α} {i : Nat} {x y : α}
    (hy : l[i]? = some y) (h : f x = f y) : (l.set i x).map f = l.map f := by
  rw [map_set, h]
  refine ext_getElem? fun j => ?_
  by_cases hj : i = j
  · subst hj
    have hlt := (List.getElem?_eq_some_iff.mp hy).1
    rw [getElem?_set_self (by simpa using hlt), getElem?_map, hy, Option.map_some]
  · rw [getElem?_set_ne hj]

/-- The filters that are placed in a round: all they read has become available. -/
def readyFilters (s : Scheduler) : List (Nat × List String) :=
  s.pendingFilters.filter fun f => f.2.all (· ∈ s.available)

variable {s : Scheduler}

theorem of_mem_readyFilters {f : Nat × List String} (hf : f ∈ readyFilters s) :
    f ∈ s.pendingFilters ∧ ∀ n ∈ f.2, n ∈ s.available := by
  rw [readyFilters, mem_filter, all_eq_true] at hf
  exact ⟨hf.1, fun n hn => of_decide_eq_true (hf.2 n hn)⟩

/-- A filter that stays pending waits for a name. -/
theorem placeFilters_waiting {f : Nat × List String} (hf : f ∈ s.placeFilters.pendingFilters) :
    ∃ n ∈ f.2, n ∉ s.available := by
  have hall := (mem_filter.mp hf).2
  simpa [all_eq_true] using hall

/-- A round binds or tests variables, records that in the plan, makes exposed names available
    and places filters. -/
def finishRound (s : Scheduler) (refs : List IsRefBinding) (generators : List GeneratorBinding)
    (exposed : List String) : Scheduler :=
  { s with plan := { s.plan with refs, generators }, available := s.available ∪ exposed.toFinset }

/-- What a round is, from what it does with variables. The two kinds of rounds differ in the list
    they record the result in. -/
theorem scheduled_of_binds {s₁ : Scheduler} {step : BindingStep} {sched : Finset Nat}
    {occs : List (Occurrence String VarSource)} {refs : List IsRefBinding}
    {generators : List GeneratorBinding} {exposed : List String}
    (hbinds : Binds { s.push step with scheduledRefs := sched } s₁ occs)
    (hsched : ∀ r, r ∈ sched ↔ step = .ref r ∨ r ∈ s.scheduledRefs)
    (hocc : (finishRound s₁ refs generators exposed).plan.occurrencesOf step = occs)
    (hold : ∀ st, st ≠ step → (∀ r, st ≠ .antiJoin r) →
      (finishRound s₁ refs generators exposed).plan.occurrencesOf st = s.plan.occurrencesOf st)
    (hrefs : refs.map erase = s.plan.refs.map erase)
    (hpositions : ∀ (r : Nat) (b : IsRefBinding), refs[r]? = some b →
      (∀ p ∈ b.positions, p.Scheduled) ∨ step ≠ .ref r ∧ s.plan.refs[r]? = some b)
    (hgenerators : generators.map GeneratorBinding.erase =
      s.plan.generators.map GeneratorBinding.erase) :
    Scheduled s (finishRound s₁ refs generators exposed).placeFilters step
      (readyFilters (finishRound s₁ refs generators exposed)) exposed := by
  have hpend : (finishRound s₁ refs generators exposed).pendingFilters = s.pendingFilters :=
    hbinds.pendingFilters
  constructor
  case steps =>
    change s₁.plan.steps ++ _ = _
    rw [hbinds.steps]
    exact append_assoc _ _ _
  case pending =>
    rw [← hpend]
    exact (filter_append_perm _ _).symm
  case ready =>
    rw [← hpend]
    exact fun f hf => of_mem_readyFilters hf
  case waiting => exact fun f hf =>
    placeFilters_waiting (s := finishRound s₁ refs generators exposed) hf
  case first =>
    intro prev hprev
    change FirstBinds _ (prev ++ (finishRound s₁ refs generators exposed).plan.occurrencesOf step)
    rw [hocc]
    exact hbinds.first prev hprev
  case old => exact hold
  case mono => exact hbinds.mono
  case fresh =>
    change ∀ v source, _ → _ ∨
      _ ∈ (finishRound s₁ refs generators exposed).plan.occurrencesOf step
    rw [hocc]
    exact hbinds.fresh
  case available =>
    intro v
    change v ∈ s₁.available ∪ _ ↔ _
    rw [Finset.mem_union, hbinds.available, mem_toFinset, or_assoc]
    rfl
  case kinds => exact hbinds.kinds
  case refs => exact hrefs
  case positions => exact hpositions
  case generators => exact hgenerators
  case exposure => exact hbinds.exposure
  case immediateFilters => exact hbinds.immediateFilters
  case scheduledRefs =>
    intro r
    rw [← hsched]
    exact iff_of_eq (congrArg (r ∈ ·) hbinds.scheduledRefs)

/-- A positive reference binds or tests the variables at its positions and exposes columns. -/
theorem scheduled_ref (rule : String) {r : Nat} {b : IsRefBinding} (hb : s.plan.refs[r]? = some b) :
    ∃ placed exposed, Scheduled s (s.scheduleRef rule r) (.ref r) placed exposed ∧
      ∀ n, n ∈ exposed ↔ ∃ e, s.plan.exposure.lookup n = some e ∧
        exposes (insert r s.scheduledRefs) r e := by
  obtain ⟨ps, s₁, h₁, herase, hactions, hbinds⟩ := bindPositions_spec rule b r 0
    { s.push (.ref r) with scheduledRefs := insert r s.scheduledRefs } b.positions
  have hrefs₁ : s₁.plan.refs = s.plan.refs := hbinds.refs
  have hgens₁ : s₁.plan.generators = s.plan.generators := hbinds.generators
  let refs := s.plan.refs.set r { b with positions := ps }
  let exposed := ({ s₁ with plan := { s₁.plan with refs } } : Scheduler).exposedBy r
  -- the round as the generic one, with the reference replaced at its index
  have hresult : s.scheduleRef rule r =
      (finishRound s₁ refs s.plan.generators exposed).placeFilters := by
    unfold scheduleRef
    simp only [hb, h₁]
    simp only [finishRound, refs, exposed, ← hrefs₁, ← hgens₁]
  have hset : refs[r]? = some { b with positions := ps } :=
    List.getElem?_set_self (List.getElem?_eq_some_iff.mp hb).1
  have hne : ∀ r', r' ≠ r → refs[r']? = s.plan.refs[r']? :=
    fun r' hr' => getElem?_set_ne (Ne.symm hr')
  rw [hresult]
  refine ⟨_, exposed, scheduled_of_binds hbinds ?_ ?_ ?_ ?_ ?_ rfl, ?_⟩
  · intro r'
    simp only [Finset.mem_insert, BindingStep.ref.injEq, eq_comm]
  · exact occurrencesOf_ref (finishRound s₁ refs s.plan.generators exposed).plan hset
  · intro st hst hanti
    -- another reference is at another index, and an anti-join is not scheduled yet
    cases st with
    | ref r' =>
      change (refs[r']?).elim [] _ = (s.plan.refs[r']?).elim [] _
      rw [hne r' fun heq => hst (heq ▸ rfl)]
    | generator | filter => rfl
    | antiJoin r' => exact absurd rfl (hanti r')
  · exact map_set_of_eq hb (by simp only [erase, herase])
  · intro r' b' hb'
    by_cases hr' : r' = r
    · subst hr'
      cases hb'.symm.trans hset
      exact .inl hactions
    · refine .inr ⟨?_, hne r' hr' ▸ hb'⟩
      intro heq
      cases heq
      exact hr' rfl
  · intro n
    have hsched : s₁.scheduledRefs = insert r s.scheduledRefs := hbinds.scheduledRefs
    have hexp : s₁.plan.exposure = s.plan.exposure := hbinds.exposure
    simp [exposed, exposedBy, mem_toList, hsched, hexp]

/-- A generator binds or tests its outputs and exposes nothing. -/
theorem scheduled_generator {g : Nat} {b : GeneratorBinding} (hb : s.plan.generators[g]? = some b)
    (hnodup : (s.plan.generators.map (·.conditionIndex)).Nodup) :
    ∃ placed, Scheduled s (s.scheduleGenerator g) (.generator b.conditionIndex) placed [] := by
  obtain ⟨os, s₁, h₁, herase, hbinds⟩ := bindOutputs_spec b.conditionIndex
    { s.push (.generator b.conditionIndex) with scheduledRefs := s.scheduledRefs } b.outputs
  have hrefs₁ : s₁.plan.refs = s.plan.refs := hbinds.refs
  have hgens₁ : s₁.plan.generators = s.plan.generators := hbinds.generators
  let gens := s.plan.generators.set g { b with outputs := os }
  have hresult : s.scheduleGenerator g =
      (finishRound s₁ s.plan.refs gens []).placeFilters := by
    unfold scheduleGenerator
    have h₁' : bindOutputs b.conditionIndex (s.push (.generator b.conditionIndex))
        b.outputs = (os, s₁) := h₁
    simp only [hb, h₁']
    simp only [finishRound, gens, ← hrefs₁, ← hgens₁, toFinset_nil, Finset.union_empty]
  have hcond : gens.map (·.conditionIndex) = s.plan.generators.map (·.conditionIndex) :=
    map_set_of_eq hb rfl
  rw [hresult]
  refine ⟨_, scheduled_of_binds hbinds ?_ ?_ ?_ rfl ?_ ?_⟩
  · intro r
    simp
  · have hmem : ({ b with outputs := os } : GeneratorBinding) ∈ gens :=
      List.mem_of_getElem? (List.getElem?_set_self (List.getElem?_eq_some_iff.mp hb).1)
    exact occurrencesOf_generator (finishRound s₁ s.plan.refs gens []).plan (hcond ▸ hnodup) hmem
  · intro st hst hanti
    cases st with
    | ref => rfl
    | generator cond =>
      change (gens.find? _).elim [] _ = (s.plan.generators.find? _).elim [] _
      have hne : ¬ b.conditionIndex = cond := fun heq => hst (heq ▸ rfl)
      rw [find?_set_of_neg hb (by simpa using hne) (by simpa using hne)]
    | filter => rfl
    | antiJoin r => exact absurd rfl (hanti r)
  · intro r b' hb'
    exact .inr ⟨by simp, hb'⟩
  · exact map_set_of_eq hb (by simp only [GeneratorBinding.erase, herase])

end UniDb.Locy
