import UniDb.Lib.KeyedFold
import UniDb.Locy.BindingSchedule

/-!
# The Scheduling Loop

What the scheduler keeps while it places references, generators and filters.

The steps that are scheduled and those that are left are the same at every time, so each is
scheduled once. The names that are available are those in scope and the exposed columns whose
references are scheduled. A step only reads available names, and what is available can be
derived from the pattern, the references and the generators; that set does not depend on the
order of the conditions. If every name that is read can be derived, then the loop leaves nothing
over.

## Main definitions

* `BodyDerivable`: The names that references and generators can make available.
* `Started`: The scheduler starts from the conditions of a clause.
* `BodyInv`, `RoundInv`: What the scheduler keeps.

## Theorems

* `BodyInv.schedule`, `RoundInv.schedule`: One round.
* `BodyState.step_cases`, `BodyState.stuck_of_step`: When the loop takes a step and when it stops.
* `RoundInv.step`, `run_inv`: The loop.
* `scheduleBody_inv`: The steps of the body.
* `scheduleBody_ordered`: Steps read what earlier steps provide.
* `derivable_of_visible`: Without a cycle of generators, every visible name can be derived.
-/

namespace UniDb.Locy

open Scheduler ClauseBindingPlan AssocMap Cypher List

/-! ## What the loop keeps -/

def Exposure.owners : Exposure → List Nat
  | .unique r _ => [r]
  | .ambiguous owners => owners

variable {r : Nat}

theorem exposes_iff {sched : Finset Nat} (hr : r ∈ sched) (e : Exposure) :
    exposes sched r e ↔ r ∈ e.owners ∧ ∀ o ∈ e.owners, o ∈ sched := by
  cases e with
  | unique =>
    simp only [exposes, decide_eq_true_eq, Exposure.owners, mem_singleton, forall_eq]
    constructor
    · rintro rfl
      exact ⟨rfl, hr⟩
    · exact fun h => h.1.symm
  | ambiguous =>
    simp [exposes, Exposure.owners]

/-- The variables of the positive references of a clause. -/
def refVariables (clause : CompiledClause) : List String :=
  clause.whereConditions.flatMap fun
    | .isReference isRef => if isRef.negated then [] else isRef.variables
    | _ => []

/-- The names that references and generators can make available, given the exposed ones. -/
def BodyDerivable (clause : CompiledClause) (exposed : String → Prop) : String → Prop :=
  Derivable
    (fun n => n ∈ matchVarKinds clause.matchPattern ∨ n ∈ refVariables clause ∨ exposed n)
    (fun ref : GeneratorRef => .generator ref ∈ clause.whereConditions)
    (fun ref => namesRead ref.args) (·.outputs)

def genStep (generators : List GeneratorBinding) (g : Nat) : BindingStep :=
  .generator ((generators[g]?).elim 0 (·.conditionIndex))

def filterStep (f : Nat × List String) : BindingStep := .filter f.1

/-- The steps that references and generators are to become. -/
def leftSteps (generators : List GeneratorBinding) (refs gens : List Nat) : List BindingStep :=
  refs.map .ref ++ gens.map (genStep generators)

/-- The steps that references, generators and pending filters are to become. -/
def stepsOf (generators : List GeneratorBinding) (refs gens : List Nat)
    (pending : List (Nat × List String)) : List BindingStep :=
  leftSteps generators refs gens ++ pending.map filterStep

/-- The scheduler starts from the conditions of a clause. -/
structure Started (clause : CompiledClause) (s₀ : Scheduler) (positive : List Nat) : Prop where
  nodup : (stepsOf s₀.plan.generators positive (List.range s₀.plan.generators.length)
    s₀.pendingFilters).Nodup
  refs : ∀ r ∈ positive, ∃ b, s₀.plan.refs[r]? = some b ∧
    ∀ p ∈ b.positions, p.var ∈ refVariables clause
  refVariables : ∀ v ∈ refVariables clause, ∃ r ∈ positive, ∃ b, s₀.plan.refs[r]? = some b ∧
    ∃ p ∈ b.positions, p.var = v
  generators : ∀ (g : Nat) (b : GeneratorBinding), s₀.plan.generators[g]? = some b →
    ∃ ref, generatorAt clause b.conditionIndex = some ref ∧ b.outputs.map (·.var) = ref.outputs
  generatorRefs : ∀ ref, .generator ref ∈ clause.whereConditions →
    ∃ (g : Nat) (b : GeneratorBinding), s₀.plan.generators[g]? = some b ∧
      generatorAt clause b.conditionIndex = some ref
  filters : ∀ f ∈ s₀.pendingFilters, f.2 = conditionReads clause f.1
  steps : s₀.plan.steps = []
  scheduledRefs : s₀.scheduledRefs = ∅
  scope : s₀.plan.scope =
    (matchVarKinds clause.matchPattern).filterMapVal fun _ kind => some (.ofMatch kind)
  varKinds : s₀.varKinds = matchVarKinds clause.matchPattern
  available : ∀ n, n ∈ s₀.available ↔ n ∈ matchVarKinds clause.matchPattern
  waiting : ∀ f ∈ s₀.pendingFilters, ∃ n ∈ f.2, n ∉ s₀.available
  owners : ∀ n e, s₀.plan.exposure.lookup n = some e → e.owners ≠ [] ∧ ∀ o ∈ e.owners, o ∈ positive

/-- What every round keeps, also for generators that are left over. -/
structure BodyInv (clause : CompiledClause) (s₀ : Scheduler) (positive : List Nat)
    (b : BodyState) : Prop where
  perm : (b.scheduler.plan.steps ++ stepsOf s₀.plan.generators b.refsLeft b.gensLeft
    b.scheduler.pendingFilters).Perm (stepsOf s₀.plan.generators positive
      (List.range s₀.plan.generators.length) s₀.pendingFilters)
  first : FirstBinds b.scheduler.plan.scope.lookup
    (b.scheduler.plan.occurrences clause.matchPattern)
  kinds : ∀ v ∈ b.scheduler.plan.scope, v ∈ b.scheduler.varKinds
  matched : ∀ v kind, b.scheduler.plan.scope.lookup v = some (.ofMatch kind) ↔
    (matchVarKinds clause.matchPattern).lookup v = some kind
  unaliased : ∀ v source, b.scheduler.plan.scope.lookup v ≠ some (.yieldAlias source)
  refs : b.scheduler.plan.refs.map IsRefBinding.erase = s₀.plan.refs.map IsRefBinding.erase
  positions : ∀ r binding, .ref r ∈ b.scheduler.plan.steps →
    b.scheduler.plan.refs[r]? = some binding → ∀ p ∈ binding.positions, p.Scheduled
  generators : b.scheduler.plan.generators.map GeneratorBinding.erase =
    s₀.plan.generators.map GeneratorBinding.erase
  exposure : b.scheduler.plan.exposure = s₀.plan.exposure
  immediateFilters : b.scheduler.plan.immediateFilters = s₀.plan.immediateFilters
  filters : ∀ f ∈ b.scheduler.pendingFilters, f ∈ s₀.pendingFilters
  gensLeft : ∀ g ∈ b.gensLeft, g < s₀.plan.generators.length

/-- A name that earlier steps bind or expose, or that several references expose. -/
def Reached (plan : ClauseBindingPlan) (pattern : Pattern) (before : List BindingStep)
    (n : String) : Prop :=
  plan.Provided pattern before n ∨ ∃ owners, plan.exposure.lookup n = some (.ambiguous owners)

/-- What the loop keeps: which names are available, and that steps read available names. -/
structure RoundInv (clause : CompiledClause) (s₀ : Scheduler) (positive : List Nat)
    (b : BodyState) : Prop extends BodyInv clause s₀ positive b where
  scheduledRefs : ∀ r, r ∈ b.scheduler.scheduledRefs ↔ .ref r ∈ b.scheduler.plan.steps
  available : ∀ n, n ∈ b.scheduler.available ↔ n ∈ b.scheduler.plan.scope ∨
    ∃ e, s₀.plan.exposure.lookup n = some e ∧
      ∀ o ∈ e.owners, .ref o ∈ b.scheduler.plan.steps
  waiting : ∀ f ∈ b.scheduler.pendingFilters, ∃ n ∈ f.2, n ∉ b.scheduler.available
  ordered : ∀ (i : Nat) (step : BindingStep), b.scheduler.plan.steps[i]? = some step →
    ∀ n ∈ readsOf clause step,
      Reached b.scheduler.plan clause.matchPattern (b.scheduler.plan.steps.take i) n
  derivable : ∀ v ∈ b.scheduler.plan.scope,
    BodyDerivable clause (· ∈ s₀.plan.exposure) v

section Rounds

variable {clause : CompiledClause} {s₀ : Scheduler} {positive : List Nat}

theorem notMem_antiJoin_stepsOf (generators : List GeneratorBinding) (refs gens : List Nat)
    (pending : List (Nat × List String)) (r : Nat) :
    .antiJoin r ∉ stepsOf generators refs gens pending := by
  simp [stepsOf, leftSteps, genStep, filterStep]

variable {plan : ClauseBindingPlan} {o : Occurrence String VarSource}

/-- A step binds at a position or at an output. -/
theorem site_of_mem_occurrencesOf {step : BindingStep} (ho : o ∈ plan.occurrencesOf step) :
    (∃ r pos, o.site = .refPosition r pos) ∨ ∃ cond physical, o.site =
      .generator cond physical := by
  have hpos : ∀ r, o ∈ (plan.refs[r]?).elim [] (fun b => positionOccurrences r 0 b.positions) →
      ∃ r pos, o.site = .refPosition r pos := by
    intro r ho
    cases hb : plan.refs[r]? with rw [hb] at ho
    | none => cases ho
    | some =>
      obtain ⟨p, -, i, rfl⟩ := mem_positionOccurrences ho
      exact ⟨r, i, rfl⟩
  cases step with
  | ref r | antiJoin r => exact .inl (hpos r ho)
  | filter => cases ho
  | generator cond =>
    unfold occurrencesOf at ho
    cases hg : plan.generators.find? (·.conditionIndex = cond) with simp only [hg] at ho
    | none => cases ho
    | some =>
      obtain ⟨out, -, rfl⟩ := mem_map.mp ho
      exact .inr ⟨cond, out.physical, rfl⟩

variable {st : BindingStep}

namespace BodyInv

variable {b : BodyState} {refsLeft gensLeft : List Nat} {s' : Scheduler} {step : BindingStep}
  {placed : List (Nat × List String)} {exposed : List String}

theorem nodup (hst : Started clause s₀ positive) (h : BodyInv clause s₀ positive b) :
    (b.scheduler.plan.steps ++ stepsOf s₀.plan.generators b.refsLeft b.gensLeft
      b.scheduler.pendingFilters).Nodup :=
  h.perm.nodup_iff.mpr hst.nodup

variable (h : BodyInv clause s₀ positive b)

include h

theorem notMem_antiJoin (r : Nat) : .antiJoin r ∉ b.scheduler.plan.steps := fun hr =>
  notMem_antiJoin_stepsOf _ _ _ _ r (h.perm.subset (mem_append_left _ hr))

theorem occurrencesOf_old (hs : Scheduled b.scheduler s' step placed exposed)
    (hstep : step ∉ b.scheduler.plan.steps) (hmem : st ∈ b.scheduler.plan.steps) :
    s'.plan.occurrencesOf st = b.scheduler.plan.occurrencesOf st :=
  hs.old st (fun heq => hstep (heq ▸ hmem)) fun r heq => h.notMem_antiJoin r (heq ▸ hmem)

theorem occurrences_eq (hs : Scheduled b.scheduler s' step placed exposed)
    (hstep : step ∉ b.scheduler.plan.steps) : s'.plan.occurrences clause.matchPattern =
      b.scheduler.plan.occurrences clause.matchPattern ++ s'.plan.occurrencesOf step := by
  have hfilters : (placed.map fun f => BindingStep.filter f.1).flatMap s'.plan.occurrencesOf =
    [] := by
    rw [flatMap_eq_nil_iff]
    intro st hst
    obtain ⟨f, -, rfl⟩ := mem_map.mp hst
    rfl
  have hold : b.scheduler.plan.steps.flatMap s'.plan.occurrencesOf =
      b.scheduler.plan.steps.flatMap b.scheduler.plan.occurrencesOf :=
    flatMap_congr fun st hmem => h.occurrencesOf_old hs hstep hmem
  rw [occurrences, occurrences, hs.steps, flatMap_append,
    flatMap_cons, hfilters, append_nil, hold, append_assoc]

omit h

/-- One round. -/
theorem schedule (hst : Started clause s₀ positive) (h : BodyInv clause s₀ positive b)
    (hs : Scheduled b.scheduler s' step placed exposed)
    (hleft : (leftSteps s₀.plan.generators b.refsLeft b.gensLeft).Perm
      (step :: leftSteps s₀.plan.generators refsLeft gensLeft))
    (hgens : gensLeft ⊆ b.gensLeft) :
    step ∉ b.scheduler.plan.steps ∧ BodyInv clause s₀ positive ⟨refsLeft, gensLeft, s'⟩ := by
  have hstep : step ∉ b.scheduler.plan.steps := by
    intro hmem
    have hnd := h.nodup hst
    rw [nodup_append] at hnd
    exact hnd.2.2 step hmem step
      (mem_append_left _ (hleft.symm.subset mem_cons_self)) rfl
  refine ⟨hstep, ?_⟩
  constructor
  case perm =>
    refine List.Perm.trans ?_ h.perm
    rw [hs.steps, append_assoc]
    refine List.Perm.append_left _ ?_
    have hpend := hs.pending.map filterStep
    rw [map_append] at hpend
    -- the step was left before, and the filters it places were pending
    calc List.Perm
          ((step :: placed.map filterStep) ++ stepsOf s₀.plan.generators refsLeft gensLeft
            s'.pendingFilters)
          (step :: (leftSteps s₀.plan.generators refsLeft gensLeft ++
            (placed.map filterStep ++ s'.pendingFilters.map filterStep))) :=
        (perm_append_comm_assoc _ _ _).cons step
      List.Perm _ ((step :: leftSteps s₀.plan.generators refsLeft gensLeft) ++
            b.scheduler.pendingFilters.map filterStep) :=
        (hpend.symm.append_left _).cons step
      List.Perm _ (stepsOf s₀.plan.generators b.refsLeft b.gensLeft b.scheduler.pendingFilters) :=
        hleft.symm.append_right _
  case first =>
    rw [h.occurrences_eq hs hstep]
    exact hs.first _ h.first
  case kinds => exact hs.kinds h.kinds
  case matched =>
    intro v kind
    rw [← h.matched]
    refine ⟨fun hv => ?_, hs.mono v _⟩
    -- what a step binds is at a position or an output, never in the pattern
    refine (hs.fresh v _ hv).resolve_right fun hmem => ?_
    rcases site_of_mem_occurrencesOf hmem with ⟨r, pos, heq⟩ | ⟨cond, physical, heq⟩ <;> cases heq
  case unaliased =>
    intro v source hv
    rcases hs.fresh v _ hv with hv | hmem
    · exact h.unaliased v source hv
    · rcases site_of_mem_occurrencesOf hmem with ⟨r, pos, heq⟩ | ⟨cond, physical, heq⟩ <;> cases heq
  case refs => exact hs.refs.trans h.refs
  case positions =>
    intro r binding hr hb
    rcases hs.positions r binding hb with hp | ⟨hne, hold⟩
    · exact hp
    · refine h.positions r binding ?_ hold
      rw [hs.steps] at hr
      rcases mem_append.mp hr with hr | hr
      · exact hr
      · rcases mem_cons.mp hr with rfl | hr
        · exact absurd rfl hne
        · simp at hr
  case generators => exact hs.generators.trans h.generators
  case exposure => exact hs.exposure.trans h.exposure
  case immediateFilters => exact hs.immediateFilters.trans h.immediateFilters
  case filters =>
    intro f hf
    exact h.filters f (hs.pending.symm.subset (mem_append_right _ hf))
  case gensLeft => exact fun g hg => h.gensLeft g (hgens hg)

end BodyInv

variable {plan' : ClauseBindingPlan} {n : String}

theorem Reached.mono {pattern : Pattern} {before before' : List BindingStep}
    (h : Reached plan pattern before n) (hexposure : plan'.exposure = plan.exposure)
    (hprovides : ∀ st ∈ before, plan.provides st n → st ∈ before' ∧ plan'.provides st n) :
    Reached plan' pattern before' n := by
  rcases h with (h | ⟨st, hst, hp⟩) | h
  · exact .inl (.inl h)
  · obtain ⟨hmem, hp'⟩ := hprovides st hst hp
    exact .inl (.inr ⟨st, hmem, hp'⟩)
  · exact .inr (hexposure ▸ h)

theorem provides_congr (hocc : plan'.occurrencesOf st = plan.occurrencesOf st)
    (hexposure : plan'.exposure = plan.exposure) (h : plan.provides st n) :
    plan'.provides st n := by
  unfold provides
  rw [hocc, hexposure]
  exact h

variable {cond : Nat}

theorem not_provides_filter : ¬ plan.provides (.filter cond) n := by
  rintro (⟨o, ho, -⟩ | ⟨r, physical, heq, -⟩)
  · cases ho
  · cases heq

/-- A name in scope, or exposed by references that are scheduled, is reached by the steps
    scheduled so far. -/
theorem BodyInv.reached {b : BodyState} (h : BodyInv clause s₀ positive b)
    (hn : n ∈ b.scheduler.plan.scope ∨ ∃ e, s₀.plan.exposure.lookup n = some e ∧
      ∀ o ∈ e.owners, .ref o ∈ b.scheduler.plan.steps) :
    Reached b.scheduler.plan clause.matchPattern b.scheduler.plan.steps n := by
  rcases hn with hscope | ⟨e, he, howners⟩
  · obtain ⟨site, hs⟩ := mem_iff_lookup.mp hscope
    refine .inl ?_
    rcases mem_append.mp (h.first.exists_binds hs) with hmem | hmem
    · obtain ⟨⟨v, kind⟩, he, heq⟩ := mem_map.mp hmem
      cases heq
      exact .inl (mem_of_lookup (mem_toList.mp he))
    · obtain ⟨st, hst, hocc⟩ := mem_flatMap.mp hmem
      exact .inr ⟨st, hst, .inl ⟨_, hocc, rfl, rfl⟩⟩
  · rw [← h.exposure] at he
    cases e with
    | unique r physical =>
      exact .inl (.inr ⟨.ref r, howners r mem_cons_self, .inr ⟨r, physical, rfl, he⟩⟩)
    | ambiguous owners => exact .inr ⟨owners, he⟩

namespace RoundInv

variable {b : BodyState} {refsLeft gensLeft : List Nat} {s' : Scheduler} {step : BindingStep}
  {placed : List (Nat × List String)} {exposed : List String}

theorem derivable_of_available (h : RoundInv clause s₀ positive b) {n : String}
    (hn : n ∈ b.scheduler.available) : BodyDerivable clause (· ∈ s₀.plan.exposure) n := by
  rcases (h.available n).mp hn with hscope | ⟨e, he, -⟩
  · exact h.derivable n hscope
  · exact .base (.inr (.inr (mem_of_lookup he)))

theorem mem_steps (hs : Scheduled b.scheduler s' step placed exposed) (r : Nat) :
    .ref r ∈ s'.plan.steps ↔ .ref r ∈ b.scheduler.plan.steps ∨ step = .ref r := by
  rw [hs.steps]
  simp [eq_comm]

/-- One round whose step reads available names. -/
theorem schedule (hst : Started clause s₀ positive) (h : RoundInv clause s₀ positive b)
    (hs : Scheduled b.scheduler s' step placed exposed)
    (hleft : (leftSteps s₀.plan.generators b.refsLeft b.gensLeft).Perm
      (step :: leftSteps s₀.plan.generators refsLeft gensLeft))
    (hgens : gensLeft ⊆ b.gensLeft)
    (hexposed : ∀ n, n ∈ exposed ↔ ∃ r e, step = .ref r ∧ s₀.plan.exposure.lookup n = some e ∧
      r ∈ e.owners ∧ ∀ o ∈ e.owners, .ref o ∈ b.scheduler.plan.steps ∨ step = .ref o)
    (hreads : ∀ n ∈ readsOf clause step, n ∈ b.scheduler.available)
    (hnames : ∀ o ∈ s'.plan.occurrencesOf step,
      BodyDerivable clause (· ∈ s₀.plan.exposure) o.name) :
    RoundInv clause s₀ positive ⟨refsLeft, gensLeft, s'⟩ := by
  obtain ⟨hstep, hbody⟩ := h.toBodyInv.schedule hst hs hleft hgens
  have hscope : ∀ {v}, v ∈ b.scheduler.plan.scope → v ∈ s'.plan.scope := by
    intro v hv
    obtain ⟨source, hv⟩ := mem_iff_lookup.mp hv
    exact mem_of_lookup (hs.mono v source hv)
  have havailable : ∀ n, n ∈ s'.available ↔ n ∈ s'.plan.scope ∨
      ∃ e, s₀.plan.exposure.lookup n = some e ∧ ∀ o ∈ e.owners, .ref o ∈ s'.plan.steps := by
    intro n
    simp only [mem_steps hs]
    rw [hs.available, h.available, hexposed]
    constructor
    · rintro ((hv | ⟨e, he, howners⟩) | ⟨hv, -⟩ | ⟨r, e, -, he, -, howners⟩)
      · exact .inl (hscope hv)
      · exact .inr ⟨e, he, fun o ho => .inl (howners o ho)⟩
      · exact .inl hv
      · exact .inr ⟨e, he, howners⟩
    · rintro (hv | ⟨e, he, howners⟩)
      · by_cases hold : n ∈ b.scheduler.plan.scope
        · exact .inl (.inl hold)
        · exact .inr (.inl ⟨hv, hold⟩)
      -- either the step is the last owner to be scheduled, or all were scheduled before
      · by_cases hlast : ∃ r ∈ e.owners, step = .ref r
        · obtain ⟨r, hr, hstep⟩ := hlast
          exact .inr (.inr ⟨r, e, hstep, he, hr, howners⟩)
        · refine .inl (.inr ⟨e, he, fun o ho => (howners o ho).resolve_right fun heq => ?_⟩)
          exact hlast ⟨o, ho, heq⟩
  have hprovides : ∀ {n} st, st ∈ b.scheduler.plan.steps → b.scheduler.plan.provides st n →
      s'.plan.provides st n := fun st hmem =>
    provides_congr (h.occurrencesOf_old hs hstep hmem) hs.exposure
  refine { hbody with
    scheduledRefs := ?_
    available := havailable
    waiting := hs.waiting
    ordered := ?_
    derivable := ?_ }
  · intro r
    rw [hs.scheduledRefs, h.scheduledRefs, mem_steps hs, or_comm]
  · intro i st hi n hn
    by_cases hlt : i < b.scheduler.plan.steps.length
    · rw [hs.steps, getElem?_append_left hlt] at hi
      refine (h.ordered i st hi n hn).mono hs.exposure fun st hmem hp => ?_
      rw [hs.steps, take_append_of_le_length hlt.le]
      exact ⟨hmem, hprovides st (mem_of_mem_take hmem) hp⟩
    · have hle := Nat.le_of_not_lt hlt
      -- the new step, or one of the filters placed behind it
      have hsub : b.scheduler.plan.steps ⊆ s'.plan.steps.take i := by
        rw [hs.steps, take_append, take_of_length_le hle]
        exact subset_append_left _ _
      rw [hs.steps, getElem?_append_right hle] at hi
      rcases Nat.exists_eq_add_of_le hle with ⟨j, hj⟩
      rw [hj, Nat.add_sub_cancel_left] at hi
      cases j with
      | zero =>
        cases hi
        refine (h.reached ((h.available n).mp (hreads n hn))).mono hs.exposure
          fun st hmem hp => ⟨hsub hmem, hprovides st hmem hp⟩
      | succ =>
        rw [getElem?_cons_succ] at hi
        obtain ⟨f, hf, rfl⟩ := mem_map.mp (mem_of_getElem? hi)
        obtain ⟨hpend, hready⟩ := hs.ready f hf
        have hn' : n ∈ f.2 := by
          rw [hst.filters f (h.filters f hpend)]
          exact hn
        have hreached := hbody.reached ((havailable n).mp (hready n hn'))
        refine hreached.mono rfl fun st hmem hp => ⟨?_, hp⟩
        -- filters provide nothing, so the name comes from this step or an earlier one
        rw [hs.steps] at hmem
        rcases mem_append.mp hmem with hmem | hmem
        · exact hsub hmem
        · rcases mem_cons.mp hmem with rfl | hmem
          · rw [hs.steps, hj, take_append, Nat.add_sub_cancel_left, take_succ_cons]
            exact mem_append_right _ mem_cons_self
          · obtain ⟨f', -, rfl⟩ := mem_map.mp hmem
            exact absurd hp not_provides_filter
  · intro v hv
    obtain ⟨source, hv⟩ := mem_iff_lookup.mp hv
    rcases hs.fresh v source hv with hv | hmem
    · exact h.derivable v (mem_of_lookup hv)
    · exact hnames _ hmem

end RoundInv

/-! ## The loop -/

variable {i : Nat}

theorem exists_of_map_eq {α β : Type} {f : α → β} {l l' : List α} (h : l.map f = l'.map f)
    {x : α} (hx : l'[i]? = some x) : ∃ y, l[i]? = some y ∧ f y = f x := by
  have hmap : (l.map f)[i]? = some (f x) := by rw [h, getElem?_map, hx, Option.map_some]
  rw [getElem?_map, Option.map_eq_some_iff] at hmap
  exact hmap

theorem perm_cons_eraseIdx {α : Type} {l : List α} {x : α} (hx : l[i]? = some x) :
    l.Perm (x :: l.eraseIdx i) := by
  obtain ⟨hlt, rfl⟩ := List.getElem?_eq_some_iff.mp hx
  exact (getElem_cons_eraseIdx_perm hlt).symm

theorem vars_of_erase {b b' : IsRefBinding} (h : b.erase = b'.erase) :
    b.positions.map (·.var) = b'.positions.map (·.var) := by
  have hpos := congrArg (fun b : IsRefBinding => b.positions.map (·.var)) h
  simpa [IsRefBinding.erase, PositionBinding.erase, Function.comp_def] using hpos

theorem outputs_of_erase {g g' : GeneratorBinding} (h : g.erase = g'.erase) :
    g.outputs.map (·.var) = g'.outputs.map (·.var) := by
  have hout := congrArg (fun g : GeneratorBinding => g.outputs.map (·.var)) h
  simpa [GeneratorBinding.erase, GeneratorOutput.erase, Function.comp_def] using hout

theorem map_genStep_range (generators : List GeneratorBinding) :
    (List.range generators.length).map (genStep generators) =
      generators.map fun g => .generator g.conditionIndex := by
  refine ext_getElem (by simp) fun i h₁ h₂ => ?_
  have hlt : i < generators.length := by simpa using h₂
  simp [genStep, hlt]

namespace Started

theorem nodup_conditions (hst : Started clause s₀ positive) :
    (s₀.plan.generators.map (·.conditionIndex)).Nodup := by
  have hnd := hst.nodup
  rw [stepsOf, leftSteps, nodup_append, nodup_append, map_genStep_range] at hnd
  have hgen := hnd.1.2.1
  rw [show s₀.plan.generators.map (fun g => BindingStep.generator g.conditionIndex) =
    (s₀.plan.generators.map (·.conditionIndex)).map .generator by simp] at hgen
  exact List.Nodup.of_map _ hgen

end Started

variable {ref : GeneratorRef}

theorem reads_of_generatorAt (h : generatorAt clause cond = some ref) :
    conditionReads clause cond = namesRead ref.args := by
  unfold generatorAt at h
  unfold conditionReads
  split at h
  · next ref' heq =>
    cases h
    rw [heq]
  · cases h

theorem mem_of_generatorAt (h : generatorAt clause cond = some ref) :
    .generator ref ∈ clause.whereConditions := by
  unfold generatorAt at h
  split at h
  · next ref' heq =>
    cases h
    exact mem_of_getElem? heq
  · cases h

namespace BodyInv

variable {b : BodyState}

section

variable (h : BodyInv clause s₀ positive b)

include h

theorem mem_positive (hr : .ref r ∈ b.scheduler.plan.steps ∨ r ∈ b.refsLeft) :
    r ∈ positive := by
  have hmem : .ref r ∈ stepsOf s₀.plan.generators positive
      (range s₀.plan.generators.length) s₀.pendingFilters := by
    refine h.perm.subset (mem_append.mpr (hr.imp_right fun hr => ?_))
    exact mem_append_left _ (mem_append_left _ (mem_map_of_mem hr))
  simpa [stepsOf, leftSteps, genStep, filterStep] using hmem

variable (hst : Started clause s₀ positive)

include hst

theorem exists_ref (hr : r ∈ positive) :
    ∃ binding, b.scheduler.plan.refs[r]? = some binding ∧
      ∀ p ∈ binding.positions, p.var ∈ refVariables clause := by
  obtain ⟨b₀, hb₀, hvars⟩ := hst.refs r hr
  obtain ⟨binding, hb, herase⟩ := exists_of_map_eq h.refs hb₀
  refine ⟨binding, hb, fun p hp => ?_⟩
  have hmem : p.var ∈ b₀.positions.map (·.var) := by
    rw [← vars_of_erase herase]
    exact mem_map_of_mem hp
  obtain ⟨p₀, hp₀, heq⟩ := mem_map.mp hmem
  rw [← heq]
  exact hvars p₀ hp₀

theorem exists_generator {g : Nat} (hg : g < s₀.plan.generators.length) :
    ∃ generator ref, b.scheduler.plan.generators[g]? = some generator ∧
      genStep s₀.plan.generators g = .generator generator.conditionIndex ∧
      generatorAt clause generator.conditionIndex = some ref ∧
      generator.outputs.map (·.var) = ref.outputs := by
  obtain ⟨generator, hb, herase⟩ :=
    exists_of_map_eq h.generators (getElem?_eq_getElem hg)
  have hcond : generator.erase.conditionIndex = (s₀.plan.generators[g]).erase.conditionIndex :=
    congrArg GeneratorBinding.conditionIndex herase
  change generator.conditionIndex = (s₀.plan.generators[g]).conditionIndex at hcond
  obtain ⟨ref, href, hout⟩ := hst.generators g _ (getElem?_eq_getElem hg)
  refine ⟨generator, ref, hb, ?_, hcond ▸ href, (outputs_of_erase herase).trans hout⟩
  rw [genStep, getElem?_eq_getElem hg, hcond]
  rfl

theorem exists_generator_of_mem
    (href : .generator ref ∈ clause.whereConditions) : ∃ g < s₀.plan.generators.length, ∃ generator,
      b.scheduler.plan.generators[g]? = some generator ∧
      generatorAt clause generator.conditionIndex = some ref ∧
      generator.outputs.map (·.var) = ref.outputs := by
  obtain ⟨g, b₀, hb₀, hgref⟩ := hst.generatorRefs ref href
  have hlt := (List.getElem?_eq_some_iff.mp hb₀).1
  obtain ⟨generator, ref', hb, hgs, href', hout⟩ := h.exists_generator hst hlt
  have hcond : b₀.conditionIndex = generator.conditionIndex := by
    rw [genStep, hb₀] at hgs
    exact BindingStep.generator.inj hgs
  rw [hcond] at hgref
  cases hgref.symm.trans href'
  exact ⟨g, hlt, generator, hb, href', hout⟩

theorem nodup_conditions : (b.scheduler.plan.generators.map (·.conditionIndex)).Nodup := by
  have hmap := congrArg (map GeneratorBinding.conditionIndex) h.generators
  rw [map_map, map_map] at hmap
  have heq : b.scheduler.plan.generators.map (·.conditionIndex) =
      s₀.plan.generators.map (·.conditionIndex) := hmap
  rw [heq]
  exact hst.nodup_conditions

end

end BodyInv

theorem name_of_mem_ref {binding : IsRefBinding} (hb : plan.refs[r]? = some binding)
    (ho : o ∈ plan.occurrencesOf (.ref r)) : ∃ p ∈ binding.positions, p.var = o.name := by
  rw [occurrencesOf_ref _ hb] at ho
  obtain ⟨p, hp, i, rfl⟩ := mem_positionOccurrences ho
  exact ⟨p, hp, rfl⟩

/-- The outputs of a generator. -/
theorem name_of_mem_generator (ho : o ∈ plan.occurrencesOf (.generator cond)) :
    ∃ g ∈ plan.generators, g.conditionIndex = cond ∧ o.name ∈ g.outputs.map (·.var) := by
  unfold occurrencesOf at ho
  cases hg : plan.generators.find? (·.conditionIndex = cond) with simp only [hg] at ho
  | none => cases ho
  | some g =>
    obtain ⟨out, hout, rfl⟩ := mem_map.mp ho
    exact ⟨g, mem_of_find?_eq_some hg, by simpa using find?_some hg,
      mem_map_of_mem hout⟩

section Step

variable (rule : String) {b : BodyState}

theorem leftSteps_takeRef {r i : Nat} (hr : b.refsLeft[i]? = some r) :
    (leftSteps s₀.plan.generators b.refsLeft b.gensLeft).Perm
      (.ref r :: leftSteps s₀.plan.generators (b.refsLeft.eraseIdx i) b.gensLeft) :=
  ((perm_cons_eraseIdx hr).map BindingStep.ref).append_right _

variable {g : Nat} {b' : BodyState}

theorem BodyState.step_cases (h : b.step rule clause = some b') :
    (∃ r i, b.refsLeft[i]? = some r ∧ b' = b.takeRef rule (r, i)) ∨
      ∃ g i, b.gensLeft[i]? = some g ∧ b.scheduler.generatorReady clause b.refsLeft g ∧
        b' = b.takeGenerator (g, i) := by
  unfold BodyState.step at h
  split at h
  · next e heq =>
    cases h
    refine .inl ⟨e.1, e.2, ?_, rfl⟩
    exact mem_zipIdx_iff_getElem?.mp (mem_of_mem_filter (argmax_mem heq))
  · split at h
    · next e heq =>
      cases h
      have hready := find?_some heq
      refine .inr ⟨e.1, e.2, ?_, hready, rfl⟩
      exact mem_zipIdx_iff_getElem?.mp (mem_of_find?_eq_some heq)
    · obtain ⟨e, heq, rfl⟩ := Option.map_eq_some_iff.mp h
      refine .inl ⟨e.1, e.2, ?_, rfl⟩
      exact mem_zipIdx_iff_getElem?.mp (argmax_mem heq)

/-- The loop stops once every reference is scheduled and no generator is ready. -/
theorem BodyState.stuck_of_step (h : b.step rule clause = none) :
    b.refsLeft = [] ∧ ∀ g ∈ b.gensLeft, b.scheduler.generatorReady clause [] g = false := by
  unfold BodyState.step at h
  split at h
  · cases h
  · split at h
    · cases h
    · next hgen =>
      rw [Option.map_eq_none_iff, BodyState.unanchored, argmax_eq_none, zipIdx_eq_nil_iff] at h
      refine ⟨h, fun g hg => ?_⟩
      obtain ⟨i, hi⟩ := getElem?_of_mem hg
      have hready := find?_eq_none.mp hgen (g, i) (mem_zipIdx_iff_getElem?.mpr hi)
      rw [h] at hready
      simpa using hready

/-- A round takes a reference, or a generator whose arguments are available. -/
theorem RoundInv.step (hst : Started clause s₀ positive) (h : RoundInv clause s₀ positive b)
    (hstep : b.step rule clause = some b') : RoundInv clause s₀ positive b' := by
  rcases BodyState.step_cases rule hstep with ⟨r, i, hr, rfl⟩ | ⟨g, i, hg, hready, rfl⟩
  · have hpos := h.mem_positive (.inr (mem_of_getElem? hr))
    obtain ⟨binding, hb, -⟩ := h.exists_ref hst hpos
    obtain ⟨placed, exposed, hs, hexposed⟩ := scheduled_ref rule hb
    have hbody := (h.toBodyInv.schedule hst hs (leftSteps_takeRef hr) (.refl _)).2
    refine h.schedule hst hs (leftSteps_takeRef hr) (.refl _) ?_ (by simp [readsOf]) ?_
    · intro n
      rw [hexposed, h.exposure]
      constructor
      -- the exposed columns of a name become available with the last of their owners
      · rintro ⟨e, he, hexp⟩
        obtain ⟨hr', howners⟩ := (exposes_iff (Finset.mem_insert_self _ _) e).mp hexp
        refine ⟨r, e, rfl, he, hr', fun o ho => ?_⟩
        rcases Finset.mem_insert.mp (howners o ho) with rfl | ho
        · exact .inr rfl
        · exact .inl ((h.scheduledRefs o).mp ho)
      · rintro ⟨r', e, heq, he, hr', howners⟩
        cases heq
        refine ⟨e, he, (exposes_iff (Finset.mem_insert_self _ _) e).mpr ⟨hr', fun o ho => ?_⟩⟩
        rcases howners o ho with ho | heq
        · exact Finset.mem_insert_of_mem ((h.scheduledRefs o).mpr ho)
        · cases heq
          exact Finset.mem_insert_self _ _
    · intro o ho
      obtain ⟨binding', hb', hvars⟩ := hbody.exists_ref hst hpos
      obtain ⟨p, hp, heq⟩ := name_of_mem_ref hb' ho
      rw [← heq]
      exact .base (.inr (.inl (hvars p hp)))
  · obtain ⟨generator, ref, hb, hgs, href, hout⟩ :=
      h.exists_generator hst (h.gensLeft g (mem_of_getElem? hg))
    obtain ⟨placed, hs⟩ := scheduled_generator hb (h.nodup_conditions hst)
    have hleft : (leftSteps s₀.plan.generators b.refsLeft b.gensLeft).Perm
        (.generator generator.conditionIndex ::
          leftSteps s₀.plan.generators b.refsLeft (b.gensLeft.eraseIdx i)) := by
      rw [← hgs]
      exact (((perm_cons_eraseIdx hg).map (genStep s₀.plan.generators)).append_left _).trans
        perm_middle
    -- the test of the round is on the arguments that the condition reads
    have hargs : ∀ n ∈ namesRead ref.args, n ∈ b.scheduler.available := by
      have hall := (Bool.and_eq_true _ _ ▸ hready).1
      rw [all_eq_true, generatorArgs, generatorRef, hb] at hall
      simp only [Option.bind_some, href, Option.elim_some] at hall
      exact fun n hn => of_decide_eq_true (hall n hn)
    have hbody := (h.toBodyInv.schedule hst hs hleft eraseIdx_subset).2
    refine h.schedule hst hs hleft eraseIdx_subset (by simp) ?_ ?_
    · intro n hn
      rw [readsOf, reads_of_generatorAt href] at hn
      exact hargs n hn
    · intro o ho
      obtain ⟨g', hg', hcond, hname⟩ := name_of_mem_generator ho
      obtain ⟨j, hj⟩ := getElem?_of_mem hg'
      have hlt : j < s₀.plan.generators.length := by
        have hlen := congrArg length hbody.generators
        rw [length_map, List.length_map] at hlen
        exact hlen ▸ (List.getElem?_eq_some_iff.mp hj).1
      obtain ⟨g'', ref', hj', -, href', hout'⟩ := hbody.exists_generator hst hlt
      cases hj.symm.trans hj'
      cases (hcond ▸ href').symm.trans href
      rw [hout'] at hname
      exact .gives (mem_of_generatorAt href) (fun a ha => h.derivable_of_available (hargs a ha))
        hname

/-- Before the first round the scope is that of the pattern. -/
theorem RoundInv.initial (hst : Started clause s₀ positive) :
    RoundInv clause s₀ positive ⟨positive, List.range s₀.plan.generators.length, s₀⟩ := by
  have hlookup : ∀ v, s₀.plan.scope.lookup v =
      ((matchVarKinds clause.matchPattern).lookup v).map VarSource.ofMatch := by
    intro v
    rw [hst.scope, lookup_filterMapVal]
    cases (matchVarKinds clause.matchPattern).lookup v <;> rfl
  have hmem : ∀ v, v ∈ s₀.plan.scope ↔ v ∈ matchVarKinds clause.matchPattern := by
    intro v
    rw [mem_iff_lookup, mem_iff_lookup, hlookup]
    cases (matchVarKinds clause.matchPattern).lookup v <;> simp
  constructor
  constructor
  case perm =>
    rw [hst.steps]
    exact .refl _
  case first =>
    rw [occurrences, hst.steps, flatMap_nil, append_nil]
    refine FirstBinds.of_nodup ?_ ?_ ?_
    · rw [patternOccurrences, map_map]
      exact toList_keys_nodup _
    · intro o ho
      obtain ⟨e, -, rfl⟩ := mem_map.mp ho
      rfl
    · intro v site
      simp only [patternOccurrences, mem_map, Prod.exists, mem_toList,
        Occurrence.mk.injEq, and_true]
      rw [hlookup, Option.map_eq_some_iff]
      constructor
      · rintro ⟨kind, hk, rfl⟩
        exact ⟨v, kind, hk, rfl, rfl⟩
      · rintro ⟨v', kind, hk, rfl, rfl⟩
        exact ⟨kind, hk, rfl⟩
  case kinds =>
    intro v hv
    rw [hst.varKinds]
    exact (hmem v).mp hv
  case matched =>
    intro v kind
    rw [hlookup]
    simp
  case unaliased =>
    intro v source
    rw [hlookup]
    simp
  case refs => rfl
  case positions =>
    intro r binding hr
    rw [hst.steps] at hr
    cases hr
  case generators => rfl
  case exposure => rfl
  case immediateFilters => rfl
  case filters => exact fun f hf => hf
  case gensLeft => exact fun g hg => mem_range.mp hg
  case scheduledRefs =>
    intro r
    rw [hst.scheduledRefs, hst.steps]
    simp
  case available =>
    intro n
    rw [hst.available, hmem]
    refine ⟨.inl, fun h => h.resolve_right ?_⟩
    -- a name is exposed by some reference, and none is scheduled yet
    rintro ⟨e, he, howners⟩
    obtain ⟨o, ho⟩ := exists_mem_of_ne_nil _ (hst.owners n e he).1
    have hin := howners o ho
    rw [hst.steps] at hin
    cases hin
  case waiting => exact hst.waiting
  case ordered =>
    intro i step hi
    rw [hst.steps] at hi
    cases hi
  case derivable => exact fun v hv => .base (.inl ((hmem v).mp hv))

/-- Each round leaves one reference or generator less. -/
theorem length_of_step (h : b.step rule clause = some b') :
    b'.refsLeft.length + b'.gensLeft.length + 1 = b.refsLeft.length + b.gensLeft.length := by
  rcases BodyState.step_cases rule h with ⟨r, i, hr, rfl⟩ | ⟨g, i, hg, -, rfl⟩
  · have hlt := (List.getElem?_eq_some_iff.mp hr).1
    simp only [BodyState.takeRef, length_eraseIdx_of_lt hlt]
    omega
  · have hlt := (List.getElem?_eq_some_iff.mp hg).1
    simp only [BodyState.takeGenerator, length_eraseIdx_of_lt hlt]
    omega

/-- The loop keeps its invariant and stops because nothing is left to do. -/
theorem run_inv (hst : Started clause s₀ positive) {fuel : Nat} (h : RoundInv clause s₀ positive b)
    (hfuel : b.refsLeft.length + b.gensLeft.length ≤ fuel) :
    RoundInv clause s₀ positive (BodyState.run rule clause fuel b) ∧
      (BodyState.run rule clause fuel b).step rule clause = none := by
  induction fuel generalizing b with
  | zero =>
    refine ⟨h, ?_⟩
    cases hstep : b.step rule clause with
    | none => exact hstep
    | some =>
      have hlen := length_of_step rule hstep
      omega
  | succ fuel ih =>
    rw [BodyState.run]
    cases hstep : b.step rule clause with
    | none => exact ⟨h, hstep⟩
    | some =>
      have hlen := length_of_step rule hstep
      exact ih (h.step rule hst hstep) (by omega)

/-! ## The end of the loop -/

/-- The state in which the loop stops. -/
def loopEnd (clause : CompiledClause) (s₀ : Scheduler) (positive : List Nat) : BodyState :=
  BodyState.run rule clause (positive.length + (List.range s₀.plan.generators.length).length)
    ⟨positive, List.range s₀.plan.generators.length, s₀⟩

/-- No reference is left, and no generator that is left is ready. -/
structure Stopped (clause : CompiledClause) (s₀ : Scheduler) (positive : List Nat)
    (b : BodyState) : Prop extends RoundInv clause s₀ positive b where
  refsLeft : b.refsLeft = []
  stuck : ∀ g ∈ b.gensLeft, b.scheduler.generatorReady clause [] g = false

theorem loopEnd_stopped (hst : Started clause s₀ positive) :
    Stopped clause s₀ positive (loopEnd rule clause s₀ positive) := by
  obtain ⟨hinv, hstop⟩ := run_inv rule hst (RoundInv.initial hst) le_rfl
  obtain ⟨hrefs, hstuck⟩ := BodyState.stuck_of_step rule hstop
  exact { hinv with refsLeft := hrefs, stuck := hstuck }

section

variable (h : BodyInv clause s₀ positive b)

include h

theorem BodyInv.ref_mem_steps (hrefs : b.refsLeft = []) (hr : r ∈ positive) :
    .ref r ∈ b.scheduler.plan.steps := by
  have hmem : .ref r ∈ b.scheduler.plan.steps ++ stepsOf s₀.plan.generators b.refsLeft b.gensLeft
      b.scheduler.pendingFilters :=
    h.perm.symm.subset (mem_append_left _ (mem_append_left _ (mem_map_of_mem hr)))
  rw [hrefs] at hmem
  simpa [stepsOf, leftSteps, genStep, filterStep] using hmem

theorem BodyInv.generator_mem_steps (hst : Started clause s₀ positive)
    (hg : g < s₀.plan.generators.length) (hleft : g ∉ b.gensLeft) :
    genStep s₀.plan.generators g ∈ b.scheduler.plan.steps := by
  have hmem : genStep s₀.plan.generators g ∈ b.scheduler.plan.steps ++
      stepsOf s₀.plan.generators b.refsLeft b.gensLeft b.scheduler.pendingFilters :=
    h.perm.symm.subset (mem_append_left _ (mem_append_right _ (mem_map_of_mem (mem_range.mpr hg))))
  refine (mem_append.mp hmem).resolve_right fun hin => ?_
  rcases mem_append.mp hin with hin | hin
  · rcases mem_append.mp hin with hin | hin
    · obtain ⟨r, -, heq⟩ := mem_map.mp hin
      cases heq
    · obtain ⟨g', hg', heq⟩ := mem_map.mp hin
      have hnd := hst.nodup
      rw [stepsOf, leftSteps, nodup_append, nodup_append] at hnd
      have hinj := inj_on_of_nodup_map hnd.1.2.1
        (mem_range.mpr (h.gensLeft g' hg')) (mem_range.mpr hg) heq
      exact hleft (hinj ▸ hg')
  · obtain ⟨f, -, heq⟩ := mem_map.mp hin
    cases heq

theorem BodyInv.mem_scope_of_step (hst : st ∈ b.scheduler.plan.steps)
    {o : Occurrence String VarSource} (ho : o ∈ b.scheduler.plan.occurrencesOf st) :
    o.name ∈ b.scheduler.plan.scope := by
  obtain ⟨site, hs⟩ := h.first.exists_site
    (mem_append_right _ (mem_flatMap.mpr ⟨st, hst, ho⟩))
  exact mem_of_lookup hs

/-- The variables of a scheduled reference are in scope. -/
theorem BodyInv.refVariables_mem_scope (hst : Started clause s₀ positive) (hrefs : b.refsLeft = [])
    {v : String} (hv : v ∈ refVariables clause) : v ∈ b.scheduler.plan.scope := by
  obtain ⟨r, hr, b₀, hb₀, p₀, hp₀, rfl⟩ := hst.refVariables v hv
  obtain ⟨binding, hb, herase⟩ := exists_of_map_eq h.refs hb₀
  have hmem : p₀.var ∈ binding.positions.map (·.var) := by
    rw [vars_of_erase herase]
    exact mem_map_of_mem hp₀
  obtain ⟨p, hp, heq⟩ := mem_map.mp hmem
  obtain ⟨i, hi⟩ := exists_positionOccurrence r 0 hp
  rw [← occurrencesOf_ref _ hb] at hi
  rw [← heq]
  exact h.mem_scope_of_step (h.ref_mem_steps hrefs hr) hi

theorem BodyInv.outputs_mem_scope (hst : Started clause s₀ positive)
    (hg : g < s₀.plan.generators.length) (hleft : g ∉ b.gensLeft) {generator : GeneratorBinding}
    (hb : b.scheduler.plan.generators[g]? = some generator) {v : String}
    (hv : v ∈ generator.outputs.map (·.var)) : v ∈ b.scheduler.plan.scope := by
  obtain ⟨generator', ref, hb', hgs, -, -⟩ := h.exists_generator hst hg
  cases hb.symm.trans hb'
  have hstep := h.generator_mem_steps hst hg hleft
  rw [hgs] at hstep
  obtain ⟨out, hout, rfl⟩ := mem_map.mp hv
  have hocc : outputOccurrence generator.conditionIndex out ∈
      b.scheduler.plan.occurrencesOf (.generator generator.conditionIndex) := by
    rw [occurrencesOf_generator _ (h.nodup_conditions hst) (mem_of_getElem? hb)]
    exact mem_map_of_mem hout
  exact h.mem_scope_of_step hstep hocc

end

variable {s : Scheduler}

/-- A generator that is not ready once every reference is scheduled lacks an argument. -/
theorem exists_missing_arg (h : s.generatorReady clause [] g = false) :
    ∃ n ∈ s.generatorArgs clause g, n ∉ s.available := by
  unfold generatorReady at h
  by_contra hall
  push Not at hall
  have hargs : (s.generatorArgs clause g).all (· ∈ s.available) = true := by
    rw [all_eq_true]
    exact fun n hn => decide_eq_true (hall n hn)
  rw [hargs, Bool.true_and] at h
  cases hb : s.plan.generators[g]? <;> simp [hb] at h

variable {n : String}

section

variable (hst : Started clause s₀ positive) (h : Stopped clause s₀ positive b)

include hst h

/-- Once the loop stops, everything that can be derived is available. -/
theorem available_of_derivable (hn : BodyDerivable clause (· ∈ s₀.plan.exposure) n) :
    n ∈ b.scheduler.available := by
  refine Derivable.mem_of_stuck ?_ ?_ hn
  · rintro v (hv | hv | hv)
    · obtain ⟨kind, hk⟩ := mem_iff_lookup.mp hv
      exact (h.available v).mpr (.inl (mem_of_lookup ((h.matched v kind).mpr hk)))
    · exact (h.available v).mpr (.inl (h.refVariables_mem_scope hst h.refsLeft hv))
    · obtain ⟨e, he⟩ := mem_iff_lookup.mp hv
      exact (h.available v).mpr (.inr ⟨e, he, fun o ho =>
        h.ref_mem_steps h.refsLeft ((hst.owners v e he).2 o ho)⟩)
  · intro ref href hargs v hv
    obtain ⟨g, hlt, generator, hb, hgref, hout⟩ := h.exists_generator_of_mem hst href
    have hleft : g ∉ b.gensLeft := by
      intro hg
      obtain ⟨a, ha, hmissing⟩ := exists_missing_arg (h.stuck g hg)
      rw [generatorArgs, generatorRef, hb] at ha
      simp only [Option.bind_some, hgref, Option.elim_some] at ha
      exact hmissing (hargs a ha)
    exact (h.available v).mpr (.inl (h.outputs_mem_scope hst hlt hleft hb (hout ▸ hv)))

theorem exists_missing_of_left (hg : g ∈ b.gensLeft) :
    ∃ ref, b.scheduler.generatorRef clause g = some ref ∧
      ∃ cond, ∃ n ∈ conditionReads clause cond, n ∈ b.scheduler.generatorArgs clause g ∧
        n ∉ b.scheduler.available := by
  obtain ⟨generator, ref, hb, -, href, -⟩ := h.exists_generator hst (h.gensLeft g hg)
  have href' : b.scheduler.generatorRef clause g = some ref := by
    rw [generatorRef, hb, Option.bind_some, href]
  obtain ⟨n, hn, hmissing⟩ := exists_missing_arg (h.stuck g hg)
  have hread := hn
  rw [generatorArgs, href', Option.elim_some, ← reads_of_generatorAt href] at hread
  exact ⟨ref, href', _, n, hread, hn, hmissing⟩

end

/-! ## The leftovers -/

theorem BodyInv.diagnose (h : BodyInv clause s₀ positive b) (diagnostic : BindingDiagnostic) :
    BodyInv clause s₀ positive { b with scheduler := b.scheduler.diagnose diagnostic } :=
  { h with }

/-- Generators that are left over are scheduled in their order. -/
theorem BodyInv.leftover (hst : Started clause s₀ positive) {gens : List Nat}
    (h : BodyInv clause s₀ positive ⟨[], gens, s⟩) :
    BodyInv clause s₀ positive ⟨[], [], gens.foldl scheduleGenerator s⟩ := by
  induction gens generalizing s with
  | nil => exact h
  | cons g gens ih =>
    obtain ⟨generator, ref, hb, hgs, -, -⟩ :=
      h.exists_generator hst (h.gensLeft g mem_cons_self)
    obtain ⟨placed, hs⟩ := scheduled_generator hb (h.nodup_conditions hst)
    refine ih (h.schedule hst hs ?_ (subset_cons_self g gens)).2
    rw [← hgs]
    exact .refl _

theorem occurrences_placeLeftoverFilters (s : Scheduler) (pattern : Pattern) :
    s.placeLeftoverFilters.plan.occurrences pattern = s.plan.occurrences pattern := by
  have hnil : (s.pendingFilters.map fun f => BindingStep.filter f.1).flatMap
      s.plan.occurrencesOf = [] := by
    rw [flatMap_eq_nil_iff]
    intro st hst
    obtain ⟨f, -, rfl⟩ := mem_map.mp hst
    rfl
  change _ ++ (s.plan.steps ++ _).flatMap s.plan.occurrencesOf = _
  rw [flatMap_append, hnil, append_nil]
  rfl

/-- Filters that are left over come after everything else. -/
theorem BodyInv.placeLeftoverFilters (h : BodyInv clause s₀ positive ⟨[], [], s⟩) :
    BodyInv clause s₀ positive ⟨[], [], s.placeLeftoverFilters⟩ :=
  { h with
    perm := by
      refine List.Perm.trans ?_ h.perm
      change ((s.plan.steps ++ s.pendingFilters.map filterStep) ++ []).Perm _
      rw [append_nil]
      exact .refl _
    first := by
      rw [occurrences_placeLeftoverFilters]
      exact h.first
    positions := by
      intro r binding hr
      refine h.positions r binding ?_
      refine (mem_append.mp hr).resolve_right fun hr => ?_
      obtain ⟨f, -, heq⟩ := mem_map.mp hr
      cases heq
    filters := by
      intro f hf
      cases hf }

theorem scheduleBody_inv (hst : Started clause s₀ positive) :
    BodyInv clause s₀ positive ⟨[], [], s₀.scheduleBody rule clause positive⟩ := by
  have hend := loopEnd_stopped rule hst
  have hbody : BodyInv clause s₀ positive ⟨[], (loopEnd rule clause s₀ positive).gensLeft,
      (loopEnd rule clause s₀ positive).scheduler⟩ := by
    rw [← hend.refsLeft]
    exact hend.toBodyInv
  refine BodyInv.placeLeftoverFilters (BodyInv.leftover hst ?_)
  split
  · exact hbody
  · exact hbody.diagnose _

/-- If every name that is read can be derived, nothing is left over and every step reads what
    earlier steps provide. -/
theorem scheduleBody_ordered (hst : Started clause s₀ positive)
    (hreads : ∀ cond, ∀ n ∈ conditionReads clause cond,
      BodyDerivable clause (· ∈ s₀.plan.exposure) n) {step : BindingStep}
    (hi : (s₀.scheduleBody rule clause positive).plan.steps[i]? = some step)
    (hn : n ∈ readsOf clause step) :
    Reached (s₀.scheduleBody rule clause positive).plan clause.matchPattern
      ((s₀.scheduleBody rule clause positive).plan.steps.take i) n := by
  have hend := loopEnd_stopped rule hst
  have hgens : (loopEnd rule clause s₀ positive).gensLeft = [] := by
    refine eq_nil_iff_forall_not_mem.mpr fun g hg => ?_
    obtain ⟨ref, -, cond, a, ha, -, hmissing⟩ := exists_missing_of_left hst hend hg
    exact hmissing (available_of_derivable hst hend (hreads cond a ha))
  have hpending : (loopEnd rule clause s₀ positive).scheduler.pendingFilters = [] := by
    refine eq_nil_iff_forall_not_mem.mpr fun f hf => ?_
    obtain ⟨a, ha, hmissing⟩ := hend.waiting f hf
    rw [hst.filters f (hend.filters f hf)] at ha
    exact hmissing (available_of_derivable hst hend (hreads _ a ha))
  have hplan : (s₀.scheduleBody rule clause positive).plan =
      (loopEnd rule clause s₀ positive).scheduler.plan := by
    change (((loopEnd rule clause s₀ positive).scheduler.scheduleLeftoverGenerators rule clause
      (loopEnd rule clause s₀ positive).gensLeft).placeLeftoverFilters).plan = _
    rw [hgens]
    simp [scheduleLeftoverGenerators, cyclicGenerators, Scheduler.placeLeftoverFilters, hpending]
  rw [hplan] at hi ⊢
  exact hend.ordered i step hi n hn

/-! ## Visible names -/

/-- The outputs of the generators of a clause. -/
def generatorOutputs (clause : CompiledClause) : List String :=
  clause.whereConditions.flatMap fun
    | .generator ref => ref.outputs
    | _ => []

/-- The variables that the body of a clause binds: those of the pattern, of the positive
    references and of the generators. -/
def bodyVariables (clause : CompiledClause) : List String :=
  (matchVarKinds clause.matchPattern).keys ++ refVariables clause ++ generatorOutputs clause

/-- Once the loop stops, a body variable or a uniquely exposed column is available unless a
    generator that is left over binds it. -/
theorem available_or_left (hst : Started clause s₀ positive) (h : Stopped clause s₀ positive b)
    (hn : n ∈ bodyVariables clause ∨ ∃ r physical, s₀.plan.exposure.lookup n =
      some (.unique r physical)) :
    n ∈ b.scheduler.available ∨ ∃ g ∈ b.gensLeft, ∃ generator,
      b.scheduler.plan.generators[g]? = some generator ∧ n ∈ generator.outputs.map (·.var) := by
  have hbase := fun hbase => available_of_derivable hst h (n := n) (.base hbase)
  rcases hn with hn | ⟨r, physical, hn⟩
  · rw [bodyVariables, mem_append, mem_append] at hn
    rcases hn with (hn | hn) | hn
    · exact .inl (hbase (.inl (AList.mem_keys.mpr hn)))
    · exact .inl (hbase (.inr (.inl hn)))
    · obtain ⟨condition, hcond, hout⟩ := mem_flatMap.mp hn
      cases condition with
      | isReference | expression => cases hout
      | generator =>
        obtain ⟨g, hlt, generator, hb, -, hout'⟩ := h.exists_generator_of_mem hst hcond
        have hv : n ∈ generator.outputs.map (·.var) := hout' ▸ hout
        by_cases hleft : g ∈ b.gensLeft
        · exact .inr ⟨g, hleft, generator, hb, hv⟩
        · exact .inl ((h.available n).mpr (.inl (h.outputs_mem_scope hst hlt hleft hb hv)))
  · exact .inl (hbase (.inr (.inr (mem_of_lookup hn))))

theorem bindOutputs_diagnostics (cond : Nat) (s : Scheduler) (os : List GeneratorOutput) :
    (bindOutputs cond s os).2.plan.diagnostics = s.plan.diagnostics := by
  induction os generalizing s with
  | nil => rfl
  | cons o os ih =>
    change (bindOutputs cond (s.bindOutput cond o).2 os).2.plan.diagnostics = _
    rw [ih, bindOutput]
    split <;> rfl

theorem scheduleGenerator_diagnostics (s : Scheduler) (g : Nat) :
    (s.scheduleGenerator g).plan.diagnostics = s.plan.diagnostics := by
  unfold scheduleGenerator
  split
  · rfl
  · exact bindOutputs_diagnostics _ _ _

theorem pushUnique_ne_nil (diagnostics : List BindingDiagnostic) (d : BindingDiagnostic) :
    pushUnique diagnostics d ≠ [] := by
  unfold pushUnique
  split
  · exact ne_nil_of_mem ‹_›
  · simp

/-- Without diagnostics, no generator waits for another that is left over. -/
theorem cyclicGenerators_eq_nil
    (hquiet : (s₀.scheduleBody rule clause positive).plan.diagnostics = []) :
    (loopEnd rule clause s₀ positive).scheduler.cyclicGenerators clause
      (loopEnd rule clause s₀ positive).gensLeft = [] := by
  by_contra hne
  have hdiag : (s₀.scheduleBody rule clause positive).plan.diagnostics =
      pushUnique (loopEnd rule clause s₀ positive).scheduler.plan.diagnostics (.generatorCycle rule
        ((loopEnd rule clause s₀ positive).scheduler.cyclicGenerators clause
          (loopEnd rule clause s₀ positive).gensLeft)) := by
    change (((loopEnd rule clause s₀ positive).scheduler.scheduleLeftoverGenerators rule clause
      (loopEnd rule clause s₀ positive).gensLeft).placeLeftoverFilters).plan.diagnostics = _
    unfold scheduleLeftoverGenerators
    simp only [if_neg hne, Scheduler.placeLeftoverFilters]
    rw [foldl_eq_of_forall (fun s : Scheduler => s.plan.diagnostics) scheduleGenerator_diagnostics]
    rfl
  exact pushUnique_ne_nil _ _ (hdiag.symm.trans hquiet)

/-- Without diagnostics, what the generators read being visible, no generator is left over. -/
theorem gensLeft_eq_nil (hst : Started clause s₀ positive)
    (hquiet : (s₀.scheduleBody rule clause positive).plan.diagnostics = [])
    (hvisible : ∀ cond, ∀ n ∈ conditionReads clause cond, n ∈ bodyVariables clause ∨
      ∃ r physical, s₀.plan.exposure.lookup n = some (.unique r physical)) :
    (loopEnd rule clause s₀ positive).gensLeft = [] := by
  have hend := loopEnd_stopped rule hst
  refine eq_nil_iff_forall_not_mem.mpr fun g hg => ?_
  obtain ⟨ref, href, cond, n, hread, hn, hmissing⟩ := exists_missing_of_left hst hend hg
  rcases available_or_left hst hend (hvisible cond n hread) with havail | ⟨g', hg', b', hb', hout⟩
  · exact hmissing havail
  -- the missing name is an output of a generator that is left over, so the cycle is reported
  · have hcyclic : ref.name ∈ (loopEnd rule clause s₀ positive).scheduler.cyclicGenerators clause
        (loopEnd rule clause s₀ positive).gensLeft := by
      refine mem_filterMap.mpr ⟨g, mem_filter.mpr ⟨hg, ?_⟩, by rw [href]; rfl⟩
      rw [any_eq_true]
      refine ⟨n, hn, ?_⟩
      rw [Bool.and_eq_true, decide_eq_true_eq, decide_eq_true_eq]
      refine ⟨hmissing, mem_flatMap.mpr ⟨g', hg', ?_⟩⟩
      rw [hb']
      exact hout
    rw [cyclicGenerators_eq_nil rule hquiet] at hcyclic
    cases hcyclic

theorem derivable_of_visible (hst : Started clause s₀ positive)
    (hquiet : (s₀.scheduleBody rule clause positive).plan.diagnostics = [])
    (hvisible : ∀ cond, ∀ n ∈ conditionReads clause cond, n ∈ bodyVariables clause ∨
      ∃ r physical, s₀.plan.exposure.lookup n = some (.unique r physical))
    {cond : Nat} (hn : n ∈ conditionReads clause cond) :
    BodyDerivable clause (· ∈ s₀.plan.exposure) n := by
  have hend := loopEnd_stopped rule hst
  refine hend.derivable_of_available ?_
  refine (available_or_left hst hend (hvisible cond n hn)).resolve_right ?_
  rintro ⟨g, hg, -⟩
  rw [gensLeft_eq_nil rule hst hquiet hvisible] at hg
  cases hg

end Step

end Rounds

end UniDb.Locy
