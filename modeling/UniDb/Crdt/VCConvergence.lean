import UniDb.Crdt.Updates
import UniDb.Lib.Run

/-!
# Convergence of Registers with Vector Clocks

Replicas of a register that set values and merge one another.

Each replica sets values under an actor of its own, so the clock that a set produces is new,
and of two registers of which one is causally newer the merge keeps that one. What is left
are concurrent registers. There the merge takes the value with the larger serialized form
and the join of the clocks, and the join forgets which values were compared. A value that
was already overwritten where it was set can so win against one that it never met, and
replicas that saw the same sets hold different values (`equal_clocks_diverge`).

This needs a set that overwrites a value with one of a smaller serialized form. If there is none,
a register holds the largest of the values that were set within its clock, whatever it was merged
with. That is kept by every merge, and depends on the clock alone.

## Main definitions

* `VCRegister.Action`, `VCRegister.step`: Replicas that set values and merge.
* `VCRegister.Converged`: Equal clocks mean equal values.
* `VCRegister.Grows`: No set lowers the serialized form.
* `VCRegister.Event`, `VCRegister.Top`: The sets so far, and the largest one within a clock.

## Theorems

* `Top.merge`: A merge takes the largest value within the joined clocks.
* `run_history`: All registers of a run are explained by its sets.
* `converged_of_grows`: Replicas converge and merges commute if no set lowers the serialized form.
* `equal_clocks_diverge`: Three replicas that do not converge.
-/

namespace UniDb.Crdts

open Counters VectorClock AssocMap Option Serialize

namespace VCRegister

variable {V : Type}

/-- The replicas, each under the actor that it sets values with. -/
abbrev Replicas (V : Type) := AssocMap String (VCRegister V)

inductive Action (V : Type)
  | create (actor : String) (value : V)
  | copy (actor source : String)
  | set (actor : String) (value : V)
  | merge (actor other : String)

variable [Serialize V]

/-- One action. A new replica has an actor of its own, and is either created with a value or
    is a copy of another one. -/
def step (s : Replicas V) : Action V → Option (Replicas V)
  | .create actor value =>
    if actor ∈ s then none else (VCRegister.new value actor).map fun r => s.insert actor r
  | .copy actor source =>
    if actor ∈ s then none else (s.lookup source).map fun r => s.insert actor r
  | .set actor value =>
    (s.lookup actor).bind fun r => (r.set value actor).map fun r' => s.insert actor r'
  | .merge actor other =>
    (s.lookup actor).bind fun r => (s.lookup other).map fun t => s.insert actor (r.merge t)

/-- Replicas with equal clocks hold the same value. -/
def Converged (s : Replicas V) : Prop :=
  ∀ a b r t, s.lookup a = some r → s.lookup b = some t → r.clock.clocks.Same t.clock.clocks →
    r.value = t.value

/-- The value that a merge of concurrent registers takes. -/
def tieBreak (v w : V) : V := if key v < key w then w else v

/-- A set does not lower the serialized form of the value. -/
def Grows (s : Replicas V) : Action V → Prop
  | .set actor value => ∀ r ∈ s.lookup actor, key r.value ≤ key value
  | _ => True

instance (s : Replicas V) (act : Action V) : Decidable (Grows s act) :=
  match act with
  | .create _ _ | .copy _ _ | .merge _ _ => .isTrue trivial
  | .set _ _ => inferInstanceAs (Decidable (∀ r ∈ _, _))

/-- The value that an action sets. -/
def Action.value? : Action V → Option V
  | .create _ value | .set _ value => some value
  | _ => none

/-- A register of a replica at some time of a run. -/
def Reached (s : Replicas V) (acts : List (Action V)) (r : VCRegister V) : Prop :=
  ∃ pre t a, pre <+: acts ∧ run step s pre = some t ∧ t.lookup a = some r

/-- The same value under the same clock. -/
def Same (r t : VCRegister V) : Prop :=
  r.value = t.value ∧ r.clock.clocks.Same t.clock.clocks

/-! ### What a merge does -/

theorem merge_clock (r t : VCRegister V) : (r.merge t).clock = r.clock.mergeClock t.clock := by
  unfold VCRegister.merge mergeRegister
  split <;> rfl

variable {r t : VCRegister V}

theorem merge_value_of_some {o : Ordering} (h : r.clock.causalCmp t.clock = some o) :
    (r.merge t).value = if o = .lt then t.value else r.value := by
  cases o <;> simp [VCRegister.merge, mergeRegister, h]

theorem merge_value_of_none (h : r.clock.causalCmp t.clock = none) :
    (r.merge t).value = tieBreak r.value t.value := by
  simp only [VCRegister.merge, mergeRegister, h]
  split
  · rename_i hr ht
    have heq : key r.value = key t.value := hr.trans ht.symm
    rw [tieBreak, if_neg heq.not_lt]
  · rfl

theorem causalCmp_cases (c d : VectorClock) :
    (c.causalCmp d = some .lt ∧ ∀ x, c.get x ≤ d.get x) ∨
      (∃ o ≠ .lt, c.causalCmp d = some o ∧ ∀ x, d.get x ≤ c.get x) ∨ c.causalCmp d = none := by
  unfold causalCmp
  split
  · rename_i hsame
    refine .inr (.inl ⟨.eq, by decide, rfl, fun x => ?_⟩)
    unfold VectorClock.get Counters.count
    rw [hsame x]
  · split
    · rename_i hlt
      exact .inl ⟨rfl, ((happenedBefore_iff c d).mp hlt).1⟩
    · split
      · rename_i hgt
        exact .inr (.inl ⟨.gt, by decide, rfl, ((happenedBefore_iff d c).mp hgt).1⟩)
      · exact .inr (.inr rfl)

variable {s : Replicas V} {a : String} {act : Action V}

/-! ### The invariant of the replicas -/

/-- The count that a replica has of its own sets, and zero before there is a replica. -/
def own (s : Replicas V) (actor : String) : Nat :=
  (s.lookup actor).elim 0 fun r => r.clock.get actor

section

omit [Serialize V]

theorem own_insert (s : Replicas V) (a x : String) (r : VCRegister V) :
    VCRegister.own (s.insert a r) x = if x = a then r.clock.get a else VCRegister.own s x := by
  unfold VCRegister.own
  rw [lookup_insert_eq]
  split
  · rename_i hx
    rw [hx]
    rfl
  · rfl

end

/-- What a step writes, with the clock that it gives the replica. -/
inductive StepCase (s : Replicas V) : Action V → String → VCRegister V → Prop
  | create {a v r} : a ∉ s → VCRegister.new v a = some r → StepCase s (.create a v) a r
  | copy {a b r} : a ∉ s → s.lookup b = some r → StepCase s (.copy a b) a r
  | set {a v r r'} : s.lookup a = some r → r.set v a = some r' → StepCase s (.set a v) a r'
  | merge {a b r t} : s.lookup a = some r → s.lookup b = some t →
      StepCase s (.merge a b) a (r.merge t)

theorem step_case {s s' : Replicas V} (h : step s act = some s') :
    ∃ a r, StepCase s act a r ∧ s' = s.insert a r := by
  cases act with simp only [step, ite_none_left_eq_some, bind_eq_some_iff, map_eq_some_iff] at h
  | create a =>
    rcases h with ⟨ha, r, hr, rfl⟩
    exact ⟨a, r, .create ha hr, rfl⟩
  | copy a =>
    rcases h with ⟨ha, r, hr, rfl⟩
    exact ⟨a, r, .copy ha hr, rfl⟩
  | set a =>
    rcases h with ⟨r, hr, r', hr', rfl⟩
    exact ⟨a, r', .set hr hr', rfl⟩
  | merge a =>
    rcases h with ⟨r, hr, t, ht, rfl⟩
    exact ⟨a, r.merge t, .merge hr ht, rfl⟩

section

omit [Serialize V]

theorem own_of_notMem (ha : a ∉ s) : VCRegister.own s a = 0 := by
  rw [VCRegister.own, notMem_iff_lookup.mp ha]
  rfl

theorem own_of_lookup {r : VCRegister V} (hr : s.lookup a = some r) :
    VCRegister.own s a = r.clock.get a := by
  rw [VCRegister.own, hr]
  rfl

/-- A set, and the creation of a register, raise the count of the actor and no other. -/
theorem get_increment {c c' : VectorClock} (h : c.increment a = some c') (x : String) :
    c'.get x = if x = a then c.get a + 1 else c.get x := by
  rcases map_eq_some_iff.mp h with ⟨m, hm, rfl⟩
  exact count_bump hm x

theorem get_eq_of_same {c d : VectorClock} (h : c.clocks.Same d.clocks) (x : String) :
    c.get x = d.get x := by
  unfold VectorClock.get Counters.count
  rw [h x]

end

/-! ### The sets of a run -/

/-- A value that was set, with the count that the actor's clock had from it. -/
structure Event (V : Type) where
  actor : String
  index : Nat
  value : V

/-- The clock has seen the event. -/
def Event.Within (e : Event V) (c : VectorClock) : Prop := e.index ≤ c.get e.actor

/-- The register holds a largest value among the events within its clock. -/
structure Top (log : List (Event V)) (r : VCRegister V) : Prop where
  holds : ∃ e ∈ log, e.Within r.clock ∧ e.value = r.value
  largest : ∀ e ∈ log, e.Within r.clock → key e.value ≤ key r.value

variable {log : List (Event V)}

omit [Serialize V] in
theorem within_merge {e : Event V} {c d : VectorClock} :
    e.Within (c.mergeClock d) ↔ e.Within c ∨ e.Within d := by
  unfold Event.Within
  rw [show (c.mergeClock d).get e.actor = max (c.get e.actor) (d.get e.actor) from
    count_join _ _ _, le_max_iff]

/-- A merge takes the largest value within the joined clocks. -/
theorem Top.merge (hr : Top log r) (ht : Top log t) : Top log (r.merge t) := by
  -- the value is one of the two, and neither is larger
  have hvalue : ((r.merge t).value = r.value ∨ (r.merge t).value = t.value) ∧
      (∀ e ∈ log, e.Within r.clock ∨ e.Within t.clock → key e.value ≤ key (r.merge t).value) := by
    rcases causalCmp_cases r.clock t.clock with ⟨hc, hle⟩ | ⟨_, ho, hc, hge⟩ | hc
    · rw [merge_value_of_some hc, if_pos rfl]
      refine ⟨.inr rfl, fun e he hwithin => ht.largest e he ?_⟩
      exact hwithin.elim (fun h => h.trans (hle _)) id
    · rw [merge_value_of_some hc, if_neg ho]
      refine ⟨.inl rfl, fun e he hwithin => hr.largest e he ?_⟩
      exact hwithin.elim id fun h => h.trans (hge _)
    · rw [merge_value_of_none hc, tieBreak]
      split
      · next hlt =>
        exact ⟨.inr rfl, fun e he hwithin =>
          hwithin.elim (fun h => (hr.largest e he h).trans hlt.le) (ht.largest e he)⟩
      · next hge =>
        exact ⟨.inl rfl, fun e he hwithin =>
          hwithin.elim (hr.largest e he) fun h => (ht.largest e he h).trans (not_lt.mp hge)⟩
  refine ⟨?_, fun e he hwithin => hvalue.2 e he ?_⟩
  · rcases hvalue.1 with heq | heq
    · obtain ⟨e, he, hwithin, hev⟩ := hr.holds
      exact ⟨e, he, merge_clock r t ▸ within_merge.mpr (.inl hwithin), hev.trans heq.symm⟩
    · obtain ⟨e, he, hwithin, hev⟩ := ht.holds
      exact ⟨e, he, merge_clock r t ▸ within_merge.mpr (.inr hwithin), hev.trans heq.symm⟩
  · exact within_merge.mp (merge_clock r t ▸ hwithin)

/-- The clock determines the value, if the serialized form does. -/
theorem Top.value_eq (hr : Top log r) (ht : Top log t)
    (hinj : ∀ e ∈ log, ∀ e' ∈ log, key e.value = key e'.value → e.value = e'.value)
    (hclock : ∀ x, r.clock.get x = t.clock.get x) : r.value = t.value := by
  obtain ⟨e, he, hwithin, hev⟩ := hr.holds
  obtain ⟨e', he', hwithin', hev'⟩ := ht.holds
  have hle : key e.value ≤ key t.value :=
    ht.largest e he (hwithin.trans_eq (hclock _))
  have hge : key e'.value ≤ key r.value :=
    hr.largest e' he' (hwithin'.trans_eq (hclock _).symm)
  rw [← hev'] at hle
  rw [← hev] at hge
  rw [← hev, ← hev']
  exact hinj e he e' he' (le_antisymm hle hge)

/-- The register holds the largest value of its clock, and no actor's count in it is ahead of the
    actor's own. -/
structure Explained (log : List (Event V)) (s : Replicas V) (r : VCRegister V) : Prop where
  top : Top log r
  own : ∀ x, r.clock.get x ≤ VCRegister.own s x

/-- A new event under an actor's next count is within no clock there is. -/
theorem Explained.record (hr : Explained log s r) {n : Nat} {value : V}
    (hn : VCRegister.own s a < n) : Top (⟨a, n, value⟩ :: log) r := by
  obtain ⟨e, he, hwithin, hev⟩ := hr.top.holds
  refine ⟨⟨e, List.mem_cons_of_mem _ he, hwithin, hev⟩, ?_⟩
  refine List.forall_mem_cons.mpr ⟨fun hnew => ?_, hr.top.largest⟩
  exact absurd ((show n ≤ r.clock.get a from hnew).trans (hr.own a)) (not_le.mpr hn)

/-- The events are those of the actors' counts so far, and explain the replicas. -/
structure History (log : List (Event V)) (s : Replicas V) : Prop where
  events : ∀ e ∈ log, 0 < e.index ∧ e.index ≤ VCRegister.own s e.actor
  replicas : ∀ b r, s.lookup b = some r → Explained log s r

/-- A write keeps the history, if the register that is written holds the largest value of its
    clock and the actor's own count does not go down. Registers from before stay explained. -/
theorem History.insert {log' : List (Event V)} {r' : VCRegister V} (hs : History log s)
    (hevents : ∀ e ∈ log', e ∈ log ∨ (0 < e.index ∧ e.index ≤ r'.clock.get a ∧ e.actor = a))
    (hold : ∀ r, Explained log s r → Top log' r) (htop : Top log' r')
    (hown : VCRegister.own s a ≤ r'.clock.get a)
    (hle : ∀ x, x ≠ a → r'.clock.get x ≤ VCRegister.own s x) :
    History log' (s.insert a r') ∧ ∀ r, Explained log s r → Explained log' (s.insert a r') r := by
  have hmono : ∀ x, VCRegister.own s x ≤ VCRegister.own (s.insert a r') x := by
    intro x
    rw [own_insert]
    split
    · rename_i hx
      rw [hx]
      exact hown
    · exact le_rfl
  have hkeep : ∀ r, Explained log s r → Explained log' (s.insert a r') r := fun r hr =>
    ⟨hold r hr, fun x => (hr.own x).trans (hmono x)⟩
  refine ⟨⟨fun e he => ?_, fun b r hr => ?_⟩, hkeep⟩
  · rcases hevents e he with he | ⟨hpos, hindex, rfl⟩
    · exact ⟨(hs.events e he).1, (hs.events e he).2.trans (hmono _)⟩
    · refine ⟨hpos, ?_⟩
      rw [own_insert, if_pos rfl]
      exact hindex
  · rw [lookup_insert_eq] at hr
    split at hr
    · cases hr
      refine ⟨htop, fun x => ?_⟩
      rw [own_insert]
      split
      · rename_i hx
        rw [hx]
      · rename_i hx
        exact hle x hx
    · exact hkeep r (hs.replicas b r hr)

/-- A value that is set under the actor's next count, and is not smaller than what its clock had
    seen, goes into the history. -/
theorem History.record {c c' : VectorClock} {value : V} (hs : History log s)
    (hc : c.increment a = some c') (hcount : c.get a = VCRegister.own s a)
    (hle : ∀ x, x ≠ a → c.get x ≤ VCRegister.own s x)
    (hlargest : ∀ e ∈ log, e.Within c → key e.value ≤ key value) :
    History (⟨a, c'.get a, value⟩ :: log) (s.insert a ⟨value, c'⟩) ∧
      ∀ r, Explained log s r →
        Explained (⟨a, c'.get a, value⟩ :: log) (s.insert a ⟨value, c'⟩) r := by
  have hnext : c'.get a = VCRegister.own s a + 1 := by
    rw [get_increment hc, if_pos rfl, hcount]
  have hother : ∀ x, x ≠ a → c'.get x = c.get x := by
    intro x hx
    rw [get_increment hc, if_neg hx]
  refine hs.insert ?_ (fun r hr => hr.record (hnext ▸ Nat.lt_succ_self _)) ⟨?_, ?_⟩ ?_ ?_
  · refine List.forall_mem_cons.mpr ⟨.inr ⟨?_, le_rfl, rfl⟩, fun e he => .inl he⟩
    rw [hnext]
    exact Nat.succ_pos _
  · exact ⟨_, List.mem_cons_self, le_refl (c'.get a), rfl⟩
  · refine List.forall_mem_cons.mpr ⟨fun _ => le_rfl, fun e he hwithin => hlargest e he ?_⟩
    -- an event of the actor has a count that the old clock had already
    by_cases hactor : e.actor = a
    · have hindex := (hs.events e he).2
      rw [hactor, ← hcount, ← hactor] at hindex
      exact hindex
    · exact (show e.index ≤ c'.get e.actor from hwithin).trans_eq (hother _ hactor)
  · rw [hnext]
    exact Nat.le_succ _
  · intro x hx
    exact (hother x hx).trans_le (hle x hx)

/-- One step records at most one event. -/
theorem step_history {s' : Replicas V} (hs : History log s) (hgrows : Grows s act)
    (h : step s act = some s') : ∃ log', (∀ e ∈ log', e ∈ log ∨ act.value? = some e.value) ∧
      History log' s' ∧ ∀ r, Explained log s r → Explained log' s' r := by
  rcases step_case h with ⟨a, r', hcase, rfl⟩
  have hsame : ∀ e ∈ log, e ∈ log ∨ act.value? = some e.value := fun e he => .inl he
  cases hcase with
  | create ha hr =>
    rcases map_eq_some_iff.mp hr with ⟨c, hc, rfl⟩
    refine ⟨_, ?_, hs.record hc (own_of_notMem ha).symm (fun x _ => Nat.zero_le _) ?_⟩
    · exact List.forall_mem_cons.mpr ⟨.inr rfl, fun e he => .inl he⟩
    · -- no event is within the empty clock
      intro e he hwithin
      exact absurd hwithin (not_le.mpr (hs.events e he).1)
  | copy ha hr =>
    refine ⟨log, hsame, hs.insert (fun e he => .inl he) (fun r hr => hr.top)
      (hs.replicas _ _ hr).top ?_ fun x _ => (hs.replicas _ _ hr).own x⟩
    rw [own_of_notMem ha]
    exact Nat.zero_le _
  | set hr hr' =>
    rcases map_eq_some_iff.mp hr' with ⟨c, hc, rfl⟩
    have hold := hs.replicas _ _ hr
    refine ⟨_, ?_, hs.record hc (own_of_lookup hr).symm (fun x _ => hold.own x) ?_⟩
    · exact List.forall_mem_cons.mpr ⟨.inr rfl, fun e he => .inl he⟩
    · intro e he hwithin
      exact (hold.top.largest e he hwithin).trans (hgrows _ hr)
  | merge hr ht =>
    have hleft := hs.replicas _ _ hr
    have hright := hs.replicas _ _ ht
    refine ⟨log, hsame, hs.insert (fun e he => .inl he) (fun r hr => hr.top)
      (hleft.top.merge hright.top) ?_ fun x _ => ?_⟩
    · rw [merge_clock, own_of_lookup hr]
      exact (le_max_left _ _).trans (count_join _ _ a).ge
    · rw [merge_clock]
      exact (count_join _ _ x).trans_le (max_le (hleft.own x) (hright.own x))

/-- All registers of a run are explained by the values that it sets. -/
theorem run_history {acts : List (Action V)} {s' : Replicas V} (hs : History log s)
    (hgrows : EveryStep step Grows s acts) (h : run step s acts = some s') :
    ∃ log', (∀ e ∈ log', e ∈ log ∨ e.value ∈ acts.filterMap Action.value?) ∧
      (∀ r, Explained log s r → Explained log' s' r) ∧
      ∀ r, Reached s acts r → Explained log' s' r := by
  induction acts generalizing s log with
  | nil =>
    cases h
    refine ⟨log, fun e he => .inl he, fun r hr => hr, ?_⟩
    rintro r ⟨pre, t, a, hpre, ht, hr⟩
    cases List.prefix_nil.mp hpre
    cases ht
    exact hs.replicas a r hr
  | cons act acts ih =>
    obtain ⟨s₁, hs₁, hrest⟩ := run_cons h
    obtain ⟨log₁, hlog₁, hhist₁, hkeep₁⟩ := step_history hs hgrows.1 hs₁
    obtain ⟨log', hlog', hkeep', hreached⟩ := ih hhist₁ (hgrows.2 s₁ hs₁) hrest
    refine ⟨log', fun e he => ?_, fun r hr => hkeep' r (hkeep₁ r hr), ?_⟩
    · rcases hlog' e he with he | he
      · rcases hlog₁ e he with he | he
        · exact .inl he
        · exact .inr (List.mem_filterMap.mpr ⟨act, List.mem_cons_self, he⟩)
      · obtain ⟨act', hact', hvalue⟩ := List.mem_filterMap.mp he
        exact .inr (List.mem_filterMap.mpr ⟨act', List.mem_cons_of_mem _ hact', hvalue⟩)
    · rintro r ⟨pre, t, a, hpre, ht, hr⟩
      cases pre with
      | nil =>
        cases ht
        exact hkeep' r (hkeep₁ r (hs.replicas a r hr))
      | cons act' pre =>
        -- the prefix takes the same first step
        rcases List.cons_prefix_cons.mp hpre with ⟨rfl, hpre'⟩
        simp only [run, hs₁] at ht
        exact hreached r ⟨pre, t, a, hpre', ht, hr⟩

end VCRegister

open VCRegister in
/-- If no set lowers the serialized form and different values have different ones, then replicas
    with equal clocks hold the same value, and merges of any registers of the run commute and
    associate. -/
theorem converged_of_grows {V : Type} [Serialize V] {acts : List (Action V)} {s : Replicas V}
    (h : run step ∅ acts = some s) (hgrows : EveryStep step Grows ∅ acts)
    (hinj : ∀ v ∈ acts.filterMap Action.value?, ∀ w ∈ acts.filterMap Action.value?,
      key v = key w → v = w) :
    Converged s ∧ ∀ r t u, Reached ∅ acts r → Reached ∅ acts t → Reached ∅ acts u →
      VCRegister.Same (r.merge t) (t.merge r) ∧
        VCRegister.Same ((r.merge t).merge u) (r.merge (t.merge u)) := by
  have hstart : History [] (∅ : Replicas V) := ⟨nofun, fun _ _ hr => (by cases hr)⟩
  obtain ⟨log, hlog, -, hreached⟩ := run_history hstart hgrows h
  have hvalues : ∀ e ∈ log, ∀ e' ∈ log, key e.value = key e'.value → e.value = e'.value := by
    intro e he e' he'
    exact hinj _ ((hlog e he).resolve_left List.not_mem_nil) _
      ((hlog e' he').resolve_left List.not_mem_nil)
  have htop : ∀ r, Reached ∅ acts r → Top log r := fun r hr => (hreached r hr).top
  -- two merges that join the same clocks
  have hsame : ∀ {r t}, Top log r → Top log t → r.clock.clocks.Same t.clock.clocks →
      VCRegister.Same r t := fun hr ht hclock =>
    ⟨hr.value_eq ht hvalues (get_eq_of_same hclock), hclock⟩
  refine ⟨fun a b r t hr ht hclock => ?_, fun r t u hr ht hu => ⟨?_, ?_⟩⟩
  · exact (hsame (htop r ⟨acts, s, a, List.prefix_rfl, h, hr⟩)
      (htop t ⟨acts, s, b, List.prefix_rfl, h, ht⟩) hclock).1
  · refine hsame ((htop r hr).merge (htop t ht)) ((htop t ht).merge (htop r hr)) ?_
    rw [merge_clock, merge_clock]
    exact join_comm _ _
  · refine hsame (((htop r hr).merge (htop t ht)).merge (htop u hu))
      ((htop r hr).merge ((htop t ht).merge (htop u hu))) ?_
    rw [merge_clock, merge_clock, merge_clock, merge_clock]
    exact join_assoc _ _ _

/-- Three replicas that set ever larger texts apart and merge. -/
theorem converged_of_grows_three :
    let growing : List (VCRegister.Action Bytes) :=
      [.create "a" [51], .create "b" [53], .copy "c" "a", .merge "c" "b", .set "b" [54],
        .set "a" [52], .merge "a" "b", .merge "c" "b", .merge "c" "a"]
    ∃ s, run VCRegister.step ∅ growing = some s ∧ VCRegister.Converged s ∧
      ∃ ra rc, s.lookup "a" = some ra ∧ s.lookup "c" = some rc ∧
        ra.clock.clocks.Same rc.clock.clocks ∧ ra.value = [54] := by
  intro growing
  have hconv := @converged_of_grows _ _ growing _ rfl (by decide +kernel +zetaReduce)
    (by decide +kernel +zetaReduce)
  exact ⟨_, rfl, hconv.1, _, _, rfl, rfl, by decide +kernel, rfl⟩

/-- `b` sets `5`, which `c` merges with the `3` of `a`, and then sets `1`. Both `a` and `c` merge
    that. Their clocks are equal now, but `c` still holds the `5` that was overwritten. The
    merge of the three registers depends on its order. -/
theorem equal_clocks_diverge :
    (∃ s ra rc, run VCRegister.step ∅ [.create "a" [51], .create "b" [53], .copy "c" "a",
        .merge "c" "b", .set "b" [49], .merge "a" "b", .merge "c" "b"] = some s ∧
      s.lookup "a" = some ra ∧ s.lookup "c" = some rc ∧
      ra.clock.clocks.Same rc.clock.clocks ∧ ra.value = ([51] : Bytes) ∧ rc.value = [53]) ∧
    ∃ a b b' : VCRegister Bytes, VCRegister.new [51] "a" = some a ∧
      VCRegister.new [53] "b" = some b ∧ b.set [49] "b" = some b' ∧
      ((a.merge b).merge b').value = [53] ∧ (a.merge (b.merge b')).value = [51] := by
  refine ⟨⟨_, _, _, rfl, rfl, rfl, ?_, rfl, rfl⟩, _, _, _, rfl, rfl, rfl, rfl, rfl⟩
  decide +kernel

end UniDb.Crdts
