import UniDb.Crdt.ORSet
import UniDb.Lib.Run

/-!
# Adds Win over Concurrent Removes

What a replica of a set contains, from the adds and removes that it knows of.

A log keeps every add and every remove with the events that its replica knew at the time,
and each replica has the set of events that it knows. A replica contains an element exactly
if it knows an add of it that no remove and no other add it knows of had observed.

The state of a replica has no tombstones and does not name events. It is related to the log
by two facts: the version vector covers the dot of an add exactly if the replica knows the
add, and the dots that the replica holds are those of the adds it knows that nothing it
knows had observed. Knowing an event means knowing all that the event had observed, so a
replica that does not know an add knows no event that observed it. That is what a merge
relies on when it keeps a dot that the other side has not seen.

## Main definitions

* `Event`: An add or a remove, with what was known when it happened.
* `State`, `step`: Replicas that are created, forked, decoded, changed and merged.
* `Unobserved`: No event of an element that is known had observed an add.
* `Records`: A set is the state of a replica that knows some events.

## Theorems

* `Records.merge`, `Records.addDot`, `Records.remove`: What the operations do to the relation.
* `add_wins`: What a replica contains after any run.
-/

namespace UniDb.Crdts

open Finset AssocMap ORSet Option

namespace AddWins

variable {T : Type}

/-- An add, which made a dot, or a remove, and the events known to its replica before it. -/
structure Event (T : Type) where
  element : T
  dot : Option Dot
  past : Finset Nat

/-- A set and the events that it knows. -/
structure Replica (T : Type) where
  set : ORSet T
  history : Finset Nat

/-- The replicas by their actors, and all events so far. An event is known by its place. -/
structure State (T : Type) where
  replicas : AssocMap String (Replica T)
  log : List (Event T)

def init : State T := ⟨∅, []⟩

inductive Action (T : Type)
  | new (actor : String)
  | fork (source actor : String)
  | decode (source : String) (wire : ORSetWire T) (actor : String)
  | upgrade (wire : ORSetWire T) (actor : String)
  | add (actor : String) (element : T)
  | remove (actor : String) (element : T)
  | merge (actor other : String)

variable [DecidableEq T]

def State.addAt (s : State T) (actor : String) (r : Replica T) (set : ORSet T) (element : T) :
    State T :=
  { replicas := s.replicas.insert actor ⟨set, insert s.log.length r.history⟩
    log := s.log ++ [⟨element, some r.set.nextDot, r.history⟩] }

/-- The add of one live element while a payload of the first format is upgraded. -/
def State.upgradeAt (actor : String) (s : State T) (element : T) : State T :=
  match s.replicas.lookup actor with
  | some r => s.addAt actor r (r.set.addDot element) element
  | none => s

/-- One action. A new replica has an actor that no other has. Decoding takes a payload that a
    replica wrote, or one of the first format, whose live elements count as added by the new
    replica. -/
def step (s : State T) : Action T → Option (State T)
  | .new actor =>
    if actor ∈ s.replicas then none
    else some { s with replicas := s.replicas.insert actor ⟨.new actor, ∅⟩ }
  | .fork source actor =>
    if actor ∈ s.replicas then none
    else (s.replicas.lookup source).map fun r =>
      { s with replicas := s.replicas.insert actor ⟨r.set.fork actor, r.history⟩ }
  | .decode source wire actor =>
    if actor ∈ s.replicas then none
    else (s.replicas.lookup source).bind fun r =>
      if r.set.Writes wire then
        some { s with replicas := s.replicas.insert actor ⟨.ofWire wire actor, r.history⟩ }
      else none
  | .upgrade wire actor =>
    if actor ∈ s.replicas then none
    else if wire.dots.isNone && wire.vv.isNone then
      let live := liveElements (wire.elements.getD ∅) (wire.tombstones.getD [])
      let t := live.foldl (State.upgradeAt actor)
        { s with replicas := s.replicas.insert actor ⟨.new actor, ∅⟩ }
      (t.replicas.lookup actor).map fun r =>
        { t with replicas := t.replicas.insert actor ⟨.ofWire wire actor, r.history⟩ }
    else none
  | .add actor element =>
    (s.replicas.lookup actor).bind fun r =>
      (r.set.add element).map fun set => s.addAt actor r set element
  | .remove actor element =>
    (s.replicas.lookup actor).map fun r =>
      { replicas := s.replicas.insert actor
          ⟨r.set.remove element, insert s.log.length r.history⟩
        log := s.log ++ [⟨element, none, r.history⟩] }
  | .merge actor other =>
    (s.replicas.lookup actor).bind fun r =>
      (s.replicas.lookup other).map fun q =>
        { s with
          replicas := s.replicas.insert actor ⟨r.set.merge q.set, r.history ∪ q.history⟩ }

/-! ### Logs -/

section Logs

variable (log : List (Event T))

/-- Event `i` is an add of `e` that made the dot `d`. -/
def AddedAs (i : Nat) (e : T) (d : Dot) : Prop := ∃ past, log[i]? = some ⟨e, some d, past⟩

/-- Event `i` is an add of `e`. -/
def IsAdd (i : Nat) (e : T) : Prop := ∃ d, AddedAs log i e d

/-- Event `i` is a remove of `e`. -/
def IsRemove (i : Nat) (e : T) : Prop := ∃ past, log[i]? = some ⟨e, none, past⟩

/-- Event `j` had observed event `i`. -/
def Observed (j i : Nat) : Prop := ∃ ev, log[j]? = some ev ∧ i ∈ ev.past

/-- No event of `e` among `H` had observed event `i`. -/
def Unobserved (H : Finset Nat) (e : T) (i : Nat) : Prop :=
  ∀ j ∈ H, ∀ ev : Event T, log[j]? = some ev → ev.element = e → i ∉ ev.past

/-- Events observe earlier events and all that those observed, and each add has a dot of its own. -/
structure LogOk : Prop where
  past_closed : ∀ (k j : Nat) (ev x : Event T), log[k]? = some ev → j ∈ ev.past →
    log[j]? = some x → x.past ⊆ ev.past
  past_lt : ∀ (j : Nat) (ev : Event T), log[j]? = some ev → ∀ i ∈ ev.past, i < j
  dot_inj : ∀ {i j e f d}, AddedAs log i e d → AddedAs log j f d → i = j
  dot_pos : ∀ {i e d}, AddedAs log i e d → 0 < d.2

/-- The set is the state of a replica that knows the events `H`. -/
structure Records (s : ORSet T) (H : Finset Nat) : Prop where
  bound : ∀ i ∈ H, i < log.length
  closed : ∀ j ∈ H, ∀ ev : Event T, log[j]? = some ev → ev.past ⊆ H
  seen : ∀ {i e d}, AddedAs log i e d → (s.Seen d ↔ i ∈ H)
  holds : ∀ e d, s.Holds e d ↔ ∃ i ∈ H, AddedAs log i e d ∧ Unobserved log H e i

end Logs

variable {i : Nat} {log : List (Event T)}

omit [DecidableEq T] in
theorem getElem?_concat {ev x : Event T} :
    (log ++ [ev])[i]? = some x ↔ log[i]? = some x ∨ i = log.length ∧ ev = x := by
  rcases lt_trichotomy i log.length with hi | hi | hi
  · rw [List.getElem?_append_left hi]
    exact ⟨.inl, fun h => h.resolve_right fun h' => hi.ne h'.1⟩
  · subst hi
    simp
  · rw [List.getElem?_eq_none (by simp; omega), List.getElem?_eq_none hi.le]
    simp [hi.ne']

variable {log : List (Event T)} {s t : ORSet T} {H K : Finset Nat}

theorem Records.congr (h : Records log s H) (hsame : t.Same s) : Records log t H where
  bound := h.bound
  closed := h.closed
  seen hadd := (seen_congr hsame _).trans (h.seen hadd)
  holds e d := (holds_congr hsame e d).trans (h.holds e d)

theorem Records.new (hok : LogOk log) (actor : String) : Records log (ORSet.new actor) ∅ where
  bound _ hi := absurd hi (notMem_empty _)
  closed _ hj := absurd hj (notMem_empty _)
  seen hadd := by
    refine iff_of_false ?_ (notMem_empty _)
    exact (hok.dot_pos hadd).not_ge
  holds e d := by
    refine iff_of_false (notMem_empty d) ?_
    rintro ⟨i, hi, -⟩
    exact notMem_empty i hi

omit [DecidableEq T] in
theorem unobserved_union {e : T} :
    Unobserved log (H ∪ K) e i ↔ Unobserved log H e i ∧ Unobserved log K e i := by
  constructor
  · intro h
    exact ⟨fun j hj => h j (mem_union_left _ hj), fun j hj => h j (mem_union_right _ hj)⟩
  · rintro ⟨hH, hK⟩ j hj
    rcases mem_union.mp hj with hj | hj
    · exact hH j hj
    · exact hK j hj

/-- A replica that does not know an event knows none that observed it. -/
theorem Records.unobserved_of_notMem (h : Records log s H) {e : T} (hi : i ∉ H) :
    Unobserved log H e i :=
  fun j hj ev hev _ hpast => hi (h.closed j hj ev hev hpast)

theorem Records.merge (hok : LogOk log) (hs : Records log s H) (ht : Records log t K) :
    Records log (s.merge t) (H ∪ K) where
  bound i hi := by
    rcases mem_union.mp hi with hi | hi
    · exact hs.bound i hi
    · exact ht.bound i hi
  closed j hj ev hev := by
    rcases mem_union.mp hj with hj | hj
    · exact (hs.closed j hj ev hev).trans subset_union_left
    · exact (ht.closed j hj ev hev).trans subset_union_right
  seen hadd := by
    rw [seen_merge, hs.seen hadd, ht.seen hadd, mem_union]
  holds e d := by
    rw [holds_merge]
    constructor
    · rintro (⟨hh, hk⟩ | ⟨hh, -, hseen⟩ | ⟨hk, -, hseen⟩)
      · rcases (hs.holds e d).mp hh with ⟨i, hi, hadd, hun⟩
        rcases (ht.holds e d).mp hk with ⟨j, hj, hadd', hun'⟩
        cases hok.dot_inj hadd hadd'
        exact ⟨i, mem_union_left _ hi, hadd, unobserved_union.mpr ⟨hun, hun'⟩⟩
      · rcases (hs.holds e d).mp hh with ⟨i, hi, hadd, hun⟩
        have hni : i ∉ K := fun h => hseen ((ht.seen hadd).mpr h)
        exact ⟨i, mem_union_left _ hi, hadd,
          unobserved_union.mpr ⟨hun, ht.unobserved_of_notMem hni⟩⟩
      · rcases (ht.holds e d).mp hk with ⟨i, hi, hadd, hun⟩
        have hni : i ∉ H := fun h => hseen ((hs.seen hadd).mpr h)
        exact ⟨i, mem_union_right _ hi, hadd,
          unobserved_union.mpr ⟨hs.unobserved_of_notMem hni, hun⟩⟩
    · rintro ⟨i, hi, hadd, hun⟩
      rcases unobserved_union.mp hun with ⟨hunH, hunK⟩
      -- the dot belongs to this add only, so a replica that holds it knows the add
      have hnot : ∀ {u : ORSet T} {L : Finset Nat}, Records log u L → i ∉ L → ¬ u.Holds e d := by
        intro u L hu hiL hh
        rcases (hu.holds e d).mp hh with ⟨j, hj, hadd', -⟩
        cases hok.dot_inj hadd hadd'
        exact hiL hj
      by_cases hiH : i ∈ H
      · have hh : s.Holds e d := (hs.holds e d).mpr ⟨i, hiH, hadd, hunH⟩
        by_cases hiK : i ∈ K
        · exact .inl ⟨hh, (ht.holds e d).mpr ⟨i, hiK, hadd, hunK⟩⟩
        · exact .inr (.inl ⟨hh, hnot ht hiK, fun h => hiK ((ht.seen hadd).mp h)⟩)
      · have hiK : i ∈ K := (mem_union.mp hi).resolve_left hiH
        exact .inr (.inr ⟨(ht.holds e d).mpr ⟨i, hiK, hadd, hunK⟩, hnot hs hiH,
          fun h => hiH ((hs.seen hadd).mp h)⟩)

/-! ### A new event -/

section

variable {ev : Event T} {e : T}

omit [DecidableEq T] in
theorem addedAs_concat {d : Dot} : AddedAs (log ++ [ev]) i e d ↔
    AddedAs log i e d ∨ i = log.length ∧ ev.element = e ∧ ev.dot = some d := by
  constructor
  · rintro ⟨past, h⟩
    rcases getElem?_concat.mp h with h | ⟨hi, rfl⟩
    · exact .inl ⟨past, h⟩
    · exact .inr ⟨hi, rfl, rfl⟩
  · rintro (⟨past, h⟩ | ⟨hi, he, hd⟩)
    · exact ⟨past, getElem?_concat.mpr (.inl h)⟩
    · refine ⟨ev.past, getElem?_concat.mpr (.inr ⟨hi, ?_⟩)⟩
      rcases ev with ⟨f, o, p⟩
      cases he
      cases hd
      rfl

omit [DecidableEq T] in
theorem AddedAs.lt {d : Dot} (h : AddedAs log i e d) : i < log.length := by
  rcases h with ⟨past, h⟩
  exact (List.getElem?_eq_some_iff.mp h).1

variable (hH : ∀ i ∈ H, i < log.length)

include hH

section

omit [DecidableEq T]

theorem unobserved_concat : Unobserved (log ++ [ev]) H e i ↔ Unobserved log H e i := by
  constructor
  · intro h j hj x hx
    exact h j hj x (getElem?_concat.mpr (.inl hx))
  · intro h j hj x hx
    rcases getElem?_concat.mp hx with hx | ⟨hx, -⟩
    · exact h j hj x hx
    · exact absurd (hH j hj) (hx ▸ lt_irrefl _)

/-- An event leaves earlier adds of its element observed, and other elements alone. -/
theorem unobserved_insert (hpast : ev.past = H) :
    Unobserved (log ++ [ev]) (insert log.length H) e i ↔
      Unobserved log H e i ∧ (ev.element = e → i ∉ H) := by
  have hold : Unobserved (log ++ [ev]) H e i ↔ Unobserved log H e i := unobserved_concat hH
  rw [← hold]
  constructor
  · intro h
    refine ⟨fun j hj => h j (mem_insert_of_mem hj), fun he => ?_⟩
    rw [← hpast]
    exact h log.length (mem_insert_self _ _) ev (getElem?_concat.mpr (.inr ⟨rfl, rfl⟩)) he
  · rintro ⟨hun, hnew⟩ j hj x hx he
    rcases mem_insert.mp hj with rfl | hj
    · rw [List.getElem?_concat_length, some.injEq] at hx
      subst hx
      exact hpast ▸ hnew he
    · exact hun j hj x hx he

theorem closed_insert (hclosed : ∀ j ∈ H, ∀ x : Event T, log[j]? = some x → x.past ⊆ H)
    (hpast : ev.past = H) : ∀ j ∈ insert log.length H, ∀ x : Event T, (log ++ [ev])[j]? = some x →
      x.past ⊆ insert log.length H := by
  intro j hj x hx
  refine Finset.Subset.trans ?_ (subset_insert _ _)
  rcases mem_insert.mp hj with rfl | hj
  · rw [List.getElem?_concat_length, some.injEq] at hx
    exact hx ▸ hpast.le
  · rcases getElem?_concat.mp hx with hx | ⟨hx, -⟩
    · exact hclosed j hj x hx
    · exact absurd (hH j hj) (hx ▸ lt_irrefl _)

end

omit hH

omit [DecidableEq T] in
theorem LogOk.concat (hok : LogOk log) (hpast : ∀ i ∈ ev.past, i < log.length)
    (hclosed : ∀ j ∈ ev.past, ∀ x : Event T, log[j]? = some x → x.past ⊆ ev.past)
    (hdot : ∀ d, ev.dot = some d → 0 < d.2 ∧ ∀ i e, ¬ AddedAs log i e d) :
    LogOk (log ++ [ev]) where
  past_closed k j y x hy hj hx := by
    have hlog : log[j]? = some x := by
      rcases getElem?_concat.mp hx with hx | ⟨hx, -⟩
      · exact hx
      · -- the new event is in no past
        rcases getElem?_concat.mp hy with hy | ⟨-, rfl⟩
        · have hlt := (hok.past_lt k y hy j hj).trans (List.getElem?_eq_some_iff.mp hy).1
          exact absurd hlt (hx ▸ lt_irrefl _)
        · exact absurd (hpast j hj) (hx ▸ lt_irrefl _)
    rcases getElem?_concat.mp hy with hy | ⟨-, rfl⟩
    · exact hok.past_closed k j y x hy hj hlog
    · exact hclosed j hj x hlog
  past_lt j x hx := by
    rcases getElem?_concat.mp hx with hx | ⟨rfl, rfl⟩
    · exact hok.past_lt j x hx
    · exact hpast
  dot_inj hi hj := by
    rcases addedAs_concat.mp hi with hi | ⟨rfl, -, hd⟩ <;>
      rcases addedAs_concat.mp hj with hj | ⟨rfl, -, hd'⟩
    · exact hok.dot_inj hi hj
    · exact absurd hi ((hdot _ hd').2 _ _)
    · exact absurd hj ((hdot _ hd).2 _ _)
    · rfl
  dot_pos hi := by
    rcases addedAs_concat.mp hi with hi | ⟨-, -, hd⟩
    · exact hok.dot_pos hi
    · exact (hdot _ hd).1

/-- An event of another replica. -/
theorem Records.frame (h : Records log s H) (hdot : ∀ d, ev.dot = some d → ¬ s.Seen d) :
    Records (log ++ [ev]) s H where
  bound i hi := by
    rw [List.length_append]
    exact Nat.lt_add_right _ (h.bound i hi)
  closed j hj x hx := by
    rcases getElem?_concat.mp hx with hx | ⟨hx, -⟩
    · exact h.closed j hj x hx
    · exact absurd (h.bound j hj) (hx ▸ lt_irrefl _)
  seen hadd := by
    rcases addedAs_concat.mp hadd with hadd | ⟨hi, -, hd⟩
    · exact h.seen hadd
    · exact iff_of_false (hdot _ hd) fun hi' => absurd (h.bound _ hi') (hi ▸ lt_irrefl _)
  holds e d := by
    rw [h.holds]
    refine exists_congr fun i => and_congr_right fun hi => ?_
    rw [unobserved_concat h.bound, addedAs_concat]
    refine and_congr_left fun _ => ⟨.inl, fun hadd => hadd.resolve_right fun h' => ?_⟩
    exact absurd (h.bound i hi) (h'.1 ▸ lt_irrefl _)

end

theorem Records.bound_insert (h : Records log s H) {ev : Event T} :
    ∀ i ∈ insert log.length H, i < (log ++ [ev]).length := by
  intro i hi
  rw [List.length_append, List.length_singleton]
  rcases mem_insert.mp hi with rfl | hi
  · exact Nat.lt_succ_self _
  · exact Nat.lt_succ_of_lt (h.bound i hi)

theorem Records.addDot (hok : LogOk log) (h : Records log s H) (e : T)
    (hfresh : ∀ i f, ¬ AddedAs log i f s.nextDot) :
    Records (log ++ [⟨e, some s.nextDot, H⟩]) (s.addDot e) (insert log.length H) where
  bound := h.bound_insert
  closed := closed_insert h.bound h.closed rfl
  seen {i f d} hadd := by
    rw [seen_addDot, mem_insert]
    rcases addedAs_concat.mp hadd with hadd | ⟨hi, -, hd⟩
    · have hne : d ≠ s.nextDot := fun hd => hfresh i f (hd ▸ hadd)
      rw [h.seen hadd, or_iff_left hne, or_iff_right hadd.lt.ne]
    · cases hd
      exact iff_of_true (.inr rfl) (.inl hi)
  holds f d := by
    rw [holds_addDot]
    by_cases hf : f = e
    · rw [if_pos hf]
      subst hf
      constructor
      · rintro rfl
        refine ⟨log.length, mem_insert_self _ _,
          addedAs_concat.mpr (.inr ⟨rfl, rfl, rfl⟩), (unobserved_insert h.bound rfl).mpr ⟨?_, ?_⟩⟩
        · intro j hj x hx _ hpast
          exact absurd ((hok.past_lt j x hx _ hpast).trans (h.bound j hj)) (lt_irrefl _)
        · exact fun _ hmem => absurd (h.bound _ hmem) (lt_irrefl _)
      · -- the new add has observed the ones before it
        rintro ⟨i, hi, hadd, hun⟩
        rcases mem_insert.mp hi with rfl | hi
        · rcases addedAs_concat.mp hadd with hadd | ⟨-, -, hd⟩
          · exact absurd hadd.lt (lt_irrefl _)
          · exact (some.inj hd).symm
        · exact absurd hi (((unobserved_insert h.bound rfl).mp hun).2 rfl)
    · rw [if_neg hf, h.holds]
      constructor
      · rintro ⟨i, hi, hadd, hun⟩
        exact ⟨i, mem_insert_of_mem hi, addedAs_concat.mpr (.inl hadd),
          (unobserved_insert h.bound rfl).mpr ⟨hun, fun he => absurd he.symm hf⟩⟩
      · rintro ⟨i, hi, hadd, hun⟩
        rcases addedAs_concat.mp hadd with hadd | ⟨-, he, -⟩
        · refine ⟨i, (mem_insert.mp hi).resolve_left hadd.lt.ne, hadd, ?_⟩
          exact ((unobserved_insert h.bound rfl).mp hun).1
        · exact absurd he.symm hf

theorem Records.remove (h : Records log s H) (e : T) :
    Records (log ++ [⟨e, none, H⟩]) (s.remove e) (insert log.length H) where
  bound := h.bound_insert
  closed := closed_insert h.bound h.closed rfl
  seen {i f d} hadd := by
    rcases addedAs_concat.mp hadd with hadd | ⟨-, -, hd⟩
    · rw [mem_insert, or_iff_right hadd.lt.ne]
      exact h.seen hadd
    · cases hd
  holds f d := by
    rw [holds_remove, h.holds]
    constructor
    · rintro ⟨hf, i, hi, hadd, hun⟩
      exact ⟨i, mem_insert_of_mem hi, addedAs_concat.mpr (.inl hadd),
        (unobserved_insert h.bound rfl).mpr ⟨hun, fun he => absurd he.symm hf⟩⟩
    · rintro ⟨i, hi, hadd, hun⟩
      rcases addedAs_concat.mp hadd with hadd | ⟨-, -, hd⟩
      · have hiH := (mem_insert.mp hi).resolve_left hadd.lt.ne
        rcases (unobserved_insert h.bound rfl).mp hun with ⟨hun, hnew⟩
        exact ⟨fun hf => hnew hf.symm hiH, i, hiH, hadd, hun⟩
      · cases hd

/-! ### Runs -/

/-- The counter of an actor at its own replica, and zero before there is one. -/
def own (s : State T) (actor : String) : Nat :=
  (s.replicas.lookup actor).elim 0 fun r => r.set.vv.count actor

/-- Each replica is in the state that the events it knows lead to, and no replica has seen a
    dot that its actor did not make. -/
structure Inv (s : State T) : Prop where
  log : LogOk s.log
  actor : ∀ a r, s.replicas.lookup a = some r → r.set.actor = a
  records : ∀ a r, s.replicas.lookup a = some r → Records s.log r.set r.history
  le_own : ∀ b r, s.replicas.lookup b = some r → ∀ a, r.set.vv.count a ≤ own s a
  made : ∀ i e d, AddedAs s.log i e d → d.2 ≤ own s d.1

theorem Inv.init : Inv (init : State T) := by
  have hno : ∀ {i e d}, ¬ AddedAs (AddWins.init : State T).log i e d :=
    fun h => absurd h.lt (Nat.not_lt_zero _)
  refine ⟨⟨nofun, nofun, fun h => absurd h hno,
    fun h => absurd h hno⟩, ?_, ?_, ?_, fun _ _ _ h => absurd h hno⟩
  · exact nofun
  · exact nofun
  · exact nofun

variable {a : String} {r : Replica T}

/-- A write to one replica, with the log after it. -/
theorem Inv.write {s : State T} (hs : Inv s) (hlog : LogOk log)
    (hframe : ∀ b q, b ≠ a → s.replicas.lookup b = some q → Records log q.set q.history)
    (hactor : r.set.actor = a) (hrec : Records log r.set r.history)
    (hown : own s a ≤ r.set.vv.count a) (hle : ∀ x, x ≠ a → r.set.vv.count x ≤ own s x)
    (hmade : ∀ i e d, AddedAs log i e d → AddedAs s.log i e d ∨ d.1 = a ∧ d.2 ≤ r.set.vv.count a) :
    Inv ⟨s.replicas.insert a r, log⟩ := by
  have hown' : ∀ x, own ⟨s.replicas.insert a r, log⟩ x =
      if x = a then r.set.vv.count a else own s x := by
    intro x
    unfold own
    rw [lookup_insert_eq]
    split
    · rename_i hx
      rw [hx]
      rfl
    · rfl
  -- no actor makes fewer dots than before
  have hmono : ∀ x, own s x ≤ own ⟨s.replicas.insert a r, log⟩ x := by
    intro x
    rw [hown']
    split
    · rename_i hx
      exact hx ▸ hown
    · exact le_rfl
  -- what holds of the written replica and of the others holds of all
  have hlookup : ∀ {P : String → Replica T → Prop}, P a r →
      (∀ b q, b ≠ a → s.replicas.lookup b = some q → P b q) →
      ∀ b q, (s.replicas.insert a r).lookup b = some q → P b q := by
    intro P hself hother b q hq
    rw [lookup_insert_eq] at hq
    split at hq
    · rename_i hb
      cases hq
      exact hb ▸ hself
    · rename_i hb
      exact hother b q hb hq
  refine ⟨hlog, hlookup hactor fun b q _ => hs.actor b q, hlookup hrec hframe,
    hlookup ?_ fun b q _ hq x => (hs.le_own b q hq x).trans (hmono x), ?_⟩
  · intro x
    rw [hown']
    split
    · rename_i hx
      rw [hx]
    · rename_i hx
      exact hle x hx
  · intro i e d hadd
    rcases hmade i e d hadd with hadd | ⟨hd, hle'⟩
    · exact (hs.made i e d hadd).trans (hmono d.1)
    · rw [hown', if_pos hd]
      exact hle'

theorem Inv.write_same {s : State T} (hs : Inv s) (hactor : r.set.actor = a)
    (hrec : Records s.log r.set r.history) (hown : own s a ≤ r.set.vv.count a)
    (hle : ∀ x, x ≠ a → r.set.vv.count x ≤ own s x) :
    Inv { s with replicas := s.replicas.insert a r } :=
  hs.write hs.log (fun b q _ hq => hs.records b q hq) hactor hrec hown hle
    fun _ _ _ hadd => .inl hadd

omit [DecidableEq T] in
theorem own_of_lookup {s : State T} (hr : s.replicas.lookup a = some r) :
    own s a = r.set.vv.count a := by
  rw [own, hr]
  rfl

omit [DecidableEq T] in
theorem own_of_notMem {s : State T} (ha : a ∉ s.replicas) : own s a = 0 := by
  rw [own, notMem_iff_lookup.mp ha]
  rfl

theorem Inv.nextDot_fresh {s : State T} (hs : Inv s) (hr : s.replicas.lookup a = some r) :
    (∀ i e, ¬ AddedAs s.log i e r.set.nextDot) ∧
      ∀ b q, s.replicas.lookup b = some q → ¬ q.set.Seen r.set.nextDot := by
  have hnext : r.set.nextDot = (a, own s a + 1) := by
    rw [nextDot, hs.actor a r hr, own_of_lookup hr]
  rw [hnext]
  refine ⟨fun i e hadd => ?_, fun b q hq hseen => ?_⟩
  · exact absurd (hs.made i e _ hadd) (Nat.not_succ_le_self _)
  · have hle : own s a + 1 ≤ q.set.vv.count a := hseen
    exact absurd (hle.trans (hs.le_own b q hq a)) (Nat.not_succ_le_self _)

theorem Inv.addAt {s : State T} (hs : Inv s) (hr : s.replicas.lookup a = some r) (e : T) :
    Inv (s.addAt a r (r.set.addDot e) e) := by
  have hactor := hs.actor a r hr
  have hrec := hs.records a r hr
  rcases hs.nextDot_fresh hr with ⟨hfresh, hunseen⟩
  have hcount : ∀ x, (r.set.addDot e).vv.count x =
      if x = a then r.set.vv.count a + 1 else r.set.vv.count x := by
    intro x
    rw [ORSet.addDot, Counters.count_insert, hactor]
  refine hs.write (hs.log.concat hrec.bound hrec.closed ?_) ?_ hactor
    (hrec.addDot hs.log e hfresh) ?_ ?_ ?_
  · rintro d ⟨⟩
    exact ⟨Nat.succ_pos _, hfresh⟩
  · intro b q _ hq
    refine (hs.records b q hq).frame ?_
    rintro d ⟨⟩
    exact hunseen b q hq
  · rw [hcount, if_pos rfl, own_of_lookup hr]
    exact Nat.le_succ _
  · intro x hx
    rw [hcount, if_neg hx]
    exact hs.le_own a r hr x
  · intro i f d hadd
    rcases addedAs_concat.mp hadd with hadd | ⟨-, -, hd⟩
    · exact .inl hadd
    · cases hd
      refine .inr ⟨hactor, ?_⟩
      rw [hcount, if_pos rfl, nextDot, hactor]

theorem Inv.removeAt {s : State T} (hs : Inv s) (hr : s.replicas.lookup a = some r) (e : T) :
    Inv ⟨s.replicas.insert a ⟨r.set.remove e, insert s.log.length r.history⟩,
      s.log ++ [⟨e, none, r.history⟩]⟩ := by
  have hrec := hs.records a r hr
  refine hs.write (hs.log.concat hrec.bound hrec.closed nofun) ?_
    (hs.actor a r hr) (hrec.remove e) (own_of_lookup hr).le (fun x _ => hs.le_own a r hr x) ?_
  · exact fun b q _ hq => (hs.records b q hq).frame nofun
  · intro i f d hadd
    rcases addedAs_concat.mp hadd with hadd | ⟨-, -, hd⟩
    · exact .inl hadd
    · cases hd

theorem Inv.create {s : State T} (hs : Inv s) (ha : a ∉ s.replicas) (hactor : r.set.actor = a)
    (hrec : Records s.log r.set r.history) (hle : ∀ x, r.set.vv.count x ≤ own s x) :
    Inv { s with replicas := s.replicas.insert a r } := by
  refine hs.write_same hactor hrec ?_ fun x _ => hle x
  rw [own_of_notMem ha]
  exact Nat.zero_le _

theorem Inv.new {s : State T} (hs : Inv s) (ha : a ∉ s.replicas) :
    Inv { s with replicas := s.replicas.insert a ⟨.new a, ∅⟩ } :=
  hs.create ha rfl (.new hs.log a) fun _ => Nat.zero_le _

theorem Inv.upgrade {s : State T} (hs : Inv s) (hr : s.replicas.lookup a = some r) (live : List T) :
    Inv (live.foldl (State.upgradeAt a) s) ∧
      ∃ q, (live.foldl (State.upgradeAt a) s).replicas.lookup a = some q ∧
        q.set = live.foldl ORSet.addDot r.set := by
  induction live generalizing s r with
  | nil => exact ⟨hs, r, hr, rfl⟩
  | cons e live ih =>
    have hstep : State.upgradeAt a s e = s.addAt a r (r.set.addDot e) e := by
      rw [State.upgradeAt, hr]
    rw [List.foldl_cons, hstep]
    refine ih (hs.addAt hr e) (r := ⟨r.set.addDot e, insert s.log.length r.history⟩) ?_
    exact (lookup_insert_eq _ _ _ _).trans (if_pos rfl)

theorem Inv.step {s s' : State T} {act : Action T} (hs : Inv s)
    (h : AddWins.step s act = some s') : Inv s' := by
  cases act with simp only [AddWins.step, ite_none_left_eq_some, ite_none_right_eq_some,
    bind_eq_some_iff, map_eq_some_iff, some.injEq] at h
  | new =>
    rcases h with ⟨ha, rfl⟩
    exact hs.new ha
  | fork b =>
    rcases h with ⟨ha, r, hr, rfl⟩
    have hrec := hs.records b r hr
    exact hs.create ha rfl ⟨hrec.bound, hrec.closed, hrec.seen, hrec.holds⟩ (hs.le_own b r hr)
  | decode b wire a =>
    rcases h with ⟨ha, r, hr, hw, rfl⟩
    have hsame := ofWire_same hw a
    refine hs.create ha ?_ ((hs.records b r hr).congr hsame) fun x => ?_
    · unfold ORSet.Writes at hw
      split at hw
      · rename_i hdots hvv _ _
        simp only [ofWire, hdots, hvv]
      · exact hw.elim
    · have hcount : (ofWire wire a).vv.count x = r.set.vv.count x := by
        unfold Counters.count
        rw [hsame.2 x]
      rw [hcount]
      exact hs.le_own b r hr x
  | upgrade wire a =>
    rcases h with ⟨ha, hnone, r, hr, rfl⟩
    rw [Bool.and_eq_true, isNone_iff_eq_none, isNone_iff_eq_none] at hnone
    have hlook : (s.replicas.insert a ⟨.new a, ∅⟩).lookup a = some ⟨.new a, ∅⟩ := by
      rw [lookup_insert_eq, if_pos rfl]
    rcases (hs.new ha).upgrade hlook
      (liveElements (wire.elements.getD ∅) (wire.tombstones.getD [])) with ⟨ht, q, hq, hset⟩
    rw [hr, some.injEq] at hq
    subst hq
    -- the decoded set is the set that the adds lead to
    have hwire : ofWire wire a = r.set := by
      rw [hset, ← upgrade_eq, ofWire, hnone.1, hnone.2]
    rw [hwire]
    exact ht.write_same (ht.actor a r hr) (ht.records a r hr) (own_of_lookup hr).le
      fun x _ => ht.le_own a r hr x
  | add a e =>
    rcases h with ⟨r, hr, set, hadd, rfl⟩
    rw [(add_ok hadd).2]
    exact hs.addAt hr e
  | remove a e =>
    rcases h with ⟨r, hr, rfl⟩
    exact hs.removeAt hr e
  | merge a b =>
    rcases h with ⟨r, hr, q, hq, rfl⟩
    refine hs.write_same (hs.actor a r hr) ((hs.records a r hr).merge hs.log (hs.records b q hq))
      ?_ ?_
    · rw [own_of_lookup hr]
      exact (le_max_left _ _).trans (Counters.count_join _ _ a).ge
    · intro x _
      refine (Counters.count_join _ _ x).trans_le (max_le ?_ ?_)
      · exact hs.le_own a r hr x
      · exact hs.le_own b q hq x

/-! ### What a replica contains -/

theorem Records.contains_iff (h : Records log s H) (e : T) :
    s.contains e = true ↔ ∃ i ∈ H, IsAdd log i e ∧ Unobserved log H e i := by
  rw [ORSet.contains_iff]
  constructor
  · rintro ⟨d, hd⟩
    rcases (h.holds e d).mp hd with ⟨i, hi, hadd, hun⟩
    exact ⟨i, hi, ⟨d, hadd⟩, hun⟩
  · rintro ⟨i, hi, ⟨d, hadd⟩, hun⟩
    exact ⟨d, (h.holds e d).mpr ⟨i, hi, hadd, hun⟩⟩

/-- An add that no remove had observed is followed by adds that none had observed either, up to
    one that nothing had observed. -/
theorem Records.contains_of_add (hok : LogOk log) (h : Records log s H) {e : T} (hi : i ∈ H)
    (hadd : IsAdd log i e) (hrem : ∀ j ∈ H, IsRemove log j e → ¬ Observed log j i) :
    s.contains e = true := by
  induction hn : log.length - i using Nat.strong_induction_on generalizing i with
  | h n ih =>
    by_cases hun : Unobserved log H e i
    · exact (h.contains_iff e).mpr ⟨i, hi, hadd, hun⟩
    · simp only [Unobserved, not_forall, not_not] at hun
      rcases hun with ⟨j, hj, ev, hev, he, hpast⟩
      have hij := hok.past_lt j ev hev i hpast
      have hjlen := h.bound j hj
      -- the event that observed the add is itself an add, later than it
      have hjadd : IsAdd log j e := by
        rcases ev with ⟨f, dot, past⟩
        cases he
        cases dot with
        | none => exact absurd ⟨_, hev, hpast⟩ (hrem j hj ⟨past, hev⟩)
        | some d => exact ⟨d, past, hev⟩
      refine ih (log.length - j) (by omega) hj hjadd ?_ rfl
      rintro k hk hkrem ⟨x, hx, hjx⟩
      exact hrem k hk hkrem ⟨x, hx, hok.past_closed k j x ev hx hjx hev hpast⟩

end AddWins

open AddWins in
/-- After any run a replica contains an element exactly if it knows an add of it that no event
    of that element it knows of had observed. An add that no remove it knows of had observed
    keeps the element present, and merging a replica that knows nothing new changes nothing. -/
theorem add_wins {T : Type} [DecidableEq T] {acts : List (Action T)} {s : State T}
    (h : run step init acts = some s) {a : String} {r : Replica T}
    (hr : s.replicas.lookup a = some r) (e : T) : (r.set.contains e = true ↔
      ∃ i ∈ r.history, IsAdd s.log i e ∧ Unobserved s.log r.history e i) ∧
    (∀ i ∈ r.history, IsAdd s.log i e →
      (∀ j ∈ r.history, IsRemove s.log j e → ¬ Observed s.log j i) → r.set.contains e = true) ∧
    ∀ b q, s.replicas.lookup b = some q → q.history ⊆ r.history →
      (r.set.merge q.set).contains e = r.set.contains e := by
  have hs : Inv s := run_invariant (fun _ _ _ => Inv.step) Inv.init h
  have hrec := hs.records a r hr
  refine ⟨hrec.contains_iff e, fun i hi hadd => hrec.contains_of_add hs.log hi hadd, ?_⟩
  intro b q hq hsub
  have hmerge := hrec.merge hs.log (hs.records b q hq)
  rw [union_eq_left.mpr hsub] at hmerge
  rw [Bool.eq_iff_iff, hmerge.contains_iff, hrec.contains_iff]

open AddWins in
/-- A replica adds an element again while a fork of it removes the element. After they have
    merged the element is there: the second add was not observed by the remove. -/
theorem add_wins_concurrent : ∃ s, run step (init : State String)
      [.new "a", .add "a" "x", .fork "a" "b", .remove "b" "x", .add "a" "x", .merge "a" "b",
        .merge "b" "a"] = some s ∧
    ∃ r, s.replicas.lookup "b" = some r ∧ r.set.contains "x" = true ∧
      ∃ i ∈ r.history, IsAdd s.log i "x" ∧ Unobserved s.log r.history "x" i := by
  have hex : ∀ s, run step (init : State String)
      [.new "a", .add "a" "x", .fork "a" "b", .remove "b" "x", .add "a" "x", .merge "a" "b",
        .merge "b" "a"] = some s → ∀ r, s.replicas.lookup "b" = some r →
      r.set.contains "x" = true →
      ∃ i ∈ r.history, IsAdd s.log i "x" ∧ Unobserved s.log r.history "x" i :=
    fun s hs r hr => (add_wins hs hr "x").1.mp
  refine ⟨_, rfl, _, rfl, ?_, hex _ rfl _ rfl ?_⟩
  · decide +kernel
  · decide +kernel

end UniDb.Crdts
