import UniDb.Fork.Sessions

/-!
# Dropping Forks with Children

When `drop_fork` can remove a fork that has children.

`drop_fork` looks for children first and for holders later. A nested fork is
created through a session on its parent, which holds the parent until the call
returns. So once the fork has been seen without holders no child can appear any
more: nobody can open the fork either, because `drop_fork` has the lock of its
name. Between the two checks nothing stops a session that was open before from
creating a child. The storage of the child keeps the guard of the parent, so the
session on the child has to be closed too, and then the drop goes on and orphans
the child (`drop_orphans_child`).

## Main definitions

* `NoLateChild`: No nested fork is stored while a call that drops its parent is
  between its two checks.
* `Inv`: What holds between the steps of the running calls.
* `Frame`: What a step of one call leaves to the others.

## Theorems

* `Inv.step`: A step keeps the invariant.
* `drop_childless`: No call drops a fork that has children.
-/

namespace UniDb

open AssocMap List

namespace Fork

variable {x : Session}

namespace Uni

/-! ## The invariant -/

variable (s : Uni) (name : String) (id : ForkId)

/-- The fork is registered under the name. -/
def At : Prop :=
  ∃ e, s.handle.cache.lookup name = some e ∧ e.id = id

def NoEntry : Prop := ∀ n e, s.handle.cache.lookup n = some e → e.id ≠ id

def NoChild : Prop :=
  ∀ n e, s.handle.cache.lookup n = some e → e.parentForkId ≠ some id

def NoGuard : Prop := ∀ g ∈ s.guards, g.fork ≠ id

def BuildInv : BuildPhase → Prop
  | .start | .create => True
  | .created id | .rollback id => s.At name id ∧ s.NoGuard id
  | .activated id => s.At name id
  | .discarded id => id ∈ s.ids ∧ s.NoEntry id ∧ s.NoGuard id
  | .found info => s.At name info.id
  | .opened x => x ∈ s.sessions

def DropInv : DropPhase → Prop
  | .start => True
  | .preview info => s.At name info.id ∧ info.name = name
  | .childless info | .entered info =>
    s.At name info.id ∧ info.name = name ∧ s.NoChild info.id
  | .unheld info | .entombed info | .flipped info =>
    s.At name info.id ∧ info.name = name ∧ s.NoChild info.id ∧ s.NoGuard info.id
  | .cleared info => info.id ∈ s.ids ∧ s.NoEntry info.id ∧ s.NoGuard info.id

def CallInv : Call → Prop
  | .build parent _ phase => parent ∈ s.sessions ∧ s.BuildInv name phase
  | .drop phase => s.DropInv name phase

/-- `holders` counts the guards of each fork, and the guard of a live session is there. -/
structure Held (s : Uni) : Prop where
  holders : ∀ id, s.handle.holderCount id = s.guards.countP fun g => g.fork = id
  pinned : ∀ x ∈ s.sessions, ∀ id, x.fork = some id → ⟨x.id, id⟩ ∈ s.guards

/-- No two entries of the registry have an id in common. -/
structure Base (s : Uni) : Prop extends Held s where
  keyed : ∀ n e, s.handle.cache.lookup n = some e → e.name = n
  distinct : ∀ n m e e', s.handle.cache.lookup n = some e → s.handle.cache.lookup m = some e' →
    e.id = e'.id → n = m
  entryIds : ∀ n e, s.handle.cache.lookup n = some e → e.id ∈ s.ids
  guardIds : ∀ g ∈ s.guards, g.fork ∈ s.ids

/-- No other call borrows a session that a call has not returned yet. -/
structure Inv (s : Uni) : Prop extends Base s where
  calls : ∀ name c, s.calls.lookup name = some c → s.CallInv name c
  own : ∀ n m c d x, n ≠ m → s.calls.lookup n = some c → s.calls.lookup m = some d →
    c.opens = some x → d.uses x = false

/-- A call uses live sessions only. -/
theorem Inv.uses_mem {s : Uni} (hI : Inv s) {name : String} {c : Call}
    (hc : s.calls.lookup name = some c) (hx : c.uses x = true) : x ∈ s.sessions := by
  have hinv := hI.calls name c hc
  cases c with
  | drop => cases hx
  | build parent mustCreate phase =>
    cases phase with
    | opened =>
      simp only [Call.uses, Bool.or_eq_true, decide_eq_true_eq] at hx
      rcases hx with rfl | rfl
      · exact hinv.1
      · exact hinv.2
    | _ =>
      simp only [Call.uses, decide_eq_true_eq] at hx
      exact hx ▸ hinv.1

end Uni

/-- The fork that the call is going to remove, once it has been seen without children. -/
def Call.dropping : Call → Option ForkId
  | .drop (.childless info) | .drop (.entered info) | .drop (.unheld info)
  | .drop (.entombed info) | .drop (.flipped info) => some info.id
  | _ => none

/-- The fork that the call has seen without children, as long as it has not
    looked for its holders. -/
def Call.checked : Call → Option ForkId
  | .drop (.childless info) | .drop (.entered info) => some info.id
  | _ => none

theorem mem_listChildren {h : ForkRegistryHandle} {parent : ForkId} {info : ForkInfo} :
    info ∈ h.listChildren parent ↔
      (∃ n, h.cache.lookup n = some info) ∧ info.parentForkId = some parent := by
  simp [ForkRegistryHandle.listChildren, mem_toList]

namespace Uni

/-- What a step of the call under a name leaves to the others. An entry that
    appears under the name is a new fork's, and not the child of a fork that is
    being dropped; a guard that appears is for the fork of that name. -/
structure Frame (s t : Uni) (name : Option String) : Prop where
  calls : t.calls = s.calls
  other : ∀ n, some n ≠ name → t.handle.cache.lookup n = s.handle.cache.lookup n
  ids : ∀ id ∈ s.ids, id ∈ t.ids
  entry : ∀ n e, some n = name → t.handle.cache.lookup n = some e →
    (∃ e₀, s.handle.cache.lookup n = some e₀ ∧ e.id = e₀.id ∧ e.name = e₀.name ∧
      e.parentForkId = e₀.parentForkId) ∨
    (e.id ∉ s.ids ∧ e.id ∈ t.ids ∧ e.name = n ∧
      ∀ m c p, s.calls.lookup m = some c → c.dropping = some p → e.parentForkId ≠ some p)
  kept : ∀ x ∈ s.sessions, (∃ m c, some m ≠ name ∧ s.calls.lookup m = some c ∧ c.uses x = true) →
    x ∈ t.sessions
  guards : ∀ g ∈ t.guards, g ∈ s.guards ∨ ∃ n, name = some n ∧ s.At n g.fork

variable {id : ForkId}

section Frame

variable {s t : Uni} {name : Option String}

/-- An entry of the new registry is an old one, up to its status and datasets, or a new fork's. -/
theorem Frame.entry_cases (hF : Frame s t name) {n : String} {e : ForkInfo}
    (he : t.handle.cache.lookup n = some e) :
    (∃ e₀, s.handle.cache.lookup n = some e₀ ∧ e.id = e₀.id ∧ e.name = e₀.name ∧
      e.parentForkId = e₀.parentForkId) ∨
    (e.id ∉ s.ids ∧ e.id ∈ t.ids ∧ e.name = n ∧
      ∀ m c p, s.calls.lookup m = some c → c.dropping = some p → e.parentForkId ≠ some p) := by
  by_cases hn : some n = name
  · exact hF.entry n e hn he
  · rw [hF.other n hn] at he
    exact .inl ⟨e, he, rfl, rfl, rfl⟩

variable {m : String}

theorem Frame.at (hF : Frame s t name) (hm : some m ≠ name)
    (h : s.At m id) : t.At m id := by
  rcases h with ⟨e, he, hid⟩
  exact ⟨e, by rw [hF.other m hm, he], hid⟩

theorem Frame.noEntry (hF : Frame s t name) (hid : id ∈ s.ids)
    (h : s.NoEntry id) : t.NoEntry id := by
  intro n e he heq
  rcases hF.entry_cases he with ⟨e₀, he₀, hid₀, -⟩ | ⟨hfresh, -⟩
  · exact h n e₀ he₀ (hid₀.symm.trans heq)
  · exact hfresh (heq ▸ hid)

theorem Frame.noChild (hF : Frame s t name) {c : Call}
    (hc : s.calls.lookup m = some c) (hdrop : c.dropping = some id) (h : s.NoChild id) :
    t.NoChild id := by
  intro n e he
  rcases hF.entry_cases he with ⟨e₀, he₀, -, -, hparent⟩ | ⟨-, -, -, hparent⟩
  · rw [hparent]
    exact h n e₀ he₀
  · exact hparent m c id hc hdrop

/-- No guard appears for a fork that is registered under another name. -/
theorem Frame.noGuard (hI : Inv s) (hF : Frame s t name) (hm : some m ≠ name)
    (hid : s.At m id) (h : s.NoGuard id) : t.NoGuard id := by
  rintro g hg rfl
  rcases hF.guards g hg with hold | ⟨n, rfl, e, he, hid'⟩
  · exact h g hold rfl
  · rcases hid with ⟨e', he', heq⟩
    exact hm (congrArg some (hI.distinct m n e' e he' he (heq.trans hid'.symm)))

theorem Frame.noGuard_of_noEntry (hF : Frame s t name) (hid : s.NoEntry id)
    (h : s.NoGuard id) : t.NoGuard id := by
  rintro g hg rfl
  rcases hF.guards g hg with hold | ⟨n, -, e, he, hid'⟩
  · exact h g hold rfl
  · exact hid n e he hid'

theorem Frame.callInv (hI : Inv s) (hF : Frame s t name) (hm : some m ≠ name)
    {c : Call} (hc : s.calls.lookup m = some c) : t.CallInv m c := by
  have hinv := hI.calls m c hc
  cases c with
  | build parent mustCreate phase =>
    rcases hinv with ⟨hparent, hphase⟩
    have hparent' : parent ∈ t.sessions :=
      hF.kept parent hparent ⟨m, _, hm, hc, by cases phase <;> simp [Call.uses]⟩
    refine ⟨hparent', ?_⟩
    cases phase with
    | start | create => trivial
    | created | rollback => exact ⟨hF.at hm hphase.1, hF.noGuard hI hm hphase.1 hphase.2⟩
    | activated => exact hF.at hm hphase
    | discarded id =>
      rcases hphase with ⟨hid, hnone, hsess⟩
      exact ⟨hF.ids id hid, hF.noEntry hid hnone, hF.noGuard_of_noEntry hnone hsess⟩
    | found => exact hF.at hm hphase
    | opened x => exact hF.kept x hphase ⟨m, _, hm, hc, by simp [Call.uses]⟩
  | drop phase =>
    cases phase with
    | start => trivial
    | preview => exact ⟨hF.at hm hinv.1, hinv.2⟩
    | childless | entered =>
      rcases hinv with ⟨hat, hname, hchild⟩
      exact ⟨hF.at hm hat, hname, hF.noChild hc rfl hchild⟩
    | unheld | entombed | flipped =>
      rcases hinv with ⟨hat, hname, hchild, hsess⟩
      exact ⟨hF.at hm hat, hname, hF.noChild hc rfl hchild, hF.noGuard hI hm hat hsess⟩
    | cleared =>
      rcases hinv with ⟨hid, hnone, hsess⟩
      exact ⟨hF.ids _ hid, hF.noEntry hid hnone, hF.noGuard_of_noEntry hnone hsess⟩

theorem Frame.base (hI : Inv s) (hF : Frame s t name)
    (hheld : Held t) :
    Base t where
  toHeld := hheld
  keyed := by
    intro n e he
    rcases hF.entry_cases he with ⟨e₀, he₀, -, hname, -⟩ | ⟨-, -, hname, -⟩
    · rw [hname]
      exact hI.keyed n e₀ he₀
    · exact hname
  distinct := by
    intro n m e e' he he' hid
    rcases hF.entry_cases he with ⟨e₀, he₀, hid₀, -⟩ | ⟨hfresh, -⟩
    · rcases hF.entry_cases he' with ⟨e₁, he₁, hid₁, -⟩ | ⟨hfresh, -⟩
      · exact hI.distinct n m e₀ e₁ he₀ he₁ (by rw [← hid₀, ← hid₁, hid])
      · exact absurd (hI.entryIds n e₀ he₀) (by rwa [← hid₀, hid])
    · -- only one name has an entry that is new
      have hn : some n = name := by
        by_contra hn
        rw [hF.other n hn] at he
        exact hfresh (hI.entryIds n e he)
      have hm : some m = name := by
        by_contra hm
        rw [hF.other m hm] at he'
        exact hfresh (hid ▸ hI.entryIds m e' he')
      exact Option.some.inj (hn.trans hm.symm)
  entryIds := by
    intro n e he
    rcases hF.entry_cases he with ⟨e₀, he₀, hid₀, -⟩ | ⟨-, hid, -⟩
    · rw [hid₀]
      exact hF.ids _ (hI.entryIds n e₀ he₀)
    · exact hid
  guardIds := by
    intro g hg
    rcases hF.guards g hg with hold | ⟨n, -, e, he, hid⟩
    · exact hF.ids _ (hI.guardIds g hold)
    · exact hid ▸ hF.ids _ (hI.entryIds n e he)

end Frame

variable {s t : Uni} {name : String}

theorem Inv.goto (hI : Inv s) (hF : Frame s t (some name))
    (hheld : Held t)
    {c : Call} (hc : t.CallInv name c) (hopens : ∀ x, c.opens = some x → x ∉ s.sessions)
    (huses : ∀ x, c.uses x = true → ∀ m d, m ≠ name → s.calls.lookup m = some d →
      d.opens ≠ some x) :
    Inv (t.goto name c) where
  toBase := { hF.base hI hheld with }
  calls := by
    intro m d hd
    rcases lookup_insert_cases hd with ⟨rfl, rfl⟩ | ⟨hm, hd⟩
    · exact hc
    · rw [hF.calls] at hd
      exact hF.callInv hI (fun heq => hm (Option.some.inj heq)) hd
  own := by
    intro n m d d' x hne hd hd' hopen
    simp only [Uni.goto, lookup_insert_eq, hF.calls] at hd hd'
    split at hd
    · next hn =>
      rw [if_neg (fun hm => hne (hn.trans hm.symm))] at hd'
      cases hd
      -- another call uses only sessions that were live before
      by_contra huse
      exact hopens x hopen (hI.uses_mem hd' (by simpa using huse))
    · next hn =>
      split at hd'
      · cases hd'
        by_contra huse
        exact huses x (by simpa using huse) n d hn hd hopen
      · exact hI.own n m d d' x hne hd hd' hopen

theorem Inv.done (hI : Inv s) (hF : Frame s t (some name))
    (hheld : Held t) :
    Inv (t.done name) where
  toBase := { hF.base hI hheld with }
  calls := by
    intro m d hd
    simp only [Uni.done, lookup_erase_eq, hF.calls] at hd
    split at hd
    · cases hd
    · next hm => exact hF.callInv hI (fun heq => hm (Option.some.inj heq)) hd
  own := by
    intro n m d d' x hne hd hd' hopen
    simp only [Uni.done, lookup_erase_eq, hF.calls] at hd hd'
    split at hd
    · cases hd
    · split at hd'
      · cases hd'
      · exact hI.own n m d d' x hne hd hd' hopen

theorem Inv.stay (hI : Inv s) (hF : Frame s t none)
    (hheld : Held t) :
    Inv t where
  toBase := hF.base hI hheld
  calls := by
    intro m d hd
    rw [hF.calls] at hd
    exact hF.callInv hI (by simp) hd
  own := by
    intro n m d d' x hne hd hd' hopen
    rw [hF.calls] at hd hd'
    exact hI.own n m d d' x hne hd hd' hopen

theorem Inv.opens_mem (hI : Inv s) {c : Call} (hc : s.calls.lookup name = some c)
    (hx : c.opens = some x) : x ∈ s.sessions := by
  have hinv := hI.calls name c hc
  cases c with
  | drop => cases hx
  | build parent mustCreate phase =>
    cases phase with cases hx
    | opened => exact hinv.2

theorem Inv.goto_build (hI : Inv s) {parent : Session} {mustCreate : Bool}
    {phase phase' : BuildPhase} (hc : s.calls.lookup name = some (.build parent mustCreate phase))
    (hF : Frame s t (some name))
    (hheld : Held t)
    (hparent : parent ∈ t.sessions) (hphase : t.BuildInv name phase')
    (hnew : ∀ x, phase' = .opened x → x ∉ s.sessions) :
    Inv (t.goto name (.build parent mustCreate phase')) := by
  refine hI.goto hF hheld ⟨hparent, hphase⟩ ?_ ?_
  · intro x hx
    cases phase' with cases hx
    | opened => exact hnew _ rfl
  · intro x hx m d hm hd hopen
    have hcases : x = parent ∨ phase' = .opened x := by
      cases phase' <;> simp only [Call.uses, Bool.or_eq_true, decide_eq_true_eq] at hx
      case opened y => exact hx.imp Eq.symm (congrArg BuildPhase.opened)
      all_goals exact .inl hx.symm
    rcases hcases with rfl | hphase'
    · have huse := hI.own m name d _ x hm hd hc hopen
      cases phase <;> simp [Call.uses] at huse
    · exact hnew x hphase' (hI.opens_mem hd hopen)

theorem Inv.goto_drop (hI : Inv s) {phase : DropPhase} (hF : Frame s t (some name))
    (hheld : Held t)
    (hphase : t.DropInv name phase) : Inv (t.goto name (.drop phase)) :=
  hI.goto hF hheld hphase (nofun) nofun

/-! ## The kinds of steps -/

/-- Guards that are dropped change nothing but the counters. -/
theorem cache_foldl_releaseHolder (h : ForkRegistryHandle) (gs : List Guard) :
    (gs.foldl (fun h g => h.releaseHolder g.fork) h).cache = h.cache := by
  induction gs generalizing h with
  | nil => rfl
  | cons g gs ih =>
    rw [foldl_cons, ih]
    unfold ForkRegistryHandle.releaseHolder
    split <;> rfl

theorem cache_release (s : Uni) (x : Session) : (s.release x).handle.cache = s.handle.cache :=
  cache_foldl_releaseHolder _ _

theorem Frame.refl (s : Uni) (name : Option String) : Frame s s name where
  calls := rfl
  other _ _ := rfl
  ids _ h := h
  entry _ e _ he := .inl ⟨e, he, rfl, rfl, rfl⟩
  kept _ hx _ := hx
  guards _ hg := .inl hg

/-- The registry changes at most under the name, and no fork is new. -/
theorem Frame.of_handle {h : ForkRegistryHandle}
    (hother : ∀ n, n ≠ name → h.cache.lookup n = s.handle.cache.lookup n)
    (hentry : ∀ e, h.cache.lookup name = some e → ∃ e₀, s.handle.cache.lookup name = some e₀ ∧
      e.id = e₀.id ∧ e.name = e₀.name ∧ e.parentForkId = e₀.parentForkId) :
    Frame s { s with handle := h } (some name) where
  calls := rfl
  other n hn := hother n fun heq => hn (congrArg some heq)
  ids _ h := h
  entry n e hn he := by
    cases hn
    exact .inl (hentry e he)
  kept _ hx _ := hx
  guards _ hg := .inl hg

theorem Frame.quiet {h : ForkRegistryHandle} (hcache : h.cache = s.handle.cache) :
    Frame s { s with handle := h } (some name) :=
  .of_handle (fun n _ => by rw [hcache]) fun e he => ⟨e, by rw [← hcache, he], rfl, rfl, rfl⟩

theorem Frame.remove {h : ForkRegistryHandle} (hcache : h.cache = s.handle.cache.erase name) :
    Frame s { s with handle := h } (some name) := by
  refine .of_handle (fun n hn => ?_) fun e he => ?_
  · rw [hcache, lookup_erase_eq, if_neg hn]
  · rw [hcache, lookup_erase_eq, if_pos rfl] at he
    cases he

/-- An entry gets another status or other datasets. -/
theorem Frame.alter {h : ForkRegistryHandle} {e e' : ForkInfo}
    (he : s.handle.cache.lookup name = some e) (hcache : h.cache = s.handle.cache.insert name e')
    (hsame : e'.id = e.id ∧ e'.name = e.name ∧ e'.parentForkId = e.parentForkId) :
    Frame s { s with handle := h } (some name) := by
  refine .of_handle (fun n hn => ?_) fun e'' he'' => ⟨e, he, ?_⟩
  · rw [hcache, lookup_insert_eq, if_neg hn]
  · rw [hcache, lookup_insert_eq, if_pos rfl] at he''
    cases he''
    exact hsame

theorem at_of_insert {h : ForkRegistryHandle} {m : AssocMap String ForkInfo} {e : ForkInfo}
    (hcache : h.cache = m.insert name e) (hid : e.id = id) :
    At { s with handle := h } name id := by
  refine ⟨e, ?_, hid⟩
  rw [hcache, lookup_insert_eq, if_pos rfl]

theorem Frame.add {h : ForkRegistryHandle} {parent : Option ForkId}
    (hid : id ∉ s.ids) (hcache : h.cache = s.handle.cache.insert name (.newPending id name parent))
    (hparent : ∀ m c p, s.calls.lookup m = some c → c.dropping = some p → parent ≠ some p) :
    Frame s { s with handle := h, ids := id :: s.ids } (some name) where
  calls := rfl
  other n hn := by
    rw [hcache, lookup_insert_eq, if_neg fun heq => hn (congrArg some heq)]
  ids _ h := mem_cons_of_mem _ h
  entry n e hn he := by
    cases hn
    rw [hcache, lookup_insert_eq, if_pos rfl] at he
    cases he
    exact .inr ⟨hid, mem_cons_self, rfl, hparent⟩
  kept _ hx _ := hx
  guards _ hg := .inl hg

theorem Frame.enter {h : ForkRegistryHandle} {g : Guard}
    (hcache : h.cache = s.handle.cache) (hat : s.At name g.fork) :
    Frame s { s with handle := h, sessions := x :: s.sessions, guards := g :: s.guards }
      (some name) :=
  { Frame.quiet (s := s) hcache with
    kept := fun y hy _ => mem_cons_of_mem _ hy
    guards := by
      intro g' hg'
      rcases mem_cons.mp hg' with rfl | hg'
      · exact .inr ⟨name, rfl, hat⟩
      · exact .inl hg' }

theorem Frame.leave {name : Option String}
    (hfree : ∀ m c, some m ≠ name → s.calls.lookup m = some c → c.uses x = false) :
    Frame s (s.release x) name :=
  { Frame.refl s name with
    other := fun n _ => by rw [cache_release]
    entry := fun n e _ he => by
      rw [cache_release] at he
      exact .inl ⟨e, he, rfl, rfl, rfl⟩
    kept := by
      rintro y hy ⟨m, c, hm, hc, huse⟩
      have hne : y ≠ x := by
        rintro rfl
        rw [hfree m c hm hc] at huse
        cases huse
      exact (mem_erase_of_ne hne).mpr hy
    guards := fun g hg => .inl (mem_of_mem_filter hg) }

/-! ## Counting holders -/

theorem held_of_eq (hB : Held s) {h : ForkRegistryHandle}
    (hholders : h.holders = s.handle.holders) : Held { s with handle := h } where
  holders id := by
    rw [← hB.holders id]
    simp only [ForkRegistryHandle.holderCount, hholders]
  pinned := hB.pinned

theorem held_reap (hB : Held s) {h : ForkRegistryHandle}
    (hholders : h.holders = s.handle.holders.erase id) (hnone : s.NoGuard id) :
    Held { s with handle := h } where
  holders id' := by
    rw [← hB.holders id']
    simp only [ForkRegistryHandle.holderCount, hholders, lookup_erase_eq]
    split
    · next heq =>
      -- the counter was zero
      have hzero := hB.holders id'
      rw [countP_eq_zero.mpr fun g hg => by simpa [heq] using hnone g hg] at hzero
      exact hzero.symm
    · rfl
  pinned := hB.pinned

theorem holderCount_registerHolder (h : ForkRegistryHandle) (id id' : ForkId) :
    (h.registerHolder id).holderCount id' =
      if id' = id then h.holderCount id + 1 else h.holderCount id' := by
  simp only [ForkRegistryHandle.registerHolder, ForkRegistryHandle.holderCount, lookup_insert_eq]
  split <;> rfl

theorem holderCount_releaseHolder (h : ForkRegistryHandle) (id id' : ForkId) :
    (h.releaseHolder id).holderCount id' =
      if id' = id then h.holderCount id - 1 else h.holderCount id' := by
  unfold ForkRegistryHandle.releaseHolder
  split
  · next count hcount =>
    simp only [ForkRegistryHandle.holderCount, lookup_insert_eq]
    split
    · rw [hcount]
      rfl
    · rfl
  · next hnone =>
    split
    · next heq =>
      subst heq
      simp [ForkRegistryHandle.holderCount, hnone]
    · rfl

theorem held_enter (hB : Held s) {g : Guard} (hown : ∀ id, x.fork = some id → g = ⟨x.id, id⟩) :
    Held { s with
      handle := s.handle.registerHolder g.fork, sessions := x :: s.sessions,
      guards := g :: s.guards } where
  holders id := by
    simp only [holderCount_registerHolder, countP_cons, ← hB.holders id]
    by_cases hid : id = g.fork
    · simp [hid]
    · simp [hid, Ne.symm hid]
  pinned := by
    refine forall_mem_cons.mpr ⟨fun id hfork => ?_, fun y hy id hfork => ?_⟩
    · exact hown id hfork ▸ mem_cons_self
    · exact mem_cons_of_mem _ (hB.pinned y hy id hfork)

theorem holderCount_foldl_releaseHolder (h : ForkRegistryHandle) (gs : List Guard) (id : ForkId) :
    (gs.foldl (fun h g => h.releaseHolder g.fork) h).holderCount id =
      h.holderCount id - gs.countP fun g => g.fork = id := by
  induction gs generalizing h with
  | nil => rfl
  | cons g gs ih =>
    rw [foldl_cons, ih, holderCount_releaseHolder, countP_cons]
    by_cases hid : id = g.fork
    · simp only [hid, if_true, decide_true]
      omega
    · simp [hid, Ne.symm hid]

/-- The counters go down by the guards that are dropped, and a session that stays keeps its own. -/
theorem held_release (hB : Held s) (x : Session) : Held (s.release x) where
  holders id := by
    have hcount := hB.holders id
    have hsplit := countP_eq_countP_filter_add s.guards (fun g => decide (g.fork = id)) (s.keeps x)
    have hdropped : (s.release x).handle.holderCount id = s.handle.holderCount id -
        (s.guards.filter fun g => !s.keeps x g).countP fun g => g.fork = id :=
      holderCount_foldl_releaseHolder _ _ _
    rw [hdropped, hcount, hsplit]
    simp only [Uni.release]
    omega
  pinned := by
    intro y hy id hfork
    refine mem_filter.mpr ⟨hB.pinned y (mem_of_mem_erase hy) id hfork, ?_⟩
    refine any_eq_true.mpr ⟨y, hy, decide_eq_true ?_⟩
    simp [Session.guards, hfork]

/-! ## One step -/

section Calls

variable {parent : Session} {mustCreate : Bool} {reply : Reply} {s' : Uni} {phase : BuildPhase}

theorem Inv.build (hI : Inv s) (hc : s.calls.lookup name = some (.build parent mustCreate phase))
    (hlate : phase = .create → reply.ok = true → ∀ m c p, s.calls.lookup m = some c →
      c.checked = some p → parent.fork ≠ some p)
    (h : s.build name parent mustCreate reply phase = some s') : Inv s' := by
  have ⟨hparent, hinv⟩ := hI.calls name _ hc
  revert h
  fun_cases Uni.build s name parent mustCreate reply phase <;> rintro ⟨⟩
  -- a call that ends here leaves everything as it is
  case case2 | case4 | case17 => exact hI.done (.refl s _) hI.toHeld
  case case1 =>
    exact hI.goto_build hc (.refl s _) hI.toHeld hparent trivial nofun
  case case3 info hget _ =>
    exact hI.goto_build hc (.refl s _) hI.toHeld hparent ⟨info, get_ok hget, rfl⟩
      nofun
  case case6 hbegin =>
    rw [beginCreate_error hbegin]
    exact hI.done (.refl s _) hI.toHeld
  case case7 hok hid h' hbegin =>
    rcases beginCreate_ok hbegin with ⟨-, rfl⟩
    refine hI.goto_build hc (.add hid rfl fun m c p hm hdrop => ?_) ?_ hparent ?_ nofun
    · -- the session keeps its fork from being dropped, once the holders have been looked for
      cases c with
      | build => cases hdrop
      | drop phase =>
        have hcall := hI.calls m _ hm
        cases phase with cases hdrop
        | childless | entered => exact hlate rfl (by simpa using hok) m _ _ hm rfl
        | unheld | entombed | flipped =>
          intro hfork
          exact hcall.2.2.2 _ (hI.pinned parent hparent _ hfork) rfl
    · exact { held_of_eq hI.toHeld rfl with }
    · exact ⟨⟨_, (lookup_insert_eq _ _ _ _).trans (if_pos rfl), rfl⟩,
        fun g hg hfork => hid (hfork ▸ hI.guardIds g hg)⟩
  case case8 =>
    exact hI.goto_build hc (.refl s _) hI.toHeld hparent hinv nofun
  case case9 hact =>
    rw [activate_error hact]
    exact hI.done (.refl s _) hI.toHeld
  case case10 hact =>
    rcases activate_ok hact with ⟨e, he, rfl, hholders, hcache⟩
    have hF := Frame.alter he hcache ⟨rfl, rfl, rfl⟩
    exact hI.goto_build hc hF (held_of_eq hI.toHeld hholders) hparent (at_of_insert hcache rfl)
      nofun
  case case11 => exact hI.done (.quiet rfl) (held_of_eq hI.toHeld rfl)
  case case12 info hget =>
    exact hI.goto_build hc (.quiet rfl) (held_of_eq hI.toHeld rfl) hparent
      ⟨info, get_ok hget, rfl⟩ nofun
  case case13 =>
    rcases hinv with ⟨⟨e, he, rfl⟩, hsess⟩
    refine hI.goto_build hc (.remove rfl) (held_of_eq hI.toHeld rfl) hparent
      ⟨hI.entryIds name e he, fun n e' he' hid => ?_, hsess⟩ nofun
    -- another entry with the id would stand under the same name
    rcases lookup_of_erase he' with ⟨hn, he'⟩
    exact hn (hI.distinct n name e' e he' he hid)
  case case14 => exact hI.done (.quiet rfl) (held_reap hI.toHeld rfl hinv.2.2)
  case case16 hknown g _ =>
    refine hI.goto_build hc (.enter rfl hinv)
      (held_enter hI.toHeld (g := g) fun id hid => ?_)
      (mem_cons_of_mem _ hparent) mem_cons_self fun x hx hmem => ?_
    · exact congrArg (Guard.mk _) (Option.some.inj hid)
    · cases hx
      exact hknown (any_eq_true.mpr ⟨_, hmem, decide_eq_true rfl⟩)
  case case18 x _ =>
    refine hI.done (.leave fun m c hm hcall => ?_) (held_release hI.toHeld x)
    exact hI.own name m _ c x (fun heq => hm (congrArg some heq.symm)) hc hcall rfl

theorem Inv.drop (hI : Inv s) {phase : DropPhase} (hc : s.calls.lookup name = some (.drop phase)) :
    Inv (s.drop name reply phase) := by
  have hinv := hI.calls name _ hc
  fun_cases Uni.drop s name reply phase
  case case1 | case3 | case5 | case6 | case8 | case12 => exact hI.done (.refl s _) hI.toHeld
  case case2 info hget =>
    exact hI.goto_drop (.refl s _) hI.toHeld
      ⟨⟨info, get_ok hget, rfl⟩, hI.keyed name info (get_ok hget)⟩
  case case4 info hchildren =>
    refine hI.goto_drop (.refl s _) hI.toHeld ⟨hinv.1, hinv.2, fun n e he hparent => ?_⟩
    exact not_mem_nil ((not_ne_iff.mp hchildren) ▸ mem_listChildren.mpr ⟨⟨n, he⟩, hparent⟩)
  case case7 hget =>
    -- the lock of the name was held, so it is still the same fork
    rcases hinv with ⟨⟨e, he, hid⟩, -, hchild⟩
    obtain rfl := Option.some.inj (he.symm.trans (get_ok hget))
    exact hI.goto_drop (.refl s _) hI.toHeld ⟨⟨e, he, rfl⟩, hI.keyed name e he, hid ▸ hchild⟩
  case case9 info hheld =>
    rcases hinv with ⟨hat, hname, hchild⟩
    refine hI.goto_drop (.refl s _) hI.toHeld ⟨hat, hname, hchild, fun g hg hfork => ?_⟩
    rw [hI.holders info.id] at hheld
    exact hheld (countP_pos_iff.mpr ⟨g, hg, by simpa using hfork⟩)
  case case10 => exact hI.goto_drop (.quiet rfl) (held_of_eq hI.toHeld rfl) hinv
  case case11 =>
    rcases hinv with ⟨⟨e, he, hid⟩, hname, hchild, hsess⟩
    rcases flip_of_lookup he with ⟨hcache, hholders⟩
    have hF := Frame.alter he hcache ⟨rfl, rfl, rfl⟩
    exact hI.goto_drop hF (held_of_eq hI.toHeld hholders)
      ⟨at_of_insert hcache hid, hname, hF.noChild hc rfl hchild, hsess⟩
  case case13 info _ =>
    rcases hinv with ⟨⟨e, he, hid⟩, rfl, hchild, hsess⟩
    refine hI.goto_drop (.remove rfl) (held_of_eq hI.toHeld rfl)
      ⟨hid ▸ hI.entryIds _ e he, fun n e' he' hid' => ?_, hsess⟩
    rcases lookup_of_erase he' with ⟨hn, he'⟩
    exact hn (hI.distinct n info.name e' e he' he (hid'.trans hid.symm))
  case case14 => exact hI.done (.quiet rfl) (held_reap hI.toHeld rfl hinv.2.2)

end Calls

end Uni

/-! ## Whole histories -/

/-- No nested fork is stored while a call that drops its parent is between the
    look for children and the look for holders. -/
def NoLateChild (s : Uni) : UniAction → Prop
  | .next name reply => match s.calls.lookup name with
    | some (.build parent _ .create) =>
      reply.ok = true → ∀ c ∈ s.calls.toList, c.2.checked.isSome → parent.fork ≠ c.2.checked
    | _ => True
  | _ => True

instance (s : Uni) (a : UniAction) : Decidable (NoLateChild s a) := by
  unfold NoLateChild
  split
  · split <;> infer_instance
  · infer_instance

namespace Uni

variable {s s' : Uni}

theorem Inv.step {a : UniAction} (hI : Inv s) (hlate : NoLateChild s a)
    (h : s.step a = some s') : Inv s' := by
  revert h
  fun_cases Uni.step s a <;> intro h
  case case2 =>
    cases h
    refine hI.stay { Frame.refl s none with kept := fun x hx _ => mem_cons_of_mem _ hx } ?_
    exact ⟨hI.holders, forall_mem_cons.mpr ⟨fun _ => nofun, hI.pinned⟩⟩
  case case3 x hx =>
    cases h
    refine hI.stay (.leave fun m c _ hc => ?_) (held_release hI.toHeld x)
    simpa using any_eq_false.mp hx.2 (m, c) (mem_toList.mpr hc)
  case case5 parent name mustCreate hparent =>
    cases h
    refine hI.goto (.refl s _) hI.toHeld ⟨hparent.1, trivial⟩ (nofun) ?_
    intro x hx m d _ hd hopen
    simp only [Call.uses, decide_eq_true_eq] at hx
    have hfree := any_eq_false.mp hparent.2.1 (m, d) (mem_toList.mpr hd)
    exact hfree (decide_eq_true (hx ▸ hopen))
  case case8 =>
    cases h
    exact hI.goto_drop (.refl s _) hI.toHeld trivial
  case case10 parent mustCreate phase hc =>
    refine hI.build hc (fun hphase hok m c p hm hchecked => ?_) h
    simp only [NoLateChild, hc, hphase] at hlate
    rw [← hchecked]
    exact hlate hok (m, c) (mem_toList.mpr hm) (by rw [hchecked]; rfl)
  case case11 hc =>
    cases h
    exact hI.drop hc
  all_goals cases h

/-- `drop_fork` changes the registry in two steps only, each time under its own
    name, and it has seen the fork without children and holders by then. -/
theorem Inv.drop_changes (hI : Inv s) {name : String} {reply : Reply} {phase : DropPhase}
    (hc : s.calls.lookup name = some (.drop phase)) {n : String}
    (h : (s.drop name reply phase).handle.cache.lookup n ≠ s.handle.cache.lookup n) :
    ∃ id, n = name ∧ s.At name id ∧ s.NoChild id := by
  have hinv := hI.calls name _ hc
  cases phase with
  | entombed info =>
    rcases hinv with ⟨⟨e, he, hid⟩, -, hchild, -⟩
    refine ⟨info.id, ?_, ⟨e, he, hid⟩, hchild⟩
    by_contra hn
    simp only [Uni.drop, Uni.goto] at h
    rw [(flip_of_lookup he).1, lookup_insert_eq, if_neg hn] at h
    exact h rfl
  | flipped info =>
    rcases hinv with ⟨hat, rfl, hchild, -⟩
    refine ⟨info.id, ?_, hat, hchild⟩
    by_contra hn
    refine h ?_
    simp only [Uni.drop]
    split
    · rfl
    · exact (lookup_erase_eq _ _ n).trans (if_neg hn)
  | unheld | cleared => exact absurd rfl h
  | _ =>
    -- these phases only read the registry
    refine absurd ?_ h
    simp only [Uni.drop]
    repeat' split
    all_goals rfl

end Uni

/-- The ids of the entries differ, and each stands under its name. -/
def WellKept (m : AssocMap String ForkInfo) : Prop :=
  (∀ n e, m.lookup n = some e → e.name = n) ∧
    ∀ n n' e e', m.lookup n = some e → m.lookup n' = some e' → e.id = e'.id → n = n'

theorem start_inv {store : ForkStore} {maxForks : Option Nat} (hstore : WellKept store.registry) :
    (Uni.start store maxForks).Inv where
  holders _ := rfl
  pinned _ hx := (by cases hx)
  keyed := hstore.1
  distinct n m e e' := hstore.2 n m e e'
  entryIds n e he := mem_map.mpr ⟨(n, e), mem_toList.mpr he, rfl⟩
  guardIds _ hg := (by cases hg)
  calls _ _ hc := (by cases hc)
  own _ _ _ _ _ _ hc := (by cases hc)

/-- A step in which `drop_fork` tombstones an entry or removes it finds no child
    of that fork in the registry. -/
theorem drop_childless {store : ForkStore} {maxForks : Option Nat} {actions : List UniAction}
    {s s' : Uni} {name : String} {phase : DropPhase} {reply : Reply}
    (hstore : WellKept store.registry)
    (hlate : EveryStep Uni.step NoLateChild (.start store maxForks) actions)
    (hrun : run Uni.step (.start store maxForks) actions = some s)
    (hcall : s.calls.lookup name = some (.drop phase))
    (hstep : s.step (.next name reply) = some s') {n : String} {e : ForkInfo}
    (he : s.handle.cache.lookup n = some e) (hchange : s'.handle.cache.lookup n ≠ some e) :
    ∀ m c, s.handle.cache.lookup m = some c → c.parentForkId ≠ some e.id := by
  have hI : s.Inv := run_invariant_of_everyStep (fun _ _ _ hI hC h => hI.step hC h)
    (start_inv hstore) hlate hrun
  simp only [Uni.step, hcall, Option.some.injEq] at hstep
  subst hstep
  rw [← he] at hchange
  rcases hI.drop_changes hcall hchange with ⟨id, rfl, ⟨e', he', rfl⟩, hchild⟩
  rw [Option.some.inj (he.symm.trans he')]
  exact hchild

theorem flip_of_run (actions : List UniAction) (name : String) (id : ForkId)
    (hbefore : ∀ s ∈ run Uni.step (.start ⟨∅, ∅, ∅, ∅, ∅⟩ none) actions,
      (s.handle.cache.lookup name).map (fun e => (e.id, e.status)) = some (id, .active))
    (hafter : ∀ s ∈ run Uni.step (.start ⟨∅, ∅, ∅, ∅, ∅⟩ none) actions,
      ∀ s' ∈ s.step (.next name {}),
        (s'.handle.cache.lookup name).map ForkInfo.status = some .tombstoned)
    (hcall : ∀ s ∈ run Uni.step (.start ⟨∅, ∅, ∅, ∅, ∅⟩ none) actions,
      (match s.calls.lookup name with
        | some (.drop (.entombed _)) => true
        | _ => false) = true)
    (hsome : ((run Uni.step (.start ⟨∅, ∅, ∅, ∅, ∅⟩ none) actions).bind fun s =>
      s.step (.next name {})).isSome = true) :
    ∃ s s' info e e', run Uni.step (.start ⟨∅, ∅, ∅, ∅, ∅⟩ none) actions = some s ∧
      s.calls.lookup name = some (.drop (.entombed info)) ∧
      s.step (.next name {}) = some s' ∧ s.handle.cache.lookup name = some e ∧ e.id = id ∧
      s'.handle.cache.lookup name = some e' ∧ e.status = .active ∧ e'.status = .tombstoned := by
  rcases Option.isSome_iff_exists.mp hsome with ⟨s', hs'⟩
  rcases Option.bind_eq_some_iff.mp hs' with ⟨s, hrun, hstep⟩
  rcases Option.map_eq_some_iff.mp (hbefore s hrun) with ⟨e, he, heq⟩
  rcases Prod.mk.inj heq with ⟨hid, hstatus⟩
  rcases Option.map_eq_some_iff.mp (hafter s hrun s' hstep) with ⟨e', he', hstatus'⟩
  have hphase := hcall s hrun
  split at hphase
  · next info hlook => exact ⟨s, s', info, e, e', hrun, hlook, hstep, he, hid, he', hstatus,
      hstatus'⟩
  · cases hphase

/-- The session on the fork that `forkActions` opens. -/
def onParent : Session := ⟨1, some ⟨"01"⟩, [⟨1, ⟨"01"⟩⟩]⟩

/-- The session on its child that `lateChildActions` opens, with the guards of both. -/
def onChild : Session := ⟨2, some ⟨"02"⟩, [⟨2, ⟨"02"⟩⟩, ⟨1, ⟨"01"⟩⟩]⟩

/-- A session on primary creates a fork and opens a session on it. -/
def forkActions : List UniAction :=
  [.session 0, .fork ⟨0, none, []⟩ "p" false, .next "p" {}, .next "p" { id := ⟨"01"⟩ },
    .next "p" {}, .next "p" {}, .next "p" { session := 1 }, .next "p" {}]

/-- The session is closed and the fork dropped, up to its tombstone. -/
def dropActions : List UniAction :=
  forkActions ++ [.close onParent, .dropFork "p", .next "p" {}, .next "p" {},
    .next "p" {}, .next "p" {}, .next "p" {}]

theorem drop_childless_closed : ∃ s s' : Uni, ∃ e e' : ForkInfo,
    run Uni.step (.start ⟨∅, ∅, ∅, ∅, ∅⟩ none) dropActions = some s ∧
    EveryStep Uni.step NoLateChild (.start ⟨∅, ∅, ∅, ∅, ∅⟩ none) dropActions ∧
    s.step (.next "p" {}) = some s' ∧ s.handle.cache.lookup "p" = some e ∧
    s'.handle.cache.lookup "p" = some e' ∧ e'.status = .tombstoned ∧
    ∀ m c, s.handle.cache.lookup m = some c → c.parentForkId ≠ some e.id := by
  have hlate : EveryStep Uni.step NoLateChild (.start ⟨∅, ∅, ∅, ∅, ∅⟩ none) dropActions := by
    decide +kernel
  rcases flip_of_run dropActions "p" ⟨"01"⟩ (by decide +kernel) (by decide +kernel)
    (by decide +kernel) (by decide +kernel) with
    ⟨s, s', info, e, e', hrun, hcall, hstep, he, -, he', hactive, htomb⟩
  refine ⟨s, s', e, e', hrun, hlate, hstep, he, he', htomb, ?_⟩
  refine drop_childless ⟨fun _ _ h => (by cases h), fun _ _ _ _ h => (by cases h)⟩ hlate hrun
    hcall hstep he ?_
  rw [he']
  rintro ⟨⟩
  rw [hactive] at htomb
  cases htomb

/-- The session creates a nested fork while the drop waits, and both sessions are closed. -/
def lateChildActions : List UniAction :=
  forkActions ++ [.dropFork "p", .next "p" {}, .next "p" {},
    .fork onParent "c" false, .next "c" {}, .next "c" { id := ⟨"02"⟩ }, .next "c" {},
    .next "c" {}, .next "c" { session := 2 }, .next "c" {},
    .close onParent, .close onChild, .next "p" {}, .next "p" {}, .next "p" {}]

/-- The parent is dropped and its child stays behind. -/
theorem drop_orphans_child : ∃ s s' : Uni, ∃ e e' c : ForkInfo,
    run Uni.step (.start ⟨∅, ∅, ∅, ∅, ∅⟩ none) lateChildActions = some s ∧
    s.step (.next "p" {}) = some s' ∧ s.handle.cache.lookup "p" = some e ∧
    s'.handle.cache.lookup "p" = some e' ∧ e'.status = .tombstoned ∧
    s.handle.cache.lookup "c" = some c ∧ c.parentForkId = some e.id := by
  have hchild : ∀ s ∈ run Uni.step (.start ⟨∅, ∅, ∅, ∅, ∅⟩ none) lateChildActions,
      (s.handle.cache.lookup "c").map ForkInfo.parentForkId = some (some ⟨"01"⟩) := by
    decide +kernel
  rcases flip_of_run lateChildActions "p" ⟨"01"⟩ (by decide +kernel) (by decide +kernel)
    (by decide +kernel) (by decide +kernel) with
    ⟨s, s', info, e, e', hrun, -, hstep, he, hid, he', -, htomb⟩
  rcases Option.map_eq_some_iff.mp (hchild s hrun) with ⟨c, hc, hparent⟩
  exact ⟨s, s', e, e', c, hrun, hstep, he, he', htomb, hc, by rw [hparent, hid]⟩

end Fork

end UniDb
