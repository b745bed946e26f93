/-!
# Lists of Steps That a Crash Cuts Off

What holds at every point of a fixed list of steps.

A protocol that writes several objects in a fixed order is a list of steps. It
may be cut off after any of them, so its states in between have to be good
enough to recover from, and its last state is the one it is meant to reach.
`Along f P Q as s` says both: `P` holds before each step, of the state and the
step that comes next, and `Q` holds at the end.
It is defined by recursion on the list, so taking the next step of a protocol
that is half done keeps it, and it holds of what is left.

## Main definitions

* `Along`: A property before each step of a list and another after the last.

## Theorems

* `Along.head`: What holds where the list is cut off.
* `along_append`: One list of steps after another.
* `along_loop`: A loop over a list, with an invariant about the part done.
-/

namespace UniDb

variable {σ α β : Type}

/-- `P` holds before each of the steps and `Q` after the last one. -/
def Along (f : σ → α → σ) (P : σ → α → Prop) (Q : σ → Prop) : List α → σ → Prop
  | [], s => Q s
  | a :: as, s => P s a ∧ Along f P Q as (f s a)

variable {f : σ → α → σ} {P : σ → α → Prop} {Q R : σ → Prop} {s : σ}

theorem Along.head (hP : ∀ s a, P s a → R s) (hQ : ∀ s, Q s → R s) {as : List α}
    (h : Along f P Q as s) : R s := by
  cases as with
  | nil => exact hQ s h
  | cons a => exact hP s a h.1

theorem along_append {as bs : List α} (h : Along f P R as s)
    (hR : ∀ t, R t → Along f P Q bs t) : Along f P Q (as ++ bs) s := by
  induction as generalizing s with
  | nil => exact hR s h
  | cons a as ih => exact ⟨h.1, ih h.2⟩

theorem Along.mono {as : List α} (hQ : ∀ t, Q t → R t) (h : Along f P Q as s) :
    Along f P R as s := by
  induction as generalizing s with
  | nil => exact hQ s h
  | cons a as ih => exact ⟨h.1, ih h.2⟩

/-- A loop that takes one step for each element. The invariant speaks of the
    elements that are done. -/
theorem along_loop {I : List β → σ → Prop} (g : β → α) (hP : ∀ done b s, I done s → P s (g b))
    (hstep : ∀ done b s, I done s → I (done ++ [b]) (f s (g b))) (bs : List β)
    (h : I [] s) : Along f P (I bs) (bs.map g) s := by
  have hgen : ∀ (bs done : List β) (s : σ), I done s → Along f P (I (done ++ bs)) (bs.map g) s := by
    intro bs
    induction bs with
    | nil =>
      intro done s hs
      rw [List.append_nil]
      exact hs
    | cons b bs ih =>
      intro done s hs
      refine ⟨hP done b s hs, ?_⟩
      rw [show done ++ b :: bs = (done ++ [b]) ++ bs by simp]
      exact ih (done ++ [b]) (f s (g b)) (hstep done b s hs)
  exact hgen bs [] s h

end UniDb
