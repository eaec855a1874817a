import Dtq.Lib.Transition

/-!
# Runs that keep the books of another system

One system is simulated by another when a relation between their states can be kept up: whatever
step the first one takes, the second one follows with a run of its own. Which labels that run has
is not left to the proof. They are what the step *shows*, a function of the step, so that the
second system says what histories the first one can show.

A bound on the states of the first system may be assumed at the end of a run only, as long as no
step leads back within it.

## Main results

* `Transition.run_shown` — the labels that a run shows are a run of the second system
-/

set_option autoImplicit false

namespace Transition

variable {σ τ α β : Type*} {step : σ → α → Option σ} {bookStep : τ → β → Option τ}

/-- What the steps of an explicit run show, one after another. -/
def shown (step : σ → α → Option σ) (shows : σ → α → σ → List β) (s : σ) : List α → List β
  | [] => []
  | a :: rest => (step s a).elim [] fun t => shows s a t ++ shown step shows t rest

variable {shows : σ → α → σ → List β}

theorem shown_cons {s t : σ} {a : α} (hstep : step s a = some t) (rest : List α) :
    shown step shows s (a :: rest) = shows s a t ++ shown step shows t rest := by
  simp [shown, hstep]

/-- What no step leads back to held all along. -/
theorem of_run_of_back {B : σ → Prop} (hback : ∀ s a t, step s a = some t → B t → B s)
    {labels : List α} {s t : σ} (h : run step s labels = some t) (ht : B t) : B s := by
  induction labels generalizing s with
  | nil =>
    obtain rfl : s = t := by simpa [run] using h
    exact ht
  | cons a rest ih =>
    obtain ⟨u, hu, hrest⟩ := Option.bind_eq_some_iff.mp h
    exact hback s a u hu (ih hrest)

/-- **Simulation rule.** If the second system can follow every step, from related states that meet
the invariant to related states, with the labels that the step shows, then it can follow every
run with the labels that the run shows. -/
theorem run_shown {I B : σ → Prop} {R : σ → τ → Prop}
    (hinv : ∀ s a s', I s → step s a = some s' → I s')
    (hback : ∀ s a s', step s a = some s' → B s' → B s)
    (hfollow : ∀ s a s' t, I s → B s' → R s t → step s a = some s' →
      ∃ t', run bookStep t (shows s a s') = some t' ∧ R s' t')
    {labels : List α} {s s' : σ} {t : τ} (hs : I s) (hR : R s t)
    (h : run step s labels = some s') (hbound : B s') :
    ∃ t', run bookStep t (shown step shows s labels) = some t' ∧ R s' t' := by
  induction labels generalizing s t with
  | nil =>
    obtain rfl : s = s' := by simpa [run] using h
    exact ⟨t, rfl, hR⟩
  | cons a rest ih =>
    obtain ⟨u, hu, hrest⟩ := Option.bind_eq_some_iff.mp h
    -- the bound passes from the end of the run to the state after its first step
    have hboundU : B u := of_run_of_back hback hrest hbound
    obtain ⟨v, hv, hRv⟩ := hfollow s a u t hs hboundU hR hu
    obtain ⟨t', ht', hR'⟩ := ih (hinv s a u hs hu) hRv hrest
    refine ⟨t', ?_, hR'⟩
    rw [shown_cons hu, run_append, hv]
    exact ht'

end Transition
