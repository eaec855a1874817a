import Mathlib.Logic.Relation
import Mathlib.Data.List.Basic

/-!
# Runs of an executable transition function

A system is given by a partial step function `step : σ → α → Option σ`: the label
chooses who moves and how the environment answers, and `none` says that the
move is not possible in that state. All nondeterminism sits in the label, so a
concrete run can be evaluated, while properties are proved for every run.

Two notions of run are provided. `run` follows an explicit list of labels.
`ReachesWhen P` is reachability by runs all of whose steps meet a condition `P`
on the state before the step and the label; `Reaches` drops the condition.

## Main results

* `ReachesWhen.invariant` — what holds at the start and is kept by every step
  that meets the condition holds wherever such a run ends
* `exists_reachesWhen_of_measure` — a goal is reached when every other state has a step to a
  smaller one; `exists_reachesWhen_of_stages` is the rule for runs in place of steps
* `countWhen_add_le` — steps that lower a measure are no more than the measure says
* `ReachesWhen.of_run_guard` — an explicit run whose steps pass an executable
  test of the condition is a conditioned run
-/

set_option autoImplicit false

namespace Transition

variable {σ α : Type*} {step : σ → α → Option σ} {P Q : σ → α → Prop}

/-- Follow a list of labels, failing at the first move that is not possible. -/
def run (step : σ → α → Option σ) (s : σ) : List α → Option σ
  | [] => some s
  | a :: rest => (step s a).bind fun t => run step t rest

/-- One step whose label meets `P` in the state before the step. -/
def StepWhen (step : σ → α → Option σ) (P : σ → α → Prop) (s t : σ) : Prop :=
  ∃ a, P s a ∧ step s a = some t

/-- `t` is reached from `s` by a finite run all of whose steps meet `P`. -/
def ReachesWhen (step : σ → α → Option σ) (P : σ → α → Prop) : σ → σ → Prop :=
  Relation.ReflTransGen (StepWhen step P)

/-- `t` is reached from `s` by some finite run. -/
def Reaches (step : σ → α → Option σ) : σ → σ → Prop :=
  ReachesWhen step fun _ _ => True

theorem ReachesWhen.refl (s : σ) : ReachesWhen step P s s :=
  Relation.ReflTransGen.refl

theorem ReachesWhen.trans {s t u : σ} (hst : ReachesWhen step P s t)
    (htu : ReachesWhen step P t u) : ReachesWhen step P s u :=
  Relation.ReflTransGen.trans hst htu

theorem ReachesWhen.tail {s t u : σ} {a : α} (h : ReachesWhen step P s t) (hP : P t a)
    (hstep : step t a = some u) : ReachesWhen step P s u :=
  Relation.ReflTransGen.tail h ⟨a, hP, hstep⟩

/-- A weaker condition admits more runs. -/
theorem ReachesWhen.mono (hPQ : ∀ s a, P s a → Q s a) {s t : σ}
    (h : ReachesWhen step P s t) : ReachesWhen step Q s t := by
  induction h with
  | refl => exact .refl _
  | tail _ hlast ih =>
    obtain ⟨a, hP, ha⟩ := hlast
    exact ih.tail (hPQ _ _ hP) ha

theorem ReachesWhen.reaches {s t : σ} (h : ReachesWhen step P s t) : Reaches step s t :=
  h.mono fun _ _ _ => trivial

/-- **Invariant rule.** A predicate that holds at the start and is kept by every
step meeting the condition holds at the end of every conditioned run. -/
theorem ReachesWhen.invariant {I : σ → Prop}
    (hstep : ∀ s a t, I s → P s a → step s a = some t → I t) {s t : σ}
    (h : ReachesWhen step P s t) (hs : I s) : I t := by
  induction h with
  | refl => exact hs
  | tail _ hlast ih =>
    obtain ⟨a, hP, ha⟩ := hlast
    exact hstep _ a _ ih hP ha

/-- Invariant rule with the run so far at hand, for invariants that rest on other facts
about the states of the same run. -/
theorem ReachesWhen.invariant_along {I : σ → Prop} {s t : σ} (h : ReachesWhen step P s t)
    (hs : I s) (hstep : ∀ u a v, ReachesWhen step P s u → I u → P u a → step u a = some v → I v) :
    I t := by
  induction h with
  | refl => exact hs
  | tail hrun hlast ih =>
    obtain ⟨a, hP, ha⟩ := hlast
    exact hstep _ a _ hrun ih hP ha

/-- A condition that is weaker in every state of the run admits the run. -/
theorem ReachesWhen.mono_along {s t : σ} (h : ReachesWhen step P s t)
    (hPQ : ∀ u a, ReachesWhen step P s u → P u a → Q u a) : ReachesWhen step Q s t := by
  induction h with
  | refl => exact .refl _
  | tail hrun hlast ih =>
    obtain ⟨a, hP, ha⟩ := hlast
    exact ih.tail (hPQ _ _ hrun hP) ha

/-- Invariant rule relating the two ends of a run: a reflexive, transitive
relation that every step keeps holds from the start to the end. -/
theorem ReachesWhen.relation {R : σ → σ → Prop} (hrefl : ∀ s, R s s)
    (htrans : ∀ s t u, R s t → R t u → R s u)
    (hstep : ∀ s a t, P s a → step s a = some t → R s t) {s t : σ}
    (h : ReachesWhen step P s t) : R s t := by
  induction h with
  | refl => exact hrefl s
  | tail _ hlast ih =>
    obtain ⟨a, hP, ha⟩ := hlast
    exact htrans _ _ _ ih (hstep _ a _ hP ha)

/-- Invariant rule without a condition on the steps. -/
theorem Reaches.invariant {I : σ → Prop}
    (hstep : ∀ s a t, I s → step s a = some t → I t) {s t : σ}
    (h : Reaches step s t) (hs : I s) : I t :=
  ReachesWhen.invariant (fun s a t hI _ ha => hstep s a t hI ha) h hs

/-- **Progress rule for stages.** When from every state that meets the invariant and is no goal a
run leads to a smaller state that meets it, a goal can be reached. In between the invariant may
fail. -/
theorem exists_reachesWhen_of_stages {I G : σ → Prop} (μ : σ → ℕ)
    (hprogress : ∀ s, I s → G s ∨ ∃ t, ReachesWhen step P s t ∧ I t ∧ μ t < μ s) {s : σ}
    (hs : I s) : ∃ t, ReachesWhen step P s t ∧ I t ∧ G t := by
  induction hm : μ s using Nat.strongRecOn generalizing s with
  | ind m ih =>
    rcases hprogress s hs with hgoal | ⟨t, hstage, ht, hlt⟩
    · exact ⟨s, .refl s, hs, hgoal⟩
    · obtain ⟨u, hreach, hu, hgoal⟩ := ih _ (hm ▸ hlt) ht rfl
      exact ⟨u, hstage.trans hreach, hu, hgoal⟩

/-- **Progress rule.** When every state that meets the invariant is a goal or has a step to a
smaller state that meets it, a goal can be reached. -/
theorem exists_reachesWhen_of_measure {I G : σ → Prop} (μ : σ → ℕ)
    (hprogress : ∀ s, I s → G s ∨ ∃ a t, P s a ∧ step s a = some t ∧ I t ∧ μ t < μ s) {s : σ}
    (hs : I s) : ∃ t, ReachesWhen step P s t ∧ I t ∧ G t := by
  refine exists_reachesWhen_of_stages μ (fun s hI => (hprogress s hI).imp_right ?_) hs
  rintro ⟨a, t, hP, hstep, ht, hlt⟩
  exact ⟨t, (ReachesWhen.refl s).tail hP hstep, ht, hlt⟩

/-! ### Explicit runs -/

/-- A run of two lists of labels is a run of the first and then of the second. -/
theorem run_append (s : σ) (labels labels' : List α) :
    run step s (labels ++ labels') = (run step s labels).bind fun t => run step t labels' := by
  induction labels generalizing s with
  | nil => rfl
  | cons a rest ih =>
    cases hstep : step s a with
    | none => simp [run, hstep]
    | some t => simp [run, hstep, ih]

/-- An explicit run whose labels meet the condition in every state is a conditioned run. -/
theorem ReachesWhen.of_run :
    ∀ {labels : List α} {s t : σ}, (∀ a ∈ labels, ∀ u, P u a) → run step s labels = some t →
      ReachesWhen step P s t
  | [], s, t, _, h => by
    obtain rfl : s = t := by simpa [run] using h
    exact .refl _
  | a :: rest, s, t, hP, h => by
    obtain ⟨u, hu, hrest⟩ := Option.bind_eq_some_iff.mp h
    have hfirst := (ReachesWhen.refl s).tail (hP a List.mem_cons_self s) hu
    exact hfirst.trans (of_run (fun b hb => hP b (List.mem_cons_of_mem _ hb)) hrest)

/-- An explicit run reaches its end. -/
theorem Reaches.of_run {labels : List α} {s t : σ} (h : run step s labels = some t) :
    Reaches step s t :=
  ReachesWhen.of_run (fun _ _ _ => trivial) h

/-- Evaluating a test at the end of an explicit run produces the end state
together with what the test established. -/
theorem exists_run_of_check (step : σ → α → Option σ) (s : σ) (labels : List α)
    (check : σ → Prop) [DecidablePred check]
    (h : (run step s labels).map (fun t => decide (check t)) = some true) :
    ∃ t, run step s labels = some t ∧ check t := by
  obtain ⟨t, ht, hcheck⟩ := Option.map_eq_some_iff.mp h
  exact ⟨t, ht, of_decide_eq_true hcheck⟩

section Guard

variable (step) (P) [∀ s a, Decidable (P s a)]

/-- The step function restricted to moves that meet a decidable condition. -/
def guard (s : σ) (a : α) : Option σ := if P s a then step s a else none

variable {step P}

/-- An explicit run of the restricted step function is a conditioned run. -/
theorem ReachesWhen.of_run_guard :
    ∀ {labels : List α} {s t : σ}, run (guard step P) s labels = some t → ReachesWhen step P s t
  | [], s, t, h => by
    obtain rfl : s = t := by simpa [run] using h
    exact .refl _
  | a :: rest, s, t, h => by
    obtain ⟨u, hu, hrest⟩ := Option.bind_eq_some_iff.mp h
    by_cases hpass : P s a
    · rw [guard, if_pos hpass] at hu
      exact (ReachesWhen.refl s).tail hpass hu |>.trans (of_run_guard hrest)
    · rw [guard, if_neg hpass] at hu
      exact absurd hu (by simp)

/-- Evaluating a test at the end of an explicit conditioned run. -/
theorem exists_reachesWhen_of_check (step : σ → α → Option σ) (P : σ → α → Prop)
    [∀ s a, Decidable (P s a)] (s : σ) (labels : List α) (check : σ → Prop)
    [DecidablePred check]
    (h : (run (guard step P) s labels).map (fun t => decide (check t)) = some true) :
    ∃ t, ReachesWhen step P s t ∧ check t := by
  obtain ⟨t, ht, hcheck⟩ := exists_run_of_check _ s labels check h
  exact ⟨t, .of_run_guard ht, hcheck⟩

end Guard

/-! ### Counting steps -/

section Count

variable (step) (B : σ → α → Prop) [∀ s a, Decidable (B s a)]

/-- How many steps of an explicit run meet `B`. -/
def countWhen (s : σ) : List α → ℕ
  | [] => 0
  | a :: rest => (if B s a then 1 else 0) + (step s a).elim 0 fun t => countWhen t rest

variable {step B} {P : σ → α → Prop} [∀ s a, Decidable (P s a)]

/-- **Termination rule.** When every step meeting `P` keeps the invariant and does not raise the
measure, and those that meet `B` lower it, a run has no more steps meeting `B` than the measure
says at its start. -/
theorem countWhen_add_le {I : σ → Prop} (μ : σ → ℕ)
    (hstep : ∀ s a t, I s → P s a → step s a = some t →
      I t ∧ (if B s a then 1 else 0) + μ t ≤ μ s) {labels : List α} {s t : σ} (hs : I s)
    (h : run (guard step P) s labels = some t) : countWhen step B s labels + μ t ≤ μ s := by
  induction labels generalizing s with
  | nil =>
    obtain rfl : s = t := by simpa [run] using h
    simp [countWhen]
  | cons a rest ih =>
    obtain ⟨u, hu, hrest⟩ := Option.bind_eq_some_iff.mp h
    by_cases hpass : P s a
    · rw [guard, if_pos hpass] at hu
      obtain ⟨hI, hle⟩ := hstep s a u hs hpass hu
      have hcount := ih hI hrest
      simp only [countWhen, hu, Option.elim_some]
      omega
    · rw [guard, if_neg hpass] at hu
      exact absurd hu (by simp)

end Count

end Transition
