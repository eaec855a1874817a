import Dtq.Workflow.Dag

/-!
# What `validate_dag` accepts

A step list is accepted exactly when every dependency names a step and no name depends on itself,
directly or over others. Steps may share a name: the relation is one on names, so a name depends
on whatever any of its steps depends on.

The scheduler has its own notion of a list that can be run: apply the readiness filter, take the
ready steps for completed, and repeat. For lists with pairwise distinct names the two agree.

## Main results

* `validateDag_iff` — acceptance is the absence of unknown names and of cycles, and the order
  returned is a topological one
* `validateDag_iff_rounds` — the accepted lists are those that the readiness filter gets through
-/

set_option autoImplicit false

namespace Dtq

open Relation

/-! ### Sound and complete -/

/-- Some step of the name `x` has the dependency. -/
def DependsOn (steps : List WorkflowStep) (x dep : String) : Prop :=
  ∃ step ∈ steps, step.name = x ∧ dep ∈ step.dependsOn

/-- Every dependency names a step, and the relation on names has no cycle. -/
structure Acceptable (steps : List WorkflowStep) : Prop where
  known : ∀ step ∈ steps, ∀ dep ∈ step.dependsOn, ∃ other ∈ steps, other.name = dep
  acyclic : ∀ x, ¬ TransGen (DependsOn steps) x x

/-- The list has every step name exactly once, and every dependency before each step that names
it. -/
structure TopologicalOrder (steps : List WorkflowStep) (topo : List String) : Prop where
  nodup : topo.Nodup
  names : ∀ x, x ∈ topo ↔ ∃ step ∈ steps, step.name = x
  before : ∀ front x back, topo = front ++ x :: back →
    ∀ step ∈ steps, step.name = x → ∀ dep ∈ step.dependsOn, dep ∈ front

variable {steps : List WorkflowStep} {order topo : List String}

/-- What can be sorted has no cycle. -/
theorem Sorted.acceptable (h : Sorted steps topo) : Acceptable steps := by
  refine ⟨h.known, fun x hcycle => ?_⟩
  refine Kahn.not_transGen_self_of_sorted (r := fun dep x => DependsOn steps x dep)
    topo ?_ ?_ x (transGen_swap.mp hcycle)
  · rintro dep x ⟨step, hstep, hname, -⟩
    exact (h.names x).mpr ⟨step, hstep, hname⟩
  · rintro before x after hsplit dep ⟨step, hstep, hname, hdep⟩
    exact h.before before x after hsplit step hstep hname dep hdep

/-- The loop leaves no name over when there is no cycle. -/
theorem exists_topo (horder : order.Perm (DagTables.ofSteps steps).allNames)
    (h : Acceptable steps) : ∃ topo, validateDag order steps = .ok topo := by
  have htables := DagTables.inv_ofSteps steps
  obtain ⟨s, hs, hqueue, hinv⟩ := DagTables.topoOrder_spec steps horder
  have hall : (DagTables.ofSteps steps).allNames ⊆ s.order := by
    refine hinv.subset_order hqueue fun x hcycle => h.acyclic x ?_
    refine transGen_swap.mp (TransGen.mono (fun y x hedge => ?_) x x hcycle)
    obtain ⟨step, hstep, hname, hdep⟩ := DagTables.mem_graph_ofSteps.mp hedge.2
    exact ⟨step, hstep, hname.symm, hdep⟩
  have hsub : s.order ⊆ (DagTables.ofSteps steps).allNames := fun x hx =>
    hinv.subset x (List.mem_append_left _ hx)
  have hnodup : s.order.Nodup := (List.nodup_append.mp hinv.nodup).1
  refine ⟨_, validateDag_eq_ok_iff.mpr ⟨firstUnknown_eq_none_iff.mpr h.known, rfl, ?_⟩⟩
  rw [← hs]
  exact ((List.perm_ext_iff_of_nodup hnodup htables.nodup).mpr
    fun x => ⟨fun hx => hsub hx, fun hx => hall hx⟩).length_eq

theorem validateDag_topologicalOrder (horder : order.Perm (DagTables.ofSteps steps).allNames)
    (h : validateDag order steps = .ok topo) : TopologicalOrder steps topo := by
  have hsorted := validateDag_sorted horder h
  refine ⟨?_, hsorted.names, hsorted.before⟩
  exact (validateDag_perm horder h).nodup_iff.mpr (DagTables.inv_ofSteps steps).nodup

/-- **`validate_dag` is sound and complete.** It returns exactly when every dependency names a
step and there is no cycle, and raises otherwise; what it returns is a topological order. The
names of the table may be iterated in any order. -/
theorem validateDag_iff (steps : List WorkflowStep) (order : List String)
    (horder : order.Perm (DagTables.ofSteps steps).allNames) :
    ((∃ topo, validateDag order steps = .ok topo) ↔ Acceptable steps) ∧
      (¬ Acceptable steps → ∃ error, validateDag order steps = .error error) ∧
      ∀ topo, validateDag order steps = .ok topo → TopologicalOrder steps topo := by
  have hiff : (∃ topo, validateDag order steps = .ok topo) ↔ Acceptable steps := by
    constructor
    · rintro ⟨topo, h⟩
      exact (validateDag_sorted horder h).acceptable
    · exact exists_topo horder
  refine ⟨hiff, fun hnot => ?_, fun topo h => validateDag_topologicalOrder horder h⟩
  cases h : validateDag order steps with
  | ok topo => exact absurd (hiff.mp ⟨topo, h⟩) hnot
  | error error => exact ⟨error, rfl⟩

/-- The theorem at two steps, one of which depends twice on the other. -/
theorem validateDag_iff_repeated :
    let steps : List WorkflowStep :=
      [⟨"b", "f", none, ["a", "a"], none, .absent⟩, ⟨"a", "g", none, [], none, .absent⟩]
    Acceptable steps ∧ ∃ topo, validateDag ["b", "a"] steps = .ok topo ∧
      TopologicalOrder steps topo := by
  intro steps
  have horder : ["b", "a"].Perm (DagTables.ofSteps steps).allNames := by decide
  have hok : validateDag ["b", "a"] steps = .ok ["a", "b"] := by decide
  have hiff := validateDag_iff steps ["b", "a"] horder
  exact ⟨hiff.1.mp ⟨_, hok⟩, _, hok, hiff.2.2 _ hok⟩

/-! ### The scheduler's rounds -/

/-- One round: the ready steps are run and completed. -/
def readyRound (steps : List WorkflowStep) (completed : List String) : List String :=
  completed ++ (getReadySteps steps completed).map WorkflowStep.name

theorem mem_readyRound {completed : List String} {x : String} :
    x ∈ readyRound steps completed ↔
      x ∈ completed ∨ ∃ step ∈ getReadySteps steps completed, step.name = x := by
  simp [readyRound]

/-- Once all the names before it are completed, the next name of the order is ready. -/
theorem TopologicalOrder.exists_ready (h : TopologicalOrder steps topo) {front back : List String}
    {x : String} (hsplit : topo = front ++ x :: back) {completed : List String}
    (hcompleted : ∀ y, y ∈ completed ↔ y ∈ front) :
    ∃ step ∈ getReadySteps steps completed, step.name = x := by
  obtain ⟨step, hstep, hname⟩ := (h.names x).mp (by simp [hsplit])
  have hnew : x ∉ front := by
    have hnodup := h.nodup
    rw [hsplit, List.nodup_append] at hnodup
    exact fun hx => hnodup.2.2 x hx x List.mem_cons_self rfl
  refine ⟨step, mem_getReadySteps.mpr ⟨hstep, ?_, fun dep hdep => ?_⟩, hname⟩
  · rwa [hname, hcompleted]
  · exact (hcompleted dep).mpr (h.before front x back hsplit step hstep hname dep hdep)

/-- After `n` rounds the first `n` names of the order are completed. -/
theorem TopologicalOrder.take_subset (h : TopologicalOrder steps topo) (n : ℕ) :
    topo.take n ⊆ (readyRound steps)^[n] [] := by
  induction n with
  | zero => simp
  | succ n ih =>
    rw [Function.iterate_succ_apply']
    intro x hx
    rw [mem_readyRound]
    by_cases hdone : x ∈ (readyRound steps)^[n] []
    · exact Or.inl hdone
    · -- it is the name after the first `n`, and its dependencies are among those
      obtain ⟨step, hstep, hname⟩ := (h.names x).mp (List.mem_of_mem_take hx)
      have hn : n < topo.length := by
        by_contra hlong
        rw [List.take_of_length_le (by omega)] at hx
        exact hdone (ih (by rwa [List.take_of_length_le (by omega)]))
      rw [List.take_add_one, List.getElem?_eq_getElem hn, List.mem_append] at hx
      have hxn : x = topo[n] := by
        simpa using hx.resolve_left fun hmem => hdone (ih hmem)
      have hsplit : topo = topo.take n ++ x :: topo.drop (n + 1) := by
        rw [hxn, List.getElem_cons_drop, List.take_append_drop]
      refine Or.inr ⟨step, mem_getReadySteps.mpr ⟨hstep, hname ▸ hdone, fun dep hdep => ?_⟩, hname⟩
      exact ih (h.before _ x _ hsplit step hstep hname dep hdep)

theorem not_self_of_acc {α : Type*} {r : α → α → Prop} {x : α} (h : Acc r x) : ¬ r x x := by
  induction h with
  | intro x _ ih => exact fun hself => ih x hself hself

/-- A name that is completed by rounds depends on no cycle: its dependencies were completed in the
round before. -/
theorem acc_of_mem_rounds (hnodup : (steps.map WorkflowStep.name).Nodup) (n : ℕ) :
    ∀ x ∈ (readyRound steps)^[n] [], Acc (fun dep x => DependsOn steps x dep) x := by
  induction n with
  | zero => simp
  | succ n ih =>
    intro x hx
    rw [Function.iterate_succ_apply', mem_readyRound] at hx
    rcases hx with hx | ⟨step, hready, rfl⟩
    · exact ih x hx
    · obtain ⟨hstep, -, hdeps⟩ := mem_getReadySteps.mp hready
      refine .intro _ fun dep ⟨other, hother, hname, hdep⟩ => ih dep (hdeps dep ?_)
      obtain rfl : other = step := List.inj_on_of_nodup_map hnodup hother hstep hname
      exact hdep

/-- **The validator and the scheduler agree.** A list with distinct names and known dependencies
is accepted exactly when rounds of the readiness filter reach all names, and then as many rounds
as there are steps are enough. In an accepted list, when a proper prefix of the order returned is
completed, the next name is ready. -/
theorem validateDag_iff_rounds (steps : List WorkflowStep) (order : List String)
    (horder : order.Perm (DagTables.ofSteps steps).allNames)
    (hnodup : (steps.map WorkflowStep.name).Nodup)
    (hknown : ∀ step ∈ steps, ∀ dep ∈ step.dependsOn, ∃ other ∈ steps, other.name = dep) :
    ((∃ topo, validateDag order steps = .ok topo) ↔
        ∃ n, ∀ step ∈ steps, step.name ∈ (readyRound steps)^[n] []) ∧
      ((∃ topo, validateDag order steps = .ok topo) ↔
        ∀ step ∈ steps, step.name ∈ (readyRound steps)^[steps.length] []) ∧
      ∀ topo, validateDag order steps = .ok topo → ∀ front x back, topo = front ++ x :: back →
        ∀ completed, (∀ y, y ∈ completed ↔ y ∈ front) →
          ∃ step ∈ getReadySteps steps completed, step.name = x := by
  have hrounds : (∃ topo, validateDag order steps = .ok topo) →
      ∀ step ∈ steps, step.name ∈ (readyRound steps)^[steps.length] [] := by
    rintro ⟨topo, hok⟩ step hstep
    have h := validateDag_topologicalOrder horder hok
    have hlength : topo.length ≤ steps.length := by
      rw [← List.length_map WorkflowStep.name]
      refine (List.subperm_of_subset h.nodup fun x hx => ?_).length_le
      obtain ⟨other, hother, rfl⟩ := (h.names x).mp hx
      exact List.mem_map_of_mem hother
    refine h.take_subset _ ?_
    rw [List.take_of_length_le hlength]
    exact (h.names _).mpr ⟨step, hstep, rfl⟩
  have haccepted : (∃ n, ∀ step ∈ steps, step.name ∈ (readyRound steps)^[n] []) →
      ∃ topo, validateDag order steps = .ok topo := by
    rintro ⟨n, hn⟩
    refine exists_topo horder ⟨hknown, fun x hcycle => ?_⟩
    obtain ⟨dep, ⟨step, hstep, rfl, -⟩, -⟩ := TransGen.head'_iff.mp hcycle
    exact not_self_of_acc (acc_of_mem_rounds hnodup n _ (hn step hstep)).transGen
      (transGen_swap.mp hcycle)
  refine ⟨⟨fun h => ⟨_, hrounds h⟩, haccepted⟩, ⟨hrounds, fun h => haccepted ⟨_, h⟩⟩, ?_⟩
  intro topo hok front x back hsplit completed hcompleted
  exact (validateDag_topologicalOrder horder hok).exists_ready hsplit hcompleted

/-- The theorem at a diamond. -/
theorem validateDag_iff_rounds_diamond :
    let steps : List WorkflowStep :=
      [⟨"d", "f", none, ["b", "c"], none, .absent⟩, ⟨"b", "f", none, ["a"], none, .absent⟩,
        ⟨"c", "f", none, ["a"], none, .absent⟩, ⟨"a", "f", none, [], none, .absent⟩]
    (∃ topo, validateDag ["d", "b", "c", "a"] steps = .ok topo) ∧
      (∀ step ∈ steps, step.name ∈ (readyRound steps)^[steps.length] []) ∧
      ∃ step ∈ getReadySteps steps ["b", "a"], step.name = "c" := by
  intro steps
  have hok : validateDag ["d", "b", "c", "a"] steps = .ok ["a", "b", "c", "d"] := by decide
  have h := validateDag_iff_rounds steps ["d", "b", "c", "a"] (by decide) (by decide) (by decide)
  refine ⟨⟨_, hok⟩, h.2.1.mp ⟨_, hok⟩, ?_⟩
  exact h.2.2 _ hok ["a", "b"] "c" ["d"] rfl _ fun y => by simp [or_comm]

end Dtq
