import Dtq.Core.Models
import Dtq.Lib.Kahn

/-!
# Workflow graphs

`dtq/workflow/dag.py`: the validation of a step list by Kahn's algorithm and the readiness filter
that the engine applies at every advance. The two are written independently of each other:
the validator follows edges from a dependency to the steps that name it, the filter looks from a
step at its dependencies.

The set of names is iterated in an order that Python does not promise. It is an argument here.

## Main results

* `validateDag_sorted` — in the order returned, every dependency comes before the steps that name it
* `exists_ready` — as long as some step of an accepted list is not completed, some step is ready
-/

set_option autoImplicit false

namespace Dtq

/-- The `retry` entry of a step. A request leaves it `null` unless it gives one; a step list handed
to the engine directly may not have the entry. -/
inductive RetryEntry
  | absent
  | null
  | mapping (fields : List (String × Json))
deriving DecidableEq

/-- A step of a workflow spec. The entries `payload`, `depends_on` and `fan_out` may be missing. -/
structure WorkflowStep where
  name : String
  task : String
  payload : Option (List (String × Json)) := none
  dependsOn : List String := []
  fanOut : Option String := none
  retry : RetryEntry := .absent
deriving DecidableEq

/-- The `WorkflowCycleError` that `validate_dag` raises. -/
inductive DagError
  | unknownStep (step dep : String)
  | cycle (remaining : List String)
deriving DecidableEq

/-- Its text. `reprSet` is how Python prints a set of names. -/
def DagError.text (reprSet : List String → String) : DagError → String
  | .unknownStep step dep => "Step '" ++ step ++ "' depends on unknown step '" ++ dep ++ "'"
  | .cycle remaining => "Workflow DAG contains a cycle involving steps: " ++ reprSet remaining

/-- The tables `validate_dag` builds: `graph`, `in_degree` and `all_names`. A name without an entry
has no successors and in-degree zero. -/
structure DagTables where
  graph : String → List String
  inDegree : String → ℤ
  allNames : List String

namespace DagTables

/-- No entries. -/
def empty : DagTables := ⟨fun _ => [], fun _ => 0, []⟩

/-- The body of the loop over `depends_on` of the step called `name`. -/
def addDep (name : String) (t : DagTables) (dep : String) : DagTables :=
  { graph := Function.update t.graph dep (t.graph dep ++ [name])
    inDegree := Function.update t.inDegree name (t.inDegree name + 1)
    allNames := t.allNames.insert dep }

/-- The body of the loop over the steps. -/
def addStep (t : DagTables) (step : WorkflowStep) : DagTables :=
  step.dependsOn.foldl (addDep step.name) { t with allNames := t.allNames.insert step.name }

/-- The tables of a step list. -/
def ofSteps (steps : List WorkflowStep) : DagTables := steps.foldl addStep empty

/-- The topological order that the loop arrives at. `order` is the order in which the set of names
is iterated. -/
def topoOrder (t : DagTables) (order : List String) : List String :=
  (Kahn.loop t.graph t.allNames.length
    ⟨order.filter fun name => t.inDegree name = 0, t.inDegree, []⟩).order

end DagTables

/-- The first dependency that names no step, with the step that has it. -/
def firstUnknown (steps : List WorkflowStep) : Option (String × String) :=
  steps.findSome? fun step =>
    (step.dependsOn.find? fun dep => dep ∉ steps.map WorkflowStep.name).map fun dep =>
      (step.name, dep)

/-- `validate_dag`. -/
def validateDag (order : List String) (steps : List WorkflowStep) :
    Except DagError (List String) :=
  let t := DagTables.ofSteps steps
  match firstUnknown steps with
  | some (step, dep) => .error (.unknownStep step dep)
  | none =>
    let topo := t.topoOrder order
    if topo.length ≠ t.allNames.length then .error (.cycle (order.filter (· ∉ topo)))
    else .ok topo

/-- `get_ready_steps`: the steps that are not completed and whose dependencies all are. -/
def getReadySteps (steps : List WorkflowStep) (completed : List String) : List WorkflowStep :=
  steps.filter fun step =>
    step.name ∉ completed ∧ ∀ dep ∈ step.dependsOn, dep ∈ completed

theorem mem_getReadySteps {steps : List WorkflowStep} {completed : List String}
    {step : WorkflowStep} :
    step ∈ getReadySteps steps completed ↔
      step ∈ steps ∧ step.name ∉ completed ∧ ∀ dep ∈ step.dependsOn, dep ∈ completed := by
  simp [getReadySteps]

/-! ### The tables describe the dependencies -/

namespace DagTables

/-- What holds of the tables after any number of steps: names are listed once, only listed names
have successors, all successors are listed, and the in-degrees count the edges. -/
structure Inv (t : DagTables) : Prop where
  nodup : t.allNames.Nodup
  sources : ∀ y, y ∉ t.allNames → t.graph y = []
  targets : ∀ y, ∀ x ∈ t.graph y, x ∈ t.allNames
  degree : ∀ x, t.inDegree x = Kahn.incoming t.graph t.allNames x

theorem inv_empty : Inv empty where
  nodup := List.nodup_nil
  sources := fun _ _ => rfl
  targets := fun _ _ hx => absurd hx List.not_mem_nil
  degree := fun _ => rfl

/-- A name that is already listed, or has no successors, adds no edges when it is listed. -/
theorem incoming_insert {t : DagTables} (h : t.Inv) (name x : String) :
    Kahn.incoming t.graph (t.allNames.insert name) x = Kahn.incoming t.graph t.allNames x := by
  by_cases hname : name ∈ t.allNames
  · rw [List.insert_of_mem hname]
  · simp [List.insert_of_not_mem hname, Kahn.incoming, h.sources name hname]

theorem Inv.insert {t : DagTables} (h : t.Inv) (name : String) :
    Inv { t with allNames := t.allNames.insert name } where
  nodup := h.nodup.insert
  sources := fun y hy => h.sources y fun hmem => hy (List.mem_insert_of_mem hmem)
  targets := fun y x hx => List.mem_insert_of_mem (h.targets y x hx)
  degree := fun x => by
    rw [incoming_insert h]
    exact h.degree x

/-- One more edge out of a listed node counts once at its target. -/
theorem incoming_update {graph : String → List String} {names : List String} (hnames : names.Nodup)
    {dep : String} (hdep : dep ∈ names) (name x : String) :
    Kahn.incoming (Function.update graph dep (graph dep ++ [name])) names x =
      Kahn.incoming graph names x + if name = x then 1 else 0 := by
  have hperm := List.perm_cons_erase hdep
  have hrest : ∀ y ∈ names.erase dep,
      (Function.update graph dep (graph dep ++ [name]) y).count x = (graph y).count x := by
    intro y hy
    have hne : y ≠ dep := fun heq => (hnames.not_mem_erase (heq ▸ hy : dep ∈ names.erase dep))
    rw [Function.update_of_ne hne]
  rw [Kahn.incoming, Kahn.incoming, (hperm.map _).sum_eq,
    (hperm.map fun y => (graph y).count x).sum_eq, List.map_cons, List.map_cons,
    List.sum_cons, List.sum_cons, List.map_congr_left hrest, Function.update_self,
    List.count_append, List.count_singleton]
  by_cases hx : name = x
  · simp only [hx, beq_self_eq_true, if_true]
    omega
  · simp [hx]

theorem Inv.addDep {t : DagTables} (h : t.Inv) {name : String} (hname : name ∈ t.allNames)
    (dep : String) : (t.addDep name dep).Inv := by
  have hins := h.insert dep
  have hdep : dep ∈ t.allNames.insert dep := List.mem_insert_self
  refine ⟨hins.nodup, ?_, ?_, ?_⟩
  · intro y hy
    have hne : y ≠ dep := fun heq => hy (heq ▸ hdep)
    simp only [DagTables.addDep, Function.update_of_ne hne]
    exact hins.sources y hy
  · intro y x hx
    by_cases heq : y = dep
    · subst heq
      simp only [DagTables.addDep, Function.update_self, List.mem_append,
        List.mem_singleton] at hx
      rcases hx with hx | rfl
      · exact hins.targets y x hx
      · exact List.mem_insert_of_mem hname
    · simp only [DagTables.addDep, Function.update_of_ne heq] at hx
      exact hins.targets y x hx
  · intro x
    have hdegree := hins.degree x
    simp only [DagTables.addDep]
    rw [incoming_update hins.nodup hdep name x]
    by_cases hx : x = name
    · subst hx
      simp only [Function.update_self, if_true]
      push_cast
      rw [← hdegree]
    · simp only [Function.update_of_ne hx, Ne.symm hx, if_false]
      exact hdegree

theorem Inv.foldl_addDep {t : DagTables} (h : t.Inv) {name : String} (hname : name ∈ t.allNames)
    (deps : List String) : (deps.foldl (DagTables.addDep name) t).Inv := by
  induction deps generalizing t with
  | nil => exact h
  | cons dep deps ih => exact ih (h.addDep hname dep) (List.mem_insert_of_mem hname)

theorem inv_ofSteps (steps : List WorkflowStep) : (ofSteps steps).Inv := by
  have hfold : ∀ t : DagTables, t.Inv → (steps.foldl addStep t).Inv := by
    induction steps with
    | nil => exact fun _ h => h
    | cons step steps ih =>
      intro t h
      exact ih _ ((h.insert step.name).foldl_addDep List.mem_insert_self step.dependsOn)
  exact hfold empty inv_empty

theorem mem_allNames_foldl_addDep (name x : String) (deps : List String) (t : DagTables) :
    x ∈ (deps.foldl (addDep name) t).allNames ↔ x ∈ t.allNames ∨ x ∈ deps := by
  induction deps generalizing t with
  | nil => simp
  | cons dep deps ih =>
    rw [List.foldl_cons, ih, addDep, List.mem_insert_iff, List.mem_cons]
    tauto

theorem mem_graph_foldl_addDep (name x y : String) (deps : List String) (t : DagTables) :
    x ∈ (deps.foldl (addDep name) t).graph y ↔ x ∈ t.graph y ∨ x = name ∧ y ∈ deps := by
  induction deps generalizing t with
  | nil => simp
  | cons dep deps ih =>
    rw [List.foldl_cons, ih, addDep]
    by_cases hy : y = dep
    · subst hy
      simp only [Function.update_self, List.mem_append, List.mem_cons, List.not_mem_nil, or_false,
        true_or, and_true]
      tauto
    · simp [hy]

/-- The names are those of the steps and of their dependencies. -/
theorem mem_allNames_ofSteps {steps : List WorkflowStep} {x : String} :
    x ∈ (ofSteps steps).allNames ↔ ∃ step ∈ steps, x = step.name ∨ x ∈ step.dependsOn := by
  have hfold : ∀ t : DagTables, x ∈ (steps.foldl addStep t).allNames ↔
      x ∈ t.allNames ∨ ∃ step ∈ steps, x = step.name ∨ x ∈ step.dependsOn := by
    induction steps with
    | nil => simp
    | cons step steps ih =>
      intro t
      rw [List.foldl_cons, ih, addStep, mem_allNames_foldl_addDep, List.mem_insert_iff]
      simp only [List.mem_cons, exists_eq_or_imp]
      rw [or_comm (a := x = step.name), or_assoc, or_assoc, or_assoc]
  rw [ofSteps, hfold empty]
  simp [empty]

/-- The edges lead from a dependency to the steps that name it. -/
theorem mem_graph_ofSteps {steps : List WorkflowStep} {x y : String} :
    x ∈ (ofSteps steps).graph y ↔ ∃ step ∈ steps, x = step.name ∧ y ∈ step.dependsOn := by
  have hfold : ∀ t : DagTables, x ∈ (steps.foldl addStep t).graph y ↔
      x ∈ t.graph y ∨ ∃ step ∈ steps, x = step.name ∧ y ∈ step.dependsOn := by
    induction steps with
    | nil => simp
    | cons step steps ih =>
      intro t
      rw [List.foldl_cons, ih, addStep, mem_graph_foldl_addDep]
      simp only [List.mem_cons, exists_eq_or_imp]
      tauto
  rw [ofSteps, hfold empty]
  simp [empty]

/-- The loop keeps the invariant of the algorithm and empties its queue, whatever order the names
are iterated in. -/
theorem topoOrder_spec (steps : List WorkflowStep) {order : List String}
    (horder : order.Perm (ofSteps steps).allNames) :
    ∃ s : Kahn.State String, s.order = (ofSteps steps).topoOrder order ∧ s.queue = [] ∧
      Kahn.Inv (ofSteps steps).allNames (ofSteps steps).graph s [] := by
  have h := inv_ofSteps steps
  have hstart : Kahn.Inv (ofSteps steps).allNames (ofSteps steps).graph
      ⟨order.filter fun name => (ofSteps steps).inDegree name = 0, (ofSteps steps).inDegree, []⟩
      [] := by
    refine .start ((horder.nodup_iff.mpr h.nodup).filter _) (fun x => ?_) fun x _ => h.degree x
    rw [List.mem_filter, horder.mem_iff, decide_eq_true_iff]
  have hend := Kahn.loop_spec h.nodup (fun y _ => h.targets y) (ofSteps steps).allNames.length
    hstart (by simp)
  exact ⟨_, rfl, hend.2, hend.1⟩

end DagTables

/-! ### Accepted step lists -/

theorem firstUnknown_eq_none_iff {steps : List WorkflowStep} :
    firstUnknown steps = none ↔
      ∀ step ∈ steps, ∀ dep ∈ step.dependsOn, ∃ other ∈ steps, other.name = dep := by
  simp [firstUnknown]

/-- What acceptance gives: the dependencies are known, and the order returned lists every name
after everything it depends on. -/
structure Sorted (steps : List WorkflowStep) (topo : List String) : Prop where
  known : ∀ step ∈ steps, ∀ dep ∈ step.dependsOn, ∃ other ∈ steps, other.name = dep
  names : ∀ x, x ∈ topo ↔ ∃ step ∈ steps, step.name = x
  before : ∀ front x back, topo = front ++ x :: back →
    ∀ step ∈ steps, step.name = x → ∀ dep ∈ step.dependsOn, dep ∈ front

theorem validateDag_eq_ok_iff {order : List String} {steps : List WorkflowStep}
    {topo : List String} :
    validateDag order steps = .ok topo ↔
      firstUnknown steps = none ∧ (DagTables.ofSteps steps).topoOrder order = topo ∧
        topo.length = (DagTables.ofSteps steps).allNames.length := by
  unfold validateDag
  cases firstUnknown steps with
  | some unknown => simp
  | none =>
    simp only [ne_eq, ite_not, true_and]
    constructor
    · intro h
      split_ifs at h with hlength
      obtain rfl := Except.ok.inj h
      exact ⟨rfl, hlength⟩
    · rintro ⟨rfl, hlength⟩
      rw [if_pos hlength]

/-- The order returned lists the names of the table. -/
theorem validateDag_perm {order : List String} {steps : List WorkflowStep} {topo : List String}
    (horder : order.Perm (DagTables.ofSteps steps).allNames)
    (h : validateDag order steps = .ok topo) : topo.Perm (DagTables.ofSteps steps).allNames := by
  obtain ⟨-, rfl, hlength⟩ := validateDag_eq_ok_iff.mp h
  obtain ⟨s, hs, -, hinv⟩ := DagTables.topoOrder_spec steps horder
  rw [← hs] at hlength ⊢
  have hsub : s.order ⊆ (DagTables.ofSteps steps).allNames := fun x hx =>
    hinv.subset x (List.mem_append_left _ hx)
  -- as many as there are names, without repetition: all of them
  exact (List.subperm_of_subset (List.nodup_append.mp hinv.nodup).1 hsub).perm_of_length_le
    hlength.ge

theorem validateDag_sorted {order : List String} {steps : List WorkflowStep} {topo : List String}
    (horder : order.Perm (DagTables.ofSteps steps).allNames)
    (h : validateDag order steps = .ok topo) : Sorted steps topo := by
  have hperm := validateDag_perm horder h
  obtain ⟨hknown, rfl, -⟩ := validateDag_eq_ok_iff.mp h
  rw [firstUnknown_eq_none_iff] at hknown
  obtain ⟨s, hs, -, hinv⟩ := DagTables.topoOrder_spec steps horder
  rw [← hs] at hperm ⊢
  refine ⟨hknown, fun x => ?_, fun front x back hsplit step hstep hname dep hdep => ?_⟩
  · rw [hperm.mem_iff, DagTables.mem_allNames_ofSteps]
    constructor
    · rintro ⟨step, hstep, rfl | hx⟩
      · exact ⟨step, hstep, rfl⟩
      · exact hknown step hstep x hx
    · rintro ⟨step, hstep, rfl⟩
      exact ⟨step, hstep, Or.inl rfl⟩
  · refine hinv.sorted front x back hsplit dep ?_ ?_
    · exact DagTables.mem_allNames_ofSteps.mpr ⟨step, hstep, Or.inr hdep⟩
    · exact DagTables.mem_graph_ofSteps.mpr ⟨step, hstep, hname.symm, hdep⟩

/-- **No accepted list is stuck.** As long as some step is not completed, some step is ready: the
first name of the order that is not completed has only completed names before it. -/
theorem Sorted.exists_ready {steps : List WorkflowStep} {topo : List String}
    (h : Sorted steps topo) {completed : List String}
    (hleft : ∃ step ∈ steps, step.name ∉ completed) :
    ∃ step, step ∈ getReadySteps steps completed := by
  obtain ⟨step, hstep, hnew⟩ := hleft
  have hmem : step.name ∈ topo := (h.names step.name).mpr ⟨step, hstep, rfl⟩
  cases hfirst : topo.find? (· ∉ completed) with
  | none =>
    have hall := List.find?_eq_none.mp hfirst step.name hmem
    exact absurd hnew (by simpa using hall)
  | some x =>
    obtain ⟨hx, front, back, hsplit, hfront⟩ := List.find?_eq_some_iff_append.mp hfirst
    obtain ⟨ready, hready, hname⟩ := (h.names x).mp (by simp [hsplit])
    refine ⟨ready, mem_getReadySteps.mpr ⟨hready, ?_, fun dep hdep => ?_⟩⟩
    · rw [hname]
      simpa using hx
    · have hdone := hfront dep (h.before front x back hsplit ready hready hname dep hdep)
      simpa using hdone

end Dtq
