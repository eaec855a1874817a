import Dtq.Lib.NumberText
import Dtq.Workflow.Moves

/-!
# Task names

The engine recognises the tasks of a step by their name: a regular step's task has the step's own
name, and the tasks that a step fans out to have the name with a number in brackets. `WellNamed`
says when such names tell the steps apart.

## Main results

* `WorkflowStep.expand_names`, `WorkflowStep.expand_fan` — the names a step is launched under
* `WellNamed.eq_of_taskName` — a task name belongs to one step
* `Collected.plan_names_nodup` — a plan uses no name twice
-/

set_option autoImplicit false

namespace Dtq

namespace WorkflowStep

theorem siblingName_inj {a b : String} {i j : ℕ} (h : siblingName a i = siblingName b j) :
    a = b ∧ i = j := by
  have hlist := congrArg String.toList h
  simp only [siblingName, String.toList_append, List.append_assoc] at hlist
  -- the text of a number has no bracket, so both names end at the last one
  have hdigits : ∀ n : ℕ, '[' ∉ (toString n).toList ++ "]".toList := by
    intro n hmem
    rcases List.mem_append.mp hmem with hmem | hmem
    · exact absurd (NumberText.isDigit_of_mem_toString hmem) (by decide)
    · exact absurd hmem (by decide)
  obtain ⟨hname, hindex⟩ := NumberText.append_cons_inj (hdigits i) (hdigits j) hlist
  exact ⟨String.toList_inj.mp hname,
    NumberText.natToString_inj (String.toList_inj.mp (List.append_cancel_right hindex))⟩

theorem getLast?_siblingName (name : String) (i : ℕ) :
    (siblingName name i).toList.getLast? = some ']' := by
  rw [siblingName, String.toList_append]
  exact List.getLast?_concat

theorem siblingName_ne_empty (name : String) (i : ℕ) : siblingName name i ≠ "" := by
  intro h
  have hlast := getLast?_siblingName name i
  rw [h] at hlast
  exact absurd hlast (by simp)

/-- The step's tasks may have this name: its own for a regular step, a sibling's for one that
fans out. -/
def TaskName (step : WorkflowStep) (name : String) : Prop :=
  match step.fanOutField with
  | none => name = step.name
  | some _ => ∃ i, name = siblingName step.name i

theorem taskName_of_plain {step : WorkflowStep} (h : step.fanOutField = none) {name : String} :
    step.TaskName name ↔ name = step.name := by
  rw [TaskName, h]

theorem taskName_of_fan {step : WorkflowStep} {field : String} (h : step.fanOutField = some field)
    {name : String} : step.TaskName name ↔ ∃ i, name = siblingName step.name i := by
  rw [TaskName, h]

theorem map_stepName_mapIdx (step : WorkflowStep) (items : List Json) :
    (items.mapIdx fun i item => (⟨step, siblingName step.name i, itemPayload item⟩ : Launch)).map
      Launch.stepName = (List.range items.length).map (siblingName step.name) := by
  refine List.ext_getElem (by simp) fun i _ _ => ?_
  simp

/-- What a step is launched as: its names are its own, and each is used once. -/
theorem expand_names {step : WorkflowStep} {results : String → Option Json}
    {launches : List Launch} (h : step.expand results = some launches) :
    (∀ launch ∈ launches, launch.step = step ∧ step.TaskName launch.stepName) ∧
      (launches.map Launch.stepName).Nodup := by
  unfold expand at h
  cases hfield : step.fanOutField with
  | none =>
    rw [hfield] at h
    obtain rfl := Option.some.inj h
    simp [taskName_of_plain hfield]
  | some field =>
    simp only [hfield, Option.map_eq_some_iff] at h
    obtain ⟨items, -, rfl⟩ := h
    constructor
    · intro launch hlaunch
      obtain ⟨i, hi, rfl⟩ := List.mem_mapIdx.mp hlaunch
      exact ⟨rfl, (taskName_of_fan hfield).mpr ⟨i, rfl⟩⟩
    · rw [map_stepName_mapIdx]
      exact List.nodup_range.map fun i j hij => (siblingName_inj hij).2

/-- A step that fans out is launched as the siblings numbered from zero, at least one. -/
theorem expand_fan {step : WorkflowStep} {results : String → Option Json} {field : String}
    {launches : List Launch} (hfield : step.fanOutField = some field)
    (h : step.expand results = some launches) :
    ∃ items, step.fanItems results field = some items ∧ items ≠ [] ∧
      launches.map Launch.stepName = (List.range items.length).map (siblingName step.name) := by
  simp only [expand, hfield, Option.map_eq_some_iff] at h
  obtain ⟨items, hitems, rfl⟩ := h
  refine ⟨items, hitems, ?_, ?_⟩
  · rintro rfl
    unfold fanItems at hitems
    split at hitems
    · simp at hitems
    · next value _ =>
      split_ifs at hitems with htruthy
      · cases value with
        | null => simp [Json.iterate] at hitems
        | bool => simp [Json.iterate] at hitems
        | num => simp [Json.iterate] at hitems
        | str value => simp_all [Json.iterate, Json.truthy]
        | arr items => simp_all [Json.iterate, Json.truthy]
        | obj fields => simp_all [Json.iterate, Json.truthy]
      · simp at hitems
    · simp at hitems
  · exact map_stepName_mapIdx step items

/-- The first of the siblings. -/
theorem expand_first {step : WorkflowStep} {results : String → Option Json}
    {launches : List Launch} (hfan : step.fanOutField ≠ none)
    (h : step.expand results = some launches) :
    ∃ launch ∈ launches, launch.stepName = siblingName step.name 0 := by
  obtain ⟨field, hfield⟩ := Option.ne_none_iff_exists'.mp hfan
  obtain ⟨items, -, hitems, hlaunches⟩ := expand_fan hfield h
  refine List.mem_map.mp ?_
  rw [hlaunches]
  exact List.mem_map_of_mem (List.mem_range.mpr (List.length_pos_iff.mpr hitems))

theorem expand_ne_nil {step : WorkflowStep} {results : String → Option Json}
    {launches : List Launch} (h : step.expand results = some launches) : launches ≠ [] := by
  cases hfield : step.fanOutField with
  | none =>
    simp only [expand, hfield, Option.some.injEq] at h
    simp [← h]
  | some field =>
    obtain ⟨items, -, hitems, hnames⟩ := expand_fan hfield h
    rintro rfl
    exact hitems (by simpa using hnames.symm)

end WorkflowStep

open WorkflowStep

/-- The step names tell the tasks apart: they are not empty, pairwise distinct, and none is the
name of another step's sibling. -/
structure WellNamed (steps : List WorkflowStep) : Prop where
  nonempty : ∀ step ∈ steps, step.name ≠ ""
  nodup : (steps.map WorkflowStep.name).Nodup
  apart : ∀ step ∈ steps, ∀ other ∈ steps, other.fanOutField ≠ none →
    ∀ i, step.name ≠ siblingName other.name i

/-- Names that do not end in a bracket are no siblings' names. -/
theorem WellNamed.of_getLast {steps : List WorkflowStep}
    (hnonempty : ∀ step ∈ steps, step.name ≠ "")
    (hnodup : (steps.map WorkflowStep.name).Nodup)
    (hlast : ∀ step ∈ steps, step.name.toList.getLast? ≠ some ']') : WellNamed steps where
  nonempty := hnonempty
  nodup := hnodup
  apart := by
    intro step hstep other _ _ i heq
    refine hlast step hstep ?_
    rw [heq, getLast?_siblingName]

namespace WellNamed

variable {steps : List WorkflowStep} {step other : WorkflowStep} {name : String}

theorem eq_of_name (h : WellNamed steps) (hstep : step ∈ steps) (hother : other ∈ steps)
    (hname : step.name = other.name) : step = other :=
  List.inj_on_of_nodup_map h.nodup hstep hother hname

/-- A task name belongs to one step. -/
theorem eq_of_taskName (h : WellNamed steps) (hstep : step ∈ steps) (hother : other ∈ steps)
    (hname : step.TaskName name) (hname' : other.TaskName name) : step = other := by
  cases hfield : step.fanOutField with
  | none =>
    obtain rfl := (taskName_of_plain hfield).mp hname
    cases hfield' : other.fanOutField with
    | none => exact h.eq_of_name hstep hother ((taskName_of_plain hfield').mp hname')
    | some field' =>
      obtain ⟨i, hi⟩ := (taskName_of_fan hfield').mp hname'
      exact absurd hi (h.apart step hstep other hother (by simp [hfield']) i)
  | some field =>
    obtain ⟨i, rfl⟩ := (taskName_of_fan hfield).mp hname
    cases hfield' : other.fanOutField with
    | none =>
      have hi := (taskName_of_plain hfield').mp hname'
      exact absurd hi.symm (h.apart other hother step hstep (by simp [hfield]) i)
    | some field' =>
      obtain ⟨j, hj⟩ := (taskName_of_fan hfield').mp hname'
      exact h.eq_of_name hstep hother (siblingName_inj hj).1

theorem ne_empty (h : WellNamed steps) (hstep : step ∈ steps) (hname : step.TaskName name) :
    name ≠ "" := by
  cases hfield : step.fanOutField with
  | none =>
    rw [(taskName_of_plain hfield).mp hname]
    exact h.nonempty step hstep
  | some field =>
    obtain ⟨i, rfl⟩ := (taskName_of_fan hfield).mp hname
    exact siblingName_ne_empty step.name i

end WellNamed

theorem TaskRow.filedUnder_eq {row : TaskRow} {name : String} (h : row.stepName = some name)
    (hname : name ≠ "") : row.filedUnder = some name := by
  simp [TaskRow.filedUnder, h, hname]

theorem TaskRow.stepName_of_filedUnder {row : TaskRow} {name : String}
    (h : row.filedUnder = some name) : row.stepName = some name := by
  unfold TaskRow.filedUnder at h
  split at h
  · next found hfound =>
    split_ifs at h with hempty
    rw [hfound]
    exact h
  · exact absurd h (by simp)

/-- A plan in which nothing raises uses no name twice. -/
theorem Collected.plan_names_nodup {c : Collected} {steps : List WorkflowStep}
    {completed : List String} (hnames : WellNamed steps) (hsome : none ∉ c.plan steps completed) :
    ((c.plan steps completed).map (Option.map Launch.stepName)).Nodup := by
  set chosen := (getReadySteps steps completed).filter fun step => c.states step.name = none
    with hchosen
  have hsub : chosen.Sublist steps := List.filter_sublist.trans List.filter_sublist
  have hexpand : ∀ step ∈ chosen, ∃ launches, step.expand c.results = some launches := by
    intro step hstep
    obtain ⟨hready, hstate⟩ := List.mem_filter.mp hstep
    cases hcase : step.expand c.results with
    | none =>
      exact absurd (mem_plan.mpr ⟨step, hready, by simpa using hstate, Or.inl ⟨hcase, rfl⟩⟩) hsome
    | some launches => exact ⟨launches, rfl⟩
  have hentries : (c.plan steps completed).map (Option.map Launch.stepName) =
      chosen.flatMap fun step =>
        ((step.expand c.results).getD []).map fun launch => some launch.stepName := by
    rw [plan, ← hchosen, List.map_flatMap]
    refine List.flatMap_congr fun step hstep => ?_
    obtain ⟨launches, hlaunches⟩ := hexpand step hstep
    simp [hlaunches]
  rw [hentries, List.nodup_flatMap]
  constructor
  · intro step hstep
    obtain ⟨launches, hlaunches⟩ := hexpand step hstep
    have hnodup := (expand_names hlaunches).2.map (Option.some_injective String)
    simpa [hlaunches, Function.comp_def] using hnodup
  · -- a name that two steps were launched under would belong to both
    have hdistinct : chosen.Nodup := hsub.nodup (List.Nodup.of_map _ hnames.nodup)
    refine List.Pairwise.imp_of_mem (fun {step other} hstep hother hne => ?_) hdistinct
    obtain ⟨launches, hlaunches⟩ := hexpand step hstep
    obtain ⟨launches', hlaunches'⟩ := hexpand other hother
    intro name hname hname'
    simp only [hlaunches, hlaunches', Option.getD_some] at hname hname'
    obtain ⟨launch, hlaunch, rfl⟩ := List.mem_map.mp hname
    obtain ⟨launch', hlaunch', hsame⟩ := List.mem_map.mp hname'
    have hown := ((expand_names hlaunches).1 launch hlaunch).2
    have hown' := ((expand_names hlaunches').1 launch' hlaunch').2
    rw [Option.some.inj hsame] at hown'
    exact hne (hnames.eq_of_taskName (hsub.subset hstep) (hsub.subset hother) hown hown')

end Dtq
