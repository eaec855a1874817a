import Dtq.Lib.Indexed
import Dtq.Lib.Transition
import Dtq.Workflow.Names

/-!
# Tasks and the steps they belong to

What the tables keep over every run, and what the tasks of one workflow keep as long as its step
names tell the tasks apart and no fan-out step is expanded a second time: every task belongs to one
step, no two have the same name, and a step was launched only after its dependencies had
succeeded (`Tracked`).

## Main results

* `World.inv_step` — what holds of the tables in every run
* `Tracked.step` — the tasks of a workflow stay in order over every step that does not advance it
  with a fan-out step already expanded
-/

set_option autoImplicit false

namespace Dtq

open WorkflowStep

/-! ### What holds of the tables in every run -/

section Created

variable {workflowId : Uuid} {entries : List (Option Launch × Uuid)} {rows : List TaskRow}

theorem created_ids (h : List.Forall₂ (CreatedFor workflowId) entries rows) :
    rows.map TaskRow.id = entries.map Prod.snd := by
  induction h with
  | nil => rfl
  | cons hrow _ ih =>
    obtain ⟨launch, n, -, rfl⟩ := hrow
    rw [List.map_cons, List.map_cons, ih]
    rfl

theorem created_names (h : List.Forall₂ (CreatedFor workflowId) entries rows) :
    rows.map TaskRow.stepName = (entries.map Prod.fst).map (Option.map Launch.stepName) := by
  induction h with
  | nil => rfl
  | cons hrow _ ih =>
    obtain ⟨launch, n, hlaunch, rfl⟩ := hrow
    rw [List.map_cons, List.map_cons, List.map_cons, ih, hlaunch]
    rfl

theorem created_pending (h : List.Forall₂ (CreatedFor workflowId) entries rows) :
    ∀ row ∈ rows, row.workflowId = some workflowId ∧ row.state = .pending := by
  induction h with
  | nil => exact fun _ hrow => absurd hrow List.not_mem_nil
  | cons hrow _ ih =>
    obtain ⟨launch, n, -, rfl⟩ := hrow
    exact List.forall_mem_cons.mpr ⟨⟨rfl, rfl⟩, ih⟩

end Created

namespace World

/-- Ids are unique, tasks belong to workflows that exist, and every workflow was accepted. -/
structure Inv (w : World) : Prop where
  ids : (w.stores.db.tasks.map TaskRow.id).Nodup
  workflowIds : (w.workflows.map WorkflowRow.id).Nodup
  owned : ∀ row ∈ w.stores.db.tasks, ∀ workflowId, row.workflowId = some workflowId →
    workflowId ∈ w.workflows.map WorkflowRow.id
  accepted : ∀ wf ∈ w.workflows, ∃ topo, Sorted wf.steps topo

theorem inv_empty : empty.Inv where
  ids := List.nodup_nil
  workflowIds := List.nodup_nil
  owned := fun _ hrow => absurd hrow List.not_mem_nil
  accepted := fun _ hwf => absurd hwf List.not_mem_nil

section

variable {w w' : World} {workflowId : Uuid} {wf : WorkflowRow}

theorem mem_of_findWorkflow (h : w.findWorkflow workflowId = some wf) :
    wf ∈ w.workflows ∧ wf.id = workflowId :=
  ⟨List.mem_of_find?_eq_some h, by simpa using List.find?_some h⟩

theorem Inv.findWorkflow_eq (h : w.Inv) (hwf : wf ∈ w.workflows) :
    w.findWorkflow wf.id = some wf := by
  cases hfind : w.findWorkflow wf.id with
  | none => exact absurd (List.find?_eq_none.mp hfind wf hwf) (by simp)
  | some found =>
    obtain ⟨hmem, hid⟩ := mem_of_findWorkflow hfind
    rw [List.inj_on_of_nodup_map h.workflowIds hmem hwf hid]

/-- A workflow that does not exist has no tasks. -/
theorem Inv.tasksOf_eq_nil (h : w.Inv) (hnone : w.findWorkflow workflowId = none) :
    w.tasksOf workflowId = [] := by
  rw [tasksOf, Db.tasksOf, List.filter_eq_nil_iff]
  intro row hrow hid
  obtain ⟨wf, hwf, hwfid⟩ := List.mem_map.mp (h.owned row hrow workflowId (by simpa using hid))
  exact absurd (List.find?_eq_none.mp hnone wf hwf) (by simp [hwfid])

@[simp] theorem setWorkflowState_stores (state : WorkflowState) :
    (w.setWorkflowState workflowId state).stores = w.stores := rfl

theorem setWorkflowState_ids (state : WorkflowState) :
    (w.setWorkflowState workflowId state).workflows.map WorkflowRow.id =
      w.workflows.map WorkflowRow.id := by
  rw [setWorkflowState, List.map_map]
  refine List.map_congr_left fun wf _ => ?_
  simp only [Function.comp_apply]
  split <;> rfl

theorem findWorkflow_setWorkflowState (state : WorkflowState) (other : Uuid) :
    (w.setWorkflowState workflowId state).findWorkflow other =
      (w.findWorkflow other).map fun wf =>
        if wf.id = workflowId then { wf with state := state } else wf := by
  rw [findWorkflow, findWorkflow, setWorkflowState, List.find?_map]
  congr 1
  refine congrArg (List.find? · w.workflows) (funext fun wf => ?_)
  simp only [Function.comp_apply]
  split <;> rfl

theorem Inv.setWorkflowState (h : w.Inv) (state : WorkflowState) :
    (w.setWorkflowState workflowId state).Inv where
  ids := h.ids
  workflowIds := by
    rw [setWorkflowState_ids]
    exact h.workflowIds
  owned := by
    rw [setWorkflowState_ids]
    exact h.owned
  accepted := by
    intro wf hwf
    obtain ⟨old, hold, rfl⟩ := List.mem_map.mp hwf
    have hsteps : (if old.id = workflowId then { old with state := state } else old).steps =
        old.steps := by split <;> rfl
    rw [hsteps]
    exact h.accepted old hold

theorem Inv.withWorkflow (h : w.Inv) (hnone : w.findWorkflow wf.id = none)
    (hsorted : ∃ topo, Sorted wf.steps topo) : (w.withWorkflow wf).Inv where
  ids := h.ids
  workflowIds := by
    rw [World.withWorkflow, List.map_append, List.map_singleton, List.nodup_append]
    refine ⟨h.workflowIds, by simp, fun a ha b hb => ?_⟩
    rw [List.mem_singleton.mp hb]
    rintro rfl
    obtain ⟨other, hother, hid⟩ := List.mem_map.mp ha
    exact absurd (List.find?_eq_none.mp hnone other hother) (by simp [hid])
  owned := by
    intro row hrow id hid
    rw [World.withWorkflow, List.map_append]
    exact List.mem_append_left _ (h.owned row hrow id hid)
  accepted := by
    intro other hother
    rcases List.mem_append.mp hother with hother | hother
    · exact h.accepted other hother
    · rw [List.mem_singleton.mp hother]
      exact hsorted

theorem Inv.outcome (h : w.Inv) {rows : List TaskRow} {ids : List Uuid} (hwf : wf ∈ w.workflows)
    (hout : Outcome w wf rows ids w') : w'.Inv := by
  cases hout with
  | failed => exact h.setWorkflowState .failed
  | completed => exact h.setWorkflowState .completed
  | raised => exact ⟨h.ids, h.workflowIds, h.owned, h.accepted⟩
  | launched plan redis created _ _ _ hids hcreated =>
    refine ⟨?_, h.workflowIds, ?_, h.accepted⟩
    · rw [List.map_append, List.nodup_append, created_ids hcreated]
      refine ⟨h.ids, ?_, ?_⟩
      · exact hids.2.1.sublist (drawn_sublist plan ids)
      · intro a ha b hb hab
        obtain ⟨row, hrow, rfl⟩ := List.mem_map.mp ha
        refine hids.2.2 row hrow ?_
        rw [hab]
        exact (drawn_sublist plan ids).subset hb
    · intro row hrow id hid
      rcases List.mem_append.mp hrow with hrow | hrow
      · exact h.owned row hrow id hid
      · rw [(created_pending hcreated row hrow).1] at hid
        rw [← Option.some.inj hid]
        exact List.mem_map_of_mem hwf

theorem Inv.advance (h : w.Inv) {rows : List TaskRow} {ids : List Uuid} {now : ℚ}
    (hstep : w.advance workflowId rows ids now = some w') : w'.Inv := by
  rcases advance_cases hstep with ⟨rfl, -⟩ | ⟨wf, hfind, -, -, hout⟩
  · exact h
  · exact h.outcome (mem_of_findWorkflow hfind).1 hout

theorem Inv.progress (h : w.Inv) (hstep : Progress w w') : w'.Inv := by
  obtain ⟨hworkflows, taskId, state, attempt, row, -, -, htasks⟩ := hstep
  refine ⟨?_, ?_, ?_, ?_⟩
  · rw [htasks, List.map_map]
    simpa [Function.comp_def] using h.ids
  · rw [hworkflows]
    exact h.workflowIds
  · intro row' hrow' id hid
    rw [htasks] at hrow'
    obtain ⟨old, hold, rfl⟩ := List.mem_map.mp hrow'
    rw [hworkflows]
    exact h.owned old hold id (by simpa using hid)
  · rw [hworkflows]
    exact h.accepted

end

theorem inv_step {w w' : World} {a : Act} (h : w.Inv) (hstep : w.step a = some w') : w'.Inv := by
  rcases progress_cases hstep with
    ⟨workflowId, name, steps, order, ids, now, rfl⟩ | ⟨workflowId, rows, ids, now, rfl⟩ | hprogress
  · obtain ⟨hnone, rfl | ⟨hsorted, hadvance⟩⟩ := submit_cases hstep
    · exact h
    · exact Inv.advance (h.withWorkflow hnone hsorted) hadvance
  · exact h.advance hstep
  · exact h.progress hprogress

theorem inv_reaches {w : World} (h : Transition.Reaches step empty w) : w.Inv :=
  h.invariant (fun _ _ _ => inv_step) inv_empty

end World

/-! ### What the tasks of a workflow keep -/

/-- The task is one of the step's. -/
def TaskRow.Of (row : TaskRow) (step : WorkflowStep) : Prop :=
  ∃ name, row.stepName = some name ∧ step.TaskName name

/-- With well-chosen names, a task belongs to one step. -/
theorem TaskRow.Of.eq {row : TaskRow} {steps : List WorkflowStep} (hnames : WellNamed steps)
    {step other : WorkflowStep} (h : row.Of step) (h' : row.Of other) (hstep : step ∈ steps)
    (hother : other ∈ steps) : step = other := by
  obtain ⟨name, hname, htask⟩ := h
  obtain ⟨name', hname', htask'⟩ := h'
  obtain rfl : name = name' := Option.mem_unique hname hname'
  exact hnames.eq_of_taskName hstep hother htask htask'

/-- The workflow has a succeeded task of that name. -/
def World.Succeeded (w : World) (workflowId : Uuid) (name : String) : Prop :=
  ∃ row ∈ w.tasksOf workflowId, row.stepName = some name ∧ row.state = .succeeded

/-- The tasks of a workflow are in order. -/
structure Tracked (w : World) (wf : WorkflowRow) : Prop where
  named : ∀ row ∈ w.tasksOf wf.id, ∃ step ∈ wf.steps, row.Of step
  nodup : ((w.tasksOf wf.id).map TaskRow.stepName).Nodup
  ready : ∀ row ∈ w.tasksOf wf.id, ∀ step ∈ wf.steps, row.Of step →
    ∀ dep ∈ step.dependsOn, w.Succeeded wf.id dep
  first : ∀ row ∈ w.tasksOf wf.id, ∀ step ∈ wf.steps, step.fanOutField ≠ none → row.Of step →
    ∃ sibling ∈ w.tasksOf wf.id, sibling.stepName = some (siblingName step.name 0)
  completed : wf.state = .completed → ∀ step ∈ wf.steps, w.Succeeded wf.id step.name
  failed : wf.state = .failed → ∃ row ∈ w.tasksOf wf.id, row.state = .dead

section Reading

variable {w : World} {wf : WorkflowRow} (hnames : WellNamed wf.steps) (h : Tracked w wf)
  {rows : List TaskRow} (hperm : rows.Perm (w.tasksOf wf.id))
include hnames h

theorem Tracked.filedUnder_iff {row : TaskRow} (hrow : row ∈ w.tasksOf wf.id) {name : String} :
    row.filedUnder = some name ↔ row.stepName = some name := by
  constructor
  · exact TaskRow.stepName_of_filedUnder
  · intro hname
    obtain ⟨step, hstep, own, hown, htask⟩ := h.named row hrow
    obtain rfl : own = name := Option.mem_unique hown hname
    exact TaskRow.filedUnder_eq hname (hnames.ne_empty hstep htask)

omit hnames in
theorem Tracked.eq_of_stepName {row row' : TaskRow} (hrow : row ∈ w.tasksOf wf.id)
    (hrow' : row' ∈ w.tasksOf wf.id) (hname : row.stepName = row'.stepName) : row = row' :=
  List.inj_on_of_nodup_map h.nodup hrow hrow' hname

include hperm

/-- What `advance` finds filed under a state are the names of the tasks in that state. -/
theorem Tracked.mem_namesIn {name : String} {state : TaskState} :
    name ∈ (Collected.ofTasks w.stores.db rows).namesIn rows state ↔
      ∃ row ∈ w.tasksOf wf.id, row.stepName = some name ∧ row.state = state := by
  rw [Collected.mem_namesIn_ofTasks]
  · refine exists_congr fun row => ?_
    rw [hperm.mem_iff]
    refine and_congr_right fun hrow => ?_
    rw [h.filedUnder_iff hnames hrow]
  · intro r hr r' hr' hname hname'
    have hrow := hperm.mem_iff.mp hr
    have hrow' := hperm.mem_iff.mp hr'
    rw [h.filedUnder_iff hnames hrow] at hname
    rw [h.filedUnder_iff hnames hrow'] at hname'
    exact h.eq_of_stepName hrow hrow' (hname.trans hname'.symm)

theorem Tracked.states_eq_none_iff {name : String} :
    (Collected.ofTasks w.stores.db rows).states name = none ↔
      ∀ row ∈ w.tasksOf wf.id, row.stepName ≠ some name := by
  rw [Collected.states_eq_none_iff]
  constructor
  · intro hnone row hrow hname
    exact hnone row (hperm.mem_iff.mpr hrow) ((h.filedUnder_iff hnames hrow).mpr hname)
  · intro hnone row hrow hname
    have hmem := hperm.mem_iff.mp hrow
    exact hnone row hmem ((h.filedUnder_iff hnames hmem).mp hname)

end Reading

section Created

variable {workflowId : Uuid} {plan : List (Option Launch)} {ids : List Uuid}
  {created : List TaskRow}

/-- Every created row is some planned launch's. -/
theorem exists_launch_of_created
    (h : List.Forall₂ (CreatedFor workflowId) (plan.zip ids) created) {row : TaskRow}
    (hrow : row ∈ created) :
    ∃ launch, some launch ∈ plan ∧ row.stepName = some launch.stepName := by
  obtain ⟨entry, hentry, launch, n, hlaunch, rfl⟩ := Indexed.exists_of_mem_right h hrow
  exact ⟨launch, hlaunch ▸ (List.of_mem_zip hentry).1, rfl⟩

theorem map_stepName_created
    (h : List.Forall₂ (CreatedFor workflowId) (plan.zip ids) created)
    (hlength : plan.length ≤ ids.length) :
    created.map TaskRow.stepName = plan.map (Option.map Launch.stepName) := by
  rw [created_names h, List.map_fst_zip hlength]

/-- Every planned launch has its row. -/
theorem exists_created_of_launch
    (h : List.Forall₂ (CreatedFor workflowId) (plan.zip ids) created)
    (hlength : plan.length ≤ ids.length) {launch : Launch} (hlaunch : some launch ∈ plan) :
    ∃ row ∈ created, row.stepName = some launch.stepName := by
  have hmem : some launch.stepName ∈ created.map TaskRow.stepName := by
    rw [map_stepName_created h hlength]
    exact List.mem_map.mpr ⟨some launch, hlaunch, rfl⟩
  exact List.mem_map.mp hmem

theorem none_notMem_plan
    (h : List.Forall₂ (CreatedFor workflowId) (plan.zip ids) created)
    (hlength : plan.length ≤ ids.length) : none ∉ plan := by
  intro hnone
  have hmem : none ∈ created.map TaskRow.stepName := by
    rw [map_stepName_created h hlength]
    exact List.mem_map.mpr ⟨none, hnone, rfl⟩
  obtain ⟨row, hrow, hname⟩ := List.mem_map.mp hmem
  obtain ⟨launch, -, hlaunch⟩ := exists_launch_of_created h hrow
  rw [hlaunch] at hname
  exact absurd hname (by simp)

end Created

/-! ### Step by step -/

namespace World

variable {w w' : World} {workflowId : Uuid} {wf : WorkflowRow} {rows : List TaskRow}
  {ids : List Uuid}

/-- Progress changes the state of one task in place. -/
theorem Progress.tasksOf_eq (h : Progress w w') :
    ∃ taskId state attempt, ∃ found, w.stores.db.findTask taskId = some found ∧
      (found.state = .pending ∨ found.state = .leased) ∧ ∀ id,
        w'.tasksOf id = (w.tasksOf id).map (Db.setState taskId state attempt) := by
  obtain ⟨-, taskId, state, attempt, found, hfind, hstate, htasks⟩ := h
  exact ⟨taskId, state, attempt, found, hfind, hstate, tasksOf_of_map htasks⟩

/-- A task that has ended stays as it is. -/
theorem Progress.mem_of_ended_of_nodup (h : Progress w w')
    (hids : (w.stores.db.tasks.map TaskRow.id).Nodup) {row : TaskRow}
    (hrow : row ∈ w.tasksOf workflowId) (hended : row.state = .succeeded ∨ row.state = .dead) :
    row ∈ w'.tasksOf workflowId := by
  obtain ⟨taskId, state, attempt, found, hfind, hstate, htasks⟩ := h.tasksOf_eq
  have hne : row.id ≠ taskId := by
    intro hid
    have hfound : found ∈ w.stores.db.tasks ∧ found.id = taskId :=
      ⟨List.mem_of_find?_eq_some hfind, by simpa using List.find?_some hfind⟩
    obtain rfl : row = found := List.inj_on_of_nodup_map hids (Db.mem_tasksOf.mp hrow).1
      hfound.1 (hid.trans hfound.2.symm)
    rcases hstate with hstate | hstate <;> simp [hstate] at hended
  rw [htasks]
  exact List.mem_map.mpr ⟨row, hrow, by simp [Db.setState, hne]⟩

theorem Progress.mem_of_ended (h : Progress w w') (hinv : w.Inv) {row : TaskRow}
    (hrow : row ∈ w.tasksOf workflowId) (hended : row.state = .succeeded ∨ row.state = .dead) :
    row ∈ w'.tasksOf workflowId :=
  h.mem_of_ended_of_nodup hinv.ids hrow hended

theorem Progress.succeeded (h : Progress w w') (hinv : w.Inv) {name : String}
    (hsucceeded : w.Succeeded workflowId name) : w'.Succeeded workflowId name := by
  obtain ⟨row, hrow, hname, hstate⟩ := hsucceeded
  exact ⟨row, h.mem_of_ended hinv hrow (Or.inl hstate), hname, hstate⟩

theorem Progress.findWorkflow_eq (h : Progress w w') :
    w'.findWorkflow workflowId = w.findWorkflow workflowId := by
  rw [findWorkflow, findWorkflow, h.workflows]

/-- A call on another workflow leaves this one's row and tasks alone. -/
theorem Outcome.other (h : Outcome w wf rows ids w') (hne : workflowId ≠ wf.id) :
    w'.tasksOf workflowId = w.tasksOf workflowId ∧
      w'.findWorkflow workflowId = w.findWorkflow workflowId := by
  have hstate : ∀ state,
      (w.setWorkflowState wf.id state).findWorkflow workflowId = w.findWorkflow workflowId := by
    intro state
    rw [findWorkflow_setWorkflowState]
    cases hfind : w.findWorkflow workflowId with
    | none => rfl
    | some found =>
      have hid : found.id ≠ wf.id := by
        rw [(mem_of_findWorkflow hfind).2]
        exact hne
      rw [Option.map_some, if_neg hid]
  cases h with
  | failed => exact ⟨rfl, hstate .failed⟩
  | completed => exact ⟨rfl, hstate .completed⟩
  | raised => exact ⟨rfl, rfl⟩
  | launched plan redis created _ _ _ _ hcreated =>
    refine ⟨?_, rfl⟩
    rw [tasksOf_of_append rfl fun row hrow => (created_pending hcreated row hrow).1, if_neg hne,
      List.append_nil]

/-- A call changes nothing about the row of its workflow but the state. -/
theorem Outcome.row (h : Outcome w wf rows ids w') (hfind : w.findWorkflow wf.id = some wf) :
    ∃ state, w'.findWorkflow wf.id = some { wf with state := state } := by
  have hset : ∀ state, (w.setWorkflowState wf.id state).findWorkflow wf.id =
      some { wf with state := state } := by
    intro state
    rw [findWorkflow_setWorkflowState, hfind, Option.map_some, if_pos rfl]
  cases h with
  | failed => exact ⟨.failed, hset .failed⟩
  | completed => exact ⟨.completed, hset .completed⟩
  | raised => exact ⟨wf.state, hfind⟩
  | launched => exact ⟨wf.state, hfind⟩

theorem tasksOf_launched {plan : List (Option Launch)} {created : List TaskRow} (redis : Redis)
    (hcreated : List.Forall₂ (CreatedFor workflowId) (plan.zip ids) created) :
    World.tasksOf { w with stores :=
        ⟨redis, { w.stores.db with tasks := w.stores.db.tasks ++ created }⟩ } workflowId =
      w.tasksOf workflowId ++ created := by
  rw [tasksOf_of_append rfl fun row hrow => (created_pending hcreated row hrow).1, if_pos rfl]

end World

/-- None of the workflow's fan-out steps has been expanded. -/
def Unexpanded (w : World) (wf : WorkflowRow) : Prop :=
  ∀ step ∈ wf.steps, step.fanOutField ≠ none → ∀ row ∈ w.tasksOf wf.id, ¬ row.Of step

/-- The dependencies of the step have all succeeded, and no task of the workflow has its name. -/
structure Due (w : World) (wf : WorkflowRow) (step : WorkflowStep) : Prop where
  mem : step ∈ wf.steps
  deps : ∀ dep ∈ step.dependsOn, w.Succeeded wf.id dep
  unnamed : ∀ row ∈ w.tasksOf wf.id, row.stepName ≠ some step.name

section Launching

variable {w : World} {wf : WorkflowRow} {rows : List TaskRow} {plan : List (Option Launch)}
  (hnames : WellNamed wf.steps) (h : Tracked w wf) (hperm : rows.Perm (w.tasksOf wf.id))
  (hplan : plan = (Collected.ofTasks w.stores.db rows).plan wf.steps
    ((Collected.ofTasks w.stores.db rows).namesIn rows .succeeded))
include hnames h hperm hplan

/-- The plan consists of the launches of the steps that are due. -/
theorem Tracked.mem_plan {entry : Option Launch} :
    entry ∈ plan ↔ ∃ step, Due w wf step ∧
      ((step.expand (Collected.ofTasks w.stores.db rows).results = none ∧ entry = none) ∨
        ∃ launches, step.expand (Collected.ofTasks w.stores.db rows).results = some launches ∧
          ∃ launch ∈ launches, entry = some launch) := by
  rw [hplan, Collected.mem_plan]
  refine exists_congr fun step => ?_
  rw [← and_assoc]
  refine and_congr_left fun _ => ?_
  rw [mem_getReadySteps, h.states_eq_none_iff hnames hperm]
  constructor
  · rintro ⟨⟨hstep, -, hdeps⟩, hunnamed⟩
    exact ⟨hstep, fun dep hdep => (h.mem_namesIn hnames hperm).mp (hdeps dep hdep), hunnamed⟩
  · rintro ⟨hstep, hdeps, hunnamed⟩
    refine ⟨⟨hstep, fun hmem => ?_, fun dep hdep => ?_⟩, hunnamed⟩
    · obtain ⟨row, hrow, hname, -⟩ := (h.mem_namesIn hnames hperm).mp hmem
      exact hunnamed row hrow hname
    · exact (h.mem_namesIn hnames hperm).mpr (hdeps dep hdep)

variable {ids : List Uuid} {created : List TaskRow}
  (hcreated : List.Forall₂ (CreatedFor wf.id) (plan.zip ids) created)
include hcreated

/-- Every created task belongs to a step that was due. -/
theorem Tracked.due_of_created {row : TaskRow} (hrow : row ∈ created) :
    ∃ step, Due w wf step ∧ row.Of step := by
  obtain ⟨launch, hlaunch, hname⟩ := exists_launch_of_created hcreated hrow
  obtain ⟨step, hdue, ⟨-, hnone⟩ | ⟨launches, hexpand, found, hfound, heq⟩⟩ :=
    (h.mem_plan hnames hperm hplan).mp hlaunch
  · exact absurd hnone (by simp)
  · obtain rfl := Option.some.inj heq
    exact ⟨step, hdue, launch.stepName, hname, ((expand_names hexpand).1 launch hfound).2⟩

/-- With no fan-out step expanded before, a created task has a name that no task had. -/
theorem Tracked.stepName_ne_of_created (hsafe : Unexpanded w wf) {old row : TaskRow}
    (hold : old ∈ w.tasksOf wf.id) (hrow : row ∈ created) : old.stepName ≠ row.stepName := by
  intro hsame
  obtain ⟨step, hdue, name, hname, htask⟩ :=
    h.due_of_created hnames hperm hplan hcreated hrow
  cases hfield : step.fanOutField with
  | none =>
    rw [(taskName_of_plain hfield).mp htask] at hname
    exact hdue.unnamed old hold (hsame.trans hname)
  | some field =>
    exact hsafe step hdue.mem (by simp [hfield]) old hold ⟨name, hsame.trans hname, htask⟩

variable (hlength : plan.length ≤ ids.length)
include hlength

/-- Every step that was due has been launched, under all the names it expands to. -/
theorem Tracked.created_of_due {step : WorkflowStep} (hdue : Due w wf step) :
    ∃ launches, step.expand (Collected.ofTasks w.stores.db rows).results = some launches ∧
      ∀ launch ∈ launches, ∃ row ∈ created, row.stepName = some launch.stepName := by
  cases hexpand : step.expand (Collected.ofTasks w.stores.db rows).results with
  | none =>
    have hnone : none ∈ plan :=
      (h.mem_plan hnames hperm hplan).mpr ⟨step, hdue, Or.inl ⟨hexpand, rfl⟩⟩
    exact absurd hnone (none_notMem_plan hcreated hlength)
  | some launches =>
    refine ⟨launches, rfl, fun launch hlaunch => ?_⟩
    refine exists_created_of_launch hcreated hlength ?_
    exact (h.mem_plan hnames hperm hplan).mpr
      ⟨step, hdue, Or.inr ⟨launches, hexpand, launch, hlaunch, rfl⟩⟩

theorem Tracked.launched (hrunning : wf.state = .running) (hsafe : Unexpanded w wf)
    (redis : Redis) :
    Tracked { w with stores :=
      ⟨redis, { w.stores.db with tasks := w.stores.db.tasks ++ created }⟩ } wf := by
  have htasks := World.tasksOf_launched (w := w) redis hcreated
  have hdone : ∀ name, w.Succeeded wf.id name →
      World.Succeeded { w with stores :=
        ⟨redis, { w.stores.db with tasks := w.stores.db.tasks ++ created }⟩ } wf.id name := by
    rintro name ⟨row, hrow, hname, hstate⟩
    refine ⟨row, ?_, hname, hstate⟩
    rw [htasks]
    exact List.mem_append_left _ hrow
  refine ⟨?_, ?_, ?_, ?_, by simp [hrunning], by simp [hrunning]⟩
  · intro row hrow
    rw [htasks] at hrow
    rcases List.mem_append.mp hrow with hrow | hrow
    · exact h.named row hrow
    · obtain ⟨step, hdue, hof⟩ := h.due_of_created hnames hperm hplan hcreated hrow
      exact ⟨step, hdue.mem, hof⟩
  · rw [htasks, List.map_append, List.nodup_append]
    refine ⟨h.nodup, ?_, ?_⟩
    · rw [map_stepName_created hcreated hlength, hplan]
      refine Collected.plan_names_nodup hnames ?_
      rw [← hplan]
      exact none_notMem_plan hcreated hlength
    · intro a ha b hb hab
      obtain ⟨old, hold, rfl⟩ := List.mem_map.mp ha
      obtain ⟨row, hrow, rfl⟩ := List.mem_map.mp hb
      exact h.stepName_ne_of_created hnames hperm hplan hcreated hsafe hold hrow hab
  · intro row hrow step hstep hof dep hdep
    rw [htasks] at hrow
    refine hdone dep ?_
    rcases List.mem_append.mp hrow with hrow | hrow
    · exact h.ready row hrow step hstep hof dep hdep
    · obtain ⟨found, hdue, hfound⟩ := h.due_of_created hnames hperm hplan hcreated hrow
      obtain rfl := hof.eq hnames hfound hstep hdue.mem
      exact hdue.deps dep hdep
  · intro row hrow step hstep hfan hof
    rw [htasks] at hrow ⊢
    rcases List.mem_append.mp hrow with hrow | hrow
    · exact absurd hof (hsafe step hstep hfan row hrow)
    · -- the step was due, and its first sibling was created with the others
      obtain ⟨found, hdue, hfound⟩ := h.due_of_created hnames hperm hplan hcreated hrow
      obtain rfl := hof.eq hnames hfound hstep hdue.mem
      obtain ⟨launches, hexpand, hall⟩ :=
        h.created_of_due hnames hperm hplan hcreated hlength hdue
      obtain ⟨launch, hlaunch, heq⟩ := expand_first hfan hexpand
      obtain ⟨sibling, hsibling, hsname⟩ := hall launch hlaunch
      exact ⟨sibling, List.mem_append_right _ hsibling, by rw [hsname, heq]⟩

end Launching

section Steps

variable {w w' : World} {wf : WorkflowRow}

theorem Tracked.progress (h : Tracked w wf) (hinv : w.Inv) (hstep : w.Progress w') :
    Tracked w' wf := by
  obtain ⟨taskId, state, attempt, found, -, -, htasks⟩ := hstep.tasksOf_eq
  -- every task of the new state is an old one under its old name
  have hold : ∀ row ∈ w'.tasksOf wf.id, ∃ old ∈ w.tasksOf wf.id, old.stepName = row.stepName := by
    intro row hrow
    rw [htasks] at hrow
    obtain ⟨old, hmem, rfl⟩ := List.mem_map.mp hrow
    exact ⟨old, hmem, by simp⟩
  have hof : ∀ {row old : TaskRow} {step : WorkflowStep}, old.stepName = row.stepName →
      row.Of step → old.Of step := by
    rintro row old step hsame ⟨name, hname, htask⟩
    exact ⟨name, hsame.trans hname, htask⟩
  refine ⟨?_, ?_, ?_, ?_, ?_, ?_⟩
  · intro row hrow
    obtain ⟨old, hmem, hsame⟩ := hold row hrow
    obtain ⟨step, hstep, hown⟩ := h.named old hmem
    exact ⟨step, hstep, hof hsame.symm hown⟩
  · rw [htasks, List.map_map]
    simpa [Function.comp_def] using h.nodup
  · intro row hrow step hmem hown dep hdep
    obtain ⟨old, holdmem, hsame⟩ := hold row hrow
    exact hstep.succeeded hinv (h.ready old holdmem step hmem (hof hsame hown) dep hdep)
  · intro row hrow step hmem hfan hown
    obtain ⟨old, holdmem, hsame⟩ := hold row hrow
    obtain ⟨sibling, hsibling, hname⟩ := h.first old holdmem step hmem hfan (hof hsame hown)
    refine ⟨Db.setState taskId state attempt sibling, ?_, by simpa using hname⟩
    rw [htasks]
    exact List.mem_map_of_mem hsibling
  · intro hcompleted step hmem
    exact hstep.succeeded hinv (h.completed hcompleted step hmem)
  · intro hfailed
    obtain ⟨row, hrow, hdead⟩ := h.failed hfailed
    exact ⟨row, hstep.mem_of_ended hinv hrow (Or.inr hdead), hdead⟩

/-- The facts about the tasks carry over to a world with the same tasks and to a row with the
same steps; those about the final states have to be supplied. -/
theorem Tracked.of_tasksOf_eq {wf' : WorkflowRow} (h : Tracked w wf) (hid : wf'.id = wf.id)
    (hsteps : wf'.steps = wf.steps) (htasks : w'.tasksOf wf.id = w.tasksOf wf.id)
    (hcompleted : wf'.state = .completed → ∀ step ∈ wf.steps, w.Succeeded wf.id step.name)
    (hfailed : wf'.state = .failed → ∃ row ∈ w.tasksOf wf.id, row.state = .dead) :
    Tracked w' wf' := by
  have hdone : ∀ name, w'.Succeeded wf.id name ↔ w.Succeeded wf.id name := by
    intro name
    rw [World.Succeeded, World.Succeeded, htasks]
  refine ⟨?_, ?_, ?_, ?_, ?_, ?_⟩ <;> rw [hid]
  · rw [htasks, hsteps]
    exact h.named
  · rw [htasks]
    exact h.nodup
  · simp only [htasks, hsteps, hdone]
    exact h.ready
  · rw [htasks, hsteps]
    exact h.first
  · simp only [hsteps, hdone]
    exact hcompleted
  · rw [htasks]
    exact hfailed

/-- A call of `advance` on the workflow itself. -/
theorem Tracked.outcome {rows : List TaskRow} {ids : List Uuid} (hnames : WellNamed wf.steps)
    (h : Tracked w wf) (hfind : w.findWorkflow wf.id = some wf) (hrunning : wf.state = .running)
    (hperm : rows.Perm (w.tasksOf wf.id))
    (hsafe : (∀ row ∈ w.tasksOf wf.id, row.state ≠ .dead) → Unexpanded w wf)
    (hout : w.Outcome wf rows ids w') {wf' : WorkflowRow}
    (hfind' : w'.findWorkflow wf.id = some wf') : Tracked w' wf' := by
  -- the row after the call, for a call that sets its state
  have hset : ∀ state, (w.setWorkflowState wf.id state).findWorkflow wf.id = some wf' →
      wf' = { wf with state := state } := by
    intro state hfound
    rw [World.findWorkflow_setWorkflowState, hfind, Option.map_some, if_pos rfl] at hfound
    exact (Option.some.inj hfound).symm
  cases hout with
  | failed hdead =>
    obtain rfl := hset .failed hfind'
    refine h.of_tasksOf_eq rfl rfl rfl (by simp) fun _ => ?_
    obtain ⟨name, hname⟩ := List.exists_mem_of_ne_nil _ hdead
    obtain ⟨row, hrow, -, hstate⟩ := (h.mem_namesIn hnames hperm).mp hname
    exact ⟨row, hrow, hstate⟩
  | completed _ hall =>
    obtain rfl := hset .completed hfind'
    refine h.of_tasksOf_eq rfl rfl rfl (fun _ step hstep => ?_) (by simp)
    exact (h.mem_namesIn hnames hperm).mp (hall step hstep)
  | raised plan redis =>
    obtain rfl : wf = wf' := Option.mem_unique hfind hfind'
    exact h.of_tasksOf_eq rfl rfl rfl h.completed h.failed
  | launched plan redis created hdead _ hplan hids hcreated =>
    obtain rfl : wf = wf' := Option.mem_unique hfind hfind'
    refine h.launched hnames hperm hplan hcreated hids.1 hrunning (hsafe ?_) redis
    intro row hrow hstate
    obtain ⟨step, hstep, name, hname, -⟩ := h.named row hrow
    have hmem := (h.mem_namesIn hnames hperm).mpr ⟨row, hrow, hname, hstate⟩
    rw [hdead] at hmem
    exact absurd hmem List.not_mem_nil

/-- Nothing raises when every step that is due can be expanded and has an acceptable
`max_attempts`. -/
theorem Tracked.not_raised {rows : List TaskRow} {plan : List (Option Launch)}
    (hnames : WellNamed wf.steps) (h : Tracked w wf) (hperm : rows.Perm (w.tasksOf wf.id))
    (hplan : plan = (Collected.ofTasks w.stores.db rows).plan wf.steps
      ((Collected.ofTasks w.stores.db rows).namesIn rows .succeeded))
    (hretry : ∀ step ∈ wf.steps, RetryOk step.retry)
    (hexpand : ∀ step, Due w wf step →
      step.expand (Collected.ofTasks w.stores.db rows).results ≠ none) :
    ∀ entry ∈ plan, ∃ launch, entry = some launch ∧ RetryOk launch.step.retry := by
  intro entry hentry
  obtain ⟨step, hdue, ⟨hnone, -⟩ | ⟨launches, hlaunches, launch, hlaunch, rfl⟩⟩ :=
    (h.mem_plan hnames hperm hplan).mp hentry
  · exact absurd hnone (hexpand step hdue)
  · refine ⟨launch, rfl, ?_⟩
    rw [((expand_names hlaunches).1 launch hlaunch).1]
    exact hretry step hdue.mem

/-- A call of `advance` on this workflow, if its steps meet `S`, comes before any of its fan-out
steps has been expanded, or when it has no effect or fails the workflow. -/
def SafeFor (S : List WorkflowStep → Prop) (workflowId : Uuid) (w : World) : World.Act → Prop
  | .advance called _ _ _ => called = workflowId → ∀ wf, w.findWorkflow workflowId = some wf →
      S wf.steps → wf.state = .running → (∀ row ∈ w.tasksOf workflowId, row.state ≠ .dead) →
        Unexpanded w wf
  | _ => True

/-- The workflow's tasks are in order, if its steps meet `S`. -/
def Tracks (S : List WorkflowStep → Prop) (workflowId : Uuid) (w : World) : Prop :=
  ∀ wf, w.findWorkflow workflowId = some wf → S wf.steps → Tracked w wf

variable {S : List WorkflowStep → Prop} (hS : ∀ steps, S steps → WellNamed steps)
  {workflowId : Uuid}

theorem tracks_empty : Tracks S workflowId .empty := by
  intro wf hfind
  exact absurd hfind (by simp [World.empty, World.findWorkflow])

include hS in
theorem Tracks.advance (h : Tracks S workflowId w) {called : Uuid}
    {rows : List TaskRow} {ids : List Uuid} {now : ℚ}
    (hsafe : SafeFor S workflowId w (.advance called rows ids now))
    (hstep : w.advance called rows ids now = some w') : Tracks S workflowId w' := by
  rcases World.advance_cases hstep with ⟨rfl, -⟩ | ⟨wf, hfind, hrunning, hperm, hout⟩
  · exact h
  · obtain rfl := (World.mem_of_findWorkflow hfind).2
    intro wf' hfind' hmeets'
    by_cases hcalled : workflowId = wf.id
    · subst hcalled
      obtain ⟨state, hrow⟩ := hout.row hfind
      have hsteps : wf.steps = wf'.steps := by
        rw [← Option.mem_unique hrow hfind']
      have hmeets : S wf.steps := hsteps ▸ hmeets'
      exact (h wf hfind hmeets).outcome (hS _ hmeets) hfind hrunning hperm
        (hsafe rfl wf hfind hmeets hrunning) hout hfind'
    · obtain ⟨htasks, hsame⟩ := hout.other hcalled
      rw [hsame] at hfind'
      have htracked := h wf' hfind' hmeets'
      rw [← (World.mem_of_findWorkflow hfind').2] at htasks
      exact htracked.of_tasksOf_eq rfl rfl htasks htracked.completed htracked.failed

/-- A workflow just created has no tasks. -/
theorem Tracks.withWorkflow (h : Tracks S workflowId w) (hinv : w.Inv)
    (hnone : w.findWorkflow wf.id = none) (hrunning : wf.state = .running) :
    Tracks S workflowId (w.withWorkflow wf) := by
  intro wf' hfind' hmeets'
  by_cases hid : workflowId = wf.id
  · subst hid
    obtain rfl : wf = wf' := by
      rw [World.findWorkflow, World.withWorkflow, List.find?_append] at hfind'
      rw [World.findWorkflow] at hnone
      simpa [hnone] using hfind'
    have hempty : (w.withWorkflow wf).tasksOf wf.id = [] := hinv.tasksOf_eq_nil hnone
    constructor <;> simp [hempty, hrunning]
  · have hfind : w.findWorkflow workflowId = some wf' := by
      rw [World.findWorkflow, World.withWorkflow, List.find?_append] at hfind'
      simpa [World.findWorkflow, Ne.symm hid] using hfind'
    have htracked := h wf' hfind hmeets'
    exact htracked.of_tasksOf_eq rfl rfl rfl htracked.completed htracked.failed

include hS

/-- **The tasks of a workflow stay in order** over every step that is safe for it. -/
theorem Tracks.step (h : Tracks S workflowId w) (hinv : w.Inv) {a : World.Act}
    (hsafe : SafeFor S workflowId w a) (hstep : w.step a = some w') : Tracks S workflowId w' := by
  rcases World.progress_cases hstep with
    ⟨called, name, steps, order, ids, now, rfl⟩ | ⟨called, rows, ids, now, rfl⟩ | hprogress
  · obtain ⟨hnone, rfl | ⟨hsorted, hadvance⟩⟩ := World.submit_cases hstep
    · exact h
    · -- nothing of a new workflow has been expanded: it has no tasks
      have hcreated : Tracks S workflowId (w.withWorkflow ⟨called, name, steps, .running⟩) :=
        h.withWorkflow hinv hnone rfl
      refine hcreated.advance hS ?_ hadvance
      rintro rfl wf hfind - - - step - - row hrow
      have hempty := hinv.tasksOf_eq_nil hnone
      rw [(World.mem_of_findWorkflow hfind).2] at hrow
      exact absurd (hempty ▸ hrow : row ∈ []) List.not_mem_nil
  · exact h.advance hS hsafe hstep
  · intro wf hfind hmeets
    rw [hprogress.findWorkflow_eq] at hfind
    exact (h wf hfind hmeets).progress hinv hprogress

theorem tracks_reaches
    (h : Transition.ReachesWhen World.step (SafeFor S workflowId) .empty w) :
    Tracks S workflowId w := by
  refine h.invariant_along tracks_empty fun u a v hrun htracks hsafe hstep => ?_
  exact htracks.step hS (World.inv_reaches hrun.reaches) hsafe hstep

end Steps

end Dtq
